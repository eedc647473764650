import Cxx.Core.Loop
import Cxx.Core.LTS
import Mathlib.Data.List.Nodup
import Mathlib.Logic.Function.Basic

/-!
# FIFO queues, and chains of nodes

* `fifo`: a queue, as a transition system that records what has been pushed
  and popped. `fifo_log`: what has been popped is the front of what has been
  pushed.
* `Chain heap front vs t`: the nodes at the addresses `front`, linked one to
  the next and the last to `t`, carry the values `vs`.
* `Linked nodes cells`: a chain whose last node has no successor, and which is
  owned as a whole by whoever owns its first node: `Linked.destroy`.
-/
namespace Cxx

/-! ## FIFO queues -/

structure Fifo (T : Type) where
  queue : List T
  pushed : List T
  popped : List T

namespace Fifo

variable {T : Type}

inductive Op (T : Type) where
  | push (v : T)
  | pop (v : T)

inductive Step : Fifo T → Op T → Fifo T → Prop
  | push (q p o : List T) (v : T) : Step ⟨q, p, o⟩ (.push v) ⟨q ++ [v], p ++ [v], o⟩
  | pop (q p o : List T) (v : T) : Step ⟨v :: q, p, o⟩ (.pop v) ⟨q, p, o ++ [v]⟩

def fifo (T : Type) : LTS (Fifo T) (Op T) where
  init := fun s => s = ⟨[], [], []⟩
  step := Step

theorem fifo_log {s : Fifo T} (h : (fifo T).Reachable s) : s.pushed = s.popped ++ s.queue := by
  have hI : (fifo T).Inductive fun s => s.pushed = s.popped ++ s.queue := by
    constructor
    · intro s hs
      have hs : s = ⟨[], [], []⟩ := hs
      rw [hs]; rfl
    · intro s l s' hi hst
      cases hst with
      | push q p o v =>
        have hi : p = o ++ q := hi
        change p ++ [v] = o ++ (q ++ [v])
        rw [hi, List.append_assoc]
      | pop q p o v =>
        have hi : p = o ++ v :: q := hi
        change p = (o ++ [v]) ++ q
        rw [hi, List.append_assoc]; rfl
  exact hI.reachable s h

end Fifo

/-! ## Chains -/

structure Node (A T : Type) where
  data : Option T
  next : Option A
  deriving DecidableEq, Repr

namespace Node

variable {A T : Type}

/-- A node with neither data nor a successor. -/
def empty : Node A T := ⟨none, none⟩

def Chain (heap : A → Option (Node A T)) : List A → List T → A → Prop
  | [], [], _ => True
  | a :: front, v :: vs, t => heap a = some ⟨some v, some (front.headD t)⟩ ∧ Chain heap front vs t
  | _, _, _ => False

variable {heap heap' : A → Option (Node A T)} {front : List A} {vs : List T} {t n a : A} {v : T}

theorem headD_concat (front : List A) (t n : A) : (front ++ [t]).headD n = front.headD t := by
  cases front <;> rfl

/-- A chain is on its own nodes. -/
theorem Chain.congr (h : Chain heap front vs t) (hh : ∀ a ∈ front, heap' a = heap a) :
    Chain heap' front vs t := by
  induction front generalizing vs with
  | nil => cases vs <;> exact h
  | cons a front ih =>
    cases vs with
    | nil => exact h
    | cons v vs =>
      refine ⟨(hh a List.mem_cons_self).trans h.1, ih h.2 fun b hb => ?_⟩
      exact hh b (List.mem_cons_of_mem _ hb)

theorem Chain.allocated (h : Chain heap front vs t) (ha : a ∈ front) : heap a ≠ none := by
  induction front generalizing vs with
  | nil => cases ha
  | cons b front ih =>
    cases vs with
    | nil => exact h.elim
    | cons v vs =>
      rcases List.mem_cons.mp ha with rfl | ha
      · rw [h.1]; simp
      · exact ih h.2 ha

/-- The end of a chain has got its data and a successor. -/
theorem Chain.concat (h : Chain heap front vs t) (ht : heap t = some ⟨some v, some n⟩) :
    Chain heap (front ++ [t]) (vs ++ [v]) n := by
  induction front generalizing vs with
  | nil =>
    cases vs with
    | nil => exact ⟨ht, trivial⟩
    | cons v vs => exact h.elim
  | cons a front ih =>
    cases vs with
    | nil => exact h.elim
    | cons v vs =>
      have hnext : (front ++ [t]).headD n = front.headD t := headD_concat front t n
      exact ⟨h.1.trans (by rw [← hnext]; rfl), ih h.2⟩

theorem Chain.uncons (h : Chain heap front vs t) (hne : front ≠ []) :
    ∃ a rest v vs', front = a :: rest ∧ vs = v :: vs' ∧
      heap a = some ⟨some v, some (rest.headD t)⟩ ∧ Chain heap rest vs' t := by
  cases front with
  | nil => exact absurd rfl hne
  | cons a front =>
    cases vs with
    | nil => exact h.elim
    | cons v vs => exact ⟨a, front, v, vs, rfl, rfl, h.1, h.2⟩

/-! ## Chains that are owned -/

/-- The nodes that exist, and those deleted so far. -/
structure Heap (A T : Type) where
  nodes : A → Option (Node A T)
  deleted : List A

/-- Nodes with their data, each the owner of the next one. -/
def Linked (nodes : A → Option (Node A T)) : List (A × Option T) → Prop
  | [] => True
  | (a, d) :: rest => nodes a = some ⟨d, rest.head?.map Prod.fst⟩ ∧ Linked nodes rest

/-- A chain up to a node with successors of its own. -/
theorem Chain.linked {d : Option T} {rest : List (A × Option T)} (h : Chain heap front vs t)
    (ht : Linked heap ((t, d) :: rest)) :
    ∃ cells, cells.map Prod.fst = front ∧ Linked heap (cells ++ (t, d) :: rest) := by
  induction front generalizing vs with
  | nil => exact ⟨[], rfl, ht⟩
  | cons a front ih =>
    cases vs with
    | nil => exact h.elim
    | cons v vs =>
      obtain ⟨cells, hcells, hl⟩ := ih h.2
      refine ⟨(a, some v) :: cells, congrArg (List.cons a) hcells, ?_, hl⟩
      rw [h.1, ← hcells]
      cases cells <;> rfl

section
variable {nodes nodes' : A → Option (Node A T)} {cells rest : List (A × Option T)} {d : Option T}
  {b : A}

theorem Linked.congr (h : Linked nodes cells)
    (hn : ∀ a ∈ cells.map Prod.fst, nodes' a = nodes a) : Linked nodes' cells := by
  induction cells with
  | nil => trivial
  | cons c cells ih =>
    obtain ⟨a, d⟩ := c
    refine ⟨(hn a List.mem_cons_self).trans h.1, ih h.2 fun b hb => ?_⟩
    exact hn b (List.mem_cons_of_mem _ hb)

/-- The successor of a node of the chain is a node of the chain, but not its first. -/
theorem Linked.next_mem (h : Linked nodes cells) (ha : a ∈ cells.map Prod.fst)
    (hb : nodes a = some ⟨d, some b⟩) : b ∈ cells.tail.map Prod.fst := by
  induction cells with
  | nil => cases ha
  | cons c cells ih =>
    obtain ⟨a', d'⟩ := c
    rcases List.mem_cons.mp ha with rfl | ha
    · have hnext := (Node.mk.inj (Option.some.inj (h.1.symm.trans hb))).2
      obtain ⟨c', hc', rfl⟩ := Option.map_eq_some_iff.mp hnext
      exact List.mem_map_of_mem (List.mem_of_mem_head? hc')
    · have htail := ih h.2 ha
      rw [List.map_tail] at htail
      exact List.mem_of_mem_tail htail

/-- Each node but the first has an owner in the chain. -/
theorem Linked.owner {c : A × Option T} (h : Linked nodes (c :: cells))
    (ha : a ∈ cells.map Prod.fst) : ∃ b d, nodes b = some ⟨d, some a⟩ := by
  induction cells generalizing c with
  | nil => cases ha
  | cons c' cells ih =>
    rcases List.mem_cons.mp ha with rfl | ha
    · exact ⟨c.1, c.2, h.1⟩
    · exact ih h.2 ha

theorem Linked.owner_unique {d' : Option T} {b' : A} (h : Linked nodes cells)
    (hn : (cells.map Prod.fst).Nodup) (hb : b ∈ cells.map Prod.fst)
    (hb' : b' ∈ cells.map Prod.fst) (ha : nodes b = some ⟨d, some a⟩)
    (ha' : nodes b' = some ⟨d', some a⟩) : b = b' := by
  induction cells with
  | nil => cases hb
  | cons c cells ih =>
    obtain ⟨e, x⟩ := c
    rw [List.map_cons, List.nodup_cons] at hn
    -- what the first node owns is owned by no other node
    have first : ∀ {f : A} {y : Option T}, nodes e = some ⟨x, some a⟩ → f ∈ cells.map Prod.fst →
        nodes f ≠ some ⟨y, some a⟩ := by
      intro f y he hf hy
      have htail := h.2.next_mem hf hy
      have hnext := (Node.mk.inj (Option.some.inj (h.1.symm.trans he))).2
      cases cells with
      | nil => cases hnext
      | cons c cells =>
        cases hnext
        exact (List.nodup_cons.mp hn.2).1 htail
    have hx : ∀ {y : Option T}, nodes e = some ⟨y, some a⟩ → nodes e = some ⟨x, some a⟩ := by
      intro y he
      have := (Node.mk.inj (Option.some.inj (h.1.symm.trans he))).1
      rw [he, this]
    rcases List.mem_cons.mp hb with rfl | hin
    · rcases List.mem_cons.mp hb' with rfl | hin'
      · rfl
      · exact absurd ha' (first (hx ha) hin')
    · rcases List.mem_cons.mp hb' with rfl | hin'
      · exact absurd ha (first (hx ha') hin)
      · exact ih h.2 hn.2 hin hin'

/-- A node of the chain gets other successors. -/
theorem Linked.replace {rest' : List (A × Option T)} (h : Linked nodes (cells ++ (a, d) :: rest))
    (hn : ∀ b ∈ cells.map Prod.fst, nodes' b = nodes b)
    (hl : Linked nodes' ((a, d) :: rest')) : Linked nodes' (cells ++ (a, d) :: rest') := by
  induction cells with
  | nil => exact hl
  | cons c cells ih =>
    obtain ⟨b, e⟩ := c
    refine ⟨?_, ih h.2 fun b hb => hn b (List.mem_cons_of_mem _ hb)⟩
    rw [hn b List.mem_cons_self, h.1]
    cases cells <;> rfl

theorem Linked.allocated (h : Linked nodes cells) (ha : a ∈ cells.map Prod.fst) :
    nodes a ≠ none := by
  induction cells with
  | nil => cases ha
  | cons c cells ih =>
    obtain ⟨a', d'⟩ := c
    rcases List.mem_cons.mp ha with rfl | ha
    · rw [h.1]; exact Option.some_ne_none _
    · exact ih h.2 ha

/-- A chain goes on from any of its nodes. -/
theorem Linked.tail (h : Linked nodes (cells ++ rest)) : Linked nodes rest := by
  induction cells with
  | nil => exact h
  | cons c cells ih => exact ih h.2

section
variable [DecidableEq A] {heap : Heap A T}

def Heap.write (heap : Heap A T) (a : A) (node : Node A T) : Heap A T :=
  { heap with nodes := Function.update heap.nodes a (some node) }

def Heap.erase (heap : Heap A T) (as : List A) : Heap A T :=
  ⟨fun a => if a ∈ as then none else heap.nodes a, heap.deleted ++ as⟩

/-- The end of an owning pointer: its node is deleted and, as that is an owner
too, the next one. `none`: a node is deleted that does not exist. -/
def destroyTurn (s : Heap A T × Option A) : Turn (Heap A T × Option A) (Option (Heap A T)) :=
  match s.2 with
  | none => .leave (some s.1)
  | some a =>
    match s.1.nodes a with
    | none => .leave none
    | some node => .again (s.1.erase [a], node.next)

/-- The owner of a chain takes the whole of it along, each node once. -/
theorem Linked.destroy (h : Linked heap.nodes cells) (hn : (cells.map Prod.fst).Nodup) :
    Loop.Goes destroyTurn (heap, cells.head?.map Prod.fst)
      (heap.erase (cells.map Prod.fst), none) := by
  induction cells generalizing heap with
  | nil =>
    have he : heap.erase [] = heap := by
      unfold Heap.erase
      simp only [List.not_mem_nil, if_false, List.append_nil]
    rw [List.map_nil, he]
    exact .refl _
  | cons c cells ih =>
    obtain ⟨a, d⟩ := c
    rw [List.map_cons, List.nodup_cons] at hn
    have hrest : Linked (heap.erase [a]).nodes cells := by
      apply h.2.congr
      intro b hb
      have hne : b ∉ [a] := by
        intro hmem
        rw [List.mem_singleton.mp hmem] at hb
        exact hn.1 hb
      exact if_neg hne
    have he : heap.erase (a :: cells.map Prod.fst) =
        (heap.erase [a]).erase (cells.map Prod.fst) := by
      unfold Heap.erase
      congr 1
      · funext b
        by_cases hb : b ∈ cells.map Prod.fst
        · rw [if_pos hb, if_pos (List.mem_cons_of_mem _ hb)]
        · rw [if_neg hb]
          simp only [List.mem_cons, hb, or_false, List.not_mem_nil]
      · exact (List.append_assoc heap.deleted [a] _).symm
    rw [List.map_cons, he]
    refine .again ?_ (ih hrest hn.2)
    simp only [destroyTurn, List.head?_cons, Option.map_some, h.1]

end

end

end Node

end Cxx
