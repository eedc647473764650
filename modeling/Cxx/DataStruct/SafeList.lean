import Cxx.Core.Chain

/-!
# `SafeList`

Model of include/data_struct/SafeList.hpp, one call after another, on a heap of
nodes that own their successors. Nodes are at addresses of any type, and an
address may be used again when its node has been deleted. A pointer that is
dereferenced while it has no node, or before it is initialised, is recorded as a
`fault`, and so is the unlocking of a mutex whose node has been deleted. Apart
from that the mutexes are left out: calls do not overlap.

* `Holds`: the heap is the chain of the elements from `head_`.
* `list_removal`: `removeIf` and `removeFirstIf` are right exactly if there is no
  element to be removed.
* `tail_invariant`: `tail_` is right exactly when the first push has been a
  `pushFront` and no removal has found an element.
-/
namespace Cxx

/-- The head node has no data. `tail` is `none` while `tail_` is not initialised. -/
structure SafeList (A T : Type) where
  heap : Node.Heap A T
  head : A
  tail : Option A
  fault : Bool

namespace SafeList

variable {A T : Type}

section
variable [DecidableEq A]

/-- mirrors include/data_struct/SafeList.hpp:19 -/
def new (head : A) : SafeList A T where
  heap := ⟨Function.update (fun _ => none) head (some .empty), []⟩
  head
  tail := none
  fault := false

def fail (l : SafeList A T) : SafeList A T := { l with fault := true }

def write (l : SafeList A T) (a : A) (node : Node A T) : SafeList A T :=
  { l with heap := l.heap.write a node }

/-- The new node is at `new`.
mirrors include/data_struct/SafeList.hpp:26-36 -/
def pushFront (l : SafeList A T) (value : T) (new : A) : SafeList A T :=
  let l := l.write new ⟨some value, none⟩
  match l.heap.nodes l.head with
  | none => l.fail
  | some node =>
    let l := (l.write new ⟨some value, node.next⟩).write l.head { node with next := some new }
    -- `head_->next_->next_` is what `head_->next_` was
    if node.next = none then { l with tail := some new } else l

/-- The node at `tail_` gets the new one as its successor; what it owned before
is deleted.
mirrors include/data_struct/SafeList.hpp:38-44 -/
inductive Appends (l : SafeList A T) (new : A) : SafeList A T → Prop
  | fault (h : l.tail.bind l.heap.nodes = none) : Appends l new l.fail
  | link {tail : A} {node : Node A T} {heap : Node.Heap A T} (ht : l.tail = some tail)
      (hn : l.heap.nodes tail = some node)
      (hd : Loop.Returns Node.destroyTurn
        (l.heap.write tail { node with next := some new }, node.next) (some heap)) :
      Appends l new { l with heap, tail := some new }

def PushBack (l : SafeList A T) (value : T) (new : A) (l' : SafeList A T) : Prop :=
  (l.write new ⟨some value, none⟩).Appends new l'

/-- Where a removal is: at the test of the loop, at the deletion of what
`current->next_` owned, at the test that may set `tail_`, or at `next_lock.unlock()`,
whose mutex is in the node `next`. -/
inductive Place (A : Type) where
  | test (current : A)
  | destroy (current next : A) (old : Option A)
  | relink (current next : A)
  | unlock (current next : A)
  deriving DecidableEq, Repr

/-- The loop of `removeIf` and, with `first`, of `removeFirstIf`, which unlocks after
it has set `tail_`.
mirrors include/data_struct/SafeList.hpp:74-117 -/
def removeTurn (p : T → Bool) (first : Bool) :
    SafeList A T × Place A → Turn (SafeList A T × Place A) (Bool × SafeList A T)
  | (l, .test current) =>
    match l.heap.nodes current with
    | none => .leave (false, l.fail)
    | some node =>
      match node.next with
      | none => .leave (false, l)
      | some next =>
        match l.heap.nodes next with
        | none | some ⟨none, _⟩ => .leave (false, l.fail)
        | some ⟨some value, after⟩ =>
          -- `reset` stores the successor and then deletes the node, which still owns it
          if p value then
            .again (l.write current { node with next := after }, .destroy current next (some next))
          else .again (l, .test next)
  | (l, .destroy current next old) =>
    match Node.destroyTurn (l.heap, old) with
    | .again (heap, old) => .again ({ l with heap }, .destroy current next old)
    | .leave (some heap) =>
      .again ({ l with heap }, if first then .relink current next else .unlock current next)
    | .leave none => .leave (false, l.fail)
  | (l, .relink current next) =>
    match l.heap.nodes current with
    | none => .leave (false, l.fail)
    | some node =>
      let l := if node.next = none then { l with tail := some current } else l
      .again (l, if first then .unlock current next else .test current)
  | (l, .unlock current next) =>
    match l.heap.nodes next with
    | none => .leave (false, l.fail)
    | some _ => if first then .leave (true, l) else .again (l, .relink current next)

def RemoveIf (l : SafeList A T) (p : T → Bool) (l' : SafeList A T) : Prop :=
  ∃ found, Loop.Returns (removeTurn p false) (l, .test l.head) (found, l')

def RemoveFirstIf (l : SafeList A T) (p : T → Bool) (found : Bool) (l' : SafeList A T) : Prop :=
  Loop.Returns (removeTurn p true) (l, .test l.head) (found, l')

end

/-- The loop of `forEach`, which collects the values that `f` is called with;
`none` if a pointer has no node.
mirrors include/data_struct/SafeList.hpp:62-72 -/
def forEachTurn (l : SafeList A T) (s : A × List T) : Turn (A × List T) (Option (List T)) :=
  match l.heap.nodes s.1 with
  | none => .leave none
  | some node =>
    match node.next with
    | none => .leave (some s.2)
    | some next =>
      match l.heap.nodes next with
      | none | some ⟨none, _⟩ => .leave none
      | some ⟨some value, _⟩ => .again (next, s.2 ++ [value])

/-! ## The list of a state -/

/-- The chain with its head node. -/
def chain (head : A) (cells : List (A × T)) : List (A × Option T) :=
  (head, none) :: cells.map fun c => (c.1, some c.2)

/-- The last node, or the head. -/
def last (head : A) (cells : List (A × T)) : A := (cells.map Prod.fst).getLastD head

/-- The nodes of the heap are the head and those of the elements, each owned by
the one before it. -/
structure Holds (l : SafeList A T) (cells : List (A × T)) : Prop where
  linked : Node.Linked l.heap.nodes (chain l.head cells)
  nodup : (l.head :: cells.map Prod.fst).Nodup
  alive : ∀ a, l.heap.nodes a ≠ none → a ∈ l.head :: cells.map Prod.fst
  sound : l.fault = false

theorem chain_map (head : A) (cells : List (A × T)) :
    (chain head cells).map Prod.fst = head :: cells.map Prod.fst := by
  unfold chain
  rw [List.map_cons, List.map_map]
  rfl

theorem last_cons (head a : A) (v : T) (cells : List (A × T)) :
    last head ((a, v) :: cells) = last a cells := List.getLastD_cons

theorem last_concat (head a : A) (v : T) (cells : List (A × T)) :
    last head (cells ++ [(a, v)]) = a := by
  unfold last
  rw [List.map_append, List.map_singleton, List.getLastD_concat]

theorem last_mem (head : A) (cells : List (A × T)) :
    last head cells ∈ head :: cells.map Prod.fst := List.getLastD_mem_cons

/-- The chain up to the last element of a front part of the list. -/
theorem chain_append (head : A) (pre post : List (A × T)) : ∃ front d,
    chain head (pre ++ post) = front ++ (last head pre, d) :: post.map (fun c => (c.1, some c.2)) ∧
      chain head pre = front ++ [(last head pre, d)] := by
  have general : ∀ (pre : List (A × T)) (b : A) (e : Option T), ∃ front d,
      (b, e) :: (pre ++ post).map (fun c => (c.1, some c.2)) =
        front ++ (last b pre, d) :: post.map (fun c => (c.1, some c.2)) ∧
      (b, e) :: pre.map (fun c => (c.1, some c.2)) = front ++ [(last b pre, d)] := by
    intro pre
    induction pre with
    | nil => exact fun b e => ⟨[], e, rfl, rfl⟩
    | cons c pre ih =>
      intro b e
      obtain ⟨front, d, h, h'⟩ := ih c.1 (some c.2)
      refine ⟨(b, e) :: front, d, ?_, ?_⟩
      · rw [last_cons, List.cons_append, List.map_cons, h]; rfl
      · rw [last_cons, List.map_cons, h']; rfl
  exact general pre head none

section
variable {l l' : SafeList A T} {cells pre post : List (A × T)} {a b : A} {d : Option T}

theorem Holds.allocated (h : l.Holds cells) (ha : a ∈ l.head :: cells.map Prod.fst) :
    l.heap.nodes a ≠ none := by
  apply h.linked.allocated
  rw [chain_map]
  exact ha

/-- A node is owned by exactly one other, and no node owns one that does not exist. -/
theorem Holds.owner (h : l.Holds cells) (ha : a ∈ cells.map Prod.fst) :
    ∃! b, ∃ d, l.heap.nodes b = some ⟨d, some a⟩ := by
  have hcells : a ∈ (cells.map fun c => (c.1, some c.2)).map Prod.fst := by
    rw [List.map_map]
    exact ha
  obtain ⟨b, d, hb⟩ := h.linked.owner hcells
  refine ⟨b, ⟨d, hb⟩, fun b' hb' => ?_⟩
  obtain ⟨d', hb'⟩ := hb'
  have mem : ∀ {c : A} {e : Option T}, l.heap.nodes c = some ⟨e, some a⟩ →
      c ∈ (chain l.head cells).map Prod.fst := by
    intro c e hc
    rw [chain_map]
    exact h.alive c (by rw [hc]; exact Option.some_ne_none _)
  exact h.linked.owner_unique (by rw [chain_map]; exact h.nodup) (mem hb') (mem hb) hb' hb

theorem Holds.not_mem (h : l.Holds cells) (hb : l.heap.nodes b = none) :
    b ∉ l.head :: cells.map Prod.fst := fun hmem => h.allocated hmem hb

/-- The list around a place in it. -/
theorem Holds.split (h : l.Holds (pre ++ post)) : ∃ front d,
    chain l.head pre = front ++ [(last l.head pre, d)] ∧
      Node.Linked l.heap.nodes
        (front ++ (last l.head pre, d) :: post.map fun c => (c.1, some c.2)) ∧
      (front.map Prod.fst ++ last l.head pre :: post.map Prod.fst).Nodup := by
  obtain ⟨front, d, he, hpre⟩ := chain_append l.head pre post
  have hl := h.linked
  have hn := h.nodup
  rw [← chain_map] at hn
  rw [he] at hl hn
  rw [List.map_append, List.map_cons, List.map_map] at hn
  exact ⟨front, d, hpre, hl, hn⟩

end

/-! ## Removal -/

section
variable [DecidableEq A] {l l' : SafeList A T} {cells pre post : List (A × T)} {cur a b : A} {v : T}
  {d : Option T} {q : Option A} {p : T → Bool} {first : Bool}

theorem test_end (h : l.heap.nodes cur = some ⟨d, none⟩) :
    removeTurn p first (l, .test cur) = .leave (false, l) := by
  simp only [removeTurn, h]

theorem test_next (h : l.heap.nodes cur = some ⟨d, some a⟩)
    (ha : l.heap.nodes a = some ⟨some v, q⟩) : removeTurn p first (l, .test cur) =
      if p v then .again (l.write cur ⟨d, q⟩, .destroy cur a (some a))
      else .again (l, .test a) := by
  simp only [removeTurn, h, ha]

/-- The loop goes past the elements that are kept. -/
theorem walk (h : Node.Linked l.heap.nodes
      ((b, d) :: (pre ++ post).map fun c => (c.1, some c.2)))
    (hp : ∀ c ∈ pre, p c.2 = false) :
    Loop.Goes (removeTurn p first) (l, .test b) (l, .test (last b pre)) := by
  induction pre generalizing b d with
  | nil => exact .refl _
  | cons c pre ih =>
    obtain ⟨a, v⟩ := c
    have hv : p v = false := hp (a, v) List.mem_cons_self
    have hnext := ih h.2 fun c hc => hp c (List.mem_cons_of_mem _ hc)
    rw [last_cons]
    refine .again ?_ hnext
    rw [test_next h.1 h.2.1, hv]
    rfl

/-- The list after `current->next_.reset(..)`: the node after `cur` is unlinked,
and the nodes `as` are deleted. -/
def cut (l : SafeList A T) (cur : A) (d : Option T) (q : Option A) (as : List A) : SafeList A T :=
  { l with heap := (l.heap.write cur ⟨d, q⟩).erase as }

/-- The list while the nodes that `cur` owned are deleted. -/
def deleting (l : SafeList A T) (cur next : A) (s : Node.Heap A T × Option A) :
    SafeList A T × Place A :=
  ({ l with heap := s.1 }, .destroy cur next s.2)

/-- The node that is removed takes along all that come after it. -/
theorem remove_turns (h : Node.Linked l.heap.nodes
      ((cur, d) :: (a, some v) :: post.map fun c => (c.1, some c.2)))
    (hn : (cur :: a :: post.map Prod.fst).Nodup) (hp : p v = true) :
    Loop.Goes (removeTurn p first) (l, .test cur)
      (l.cut cur d (post.head?.map Prod.fst) (a :: post.map Prod.fst),
        if first then .relink cur a else .unlock cur a) := by
  have hq : (post.map fun c => (c.1, some c.2)).head?.map Prod.fst = post.head?.map Prod.fst := by
    cases post <;> rfl
  have hfirst := h.2.1
  rw [hq] at hfirst
  have hlinked : Node.Linked (l.heap.write cur ⟨d, post.head?.map Prod.fst⟩).nodes
      ((a, some v) :: post.map fun c => (c.1, some c.2)) := by
    apply h.2.congr
    intro b hb
    apply Function.update_of_ne
    intro he
    subst he
    rw [List.map_cons, List.map_map] at hb
    exact (List.nodup_cons.mp hn).1 hb
  have haddr : ((a, some v) :: post.map fun c => (c.1, some c.2)).map Prod.fst =
      a :: post.map Prod.fst := by
    rw [List.map_cons, List.map_map]; rfl
  have hdestroy := hlinked.destroy (by rw [haddr]; exact (List.nodup_cons.mp hn).2)
  rw [haddr] at hdestroy
  have hgo : Loop.Goes (removeTurn p first)
      (l.write cur ⟨d, post.head?.map Prod.fst⟩, .destroy cur a (some a))
      (l.cut cur d (post.head?.map Prod.fst) (a :: post.map Prod.fst), .destroy cur a none) := by
    have turns : ∀ s s' : Node.Heap A T × Option A, Node.destroyTurn s = .again s' →
        removeTurn p first (l.deleting cur a s) = .again (l.deleting cur a s') := by
      intro s s' hs
      simp only [removeTurn, deleting, hs]
    exact hdestroy.map turns
  refine .again ?_ (hgo.trans (.one rfl))
  rw [test_next h.1 hfirst, if_pos hp]

theorem relink_turn (h : l.heap.nodes cur = some ⟨d, q⟩) :
    removeTurn p true (l, .relink cur a) =
      .again (if q = none then { l with tail := some cur } else l, .unlock cur a) := by
  simp only [removeTurn, h]
  rfl

theorem remove_none (h : l.Holds cells) (hp : ∀ c ∈ cells, p c.2 = false) :
    Loop.Returns (removeTurn p first) (l, .test l.head) (false, l) := by
  rw [← List.append_nil cells] at h
  obtain ⟨front, d, -, hl, -⟩ := h.split
  exact (walk h.linked hp).returns (test_end hl.tail.1)

theorem cut_self {as : List A} (h : cur ∉ as) :
    (l.cut cur d q as).heap.nodes cur = some ⟨d, q⟩ :=
  (if_neg h).trans (Function.update_self _ _ _)

theorem cut_of_mem {as : List A} (h : b ∈ as) : (l.cut cur d q as).heap.nodes b = none := if_pos h

/-- The first element to be removed is unlinked and deleted, with all after it; then
its mutex is unlocked. -/
theorem remove_found (first : Bool) (h : l.Holds (pre ++ (a, v) :: post))
    (hp : ∀ c ∈ pre, p c.2 = false) (hv : p v = true) :
    ∃ l', Loop.Returns (removeTurn p first) (l, .test l.head) (false, l') ∧ l'.fault = true := by
  obtain ⟨front, d, -, hl, hn⟩ := h.split
  have hnodup := (List.nodup_append.mp hn).2.1
  have hwalk : Loop.Goes (removeTurn p first) (l, .test l.head) (l, .test (last l.head pre)) :=
    walk h.linked hp
  have hgo := hwalk.trans (remove_turns hl.tail hnodup hv)
  have hcur := cut_self (l := l) (d := d) (q := post.head?.map Prod.fst)
    (List.nodup_cons.mp hnodup).1
  have hgone : (l.cut (last l.head pre) d (post.head?.map Prod.fst)
      (a :: post.map Prod.fst)).heap.nodes a = none := cut_of_mem List.mem_cons_self
  have unlock : ∀ {m : SafeList A T}, m.heap.nodes a = none →
      removeTurn p first (m, .unlock (last l.head pre) a) = .leave (false, m.fail) := by
    intro m hm
    simp only [removeTurn, hm]
  cases first with
  | false => exact ⟨_, hgo.returns (unlock hgone), rfl⟩
  | true =>
    obtain ⟨m, hm, hrelink⟩ : ∃ m : SafeList A T, m.heap.nodes a = none ∧
        removeTurn p true (l.cut (last l.head pre) d (post.head?.map Prod.fst)
          (a :: post.map Prod.fst), .relink (last l.head pre) a) =
          .again (m, .unlock (last l.head pre) a) := by
      refine ⟨_, ?_, relink_turn hcur⟩
      split
      · exact hgone
      · exact hgone
    exact ⟨_, (hgo.trans (.one hrelink)).returns (unlock hm), rfl⟩

end

/-! ### What a removal leaves -/

/-- What is to be left of a list that held `cells`: the elements `values`. What
is not left has been deleted once. -/
def Leaves (l : SafeList A T) (cells : List (A × T)) (l' : SafeList A T) (values : List T) : Prop :=
  ∃ kept gone, l'.Holds kept ∧ l'.head = l.head ∧ kept.map Prod.snd = values ∧ kept.Sublist cells ∧
    (∀ a ∈ kept.map Prod.fst, ∃! b, ∃ d, l'.heap.nodes b = some ⟨d, some a⟩) ∧
    l'.heap.deleted = l.heap.deleted ++ gone ∧
    (kept.map Prod.fst ++ gone).Perm (cells.map Prod.fst) ∧
    l'.tail = some (last l'.head kept)

/-- The values that a removal is to leave. -/
def remaining (p : T → Bool) (first : Bool) (values : List T) : List T :=
  if first then values.eraseP p else values.filter fun v => !p v

section
variable {l l' : SafeList A T} {cells pre post : List (A × T)} {values : List T} {a b : A} {v w : T}
  {d : Option T} {p : T → Bool} {first : Bool}

theorem remaining_none (h : ∀ v ∈ values, p v = false) : remaining p first values = values := by
  cases first with
  | true => exact List.eraseP_of_forall_not fun v hv => by rw [h v hv]; exact Bool.false_ne_true
  | false => exact List.filter_eq_self.mpr fun v hv => by rw [h v hv]; rfl

theorem leaves_all (h : l.Holds cells) (ht : l.tail = some (last l.head cells)) :
    l.Leaves cells l (cells.map Prod.snd) := by
  refine ⟨cells, [], h, rfl, rfl, .refl _, fun a ha => h.owner ha, (List.append_nil _).symm, ?_, ht⟩
  rw [List.append_nil]

theorem not_leaves_of_fault (h : l'.fault = true) : ¬ l.Leaves cells l' values := by
  intro hl
  obtain ⟨kept, gone, hk, -⟩ := hl
  rw [hk.sound] at h
  cases h

/-- A removal finds nothing, or an element. -/
theorem found_or (cells : List (A × T)) (p : T → Bool) : (∀ c ∈ cells, p c.2 = false) ∨
    ∃ pre a v post, cells = pre ++ (a, v) :: post ∧ (∀ c ∈ pre, p c.2 = false) ∧ p v = true := by
  by_cases hnone : ∀ c ∈ cells, p c.2 = false
  · exact .inl hnone
  · push Not at hnone
    obtain ⟨c, hc, hpc⟩ := hnone
    have hpc : p c.2 = true := by rwa [ne_eq, Bool.not_eq_false] at hpc
    obtain ⟨⟨a, v⟩, pre, post, hpre, hv, hcells, -⟩ :=
      List.exists_of_eraseP (p := fun c : A × T => p c.2) hc hpc
    refine .inr ⟨pre, a, v, post, hcells, fun c hc => ?_, hv⟩
    rw [← Bool.not_eq_true]
    exact hpre c hc

variable [DecidableEq A]

/-- Both removals: of the first element that satisfies `p`, and of all. -/
theorem removal (h : l.Holds cells) (ht : l.tail = some (last l.head cells)) (p : T → Bool)
    (first : Bool) : (∃ found l', Loop.Returns (removeTurn p first) (l, .test l.head) (found, l') ∧
        (first = true → found = (cells.map Prod.snd).any p) ∧
        l.Leaves cells l' (remaining p first (cells.map Prod.snd))) ↔
      ∀ c ∈ cells, p c.2 = false := by
  rcases found_or cells p with hnone | ⟨pre, a, v, post, rfl, hpre, hv⟩
  · have hvalues : ∀ v ∈ cells.map Prod.snd, p v = false := by
      intro v hv
      obtain ⟨c, hc, rfl⟩ := List.mem_map.mp hv
      exact hnone c hc
    have hany : (cells.map Prod.snd).any p = false := by
      rw [List.any_eq_false]
      intro v hv
      rw [hvalues v hv]
      exact Bool.false_ne_true
    refine iff_of_true ⟨false, l, remove_none h hnone, fun _ => hany.symm, ?_⟩ hnone
    rw [remaining_none hvalues]
    exact leaves_all h ht
  · obtain ⟨l', hret, hfault⟩ := remove_found first h hpre hv
    refine iff_of_false ?_ ?_
    · intro hl
      obtain ⟨found, l'', hret', -, hleaves⟩ := hl
      obtain rfl : l' = l'' := (Prod.mk.inj (hret.unique hret')).2
      exact not_leaves_of_fault hfault hleaves
    · intro hall
      rw [hall (a, v) (List.mem_append_right pre List.mem_cons_self)] at hv
      cases hv

/-- **Removal keeps the rest of the list exactly if there is nothing to remove.** The
node of an element that is removed takes the nodes after it along, and its mutex,
which is unlocked when the node has been deleted. -/
theorem list_removal (l : SafeList A T) (cells : List (A × T)) (h : l.Holds cells)
    (ht : l.tail = some (last l.head cells)) (p : T → Bool) :
    ((∃ l', l.RemoveIf p l' ∧ l.Leaves cells l' ((cells.map Prod.snd).filter fun v => !p v)) ↔
      ∀ c ∈ cells, p c.2 = false) ∧
    ((∃ l', l.RemoveFirstIf p ((cells.map Prod.snd).any p) l' ∧
        l.Leaves cells l' ((cells.map Prod.snd).eraseP p)) ↔
      ∀ c ∈ cells, p c.2 = false) := by
  constructor
  · rw [← removal h ht p false]
    constructor
    · intro hl
      obtain ⟨l', hret, hleaves⟩ := hl
      obtain ⟨found, hret⟩ := hret
      exact ⟨found, l', hret, nofun, hleaves⟩
    · intro hl
      obtain ⟨found, l', hret, -, hleaves⟩ := hl
      exact ⟨l', ⟨found, hret⟩, hleaves⟩
  · rw [← removal h ht p true]
    constructor
    · intro hl
      obtain ⟨l', hret, hleaves⟩ := hl
      exact ⟨_, l', hret, fun _ => rfl, hleaves⟩
    · intro hl
      obtain ⟨found, l', hret, hfound, hleaves⟩ := hl
      rw [hfound rfl] at hret
      exact ⟨l', hret, hleaves⟩

end

/-! ## Calls one after another -/

inductive Call (A T : Type) where
  /-- The new node is at `new`. -/
  | pushFront (value : T) (new : A)
  | pushBack (value : T) (new : A)
  | removeIf (p : T → Bool)
  | removeFirstIf (p : T → Bool)

/-- What a call is to make of the elements. -/
def Call.apply (values : List T) : Call A T → List T
  | .pushFront v _ => v :: values
  | .pushBack v _ => values ++ [v]
  | .removeIf p => values.filter fun v => !p v
  | .removeFirstIf p => values.eraseP p

/-- No element is found to be removed. -/
def Call.Spares (values : List T) : Call A T → Prop
  | .removeIf p | .removeFirstIf p => ∀ v ∈ values, p v = false
  | _ => True

/-- The address of the new node of a push. -/
def Call.new : Call A T → Option A
  | .pushFront _ new | .pushBack _ new => some new
  | _ => none

def contents (values : List T) (cs : List (Call A T)) : List T := cs.foldl Call.apply values

def Spares : List T → List (Call A T) → Prop
  | _, [] => True
  | values, c :: cs => c.Spares values ∧ Spares (c.apply values) cs

/-- The first push is a `pushFront`. -/
def startsAtFront : List (Call A T) → Bool
  | [] => false
  | .pushFront _ _ :: _ => true
  | .pushBack _ _ :: _ => false
  | _ :: cs => startsAtFront cs

section
variable [DecidableEq A]

def Call.Run (l : SafeList A T) : Call A T → SafeList A T → Prop
  | .pushFront v new, l' => l' = l.pushFront v new
  | .pushBack v new, l' => l.PushBack v new l'
  | .removeIf p, l' => l.RemoveIf p l'
  | .removeFirstIf p, l' => ∃ found, l.RemoveFirstIf p found l'

/-- `new Node(value)` is at an address that is not in use. After a fault there
are no more calls. -/
def safeList (A T : Type) [DecidableEq A] : LTS (SafeList A T) (Call A T) where
  init := fun l => ∃ head, l = .new head
  step := fun l c l' => l.fault = false ∧ (∀ a, c.new = some a → l.heap.nodes a = none) ∧ c.Run l l'

/-- The list holds `values`, with `tail_` at its last node. -/
def Good (l : SafeList A T) (values : List T) : Prop :=
  ∃ cells, l.Holds cells ∧ l.tail = some (last l.head cells) ∧ cells.map Prod.snd = values

variable {l l' : SafeList A T} {cells : List (A × T)} {values : List T} {a new : A} {v : T}
  {c : Call A T} {cs : List (Call A T)}

theorem holds_new (head : A) : (SafeList.new head : SafeList A T).Holds [] := by
  have hnodes : (SafeList.new head : SafeList A T).heap.nodes =
      Function.update (fun _ => none) head (some .empty) := rfl
  refine ⟨⟨?_, trivial⟩, List.nodup_singleton head, ?_, rfl⟩
  · rw [hnodes]
    exact Function.update_self _ _ _
  · intro a ha
    by_cases hne : a = head
    · rw [hne]; exact List.mem_cons_self
    · rw [hnodes, Function.update_of_ne hne] at ha
      exact absurd rfl ha

/-- The nodes after a push that changes one node of the list. -/
theorem write_new (l : SafeList A T) (n n' : Node A T) (hne : new ≠ a) :
    ((l.write new n).write a n').heap.nodes new = some n ∧
      ((l.write new n).write a n').heap.nodes a = some n' ∧
      ∀ b, b ≠ new → b ≠ a → ((l.write new n).write a n').heap.nodes b = l.heap.nodes b := by
  refine ⟨?_, Function.update_self _ _ _, fun b hb hba => ?_⟩
  · exact (Function.update_of_ne hne _ _).trans (Function.update_self _ _ _)
  · exact (Function.update_of_ne hba _ _).trans (Function.update_of_ne hb _ _)

/-- A node has been added, and one been changed. -/
theorem Holds.add {cells' : List (A × T)} (h : l.Holds cells) (hnew : l.heap.nodes new = none)
    (ha : a ∈ l.head :: cells.map Prod.fst) (hhead : l'.head = l.head)
    (hothers : ∀ b, b ≠ new → b ≠ a → l'.heap.nodes b = l.heap.nodes b)
    (hlinked : Node.Linked l'.heap.nodes (chain l'.head cells'))
    (hperm : (cells'.map Prod.fst).Perm (new :: cells.map Prod.fst)) (hf : l'.fault = false) :
    l'.Holds cells' := by
  have hall : (l'.head :: cells'.map Prod.fst).Perm (new :: l.head :: cells.map Prod.fst) := by
    rw [hhead]
    exact (hperm.cons l.head).trans (List.Perm.swap _ _ _)
  refine ⟨hlinked, ?_, ?_, hf⟩
  · rw [hall.nodup_iff, List.nodup_cons]
    exact ⟨h.not_mem hnew, h.nodup⟩
  · intro b hb
    rw [hall.mem_iff, List.mem_cons]
    by_cases hbn : b = new
    · exact .inl hbn
    · by_cases hba : b = a
      · exact .inr (hba ▸ ha)
      · exact .inr (h.alive b (by rwa [← hothers b hbn hba]))

theorem Holds.pushFront (h : l.Holds cells) (hnew : l.heap.nodes new = none) :
    (l.pushFront v new).Holds ((new, v) :: cells) ∧ (l.pushFront v new).head = l.head ∧
      (l.pushFront v new).tail = if cells = [] then some new else l.tail := by
  have hmem := h.not_mem hnew
  have hne : new ≠ l.head := fun he => hmem (he ▸ List.mem_cons_self)
  have hhead : (l.write new ⟨some v, none⟩).heap.nodes (l.write new ⟨some v, none⟩).head =
      some ⟨none, (cells.map fun c => (c.1, some c.2)).head?.map Prod.fst⟩ :=
    (Function.update_of_ne hne.symm _ _).trans h.linked.1
  obtain ⟨hnodes, hlast, hothers⟩ := write_new (l.write new ⟨some v, none⟩)
    ⟨some v, (cells.map fun c => (c.1, some c.2)).head?.map Prod.fst⟩ ⟨none, some new⟩ hne
  have hrest : Node.Linked (((l.write new ⟨some v, none⟩).write new
      ⟨some v, (cells.map fun c => (c.1, some c.2)).head?.map Prod.fst⟩).write l.head
      ⟨none, some new⟩).heap.nodes (chain l.head ((new, v) :: cells)) := by
    refine ⟨hlast, hnodes, h.linked.2.congr fun b hb => ?_⟩
    rw [List.map_map] at hb
    have hbn : b ≠ new := fun he => hmem (he ▸ List.mem_cons_of_mem _ hb)
    have hbh : b ≠ l.head := fun he => (List.nodup_cons.mp h.nodup).1 (he ▸ hb)
    exact (hothers b hbn hbh).trans (Function.update_of_ne hbn _ _)
  have hadd : ∀ tail, ({ ((l.write new ⟨some v, none⟩).write new
      ⟨some v, (cells.map fun c => (c.1, some c.2)).head?.map Prod.fst⟩).write l.head
      ⟨none, some new⟩ with tail } : SafeList A T).Holds ((new, v) :: cells) := by
    intro tail
    refine h.add hnew List.mem_cons_self rfl ?_ hrest (.refl _) h.sound
    intro b hbn hbh
    exact (hothers b hbn hbh).trans (Function.update_of_ne hbn _ _)
  unfold SafeList.pushFront
  simp only [hhead]
  cases cells with
  | nil => exact ⟨hadd (some new), rfl, rfl⟩
  | cons c cells => exact ⟨hadd l.tail, rfl, rfl⟩

theorem Holds.pushBack (h : l.Holds cells) (ht : l.tail = some (last l.head cells))
    (hnew : l.heap.nodes new = none) : ∃ l', l'.Holds (cells ++ [(new, v)]) ∧
      l'.head = l.head ∧ l'.tail = some new ∧ ∀ l'', l.PushBack v new l'' ↔ l'' = l' := by
  rw [← List.append_nil cells] at h
  obtain ⟨front, d, hchain, hl, hn⟩ := h.split
  rw [List.append_nil] at h
  have hmem := h.not_mem hnew
  have hne : new ≠ last l.head cells := fun he => hmem (he ▸ last_mem l.head cells)
  have htail : (l.write new ⟨some v, none⟩).heap.nodes (last l.head cells) = some ⟨d, none⟩ :=
    (Function.update_of_ne hne.symm _ _).trans hl.tail.1
  obtain ⟨hnodes, hlast, hothers⟩ := write_new l ⟨some v, none⟩ ⟨d, some new⟩ hne
  refine ⟨{ (l.write new ⟨some v, none⟩).write (last l.head cells) ⟨d, some new⟩ with
    tail := some new }, ?_, rfl, rfl, fun l'' => ⟨?_, ?_⟩⟩
  · refine h.add hnew (last_mem l.head cells) rfl hothers ?_ ?_ h.sound
    · obtain ⟨front', d', happend, hchain'⟩ := chain_append l.head cells [(new, v)]
      obtain ⟨rfl, hd⟩ := List.append_inj' (hchain.symm.trans hchain') rfl
      cases hd
      change Node.Linked _ (chain l.head (cells ++ [(new, v)]))
      rw [happend]
      refine hl.replace ?_ ⟨hlast, hnodes, trivial⟩
      intro b hb
      have hbl : b ≠ last l.head cells :=
        fun he => (List.nodup_append.mp hn).2.2 b hb _ List.mem_cons_self he
      have hbn : b ≠ new := by
        intro he
        apply hmem
        rw [← chain_map, hchain, List.map_append]
        exact List.mem_append_left _ (he ▸ hb)
      exact hothers b hbn hbl
    · rw [List.map_append]
      exact List.perm_append_singleton _ _
  · intro hp
    cases hp with
    | fault hf =>
      have hf : l.tail.bind (l.write new ⟨some v, none⟩).heap.nodes = none := hf
      rw [ht, Option.bind_some, htail] at hf
      cases hf
    | @link tail node heap ht' hn' hd =>
      have ht' : l.tail = some tail := ht'
      cases ht.symm.trans ht'
      cases htail.symm.trans hn'
      cases hd.unique (.leave rfl)
      rfl
  · intro hl''
    subst hl''
    exact .link ht htail (.leave rfl)

/-- A removal leaves the list as it is, or goes wrong. -/
theorem Good.remove (h : l.Good values) (p : T → Bool) (first : Bool) :
    ((∀ v ∈ values, p v = false) ∧
        Loop.Returns (removeTurn p first) (l, .test l.head) (false, l)) ∨
      (¬ ∀ v ∈ values, p v = false) ∧ ∃ l',
        Loop.Returns (removeTurn p first) (l, .test l.head) (false, l') ∧ l'.fault = true := by
  obtain ⟨cells, hl, -, rfl⟩ := h
  rcases found_or cells p with hnone | ⟨pre, a, v, post, rfl, hpre, hv⟩
  · refine .inl ⟨fun v hv => ?_, remove_none hl hnone⟩
    obtain ⟨c, hc, rfl⟩ := List.mem_map.mp hv
    exact hnone c hc
  · refine .inr ⟨fun hall => ?_, remove_found first hl hpre hv⟩
    rw [hall v (List.mem_map_of_mem (List.mem_append_right pre List.mem_cons_self))] at hv
    cases hv

/-- One call of a good list. -/
theorem Good.step (h : l.Good values) (hnew : ∀ a, c.new = some a → l.heap.nodes a = none) :
    (c.Spares values ∧ (∃ l', c.Run l l') ∧ ∀ l', c.Run l l' → l'.Good (c.apply values)) ∨
      ¬ c.Spares values ∧ ∀ l', c.Run l l' → l'.fault = true := by
  have keeps : ∀ {p : T → Bool}, (∀ v ∈ values, p v = false) →
      values.filter (fun v => !p v) = values ∧ values.eraseP p = values :=
    fun {p} hp => ⟨(remaining_none hp : remaining p false values = values),
      (remaining_none hp : remaining p true values = values)⟩
  cases c with
  | pushFront v new =>
    obtain ⟨cells, hl, ht, rfl⟩ := h
    obtain ⟨hh, hhead, htail⟩ := hl.pushFront (v := v) (hnew new rfl)
    refine .inl ⟨trivial, ⟨_, rfl⟩, fun l' hl' => ?_⟩
    have hl' : l' = l.pushFront v new := hl'
    subst hl'
    refine ⟨_, hh, ?_, rfl⟩
    rw [htail, ht]
    cases cells with
    | nil => rfl
    | cons c cells => rw [if_neg (List.cons_ne_nil c cells), last_cons, last_cons, last_cons]
  | pushBack v new =>
    obtain ⟨cells, hl, ht, rfl⟩ := h
    obtain ⟨l', hh, hhead, htail, hrun⟩ := hl.pushBack (v := v) ht (hnew new rfl)
    refine .inl ⟨trivial, ⟨l', (hrun l').mpr rfl⟩, fun l'' hl'' => ?_⟩
    obtain rfl := (hrun l'').mp hl''
    refine ⟨_, hh, ?_, ?_⟩
    · rw [last_concat, htail]
    · rw [List.map_append]; rfl
  | removeIf p =>
    rcases h.remove p false with ⟨hp, hret⟩ | ⟨hp, l', hret, hfault⟩
    · refine .inl ⟨hp, ⟨l, false, hret⟩, fun l' hl' => ?_⟩
      obtain ⟨found, hret'⟩ := hl'
      obtain rfl : l = l' := (Prod.mk.inj (hret.unique hret')).2
      rw [Call.apply, (keeps hp).1]
      exact h
    · refine .inr ⟨hp, fun l'' hl'' => ?_⟩
      obtain ⟨found, hret'⟩ := hl''
      obtain rfl : l' = l'' := (Prod.mk.inj (hret.unique hret')).2
      exact hfault
  | removeFirstIf p =>
    rcases h.remove p true with ⟨hp, hret⟩ | ⟨hp, l', hret, hfault⟩
    · refine .inl ⟨hp, ⟨l, false, hret⟩, fun l' hl' => ?_⟩
      obtain ⟨found, hret'⟩ := hl'
      obtain rfl : l = l' := (Prod.mk.inj (hret.unique hret')).2
      rw [Call.apply, (keeps hp).2]
      exact h
    · refine .inr ⟨hp, fun l'' hl'' => ?_⟩
      obtain ⟨found, hret'⟩ := hl''
      obtain rfl : l' = l'' := (Prod.mk.inj (hret.unique hret')).2
      exact hfault

theorem stuck_of_fault (r : (safeList A T).Run l cs l') (h : l.fault = true) : l' = l := by
  cases r with
  | nil => rfl
  | cons hst _ => rw [hst.1] at h; cases h

/-- The list stays good until a removal finds an element. -/
theorem Good.run (r : (safeList A T).Run l cs l') : ∀ {values}, l.Good values →
    (Spares values cs ∧ l'.Good (contents values cs)) ∨
      ¬ Spares values cs ∧ l'.fault = true := by
  induction r with
  | nil => exact fun h => .inl ⟨trivial, h⟩
  | cons hst r ih =>
    intro values h
    rcases h.step hst.2.1 with ⟨hc, -, hgood⟩ | ⟨hc, hfault⟩
    · rcases ih (hgood _ hst.2.2) with ⟨hs, hl⟩ | ⟨hs, hl⟩
      · exact .inl ⟨⟨hc, hs⟩, hl⟩
      · exact .inr ⟨fun hall => hs hall.2, hl⟩
    · have hl := hfault _ hst.2.2
      refine .inr ⟨fun hall => hc hall.1, ?_⟩
      rw [stuck_of_fault r hl]
      exact hl

/-- Until the first push `tail_` is not initialised. -/
theorem fresh_run (r : (safeList A T).Run l cs l') (h : l.Holds []) (ht : l.tail = none) :
    (startsAtFront cs = true ∧ Spares [] cs ∧ l'.Good (contents [] cs)) ∨
      ¬ (startsAtFront cs = true ∧ Spares [] cs) ∧ (l'.tail = none ∨ l'.fault = true) := by
  induction r with
  | nil => exact .inr ⟨fun h => (by cases h.1), .inl ht⟩
  | @cons l l' l'' c cs hst r ih =>
    obtain ⟨-, hnew, hrun⟩ := hst
    have removed : ∀ {p : T → Bool} {first found : Bool},
        Loop.Returns (removeTurn p first) (l, .test l.head) (found, l') → l' = l :=
      fun hret => (Prod.mk.inj (hret.unique (remove_none h nofun))).2
    -- a removal from the empty list
    have skip : ∀ {c : Call A T}, c.Spares [] → c.apply [] = [] →
        startsAtFront (c :: cs) = startsAtFront cs → l' = l →
        (startsAtFront (c :: cs) = true ∧ Spares [] (c :: cs) ∧ l''.Good (contents [] (c :: cs))) ∨
          ¬ (startsAtFront (c :: cs) = true ∧ Spares [] (c :: cs)) ∧
            (l''.tail = none ∨ l''.fault = true) := by
      intro c hc happly hstarts he
      subst he
      rw [hstarts, contents, List.foldl_cons, happly]
      simp only [Spares, happly, hc, true_and]
      exact ih h ht
    cases c with
    | pushFront v new =>
      have hrun : l' = l.pushFront v new := hrun
      obtain ⟨hh, -, htail⟩ := h.pushFront (v := v) (hnew new rfl)
      rw [← hrun] at hh htail
      have hgood : l'.Good [v] := ⟨[(new, v)], hh, htail, rfl⟩
      rcases hgood.run r with ⟨hs, hl⟩ | ⟨hs, hl⟩
      · exact .inl ⟨rfl, ⟨trivial, hs⟩, hl⟩
      · exact .inr ⟨fun hall => hs hall.2.2, .inr hl⟩
    | pushBack v new =>
      have hrun : l.PushBack v new l' := hrun
      refine .inr ⟨fun h => (by cases h.1), ?_⟩
      cases hrun with
      | fault hf => exact .inr (by rw [stuck_of_fault r rfl]; rfl)
      | link ht' => cases ht.symm.trans ht'
    | removeIf p =>
      obtain ⟨found, hret⟩ := hrun
      exact skip (c := .removeIf p) nofun rfl rfl (removed hret)
    | removeFirstIf p =>
      obtain ⟨found, hret⟩ := hrun
      exact skip (c := .removeFirstIf p) nofun rfl rfl (removed hret)

end

/-- `forEach` visits the elements in order. -/
theorem Holds.forEach {l : SafeList A T} {cells : List (A × T)} (h : l.Holds cells) :
    Loop.Returns l.forEachTurn (l.head, []) (some (cells.map Prod.snd)) := by
  have visit : ∀ (cells : List (A × T)) (a : A) (d : Option T) (seen : List T),
      Node.Linked l.heap.nodes ((a, d) :: cells.map fun c => (c.1, some c.2)) →
      Loop.Returns l.forEachTurn (a, seen) (some (seen ++ cells.map Prod.snd)) := by
    intro cells
    induction cells with
    | nil =>
      intro a d seen hl
      have ha : l.heap.nodes a = some ⟨d, none⟩ := hl.1
      rw [List.map_nil, List.append_nil]
      exact .leave (by simp only [forEachTurn, ha])
    | cons c cells ih =>
      intro a d seen hl
      have ha : l.heap.nodes a = some ⟨d, some c.1⟩ := hl.1
      have hvisit := ih c.1 (some c.2) (seen ++ [c.2]) hl.2
      rw [List.append_assoc] at hvisit
      exact .again (by simp only [forEachTurn, ha, hl.2.1]) hvisit
  exact visit cells l.head none [] h.linked

/-- What a list of `values` is: `tail_` is its last node, and `forEach` visits it. -/
def Intact (l : SafeList A T) (values : List T) : Prop :=
  l.fault = false ∧ ∃ cells, l.Holds cells ∧ cells.map Prod.snd = values ∧
    l.tail = some (last l.head cells) ∧ Loop.Returns l.forEachTurn (l.head, []) (some values)

section
variable [DecidableEq A]

/-- **`tail_` is the last node exactly if the first push is a `pushFront` and no removal
finds an element.** The constructor leaves `tail_` uninitialised, and only a `pushFront`
on the empty list sets it without reading it; a removal that takes the last element
away unlocks the mutex of a deleted node. Until then every call that finds nothing to
remove returns, and leaves what it should. -/
theorem tail_invariant (head : A) (l : SafeList A T) (cs : List (Call A T))
    (r : (safeList A T).Run (.new head) cs l) :
    (l.Intact (contents [] cs) ↔ startsAtFront cs = true ∧ Spares [] cs) ∧
      (l.Intact (contents [] cs) → ∀ c : Call A T, c.Spares (contents [] cs) →
        (∀ a, c.new = some a → l.heap.nodes a = none) →
          ∃ l', (safeList A T).step l c l' ∧ l'.Intact (c.apply (contents [] cs))) := by
  have intact : ∀ {l : SafeList A T} {values : List T}, l.Good values → l.Intact values := by
    intro l values h
    obtain ⟨cells, hl, ht, rfl⟩ := h
    exact ⟨hl.sound, cells, hl, rfl, ht, hl.forEach⟩
  have good : ∀ {l : SafeList A T} {values : List T}, l.Intact values → l.Good values :=
    fun h => let ⟨_, cells, hl, hv, ht, _⟩ := h; ⟨cells, hl, ht, hv⟩
  constructor
  · rcases fresh_run r (holds_new head) rfl with ⟨hs, hc, hl⟩ | ⟨hnot, hl⟩
    · exact iff_of_true (intact hl) ⟨hs, hc⟩
    · refine iff_of_false (fun h => ?_) hnot
      obtain ⟨hf, cells, -, -, ht, -⟩ := h
      rcases hl with hn | hfault
      · rw [ht] at hn; cases hn
      · rw [hf] at hfault; cases hfault
  · intro h c hc hnew
    rcases (good h).step hnew with ⟨-, ⟨l', hl'⟩, hgood⟩ | ⟨hnot, -⟩
    · exact ⟨l', ⟨h.1, hnew, hl'⟩, intact (hgood l' hl')⟩
    · exact absurd hc hnot

end

/-! ### Concrete lists -/

/-- The list of 1 and 2. -/
def pair : SafeList Nat Nat := ((SafeList.new 0).pushFront 2 2).pushFront 1 1

theorem pair_holds : pair.Holds [(1, 1), (2, 2)] ∧
    pair.tail = some (last pair.head [(1, 1), (2, 2)]) :=
  ⟨(((holds_new 0).pushFront (by decide)).1.pushFront (by decide)).1, rfl⟩

theorem list_removal_of_none : (∃ l', pair.RemoveIf (· == 3) l' ∧
      pair.Leaves [(1, 1), (2, 2)] l' [1, 2]) ∧
    ∃ l', pair.RemoveFirstIf (· == 3) false l' ∧ pair.Leaves [(1, 1), (2, 2)] l' [1, 2] := by
  obtain ⟨hall, hfirst⟩ := list_removal pair [(1, 1), (2, 2)] pair_holds.1 pair_holds.2 (· == 3)
  exact ⟨hall.mpr (by decide), hfirst.mpr (by decide)⟩

/-- The removal of the first of two elements deletes both, and leaves a pointer to the
second; that of the last leaves the first. Either then unlocks a mutex that has been
deleted. -/
theorem removal_dangles :
    (∃ found l', pair.RemoveFirstIf (· == 1) found l' ∧ l'.fault = true ∧
      l'.heap.nodes 0 = some ⟨none, some 2⟩ ∧ l'.heap.nodes 2 = none ∧ l'.heap.deleted = [1, 2]) ∧
    (∃ found l', pair.RemoveFirstIf (· == 2) found l' ∧ l'.fault = true ∧
      l'.heap.nodes 1 = some ⟨some 1, none⟩ ∧ l'.heap.deleted = [2] ∧ l'.tail = some 1) ∧
    (∃ l', pair.RemoveIf (· == 1) l' ∧ l'.fault = true) ∧
    (¬ ∃ l', pair.RemoveFirstIf (· == 1) true l' ∧ pair.Leaves [(1, 1), (2, 2)] l' [2]) ∧
    ¬ ∃ l', pair.RemoveIf (· == 1) l' ∧ pair.Leaves [(1, 1), (2, 2)] l' [2] := by
  have hfirst : ∃ l', Loop.exec (removeTurn (· == 1) true) 10 (pair, .test 0) = some (false, l') ∧
      l'.fault = true ∧ l'.heap.nodes 0 = some ⟨none, some 2⟩ ∧ l'.heap.nodes 2 = none ∧
      l'.heap.deleted = [1, 2] := ⟨_, rfl, rfl, rfl, rfl, rfl⟩
  have hlast : ∃ l', Loop.exec (removeTurn (· == 2) true) 10 (pair, .test 0) = some (false, l') ∧
      l'.fault = true ∧ l'.heap.nodes 1 = some ⟨some 1, none⟩ ∧ l'.heap.deleted = [2] ∧
      l'.tail = some 1 := ⟨_, rfl, rfl, rfl, rfl, rfl⟩
  have hall : ∃ l', Loop.exec (removeTurn (· == 1) false) 10 (pair, .test 0) = some (false, l') ∧
      l'.fault = true := ⟨_, rfl, rfl⟩
  obtain ⟨l₁, hret₁, hfault₁, hrest₁⟩ := hfirst
  obtain ⟨l₂, hret₂, hrest₂⟩ := hlast
  obtain ⟨l₃, hret₃, hfault₃⟩ := hall
  have hret₁ := Loop.returns_of_exec hret₁
  have hret₃ := Loop.returns_of_exec hret₃
  refine ⟨⟨_, l₁, hret₁, hfault₁, hrest₁⟩, ⟨_, l₂, Loop.returns_of_exec hret₂, hrest₂⟩,
    ⟨l₃, ⟨false, hret₃⟩, hfault₃⟩, ?_, ?_⟩
  · intro h
    obtain ⟨l', hret, hleaves⟩ := h
    obtain rfl := (Prod.mk.inj (hret₁.unique hret)).2
    exact not_leaves_of_fault hfault₁ hleaves
  · intro h
    obtain ⟨l', hret, hleaves⟩ := h
    obtain ⟨found, hret⟩ := hret
    obtain rfl := (Prod.mk.inj (hret₃.unique hret)).2
    exact not_leaves_of_fault hfault₃ hleaves

theorem tail_invariant_of_pushFront : ∃ l, (safeList Nat Nat).Run (.new 0)
    [.pushFront 1 1, .pushBack 2 2, .removeIf (· == 7), .pushBack 3 3] l ∧
      l.Intact [1, 2, 3] ∧ ∃ l', (safeList Nat Nat).step l (.pushBack 4 4) l' ∧
        l'.Intact [1, 2, 3, 4] := by
  have hrun : ∃ l, (safeList Nat Nat).Run (.new 0)
      [.pushFront 1 1, .pushBack 2 2, .removeIf (· == 7), .pushBack 3 3] l ∧
        l.heap.nodes 4 = none := by
    refine ⟨_, .cons ⟨rfl, ?_, rfl⟩ (.cons ⟨rfl, ?_, .link rfl rfl (.leave rfl)⟩
      (.cons ⟨rfl, nofun, false, Loop.returns_of_exec (rfl : Loop.exec _ 10 _ = _)⟩
        (.cons ⟨rfl, ?_, .link rfl rfl (.leave rfl)⟩ (.nil _)))), rfl⟩
    all_goals intro a ha; cases ha; rfl
  obtain ⟨l, r, hfree⟩ := hrun
  have hspares : Spares [] ([.pushFront 1 1, .pushBack 2 2, .removeIf (· == 7), .pushBack 3 3] :
      List (Call Nat Nat)) := by
    simp [Spares, Call.Spares, Call.apply]
  have h := tail_invariant 0 l _ r
  have hintact := h.1.mpr ⟨rfl, hspares⟩
  refine ⟨l, r, hintact, h.2 hintact (.pushBack 4 4) trivial ?_⟩
  intro a ha; cases ha; exact hfree

/-- `pushBack` on a new list goes through the uninitialised `tail_`. -/
theorem pushBack_on_new : ∃ l, (safeList Nat Nat).Run (.new 0) [.pushBack 1 1] l ∧
    (SafeList.new 0 : SafeList Nat Nat).tail = none ∧ l.fault = true ∧ ¬ l.Intact [1] := by
  refine ⟨_, .cons ⟨rfl, ?_, .fault rfl⟩ (.nil _), rfl, rfl, ?_⟩
  · intro a ha; cases ha; rfl
  · intro h
    cases h.1

end SafeList

end Cxx
