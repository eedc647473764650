import Cxx.DataStruct.CircleQueue

/-!
# The elements of the circular queues

What the calls of include/data_struct/SafeCircleQueue.hpp and the destructors
do to the elements, and what is left of an `emplace` whose element constructor
throws.

* `element_lifetimes`: `pop` destroys nothing and the destructor's loop does
  not advance, so all is well only if no element is ever constructed.
* `failing_construction`: `SafeCircleQueue` is not changed by the exception;
  `SafeCircleQueNOLock` always is.
-/
namespace Cxx.CircleQueue

open Lifetime (Event)

variable {T : Type}

/-- The call has constructed an element. -/
def Res.accepted : Res T → Bool
  | .emplaced ok => ok
  | _ => false

/-! ## Lifetimes -/

/-- What the lifetimes of the elements depend on, for either queue. -/
structure Handles {Q : Type} (M : LTS Q (Op T × Res T)) (new : Q) (slots : Q → Slots T)
    (size : Q → Nat) (turn : Q → Turn Q Q) (capacity : UInt64) : Prop where
  /-- An element is constructed when `emplace` returns true, and none is destroyed. -/
  grows : ∀ q l q', M.step q l q' → (l.2.accepted = true ∧ ∃ k,
    (slots q').events = (slots q).events ++ [.construct k]) ∨
      l.2.accepted = false ∧ (slots q').events = (slots q).events
  results : capacity + 1 ≠ 0 → ∀ ls q, M.Run new ls q →
    ls.map Prod.snd = Object.results (Bounded.apply capacity.toNat) [] (ls.map Prod.fst)
  sized : ∀ q l q', M.step q l q' → size q' = size q ∧ (size q = 0 → l.1 = .pop)
  idle : ∀ op, capacity = 0 ∨ op = .pop → ∃ res, M.step new (op, res) new
  fresh : (slots new).events = [] ∧ size new = (capacity + 1).toNat ∧ turn new = .leave new
  /-- The destructor's loop ends at once or not at all. -/
  ends : ∀ q q', Loop.Returns turn q q' → q' = q

/-- The calls of `ops` return, the queue can be destroyed after them, and all
elements have then had proper lifetimes. -/
def Disposes {Q : Type} (M : LTS Q (Op T × Res T)) (new : Q) (slots : Q → Slots T)
    (turn : Q → Turn Q Q) (ops : List (Op T)) : Prop :=
  ∃ ls q q', ls.map Prod.fst = ops ∧ M.Run new ls q ∧ Loop.Returns turn q q' ∧
    Lifetime.Proper (slots q').events

section
variable {Q : Type} {M : LTS Q (Op T × Res T)} {new : Q} {slots : Q → Slots T}
  {size : Q → Nat} {turn : Q → Turn Q Q} {capacity : UInt64}

/-- The first `emplace` on an empty queue with room constructs an element. -/
theorem exists_accepted {n : Nat} (hn : 0 < n) {ops : List (Op T)}
    (h : ∃ op ∈ ops, op ≠ .pop) : ∃ res ∈ Object.results (Bounded.apply n) [] ops,
      res.accepted = true := by
  induction ops with
  | nil =>
    obtain ⟨op, hop, -⟩ := h
    cases hop
  | cons op ops ih =>
    cases op with
    | emplace v =>
      refine ⟨(Bounded.apply n [] (.emplace v)).1, List.mem_cons_self, ?_⟩
      rw [Bounded.emplace_room v hn]; rfl
    | pop =>
      obtain ⟨op, hop, hne⟩ := h
      have hop : op ∈ ops := (List.mem_cons.mp hop).resolve_left hne
      obtain ⟨res, hres, hacc⟩ := ih ⟨op, hop, hne⟩
      exact ⟨res, List.mem_cons_of_mem _ hres, hacc⟩

theorem Handles.run (h : Handles M new slots size turn capacity)
    {ls : List (Op T × Res T)} {q q' : Q} (r : M.Run q ls q') :
    ∃ es, (slots q').events = (slots q).events ++ es ∧ (∀ e ∈ es, e.isConstruct = true) ∧
      ((∃ l ∈ ls, l.2.accepted = true) → es ≠ []) := by
  induction r with
  | nil q =>
    refine ⟨[], (List.append_nil _).symm, fun e he => (by cases he), fun hl => ?_⟩
    obtain ⟨l, hl, -⟩ := hl
    cases hl
  | @cons q q₁ q' l ls hst _ ih =>
    obtain ⟨es, he, hc, hne⟩ := ih
    rcases h.grows q l q₁ hst with ⟨-, k, hk⟩ | ⟨hacc, hsame⟩
    · refine ⟨.construct k :: es, ?_, ?_, fun _ => List.cons_ne_nil _ _⟩
      · rw [he, hk, List.append_assoc]; rfl
      · intro e hmem
        rcases List.mem_cons.mp hmem with rfl | hmem
        · rfl
        · exact hc e hmem
    · refine ⟨es, by rw [he, hsame], hc, fun hl => ?_⟩
      obtain ⟨l', hl', hacc'⟩ := hl
      rcases List.mem_cons.mp hl' with rfl | hl'
      · rw [hacc] at hacc'; cases hacc'
      · exact hne ⟨l', hl', hacc'⟩

theorem Handles.wraps (h : Handles M new slots size turn capacity) {ls : List (Op T × Res T)}
    {q q' : Q} (r : M.Run q ls q') : size q = 0 → ∀ l ∈ ls, l.1 = .pop := by
  induction r with
  | nil => intro _ l hl; cases hl
  | @cons q q₁ q' l ls hst _ ih =>
    intro hm l' hl'
    obtain ⟨hsize, hpop⟩ := h.sized q l q₁ hst
    rcases List.mem_cons.mp hl' with rfl | hl'
    · exact hpop hm
    · exact ih (hsize.trans hm) l' hl'

/-- Calls that do nothing to a fresh queue. -/
theorem Handles.idle_run (h : Handles M new slots size turn capacity) {ops : List (Op T)}
    (hops : ∀ op ∈ ops, capacity = 0 ∨ op = .pop) :
    ∃ ls, ls.map Prod.fst = ops ∧ M.Run new ls new := by
  induction ops with
  | nil => exact ⟨[], rfl, .nil new⟩
  | cons op ops ih =>
    obtain ⟨res, hst⟩ := h.idle op (hops op List.mem_cons_self)
    obtain ⟨ls, hls, r⟩ := ih fun op hop => hops op (List.mem_cons_of_mem _ hop)
    exact ⟨(op, res) :: ls, congrArg (List.cons op) hls, .cons hst r⟩

theorem Handles.disposes_iff (h : Handles M new slots size turn capacity) (ops : List (Op T)) :
    Disposes M new slots turn ops ↔ capacity = 0 ∨ ∀ op ∈ ops, op = .pop := by
  constructor
  · intro hd
    obtain ⟨ls, q, q', rfl, r, hret, hproper⟩ := hd
    obtain rfl := h.ends q q' hret
    by_contra hno
    rw [not_or, not_forall] at hno
    obtain ⟨hzero, op, hno⟩ := hno
    rw [Classical.not_imp] at hno
    obtain ⟨es, hes, hc, hne⟩ := h.run r
    rw [h.fresh.1, List.nil_append] at hes
    rw [hes] at hproper
    apply hne _ (hproper.eq_nil hc)
    by_cases hwrap : capacity + 1 = 0
    · obtain ⟨l, hl, rfl⟩ := List.mem_map.mp hno.1
      have hsize : size new = 0 := h.fresh.2.1.trans (congrArg UInt64.toNat hwrap)
      exact absurd (h.wraps r hsize l hl) hno.2
    · have hpos : 0 < capacity.toNat :=
        Nat.pos_of_ne_zero fun he => hzero (UInt64.toNat_inj.mp he)
      obtain ⟨res, hres, hacc⟩ := exists_accepted hpos ⟨op, hno⟩
      rw [← h.results hwrap ls q' r] at hres
      obtain ⟨l, hl, rfl⟩ := List.mem_map.mp hres
      exact ⟨l, hl, hacc⟩
  · intro hc
    obtain ⟨ls, hls, r⟩ := h.idle_run (fun op hop => hc.imp id fun hpop => hpop op hop)
    refine ⟨ls, new, new, hls, r, .leave h.fresh.2.2, ?_⟩
    rw [h.fresh.1]
    exact Lifetime.proper_nil

end

theorem SafeCircleQueue.handles (capacity : UInt64) : Handles (lockedQueue T capacity)
    (.new capacity) SafeCircleQueue.slots SafeCircleQueue.maxSize SafeCircleQueue.destroyTurn
    capacity where
  grows := by
    intro q l q' h
    obtain ⟨op, res⟩ := l
    cases SafeCircleQueue.call_cases h with
    | room v h => exact .inl ⟨rfl, q.tail, rfl⟩
    | _ => exact .inr ⟨rfl, rfl⟩
  results := fun hc ls q r => (SafeCircleQueue.isBounded hc).results ls q r
  sized := by
    intro q l q' h
    obtain ⟨op, res⟩ := l
    have hpos : ∀ v, op = .emplace v → 0 < q.maxSize := by
      intro v hop
      subst hop
      have h : q.emplace (some v) = some (res, q') := h
      exact SafeCircleQueue.emplace_pos h
    cases SafeCircleQueue.call_cases h with
    | full v h => exact ⟨rfl, fun hm => absurd hm (Nat.ne_of_gt (hpos v rfl))⟩
    | room v h => exact ⟨rfl, fun hm => absurd hm (Nat.ne_of_gt (hpos v rfl))⟩
    | _ => exact ⟨rfl, fun _ => rfl⟩
  idle := by
    intro op h
    cases op with
    | pop => exact ⟨.popped none, SafeCircleQueue.pop_empty rfl⟩
    | emplace v =>
      rcases h with rfl | h
      · have hone : ((0 : UInt64) + 1).toNat = 1 := by decide
        have hsize : (SafeCircleQueue.new 0 : SafeCircleQueue T).maxSize = 1 := hone
        have hfull : (SafeCircleQueue.new 0 : SafeCircleQueue T).emplace (some v) = _ :=
          SafeCircleQueue.emplace_full (by rw [hsize]; decide) (by rw [hsize]; exact Nat.mod_one _)
        exact ⟨.emplaced false, hfull⟩
      · cases h
  fresh := ⟨rfl, rfl, rfl⟩
  ends := by
    intro q q' h
    apply Loop.eq_of_returns (Q := fun q => q.head = q.tail) _ _ h
    · exact fun q hq => if_pos hq
    · exact fun q hq => ⟨_, if_neg hq, hq⟩

theorem SafeCircleQueNOLock.handles (capacity : UInt64) : Handles (lockFreeQueue T capacity)
    (.new capacity) SafeCircleQueNOLock.slots SafeCircleQueNOLock.maxSize
    SafeCircleQueNOLock.destroyTurn capacity where
  grows := by
    intro q l q' h
    obtain ⟨op, res⟩ := l
    cases SafeCircleQueNOLock.step_cases h with
    | room v h hup => exact .inl ⟨rfl, q.tail, rfl⟩
    | _ => exact .inr ⟨rfl, rfl⟩
  results := fun hc ls q r => (SafeCircleQueNOLock.isBounded hc).results ls q r
  sized := by
    intro q l q' h
    obtain ⟨op, res⟩ := l
    have hpos : ∀ v, op = .emplace v → 0 < q.maxSize := by
      intro v hop
      subst hop
      exact SafeCircleQueNOLock.emplace_pos h
    cases SafeCircleQueNOLock.step_cases h with
    | full v h => exact ⟨rfl, fun hm => absurd hm (Nat.ne_of_gt (hpos v rfl))⟩
    | room v h hup => exact ⟨rfl, fun hm => absurd hm (Nat.ne_of_gt (hpos v rfl))⟩
    | _ => exact ⟨rfl, fun _ => rfl⟩
  idle := by
    intro op h
    cases op with
    | pop => exact ⟨.popped none, .leave (SafeCircleQueNOLock.popTurn_empty (.inl rfl))⟩
    | emplace v =>
      rcases h with rfl | h
      · have hone : ((0 : UInt64) + 1).toNat = 1 := by decide
        have hsize : (SafeCircleQueNOLock.new 0 : SafeCircleQueNOLock T).maxSize = 1 := hone
        refine ⟨.emplaced false, (SafeCircleQueNOLock.emplace_full ?_ ?_).mpr ⟨rfl, rfl⟩⟩
        · rw [hsize]; decide
        · rw [hsize]; exact Nat.mod_one _
      · cases h
  fresh := ⟨rfl, rfl, rfl⟩
  ends := by
    intro q q' h
    apply Loop.eq_of_returns (Q := fun q => q.head = q.tail) _ _ h
    · exact fun q hq => if_pos hq
    · exact fun q hq => ⟨_, if_neg hq, hq⟩

/-- **The elements of the circular queues.** For either queue: a sequence of
calls and the destruction after it return, and every element has then been
constructed in a slot without one and destroyed once, exactly if no element was
ever constructed. -/
theorem element_lifetimes (capacity : UInt64) (ops : List (Op T)) :
    (Disposes (lockedQueue T capacity) (.new capacity) SafeCircleQueue.slots
        SafeCircleQueue.destroyTurn ops ↔ capacity = 0 ∨ ∀ op ∈ ops, op = .pop) ∧
      (Disposes (lockFreeQueue T capacity) (.new capacity) SafeCircleQueNOLock.slots
        SafeCircleQueNOLock.destroyTurn ops ↔ capacity = 0 ∨ ∀ op ∈ ops, op = .pop) :=
  ⟨(SafeCircleQueue.handles capacity).disposes_iff ops,
    (SafeCircleQueNOLock.handles capacity).disposes_iff ops⟩

/-- With room for one element. What `pop` has returned is never destroyed; and
while there is an element left the destructor's loop does not end. -/
theorem destructor_loops :
    (¬ Disposes (lockedQueue Nat 1) (.new 1) SafeCircleQueue.slots SafeCircleQueue.destroyTurn
        [.emplace 5, .pop] ∧
      ¬ Disposes (lockFreeQueue Nat 1) (.new 1) SafeCircleQueNOLock.slots
        SafeCircleQueNOLock.destroyTurn [.emplace 5, .pop]) ∧
      ∃ q, (lockedQueue Nat 1).Run (.new 1) [(.emplace 5, .emplaced true)] q ∧
        ∀ q', ¬ Loop.Returns SafeCircleQueue.destroyTurn q q' := by
  have hops : ¬ ((1 : UInt64) = 0 ∨ ∀ op ∈ [Op.emplace 5, .pop], op = .pop) := by decide
  refine ⟨⟨?_, ?_⟩, ⟨2, ⟨Function.update (fun _ => none) 0 (some 5), [.construct 0]⟩, 0, 1⟩, ?_, ?_⟩
  · exact mt ((SafeCircleQueue.handles 1).disposes_iff _).mp hops
  · exact mt ((SafeCircleQueNOLock.handles 1).disposes_iff _).mp hops
  · exact .cons rfl (.nil _)
  · intro q'
    apply Loop.not_returns (I := fun q : SafeCircleQueue Nat => q.head ≠ q.tail)
    · exact fun q hq => ⟨_, if_neg hq, hq⟩
    · exact Nat.zero_ne_one

/-! ## Constructors that throw -/

inductive Act (T : Type) where
  | call (op : Op T)
  /-- An `emplace` whose element constructor throws, if it comes to it. -/
  | throwing
  deriving DecidableEq, Repr

def Bounded.act (capacity : Nat) (vs : List T) : Act T → Res T × List T
  | .call op => Bounded.apply capacity vs op
  | .throwing => if vs.length < capacity then (.thrown, vs) else (.emplaced false, vs)

def SafeCircleQueue.act (q : SafeCircleQueue T) : Act T → Option (Res T × SafeCircleQueue T)
  | .call op => q.call op
  | .throwing => q.emplace none

def SafeCircleQueNOLock.Acts (q : SafeCircleQueNOLock T) :
    Act T → Res T → SafeCircleQueNOLock T → Prop
  | .call op, res, q' => q.Step op res q'
  | .throwing, res, q' => Emplace q none res q'

/-- The states have the same indices, and the same elements: none has been
constructed or destroyed, and `tail_` is not the slot of one. -/
def SafeCircleQueue.Same (q q' : SafeCircleQueue T) : Prop :=
  (q'.head = q.head ∧ q'.tail = q.tail) ∧ q'.slots.events = q.slots.events ∧
    ∀ k, k ≠ q.tail → q'.slots.data k = q.slots.data k

def SafeCircleQueNOLock.Same (q q' : SafeCircleQueNOLock T) : Prop :=
  (q'.head = q.head ∧ q'.tail = q.tail ∧ q'.tailUp = q.tailUp) ∧
    q'.slots.events = q.slots.events ∧ ∀ k, k ≠ q.tail → q'.slots.data k = q.slots.data k

inductive Kind where
  /-- `SafeCircleQueue` -/
  | locked
  /-- `SafeCircleQueNOLock` -/
  | lockFree
  deriving DecidableEq, Repr

def Kind.State (T : Type) : Kind → Type
  | .locked => SafeCircleQueue T
  | .lockFree => SafeCircleQueNOLock T

def lockedActs (T : Type) (capacity : UInt64) : LTS (SafeCircleQueue T) (Act T × Res T) where
  init := (· = .new capacity)
  step := fun q l q' => q.act l.1 = some (l.2, q')

def lockFreeActs (T : Type) (capacity : UInt64) :
    LTS (SafeCircleQueNOLock T) (Act T × Res T) where
  init := (· = .new capacity)
  step := fun q l q' => q.Acts l.1 l.2 q'

def Kind.system (T : Type) (capacity : UInt64) : (k : Kind) → LTS (k.State T) (Act T × Res T)
  | .locked => lockedActs T capacity
  | .lockFree => lockFreeActs T capacity

def Kind.Same : (k : Kind) → k.State T → k.State T → Prop
  | .locked => SafeCircleQueue.Same
  | .lockFree => SafeCircleQueNOLock.Same

/-- The call that led from `q` to `q'` might as well not have been made: the
state is the same, and every later sequence of calls returns, with the same
results. -/
structure Harmless {Q : Type} (M : LTS Q (Act T × Res T)) (Same : Q → Q → Prop) (q q' : Q) :
    Prop where
  same : Same q q'
  returns : ∀ acts, ∃ ls p, ls.map Prod.fst = acts ∧ M.Run q' ls p
  results : ∀ ls p ls' p', M.Run q ls p → M.Run q' ls' p' →
    ls.map Prod.fst = ls'.map Prod.fst → ls.map Prod.snd = ls'.map Prod.snd

/-! ### `SafeCircleQueue` -/

namespace SafeCircleQueue

variable {q q' : SafeCircleQueue T} {vs : List T}

/-- The slot that a constructor has spoilt is not one of the list. -/
theorem Holds.spoil {capacity : Nat} (h : q.Holds capacity vs) :
    Holds capacity { q with slots := q.slots.spoil q.tail } vs :=
  ⟨h.1, h.2.congr fun _ hk => Function.update_of_ne hk _ _⟩

theorem act_eq {capacity : Nat} (h : q.Holds capacity vs) (a : Act T) : ∃ q',
    q'.Holds capacity (Bounded.act capacity vs a).2 ∧
      q.act a = some ((Bounded.act capacity vs a).1, q') := by
  cases a with
  | call op =>
    obtain ⟨q', hR, -, hcall⟩ := call_eq h op
    exact ⟨q', hR, hcall⟩
  | throwing =>
    have hm : 0 < q.maxSize := by
      have := h.1
      omega
    have hfull := h.2.full_iff
    by_cases hlt : vs.length < capacity
    · have hroom : vs.length + 1 ≠ q.maxSize := by
        have := h.1
        omega
      have hact : Bounded.act capacity vs .throwing = (.thrown, vs) := if_pos hlt
      rw [hact]
      exact ⟨_, h.spoil, emplace_throws hm (mt hfull.mp hroom)⟩
    · have hlen := h.2.1
      have hsize := h.1
      have hcall : q.emplace none = some (.emplaced false, q) :=
        emplace_full hm (hfull.mpr (by omega))
      have hact : Bounded.act capacity vs .throwing = (.emplaced false, vs) := if_neg hlt
      rw [hact]
      exact ⟨q, h, hcall⟩

theorem implements (capacity : UInt64) :
    Object.Implements (lockedActs T capacity) (Bounded.act capacity.toNat)
      (Holds capacity.toNat) := by
  apply Object.implements_of_step
  intro q vs a h
  obtain ⟨q', hR, hact⟩ := act_eq h a
  refine ⟨q', hR, fun res q'' => ?_⟩
  change q.act a = some (res, q'') ↔ _
  rw [hact, Option.some.injEq, Prod.mk.injEq]
  exact and_congr eq_comm eq_comm

theorem act_maxSize {a : Act T} {res : Res T} (h : q.act a = some (res, q')) :
    q'.maxSize = q.maxSize := by
  cases a with
  | call op => cases call_cases h <;> rfl
  | throwing =>
    have h : q.emplace none = some (res, q') := h
    have hm := emplace_pos h
    by_cases hfull : (q.tail + 1) % q.maxSize = q.head
    · cases (emplace_full hm hfull).symm.trans h
      rfl
    · cases (emplace_throws hm hfull).symm.trans h
      rfl

theorem sized_inductive (capacity : UInt64) :
    (lockedActs T capacity).Inductive fun q => q.maxSize = (capacity + 1).toNat where
  init := by
    intro q hq
    have hq : q = .new capacity := hq
    rw [hq]; rfl
  step := fun _ _ _ hq hst => (act_maxSize hst).trans hq

theorem harmless {capacity : UInt64} (hr : (lockedActs T capacity).Reachable q)
    (hst : (lockedActs T capacity).step q (.throwing, .thrown) q') :
    Harmless (lockedActs T capacity) Same q q' := by
  have hst : q.emplace none = some (.thrown, q') := hst
  have hm := emplace_pos hst
  have hroom : (q.tail + 1) % q.maxSize ≠ q.head := by
    intro hfull
    cases (emplace_full hm hfull).symm.trans hst
  cases (emplace_throws hm hroom).symm.trans hst
  have hc : capacity + 1 ≠ 0 := by
    intro hc
    have hsize := (sized_inductive capacity).reachable q hr
    rw [hc] at hsize
    exact Nat.ne_of_gt hm hsize
  obtain ⟨q₀, ls, rfl, r⟩ := hr
  have hnew : (new capacity : SafeCircleQueue T).Holds capacity.toNat [] := holds_new hc
  obtain ⟨-, hq⟩ := (implements capacity).run r hnew
  exact {
    same := ⟨⟨rfl, rfl⟩, rfl, fun k hk => Function.update_of_ne hk _ _⟩
    returns := fun acts => (implements capacity).total acts hq.spoil
    results := by
      intro ls p ls' p' r r' hops
      rw [((implements capacity).run r hq).1, ((implements capacity).run r' hq.spoil).1, hops] }

end SafeCircleQueue

/-! ### `SafeCircleQueNOLock` -/

namespace SafeCircleQueNOLock

variable {q q' : SafeCircleQueNOLock T}

theorem head_inductive (capacity : UInt64) :
    (lockFreeActs T capacity).Inductive fun q => 0 < q.maxSize → q.head < q.maxSize where
  init := by
    intro q hq hm
    have hq : q = .new capacity := hq
    rw [hq] at hm ⊢
    exact hm
  step := by
    intro q l q' hq hst
    obtain ⟨a, res⟩ := l
    cases a with
    | call op =>
      cases step_cases hst with
      | first v h hup => exact fun hm => Nat.mod_lt _ hm
      | _ => exact hq
    | throwing =>
      have hst : Emplace q none res q' := hst
      have hm := emplace_pos hst
      by_cases hfull : (q.tail + 1) % q.maxSize = q.head
      · obtain ⟨-, rfl⟩ := (emplace_full hm hfull).mp hst
        exact hq
      · obtain ⟨-, rfl⟩ := (emplace_throws hm hfull).mp hst
        exact hq

/-- In a ring that has a slot to spare, the next index is another. -/
theorem next_ne {m tail head : Nat} (hhead : head < m) (hroom : (tail + 1) % m ≠ head) :
    (tail + 1) % m ≠ tail := by
  intro he
  have htail : tail < m := by rw [← he]; exact Nat.mod_lt _ (by omega)
  rcases Nat.lt_or_ge (tail + 1) m with hlt | hge
  · rw [Nat.mod_eq_of_lt hlt] at he
    omega
  · have hm : tail + 1 = m := by omega
    rw [hm, Nat.mod_self] at he hroom
    omega

/-- The exception leaves `tail_` where the first loop of `emplace` has put it. -/
theorem harmful {capacity : UInt64} (hr : (lockFreeActs T capacity).Reachable q)
    (hst : (lockFreeActs T capacity).step q (.throwing, .thrown) q') : ¬ Same q q' := by
  have hst : Emplace q none .thrown q' := hst
  have hm := emplace_pos hst
  have hhead := (head_inductive capacity).reachable q hr hm
  have hroom : (q.tail + 1) % q.maxSize ≠ q.head := by
    intro hfull
    cases ((emplace_full hm hfull).mp hst).1
  obtain ⟨-, rfl⟩ := (emplace_throws hm hroom).mp hst
  exact fun hsame => next_ne hhead hroom hsame.1.2.1

end SafeCircleQueNOLock

/-- **An element constructor that throws.** After the exception the state is the
one before the call, and every later sequence of calls returns and has the
results that it would have had without it, exactly if the queue is a
`SafeCircleQueue`. -/
theorem failing_construction (k : Kind) (capacity : UInt64) (q q' : k.State T)
    (hr : (k.system T capacity).Reachable q)
    (hst : (k.system T capacity).step q (.throwing, .thrown) q') :
    Harmless (k.system T capacity) k.Same q q' ↔ k = .locked := by
  cases k with
  | locked => exact ⟨fun _ => rfl, fun _ => SafeCircleQueue.harmless hr hst⟩
  | lockFree =>
    exact ⟨fun h => absurd h.same (SafeCircleQueNOLock.harmful hr hst), fun h => by cases h⟩

theorem failing_construction_locked : ∃ q' : SafeCircleQueue Nat,
    (lockedActs Nat 2).step (.new 2) (.throwing, .thrown) q' ∧
      Harmless (lockedActs Nat 2) SafeCircleQueue.Same (.new 2) q' := by
  have hst : (lockedActs Nat 2).step (.new 2) (.throwing, .thrown)
    ⟨3, Slots.new.spoil 0, 0, 0⟩ := rfl
  exact ⟨_, hst, (failing_construction .locked 2 _ _ ⟨_, [], rfl, .nil _⟩ hst).mpr rfl⟩

/-- With room for two elements. The failed `emplace` keeps its slot, and the
next one waits for it to be published, for ever. -/
theorem later_emplace_hangs : ∃ q' : SafeCircleQueNOLock Nat,
    (lockFreeActs Nat 2).Reachable (.new 2) ∧
      (lockFreeActs Nat 2).step (.new 2) (.throwing, .thrown) q' ∧
      ¬ Harmless (lockFreeActs Nat 2) SafeCircleQueNOLock.Same (.new 2) q' ∧
      (∃ p, (lockFreeActs Nat 2).step (.new 2) (.call (.emplace 5), .emplaced true) p) ∧
      ∀ res p, ¬ (lockFreeActs Nat 2).step q' (.call (.emplace 5), res) p := by
  have hr : (lockFreeActs Nat 2).Reachable (.new 2) := ⟨_, [], rfl, .nil _⟩
  have hst : (lockFreeActs Nat 2).step (.new 2) (.throwing, .thrown)
    ⟨3, Slots.new.spoil 0, 0, 1, 0⟩ :=
      (SafeCircleQueNOLock.emplace_throws (by decide) (by decide)).mpr ⟨rfl, rfl⟩
  have hpub : SafeCircleQueNOLock.publish 0 ⟨3, Slots.new.construct 0 5, 0, 1, 0⟩ =
    .leave (some ⟨3, Slots.new.construct 0 5, 0, 1, 1⟩) :=
      SafeCircleQueNOLock.publish_next (by decide) rfl
  have hone : (lockFreeActs Nat 2).step (.new 2) (.call (.emplace 5), .emplaced true)
    ⟨3, Slots.new.construct 0 5, 0, 1, 1⟩ :=
      (SafeCircleQueNOLock.emplace_room (by decide) (by decide)).mpr ⟨rfl, .leave hpub⟩
  refine ⟨_, hr, hst, fun h => SafeCircleQueNOLock.harmful hr hst h.same, ⟨_, hone⟩,
    fun res p h => ?_⟩
  have h : SafeCircleQueNOLock.Step _ (.emplace 5) res p := h
  cases SafeCircleQueNOLock.step_cases h with
  | full v hfull => exact absurd hfull (by decide)
  | room v _ hup => exact absurd hup (by decide)

end Cxx.CircleQueue
