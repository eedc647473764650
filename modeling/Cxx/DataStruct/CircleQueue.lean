import Cxx.Core.Lifetime
import Cxx.Core.Loop
import Cxx.Core.Object
import Cxx.Core.Ring

/-!
# The circular queues, one call after another

Model of include/data_struct/SafeCircleQueue.hpp: `SafeCircleQueue` and
`SafeCircleQueNOLock`, for any `Cap`, when calls do not overlap. `max_size_`
is `Cap + 1` in 64 bits. `%` has no value for a divisor of zero, nor has the
read of a slot without an element; a call that comes to one, or that runs for
ever, does not return.

* `Slots`: the memory behind `data_`, with the constructions and destructions
  of elements as events.
* `Bounded.apply`: a FIFO queue of at most `Cap` elements.
* `circle_queues`: both queues implement it, if and only if `Cap + 1` does not
  wrap.
-/
namespace Cxx.CircleQueue

variable {T : Type}

def modulo (a m : Nat) : Option Nat := if m = 0 then none else some (a % m)

theorem modulo_eq_some {a m b : Nat} (h : modulo a m = some b) : b = a % m := by
  obtain ⟨-, h⟩ := Option.ite_none_left_eq_some.mp h
  exact (Option.some.inj h).symm

theorem modulo_pos {m : Nat} (h : 0 < m) (a : Nat) : modulo a m = some (a % m) :=
  if_neg (by omega)

@[simp] theorem modulo_succ (a m : Nat) : modulo a (m + 1) = some (a % (m + 1)) :=
  modulo_pos (Nat.succ_pos m) a

/-! ## The memory of a queue -/

/-- A slot has no value to read when nothing has been constructed in it, and
after its element has been moved from or destroyed. -/
structure Slots (T : Type) where
  data : Nat → Option T
  events : List (Lifetime.Event Nat)

namespace Slots

def new : Slots T := ⟨fun _ => none, []⟩

def construct (s : Slots T) (slot : Nat) (value : T) : Slots T :=
  ⟨Function.update s.data slot (some value), s.events ++ [.construct slot]⟩

/-- The slot is left without a value: its element has been moved from, or a
constructor has thrown. -/
def spoil (s : Slots T) (slot : Nat) : Slots T :=
  { s with data := Function.update s.data slot none }

def destroy (s : Slots T) (slot : Nat) : Slots T :=
  ⟨Function.update s.data slot none, s.events ++ [.destroy slot]⟩

end Slots

inductive Op (T : Type) where
  | emplace (value : T)
  | pop
  deriving DecidableEq, Repr

inductive Res (T : Type) where
  | emplaced (ok : Bool)
  /-- `none` if `pop` returns false. -/
  | popped (value : Option T)
  | thrown
  deriving DecidableEq, Repr

/-- The call has returned false. -/
def Res.refused : Res T → Bool
  | .emplaced ok => !ok
  | .popped value => value.isNone
  | .thrown => false

/-! ## `SafeCircleQueue` -/

structure SafeCircleQueue (T : Type) where
  maxSize : Nat
  slots : Slots T
  head : Nat
  tail : Nat

namespace SafeCircleQueue

def new (capacity : UInt64) : SafeCircleQueue T := ⟨(capacity + 1).toNat, .new, 0, 0⟩

/-- The construction of the element throws if there is no `value`.
mirrors include/data_struct/SafeCircleQueue.hpp:23-34 -/
def emplace (q : SafeCircleQueue T) (value : Option T) : Option (Res T × SafeCircleQueue T) :=
  (modulo (q.tail + 1) q.maxSize).map fun next =>
    if next = q.head then (.emplaced false, q)
    else match value with
      | none => (.thrown, { q with slots := q.slots.spoil q.tail })
      | some v => (.emplaced true, { q with slots := q.slots.construct q.tail v, tail := next })

/-- mirrors include/data_struct/SafeCircleQueue.hpp:35-45 -/
def pop (q : SafeCircleQueue T) : Option (Res T × SafeCircleQueue T) :=
  if q.head = q.tail then some (.popped none, q)
  else (q.slots.data q.head).bind fun v =>
    (modulo (q.head + 1) q.maxSize).map fun next =>
      (.popped (some v), { q with slots := q.slots.spoil q.head, head := next })

def call (q : SafeCircleQueue T) : Op T → Option (Res T × SafeCircleQueue T)
  | .emplace value => q.emplace (some value)
  | .pop => q.pop

/-- The loop of the destructor.
mirrors include/data_struct/SafeCircleQueue.hpp:16-22 -/
def destroyTurn (q : SafeCircleQueue T) : Turn (SafeCircleQueue T) (SafeCircleQueue T) :=
  if q.head = q.tail then .leave q else .again { q with slots := q.slots.destroy q.head }

end SafeCircleQueue

def lockedQueue (T : Type) (capacity : UInt64) : LTS (SafeCircleQueue T) (Op T × Res T) where
  init := (· = .new capacity)
  step := fun q l q' => q.call l.1 = some (l.2, q')

/-! ## `SafeCircleQueNOLock` -/

structure SafeCircleQueNOLock (T : Type) where
  maxSize : Nat
  slots : Slots T
  head : Nat
  tail : Nat
  tailUp : Nat

namespace SafeCircleQueNOLock

def new (capacity : UInt64) : SafeCircleQueNOLock T := ⟨(capacity + 1).toNat, .new, 0, 0, 0⟩

/-- The first loop of `emplace`, which wins the slot `tail` unless the queue is full.
mirrors include/data_struct/SafeCircleQueue.hpp:72-81 -/
def reserve (q : SafeCircleQueNOLock T) :
    Turn (SafeCircleQueNOLock T) (Option (Option Nat × SafeCircleQueNOLock T)) :=
  let tail := q.tail
  match modulo (tail + 1) q.maxSize with
  | none => .leave none
  | some next =>
    if next = q.head then .leave (some (none, q))
    else if q.tail = tail then .leave (some (some tail, { q with tail := next }))
    else .again q

/-- The second loop of `emplace`.
mirrors include/data_struct/SafeCircleQueue.hpp:86-90 -/
def publish (tail : Nat) (q : SafeCircleQueNOLock T) :
    Turn (SafeCircleQueNOLock T) (Option (SafeCircleQueNOLock T)) :=
  let tailUp := tail
  match modulo (tailUp + 1) q.maxSize with
  | none => .leave none
  | some next =>
    if q.tailUp = tailUp then .leave (some { q with tailUp := next }) else .again q

/-- mirrors include/data_struct/SafeCircleQueue.hpp:71-92 -/
inductive Emplace (q : SafeCircleQueNOLock T) : Option T → Res T → SafeCircleQueNOLock T → Prop
  | full {value : Option T} {q' : SafeCircleQueNOLock T}
      (h : Loop.Returns reserve q (some (none, q'))) : Emplace q value (.emplaced false) q'
  | thrown {tail : Nat} {q' : SafeCircleQueNOLock T}
      (h : Loop.Returns reserve q (some (some tail, q'))) :
      Emplace q none .thrown { q' with slots := q'.slots.spoil tail }
  | done {v : T} {tail : Nat} {q' q'' : SafeCircleQueNOLock T}
      (h : Loop.Returns reserve q (some (some tail, q')))
      (hp : Loop.Returns (publish tail) { q' with slots := q'.slots.construct tail v }
        (some q'')) : Emplace q (some v) (.emplaced true) q''

/-- The loop of `pop`.
mirrors include/data_struct/SafeCircleQueue.hpp:93-110 -/
def popTurn (q : SafeCircleQueNOLock T) :
    Turn (SafeCircleQueNOLock T) (Option (Res T × SafeCircleQueNOLock T)) :=
  let head := q.head
  if head = q.tail then .leave (some (.popped none, q))
  else if head = q.tailUp then .leave (some (.popped none, q))
  else match q.slots.data head, modulo (q.head + 1) q.maxSize with
    | some v, some next =>
      if q.head = head then .leave (some (.popped (some v), { q with head := next })) else .again q
    | _, _ => .leave none

def Step (q : SafeCircleQueNOLock T) : Op T → Res T → SafeCircleQueNOLock T → Prop
  | .emplace value, res, q' => Emplace q (some value) res q'
  | .pop, res, q' => Loop.Returns popTurn q (some (res, q'))

/-- The loop of the destructor.
mirrors include/data_struct/SafeCircleQueue.hpp:63-70 -/
def destroyTurn (q : SafeCircleQueNOLock T) :
    Turn (SafeCircleQueNOLock T) (SafeCircleQueNOLock T) :=
  if q.head = q.tail then .leave q else .again { q with slots := q.slots.destroy q.head }

end SafeCircleQueNOLock

def lockFreeQueue (T : Type) (capacity : UInt64) :
    LTS (SafeCircleQueNOLock T) (Op T × Res T) where
  init := (· = .new capacity)
  step := fun q l q' => q.Step l.1 l.2 q'

/-! ## The queue of at most `capacity` elements -/

def Bounded.apply (capacity : Nat) (vs : List T) : Op T → Res T × List T
  | .emplace value =>
    if vs.length < capacity then (.emplaced true, vs ++ [value]) else (.emplaced false, vs)
  | .pop =>
    match vs with
    | [] => (.popped none, [])
    | v :: vs => (.popped (some v), vs)

theorem Bounded.emplace_room {capacity : Nat} {vs : List T} (v : T) (h : vs.length < capacity) :
    Bounded.apply capacity vs (.emplace v) = (.emplaced true, vs ++ [v]) := if_pos h

theorem Bounded.emplace_full {capacity : Nat} {vs : List T} (v : T) (h : ¬ vs.length < capacity) :
    Bounded.apply capacity vs (.emplace v) = (.emplaced false, vs) := if_neg h

/-- An object is a queue of at most `capacity` elements, which a call that
returns false does not change, and is `Sound` between calls. -/
structure IsBounded {Q : Type} (M : LTS Q (Op T × Res T)) (new : Q) (Sound : Q → Prop)
    (capacity : Nat) : Prop where
  returns : ∀ ops, ∃ ls q, ls.map Prod.fst = ops ∧ M.Run new ls q
  results : ∀ ls q, M.Run new ls q →
    ls.map Prod.snd = Object.results (Bounded.apply capacity) [] (ls.map Prod.fst)
  refused : ∀ ls q l q', M.Run new ls q → M.step q l q' → l.2.refused = true → q' = q
  sound : ∀ ls q, M.Run new ls q → Sound q

/-- When each call has the one outcome of the bounded queue. -/
theorem isBounded_of_step {Q : Type} {M : LTS Q (Op T × Res T)} {new : Q} {Sound : Q → Prop}
    {capacity : Nat} {R : Q → List T → Prop}
    (hstep : ∀ q vs op, R q vs → ∃ q', R q' (Bounded.apply capacity vs op).2 ∧
      ((Bounded.apply capacity vs op).1.refused = true → q' = q) ∧
      ∀ res q'', M.step q (op, res) q'' ↔ res = (Bounded.apply capacity vs op).1 ∧ q'' = q')
    (hsound : ∀ q vs, R q vs → Sound q) (hnew : R new []) : IsBounded M new Sound capacity := by
  have himpl : Object.Implements M (Bounded.apply capacity) R := by
    apply Object.implements_of_step
    intro q vs op hR
    obtain ⟨q', hR', -, h⟩ := hstep q vs op hR
    exact ⟨q', hR', h⟩
  exact {
    returns := fun ops => himpl.total ops hnew
    results := fun ls q r => (himpl.run r hnew).1
    refused := by
      intro ls q l q' r hst href
      obtain ⟨q'', -, hsame, h⟩ := hstep q _ l.1 (himpl.run r hnew).2
      obtain ⟨hres, rfl⟩ := (h l.2 q').mp hst
      exact hsame (hres ▸ href)
    sound := fun ls q r => hsound q _ (himpl.run r hnew).2 }

/-! ## Both queues are bounded -/

theorem toNat_succ {capacity : UInt64} (h : capacity + 1 ≠ 0) :
    (capacity + 1).toNat = capacity.toNat + 1 := by
  have hlt := capacity.toNat_lt
  have hsum := UInt64.toNat_add capacity 1
  have hone : (1 : UInt64).toNat = 1 := UInt64.toNat_one
  have hne : (capacity + 1).toNat ≠ 0 := fun he => h (UInt64.toNat_inj.mp he)
  omega

namespace SafeCircleQueue

variable {q q' : SafeCircleQueue T} {vs : List T} {v : T} {value : Option T} {capacity : Nat}
  {res : Res T}

theorem emplace_full (hm : 0 < q.maxSize) (h : (q.tail + 1) % q.maxSize = q.head) :
    q.emplace value = some (.emplaced false, q) := by
  rw [emplace, modulo_pos hm, Option.map_some, if_pos h]

theorem emplace_room (hm : 0 < q.maxSize) (h : (q.tail + 1) % q.maxSize ≠ q.head) :
    q.emplace (some v) = some (.emplaced true, { q with
      slots := q.slots.construct q.tail v, tail := (q.tail + 1) % q.maxSize }) := by
  rw [emplace, modulo_pos hm, Option.map_some, if_neg h]

theorem emplace_throws (hm : 0 < q.maxSize) (h : (q.tail + 1) % q.maxSize ≠ q.head) :
    q.emplace none = some (.thrown, { q with slots := q.slots.spoil q.tail }) := by
  rw [emplace, modulo_pos hm, Option.map_some, if_neg h]

theorem pop_empty (h : q.head = q.tail) : q.pop = some (.popped none, q) := if_pos h

theorem pop_first (hm : 0 < q.maxSize) (h : q.head ≠ q.tail) (hv : q.slots.data q.head = some v) :
    q.pop = some (.popped (some v), { q with
      slots := q.slots.spoil q.head, head := (q.head + 1) % q.maxSize }) := by
  rw [pop, if_neg h, hv, Option.bind_some, modulo_pos hm, Option.map_some]

/-- What a call can do. -/
inductive Calls (q : SafeCircleQueue T) : Op T → Res T → SafeCircleQueue T → Prop
  | full (v : T) (h : (q.tail + 1) % q.maxSize = q.head) : Calls q (.emplace v) (.emplaced false) q
  | room (v : T) (h : (q.tail + 1) % q.maxSize ≠ q.head) :
      Calls q (.emplace v) (.emplaced true) { q with
        slots := q.slots.construct q.tail v, tail := (q.tail + 1) % q.maxSize }
  | empty (h : q.head = q.tail) : Calls q .pop (.popped none) q
  | first (v : T) (h : q.head ≠ q.tail) :
      Calls q .pop (.popped (some v)) { q with
        slots := q.slots.spoil q.head, head := (q.head + 1) % q.maxSize }

theorem emplace_pos (h : q.emplace value = some (res, q')) : 0 < q.maxSize := by
  apply Nat.pos_of_ne_zero
  intro hm
  rw [emplace, modulo, if_pos hm] at h
  cases h

theorem call_cases {op : Op T} (h : q.call op = some (res, q')) : q.Calls op res q' := by
  cases op with
  | emplace v =>
    have h : q.emplace (some v) = some (res, q') := h
    have hm := emplace_pos h
    by_cases hfull : (q.tail + 1) % q.maxSize = q.head
    · cases (emplace_full hm hfull).symm.trans h
      exact .full v hfull
    · cases (emplace_room hm hfull).symm.trans h
      exact .room v hfull
  | pop =>
    have h : q.pop = some (res, q') := h
    by_cases hempty : q.head = q.tail
    · cases (pop_empty hempty).symm.trans h
      exact .empty hempty
    · rw [pop, if_neg hempty] at h
      obtain ⟨v, -, h⟩ := Option.bind_eq_some_iff.mp h
      obtain ⟨next, hnext, h⟩ := Option.map_eq_some_iff.mp h
      obtain rfl := modulo_eq_some hnext
      cases h
      exact .first v hempty

/-- The queue holds the list, in a ring of `capacity + 1` slots. -/
def Holds (capacity : Nat) (q : SafeCircleQueue T) (vs : List T) : Prop :=
  q.maxSize = capacity + 1 ∧ Ring.Holds q.slots.data q.maxSize q.head q.tail vs

/-- A call does what it does to the bounded queue. -/
theorem call_eq (h : q.Holds capacity vs) (op : Op T) : ∃ q',
    q'.Holds capacity (Bounded.apply capacity vs op).2 ∧
      ((Bounded.apply capacity vs op).1.refused = true → q' = q) ∧
      q.call op = some ((Bounded.apply capacity vs op).1, q') := by
  obtain ⟨hsize, hring⟩ := h
  have hm : 0 < q.maxSize := by omega
  have hfull := hring.full_iff
  cases op with
  | emplace v =>
    by_cases hlt : vs.length < capacity
    · have hroom : vs.length + 1 ≠ q.maxSize := by omega
      rw [Bounded.emplace_room v hlt]
      have hring' : Ring.Holds (q.slots.construct q.tail v).data q.maxSize q.head q.tail vs :=
        hring.congr fun k hk => Function.update_of_ne hk _ _
      have hcall := emplace_room (v := v) hm (mt hfull.mp hroom)
      exact ⟨{ q with slots := q.slots.construct q.tail v, tail := (q.tail + 1) % q.maxSize },
        ⟨hsize, hring'.push hroom (Function.update_self _ _ _)⟩, fun href => (by cases href), hcall⟩
    · have hlen := hring.1
      rw [Bounded.emplace_full v hlt]
      have hcall : q.emplace (some v) = some (.emplaced false, q) :=
        emplace_full hm (hfull.mpr (by omega))
      exact ⟨q, ⟨hsize, hring⟩, fun _ => rfl, hcall⟩
  | pop =>
    cases vs with
    | nil => exact ⟨q, ⟨hsize, hring⟩, fun _ => rfl, pop_empty (hring.empty_iff.mpr rfl)⟩
    | cons v vs =>
      have hne : q.head ≠ q.tail := fun he => by cases hring.empty_iff.mp he
      exact ⟨{ q with slots := q.slots.spoil q.head, head := (q.head + 1) % q.maxSize },
        ⟨hsize, hring.pop_write⟩, fun href => (by cases href), pop_first hm hne hring.first⟩

theorem holds_new {capacity : UInt64} (hc : capacity + 1 ≠ 0) :
    (new capacity : SafeCircleQueue T).Holds capacity.toNat [] := by
  have hsize := toNat_succ hc
  exact ⟨hsize, Ring.holds_nil _ (by change 0 < (capacity + 1).toNat; omega)⟩

theorem isBounded {capacity : UInt64} (hc : capacity + 1 ≠ 0) :
    IsBounded (lockedQueue T capacity) (.new capacity)
      (fun q => q.head < capacity.toNat + 1 ∧ q.tail < capacity.toNat + 1) capacity.toNat := by
  apply isBounded_of_step (R := Holds capacity.toNat)
  · intro q vs op h
    obtain ⟨q', hR, hsame, hcall⟩ := call_eq h op
    refine ⟨q', hR, hsame, fun res q'' => ?_⟩
    change q.call op = some (res, q'') ↔ _
    rw [hcall, Option.some.injEq, Prod.mk.injEq]
    exact and_congr eq_comm eq_comm
  · intro q vs h
    rw [← h.1]
    exact ⟨h.2.head_lt, h.2.tail_lt⟩
  · exact holds_new hc

end SafeCircleQueue

namespace SafeCircleQueNOLock

variable {q q' : SafeCircleQueNOLock T} {vs : List T} {v : T} {value : Option T} {capacity : Nat}
  {res : Res T} {tail : Nat}

/-! ### The loops -/

theorem reserve_full (hm : 0 < q.maxSize) (h : (q.tail + 1) % q.maxSize = q.head) :
    reserve q = .leave (some (none, q)) := by
  simp only [reserve, modulo_pos hm, if_pos h]

theorem reserve_room (hm : 0 < q.maxSize) (h : (q.tail + 1) % q.maxSize ≠ q.head) :
    reserve q = .leave (some (some q.tail, { q with tail := (q.tail + 1) % q.maxSize })) := by
  simp only [reserve, modulo_pos hm, if_neg h, if_true]

/-- `reserve` divides by `max_size_` before anything else. -/
theorem not_emplace (hm : q.maxSize = 0) : ¬ Emplace q value res q' := by
  have hreserve : reserve q = .leave none := by
    simp only [reserve, modulo, if_pos hm]
  intro h
  cases h with
  | full h' => cases h'.unique (.leave hreserve)
  | thrown h' => cases h'.unique (.leave hreserve)
  | done h' _ => cases h'.unique (.leave hreserve)

theorem publish_next (hm : 0 < q.maxSize) (h : q.tailUp = tail) :
    publish tail q = .leave (some { q with tailUp := (tail + 1) % q.maxSize }) := by
  simp only [publish, modulo_pos hm, if_pos h]

/-- While `tail_up_` is another, the second loop of `emplace` goes on for ever. -/
theorem publish_stuck {r : Option (SafeCircleQueNOLock T)} (hm : 0 < q.maxSize)
    (h : q.tailUp ≠ tail) : ¬ Loop.Returns (publish tail) q r := by
  apply Loop.not_returns (I := fun p => p = q)
  · intro p hp
    subst hp
    exact ⟨p, by simp only [publish, modulo_pos hm, if_neg h], rfl⟩
  · rfl

theorem popTurn_empty (h : q.head = q.tail ∨ q.head = q.tailUp) :
    popTurn q = .leave (some (.popped none, q)) := by
  by_cases ht : q.head = q.tail
  · simp only [popTurn, if_pos ht]
  · simp only [popTurn, if_neg ht, if_pos (h.resolve_left ht)]

theorem popTurn_first (hm : 0 < q.maxSize) (ht : q.head ≠ q.tail) (hup : q.head ≠ q.tailUp)
    (hv : q.slots.data q.head = some v) :
    popTurn q = .leave (some (.popped (some v), { q with head := (q.head + 1) % q.maxSize })) := by
  simp only [popTurn, if_neg ht, if_neg hup, hv, modulo_pos hm, if_true]

/-! ### The calls -/

theorem emplace_full (hm : 0 < q.maxSize) (h : (q.tail + 1) % q.maxSize = q.head) :
    Emplace q value res q' ↔ res = .emplaced false ∧ q' = q := by
  constructor
  · intro he
    cases he with
    | full h' =>
      cases h'.unique (.leave (reserve_full hm h))
      exact ⟨rfl, rfl⟩
    | thrown h' => cases h'.unique (.leave (reserve_full hm h))
    | done h' _ => cases h'.unique (.leave (reserve_full hm h))
  · intro he
    obtain ⟨rfl, rfl⟩ := he
    exact .full (.leave (reserve_full hm h))

theorem emplace_throws (hm : 0 < q.maxSize) (h : (q.tail + 1) % q.maxSize ≠ q.head) :
    Emplace q none res q' ↔ res = .thrown ∧
      q' = { q with slots := q.slots.spoil q.tail, tail := (q.tail + 1) % q.maxSize } := by
  constructor
  · intro he
    cases he with
    | full h' => cases h'.unique (.leave (reserve_room hm h))
    | thrown h' =>
      cases h'.unique (.leave (reserve_room hm h))
      exact ⟨rfl, rfl⟩
  · intro he
    obtain ⟨rfl, rfl⟩ := he
    exact .thrown (.leave (reserve_room hm h))

/-- An `emplace` that wins a slot constructs its element there, and then waits
for `tail_up_`. -/
theorem emplace_room (hm : 0 < q.maxSize) (h : (q.tail + 1) % q.maxSize ≠ q.head) :
    Emplace q (some v) res q' ↔ res = .emplaced true ∧
      Loop.Returns (publish q.tail) { q with
        slots := q.slots.construct q.tail v, tail := (q.tail + 1) % q.maxSize } (some q') := by
  constructor
  · intro he
    cases he with
    | full h' => cases h'.unique (.leave (reserve_room hm h))
    | done h' hp =>
      cases h'.unique (.leave (reserve_room hm h))
      exact ⟨rfl, hp⟩
  · intro he
    obtain ⟨rfl, hp⟩ := he
    exact .done (.leave (reserve_room hm h)) hp

/-- What a call can do when it returns. -/
inductive Calls (q : SafeCircleQueNOLock T) : Op T → Res T → SafeCircleQueNOLock T → Prop
  | full (v : T) (h : (q.tail + 1) % q.maxSize = q.head) : Calls q (.emplace v) (.emplaced false) q
  | room (v : T) (h : (q.tail + 1) % q.maxSize ≠ q.head) (hup : q.tailUp = q.tail) :
      Calls q (.emplace v) (.emplaced true) { q with
        slots := q.slots.construct q.tail v
        tail := (q.tail + 1) % q.maxSize
        tailUp := (q.tail + 1) % q.maxSize }
  | empty (h : q.head = q.tail ∨ q.head = q.tailUp) : Calls q .pop (.popped none) q
  | first (v : T) (h : q.head ≠ q.tail) (hup : q.head ≠ q.tailUp) :
      Calls q .pop (.popped (some v)) { q with head := (q.head + 1) % q.maxSize }

theorem emplace_pos (h : Emplace q value res q') : 0 < q.maxSize :=
  Nat.pos_of_ne_zero fun hm => not_emplace hm h

theorem step_cases {op : Op T} (h : q.Step op res q') : q.Calls op res q' := by
  cases op with
  | emplace v =>
    have hm := emplace_pos h
    by_cases hfull : (q.tail + 1) % q.maxSize = q.head
    · obtain ⟨rfl, rfl⟩ := (emplace_full hm hfull).mp h
      exact .full v hfull
    · obtain ⟨rfl, hp⟩ := (emplace_room hm hfull).mp h
      by_cases hup : q.tailUp = q.tail
      · cases hp.unique (.leave (publish_next hm hup))
        exact .room v hfull hup
      · exact absurd hp (publish_stuck hm hup)
  | pop =>
    have h : Loop.Returns popTurn q (some (res, q')) := h
    by_cases hempty : q.head = q.tail ∨ q.head = q.tailUp
    · cases h.unique (.leave (popTurn_empty hempty))
      exact .empty hempty
    · rw [not_or] at hempty
      have hturn : popTurn q = .leave ((q.slots.data q.head).bind fun v =>
          (modulo (q.head + 1) q.maxSize).map fun next =>
            (.popped (some v), { q with head := next })) := by
        simp only [popTurn, if_neg hempty.1, if_neg hempty.2]
        cases q.slots.data q.head with
        | none => rfl
        | some v => cases modulo (q.head + 1) q.maxSize <;> rfl
      obtain ⟨v, -, h⟩ := Option.bind_eq_some_iff.mp (h.unique (.leave hturn)).symm
      obtain ⟨next, hnext, h⟩ := Option.map_eq_some_iff.mp h
      obtain rfl := modulo_eq_some hnext
      cases h
      exact .first v hempty.1 hempty.2

/-- The queue holds the list, and all of it can be popped. -/
def Holds (capacity : Nat) (q : SafeCircleQueNOLock T) (vs : List T) : Prop :=
  q.maxSize = capacity + 1 ∧ q.tailUp = q.tail ∧
    Ring.Holds q.slots.data q.maxSize q.head q.tail vs

theorem step_iff (h : q.Holds capacity vs) (op : Op T) : ∃ q',
    q'.Holds capacity (Bounded.apply capacity vs op).2 ∧
      ((Bounded.apply capacity vs op).1.refused = true → q' = q) ∧
      ∀ res q'', q.Step op res q'' ↔ res = (Bounded.apply capacity vs op).1 ∧ q'' = q' := by
  obtain ⟨hsize, hup, hring⟩ := h
  have hm : 0 < q.maxSize := by omega
  have hfull := hring.full_iff
  cases op with
  | emplace v =>
    by_cases hlt : vs.length < capacity
    · have hroom : vs.length + 1 ≠ q.maxSize := by omega
      have hring' : Ring.Holds (q.slots.construct q.tail v).data q.maxSize q.head q.tail vs :=
        hring.congr fun k hk => Function.update_of_ne hk _ _
      rw [Bounded.emplace_room v hlt]
      refine ⟨{ q with
          slots := q.slots.construct q.tail v
          tail := (q.tail + 1) % q.maxSize
          tailUp := (q.tail + 1) % q.maxSize },
        ⟨hsize, rfl, hring'.push hroom (Function.update_self _ _ _)⟩,
        fun href => (by cases href), fun res q'' => ?_⟩
      change Emplace q (some v) res q'' ↔ _
      rw [emplace_room hm (mt hfull.mp hroom)]
      refine and_congr_right fun _ => ?_
      rw [Loop.returns_iff_of_leave (publish_next (q := { q with
        slots := q.slots.construct q.tail v, tail := (q.tail + 1) % q.maxSize }) hm hup),
        Option.some.injEq]
    · have hlen := hring.1
      rw [Bounded.emplace_full v hlt]
      exact ⟨q, ⟨hsize, hup, hring⟩, fun _ => rfl,
        fun res q'' => emplace_full hm (hfull.mpr (by omega))⟩
  | pop =>
    cases vs with
    | nil =>
      refine ⟨q, ⟨hsize, hup, hring⟩, fun _ => rfl, fun res q'' => ?_⟩
      change Loop.Returns popTurn q (some (res, q'')) ↔ _
      rw [Loop.returns_iff_of_leave (popTurn_empty (.inl (hring.empty_iff.mpr rfl))),
        Option.some.injEq, Prod.mk.injEq]
      rfl
    | cons v vs =>
      have hne : q.head ≠ q.tail := fun he => by cases hring.empty_iff.mp he
      refine ⟨{ q with head := (q.head + 1) % q.maxSize }, ⟨hsize, hup, hring.pop⟩,
        fun href => (by cases href), fun res q'' => ?_⟩
      change Loop.Returns popTurn q (some (res, q'')) ↔ _
      rw [Loop.returns_iff_of_leave (popTurn_first hm hne (hup ▸ hne) hring.first),
        Option.some.injEq, Prod.mk.injEq]
      rfl

theorem holds_new {capacity : UInt64} (hc : capacity + 1 ≠ 0) :
    (new capacity : SafeCircleQueNOLock T).Holds capacity.toNat [] := by
  have hsize := toNat_succ hc
  exact ⟨hsize, rfl, Ring.holds_nil _ (by change 0 < (capacity + 1).toNat; omega)⟩

theorem isBounded {capacity : UInt64} (hc : capacity + 1 ≠ 0) :
    IsBounded (lockFreeQueue T capacity) (.new capacity)
      (fun q => q.head < capacity.toNat + 1 ∧ q.tail < capacity.toNat + 1 ∧ q.tailUp = q.tail)
      capacity.toNat := by
  apply isBounded_of_step (R := Holds capacity.toNat)
  · exact fun q vs op h => step_iff h op
  · intro q vs h
    rw [← h.1]
    exact ⟨h.2.2.head_lt, h.2.2.tail_lt, h.2.1⟩
  · exact holds_new hc

end SafeCircleQueNOLock

/-- `Cap + 1` wraps to zero, by which the first `emplace` divides. -/
theorem emplace_divides {capacity : UInt64} (hc : capacity + 1 = 0) (value : Option T) :
    (SafeCircleQueue.new capacity : SafeCircleQueue T).emplace value = none := by
  have hsize : (SafeCircleQueue.new capacity : SafeCircleQueue T).maxSize = 0 :=
    congrArg UInt64.toNat hc
  rw [SafeCircleQueue.emplace, hsize]; rfl

theorem not_isBounded {capacity : UInt64} {Sound : SafeCircleQueue T → Prop}
    (hc : capacity + 1 = 0) (v : T) :
    ¬ IsBounded (lockedQueue T capacity) (.new capacity) Sound capacity.toNat := by
  intro h
  obtain ⟨ls, q, hops, r⟩ := h.returns [.emplace v]
  cases r with
  | nil => cases hops
  | @cons _ q' _ l ls hst r =>
    have hop : l.1 = .emplace v := (List.cons.inj hops).1
    have hst : SafeCircleQueue.call _ l.1 = some (l.2, q') := hst
    rw [hop] at hst
    cases (emplace_divides hc (some v)).symm.trans hst

/-- **The circular queues are bounded FIFO queues.** Unless `Cap + 1` wraps,
every sequence of calls on either returns, with the results of a FIFO queue of
at most `Cap` elements; a call that returns false changes nothing; the indices
stay below `Cap + 1`, and `tail_up_` is `tail_` between calls. -/
theorem circle_queues [Inhabited T] (capacity : UInt64) :
    (IsBounded (lockedQueue T capacity) (.new capacity)
        (fun q => q.head < capacity.toNat + 1 ∧ q.tail < capacity.toNat + 1) capacity.toNat ∧
      IsBounded (lockFreeQueue T capacity) (.new capacity)
        (fun q => q.head < capacity.toNat + 1 ∧ q.tail < capacity.toNat + 1 ∧ q.tailUp = q.tail)
        capacity.toNat) ↔ capacity + 1 ≠ 0 := by
  constructor
  · exact fun h hc => not_isBounded hc default h.1
  · exact fun hc => ⟨SafeCircleQueue.isBounded hc, SafeCircleQueNOLock.isBounded hc⟩

/-- With the largest `Cap` the first `emplace` of either queue does not return. -/
theorem capacity_wraps :
    (∀ Sound, ¬ IsBounded (lockedQueue Nat (-1)) (.new (-1)) Sound (-1 : UInt64).toNat) ∧
      (∀ res q, ¬ (lockedQueue Nat (-1)).step (.new (-1)) (.emplace 5, res) q) ∧
      ∀ res q, ¬ (lockFreeQueue Nat (-1)).step (.new (-1)) (.emplace 5, res) q := by
  refine ⟨fun _ => not_isBounded (by decide) 5, fun res q h => ?_, fun res q h => ?_⟩
  · cases (emplace_divides (by decide) (some 5)).symm.trans h
  · exact SafeCircleQueNOLock.not_emplace (by decide) h

end Cxx.CircleQueue
