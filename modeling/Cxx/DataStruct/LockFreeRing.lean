import Cxx.Core.LTS
import Cxx.Core.Threads
import Cxx.DataStruct.CircleQueue

/-!
# `SafeCircleQueNOLock`

Model of include/data_struct/SafeCircleQueue.hpp:57-121, for any capacity and
any number of threads that call `emplace` and `pop`. The steps of a call are
its single loads, compare-exchanges, slot reads and constructions. `max_size_`
is `Cap + 1` in 64 bits; a thread that takes a remainder by zero goes no further.

* `Current`: when a compare-exchange succeeds, what its loop has read before
  still stands.
* `lock_free_ring`: what holds of the runs all of whose steps are `Current`.
-/
namespace Cxx.LockFree

variable {ι T : Type}

/-- What a slot holds: a value, and the number of the `emplace` that constructed it. -/
abbrev Slot (T : Type) := Option (Nat × T)

/-- Where a thread is. -/
inductive Loc (T : Type) where
  | idle
  | loadTail (value : T)
  | testFull (value : T) (tail : Nat)
  | casTail (value : T) (tail : Nat)
  /-- The slot `tail` is the thread's, whose `emplace` has the number `number`. -/
  | construct (value : T) (tail number : Nat)
  | casTailUp (value : T) (tail number : Nat)
  | loadHead
  | testEmpty (head : Nat)
  | testTailUp (head : Nat)
  | readData (head : Nat)
  | loadAgain (head : Nat) (data : Slot T)
  /-- `again` is the second load of `head_`, for the new value. -/
  | casHead (head : Nat) (data : Slot T) (again : Nat)
  deriving DecidableEq, Repr

inductive Op (T : Type) where
  | emplace (value : T)
  | pop
  deriving DecidableEq, Repr

structure SafeCircleQueNOLock (ι T : Type) where
  data : Nat → Slot T
  head : Nat
  tail : Nat
  tailUp : Nat
  loc : ι → Loc T
  /-- The values whose `emplace` has won its compare-exchange on `tail_`. -/
  accepted : List T
  /-- The values whose `emplace` has returned true. -/
  returned : List T
  /-- What the successful `pop`s have returned; none is a slot never constructed. -/
  popped : List (Option T)

def SafeCircleQueNOLock.new : SafeCircleQueNOLock ι T where
  data := fun _ => none
  head := 0
  tail := 0
  tailUp := 0
  loc := fun _ => .idle
  accepted := []
  returned := []
  popped := []

/-- The number of slots between `head_` and `tail_`. -/
def SafeCircleQueNOLock.between (s : SafeCircleQueNOLock ι T) (maxSize : Nat) : Nat :=
  (s.tail + maxSize - s.head) % maxSize

section
variable [DecidableEq ι]

def SafeCircleQueNOLock.goto (s : SafeCircleQueNOLock ι T) (i : ι) (x : Loc T) :
    SafeCircleQueNOLock ι T := { s with loc := Function.update s.loc i x }

/-- mirrors include/data_struct/SafeCircleQueue.hpp:72-110 -/
def SafeCircleQueNOLock.run (maxSize : Nat) (s : SafeCircleQueNOLock ι T) (i : ι) :
    Option (SafeCircleQueNOLock ι T) :=
  match s.loc i with
  | .idle => none
  | .loadTail value => some (s.goto i (.testFull value s.tail))
  | .testFull value tail =>
    (CircleQueue.modulo (tail + 1) maxSize).map fun next =>
      if next = s.head then s.goto i .idle else s.goto i (.casTail value tail)
  | .casTail value tail =>
    (CircleQueue.modulo (tail + 1) maxSize).map fun next =>
      if s.tail = tail then
        SafeCircleQueNOLock.goto { s with
          tail := next
          accepted := s.accepted ++ [value] } i (.construct value tail s.accepted.length)
      else s.goto i (.loadTail value)
  | .construct value tail number =>
    some (SafeCircleQueNOLock.goto { s with
      data := Function.update s.data tail (some (number, value)) } i (.casTailUp value tail number))
  | .casTailUp value tail _ =>
    (CircleQueue.modulo (tail + 1) maxSize).map fun next =>
      if s.tailUp = tail then
        SafeCircleQueNOLock.goto { s with
          tailUp := next
          returned := s.returned ++ [value] } i .idle
      else s
  | .loadHead => some (s.goto i (.testEmpty s.head))
  | .testEmpty head =>
    if head = s.tail then some (s.goto i .idle) else some (s.goto i (.testTailUp head))
  | .testTailUp head =>
    if head = s.tailUp then some (s.goto i .idle) else some (s.goto i (.readData head))
  | .readData head => some (s.goto i (.loadAgain head (s.data head)))
  | .loadAgain head data => some (s.goto i (.casHead head data s.head))
  | .casHead head data again =>
    (CircleQueue.modulo (again + 1) maxSize).map fun next =>
      if s.head = head then
        SafeCircleQueNOLock.goto { s with
          head := next
          popped := s.popped ++ [data.map Prod.snd] } i .idle
      else s.goto i .loadHead

inductive Label (ι T : Type) where
  | call (i : ι) (op : Op T)
  | run (i : ι)
  deriving DecidableEq, Repr

def SafeCircleQueNOLock.call (s : SafeCircleQueNOLock ι T) (i : ι) (op : Op T) :
    Option (SafeCircleQueNOLock ι T) :=
  match s.loc i, op with
  | .idle, .emplace value => some (s.goto i (.loadTail value))
  | .idle, .pop => some (s.goto i .loadHead)
  | _, _ => none

def SafeCircleQueNOLock.step (maxSize : Nat) (s : SafeCircleQueNOLock ι T) :
    Label ι T → Option (SafeCircleQueNOLock ι T)
  | .call i op => s.call i op
  | .run i => s.run maxSize i

end

def lockFreeRing (ι T : Type) [DecidableEq ι] (capacity : UInt64) :
    LTS (SafeCircleQueNOLock ι T) (Label ι T) :=
  LTS.ofFn (· = .new) (SafeCircleQueNOLock.step (capacity + 1).toNat)

/-- When the compare-exchange of an `emplace` succeeds the ring is not full.
When that of a `pop` does, the slot at `head_` is ready, nothing has been
constructed in it since it was read, and `head_` has not changed since it was
loaded for the new value. -/
def Loc.Current (maxSize : Nat) (s : SafeCircleQueNOLock ι T) : Loc T → Prop
  | .casTail _ tail => s.tail = tail → (s.tail + 1) % maxSize ≠ s.head
  | .casHead head data again =>
    s.head = head → s.head ≠ s.tailUp ∧ data = s.data s.head ∧ again = s.head
  | _ => True

def Current (maxSize : Nat) (s : SafeCircleQueNOLock ι T) : Label ι T → Prop
  | .call _ _ => True
  | .run i => (s.loc i).Current maxSize s

section
variable [DecidableEq T] {maxSize : Nat} {s : SafeCircleQueNOLock ι T}

instance : (x : Loc T) → Decidable (x.Current maxSize s)
  | .casTail _ tail => inferInstanceAs (Decidable (s.tail = tail → _))
  | .casHead head data again =>
    inferInstanceAs (Decidable (s.head = head →
      s.head ≠ s.tailUp ∧ data = s.data s.head ∧ again = s.head))
  | .idle | .loadTail _ | .testFull _ _ | .construct _ _ _ | .casTailUp _ _ _ | .loadHead
  | .testEmpty _ | .testTailUp _ | .readData _ | .loadAgain _ _ => .isTrue trivial

instance : (l : Label ι T) → Decidable (Current maxSize s l)
  | .call _ _ => .isTrue trivial
  | .run i => inferInstanceAs (Decidable ((s.loc i).Current maxSize s))

end

/-! ## What holds while every step is `Current`

Here `Cap + 1` has not wrapped: `max_size_` is `capacity + 1`, for a natural number. -/

/-- The number of the `emplace` that a thread has won and not returned from. -/
def Loc.number : Loc T → Option Nat
  | .construct _ _ number | .casTailUp _ _ number => some number
  | _ => none

/-- What holds of such a thread. -/
def Loc.Won (capacity : Nat) (data : Nat → Slot T) (accepted : List T) (returned : Nat) :
    Loc T → Prop
  | .construct value tail number =>
    tail = number % (capacity + 1) ∧ returned ≤ number ∧ accepted[number]? = some value
  | .casTailUp value tail number =>
    tail = number % (capacity + 1) ∧ returned ≤ number ∧ accepted[number]? = some value ∧
      data tail = some (number, value)
  | _ => True

def numbered (accepted : List T) (k : Nat) : Slot T := accepted[k]?.map fun value => (k, value)

structure Inv (capacity : Nat) (s : SafeCircleQueNOLock ι T) : Prop where
  head : s.head = s.popped.length % (capacity + 1)
  tail : s.tail = s.accepted.length % (capacity + 1)
  tailUp : s.tailUp = s.returned.length % (capacity + 1)
  popped_le : s.popped.length ≤ s.returned.length
  returned_le : s.returned.length ≤ s.accepted.length
  bound : s.accepted.length ≤ s.popped.length + capacity
  filled : Ring.Filled s.data (capacity + 1) (numbered s.accepted) s.popped.length s.returned.length
  popped : s.popped = (s.accepted.take s.popped.length).map some
  returned : s.returned = s.accepted.take s.returned.length
  won : ∀ i, (s.loc i).Won capacity s.data s.accepted s.returned.length
  distinct : Threads.Distinct Loc.number s.loc

section
variable {capacity : Nat} {s s' : SafeCircleQueNOLock ι T} {i : ι}

theorem Loc.Won.number_lt {x : Loc T} {data : Nat → Slot T} {accepted : List T} {returned n : Nat}
    (h : x.Won capacity data accepted returned) (hn : x.number = some n) :
    returned ≤ n ∧ n < accepted.length := by
  have bound : ∀ {v : T}, accepted[n]? = some v → n < accepted.length := by
    intro v hv
    obtain ⟨hlt, -⟩ := List.getElem?_eq_some_iff.mp hv
    exact hlt
  cases x with
  | construct value tail number => cases hn; exact ⟨h.2.1, bound h.2.2⟩
  | casTailUp value tail number => cases hn; exact ⟨h.2.1, bound h.2.2.1⟩
  | _ => cases hn

/-- Another value is accepted. -/
theorem Loc.Won.accept {x : Loc T} {data : Nat → Slot T} {accepted : List T} {returned : Nat}
    {value : T} (h : x.Won capacity data accepted returned) :
    x.Won capacity data (accepted ++ [value]) returned := by
  have keep : ∀ {n : Nat} {v : T}, accepted[n]? = some v → (accepted ++ [value])[n]? = some v := by
    intro n v hv
    obtain ⟨hlt, -⟩ := List.getElem?_eq_some_iff.mp hv
    rw [List.getElem?_append_left hlt]; exact hv
  cases x with
  | construct v tail number => exact ⟨h.1, h.2.1, keep h.2.2⟩
  | casTailUp v tail number => exact ⟨h.1, h.2.1, keep h.2.2.1, h.2.2.2⟩
  | _ => trivial

theorem inv_new (capacity : Nat) : Inv capacity (.new : SafeCircleQueNOLock ι T) where
  head := rfl
  tail := rfl
  tailUp := rfl
  popped_le := Nat.le_refl _
  returned_le := Nat.le_refl _
  bound := Nat.zero_le _
  filled := fun _ _ h => absurd h (Nat.not_lt_zero _)
  popped := rfl
  returned := rfl
  won := fun _ => trivial
  distinct := fun _ _ _ h => by cases h

/-- Positions in use have slots of their own. -/
theorem Inv.slot_inj (h : Inv capacity s) {a b : Nat} (ha : s.popped.length ≤ a)
    (ha' : a ≤ s.accepted.length) (hb : s.popped.length ≤ b) (hb' : b ≤ s.accepted.length)
    (he : a % (capacity + 1) = b % (capacity + 1)) : a = b := by
  have hbound := h.bound
  exact Ring.inj ha (by omega) hb (by omega) he

variable [DecidableEq ι]

/-- A thread that has no slot moves to a place without one. -/
theorem Inv.goto (h : Inv capacity s) {x : Loc T} (hx : x.number = none)
    (hw : x.Won capacity s.data s.accepted s.returned.length) : Inv capacity (s.goto i x) where
  head := h.head
  tail := h.tail
  tailUp := h.tailUp
  popped_le := h.popped_le
  returned_le := h.returned_le
  bound := h.bound
  filled := h.filled
  popped := h.popped
  returned := h.returned
  won := Threads.forall_update
    (Q := fun _ y => Loc.Won capacity s.data s.accepted s.returned.length y) hw fun j _ => h.won j
  distinct := h.distinct.move fun k hk => by rw [hx] at hk; cases hk

/-- An `emplace` wins a slot of a ring that is not full. -/
theorem Inv.win (h : Inv capacity s) (i : ι) (value : T)
    (hfull : (s.tail + 1) % (capacity + 1) ≠ s.head) :
    Inv capacity (SafeCircleQueNOLock.goto { s with
      tail := (s.tail + 1) % (capacity + 1)
      accepted := s.accepted ++ [value] } i (.construct value s.tail s.accepted.length)) where
  head := h.head
  tail := by
    change (s.tail + 1) % (capacity + 1) = (s.accepted ++ [value]).length % (capacity + 1)
    rw [h.tail, Ring.succ_mod, List.length_append, List.length_singleton]
  tailUp := h.tailUp
  popped_le := h.popped_le
  returned_le := by
    have := h.returned_le
    change s.returned.length ≤ (s.accepted ++ [value]).length
    rw [List.length_append]
    omega
  bound := by
    have hne : s.accepted.length ≠ s.popped.length + capacity := by
      intro he
      apply hfull
      rw [h.tail, h.head, Ring.succ_mod, he, Nat.add_assoc, Nat.add_mod_right]
    have hbound := h.bound
    change (s.accepted ++ [value]).length ≤ s.popped.length + capacity
    rw [List.length_append, List.length_singleton]
    omega
  filled := by
    apply h.filled.congr
    intro k hk
    have hlt : k < s.accepted.length := Nat.lt_of_lt_of_le hk h.returned_le
    change (s.accepted ++ [value])[k]?.map _ = s.accepted[k]?.map _
    rw [List.getElem?_append_left hlt]
  popped := by
    have hle : s.popped.length ≤ s.accepted.length := Nat.le_trans h.popped_le h.returned_le
    change s.popped = ((s.accepted ++ [value]).take s.popped.length).map some
    rw [List.take_append_of_le_length hle]
    exact h.popped
  returned := by
    change s.returned = (s.accepted ++ [value]).take s.returned.length
    rw [List.take_append_of_le_length h.returned_le]
    exact h.returned
  won := by
    apply Threads.forall_update
      (Q := fun _ y => Loc.Won capacity s.data (s.accepted ++ [value]) s.returned.length y)
    · exact ⟨h.tail, h.returned_le, List.getElem?_concat_length⟩
    · exact fun j _ => (h.won j).accept
  distinct := by
    apply h.distinct.gain
    intro k hk j _ hj
    cases hk
    exact Nat.lt_irrefl _ ((h.won j).number_lt hj).2

/-- The value is constructed in the slot that was won. -/
theorem Inv.construct (h : Inv capacity s) {value : T} {tail number : Nat}
    (hi : s.loc i = .construct value tail number) :
    Inv capacity (SafeCircleQueNOLock.goto { s with
      data := Function.update s.data tail (some (number, value)) } i
        (.casTailUp value tail number)) := by
  have hw := h.won i
  have hnum : (s.loc i).number = some number := by rw [hi]; rfl
  obtain ⟨hret, hacc⟩ := hw.number_lt hnum
  rw [hi] at hw
  obtain ⟨htail, -, hvalue⟩ := hw
  have hpop : s.popped.length ≤ number := Nat.le_trans h.popped_le hret
  have hbound := h.bound
  exact {
    head := h.head
    tail := h.tail
    tailUp := h.tailUp
    popped_le := h.popped_le
    returned_le := h.returned_le
    bound := h.bound
    filled := by rw [htail]; exact h.filled.write hret (by omega)
    popped := h.popped
    returned := h.returned
    won := by
      apply Threads.forall_update (Q := fun _ y => Loc.Won capacity
        (Function.update s.data tail (some (number, value))) s.accepted s.returned.length y)
      · exact ⟨htail, hret, hvalue, Function.update_self _ _ _⟩
      · intro j hj
        have hwj := h.won j
        cases hx : s.loc j with
        | construct v t n => rw [hx] at hwj; exact hwj
        | casTailUp v t n =>
          have hnum' : (s.loc j).number = some n := by rw [hx]; rfl
          obtain ⟨hret', hacc'⟩ := hwj.number_lt hnum'
          rw [hx] at hwj
          obtain ⟨htail', -, hvalue', hdata⟩ := hwj
          have hne : t ≠ tail := by
            intro he
            rw [htail, htail'] at he
            obtain rfl := h.slot_inj (Nat.le_trans h.popped_le hret') (Nat.le_of_lt hacc') hpop
              (Nat.le_of_lt hacc) he
            exact hj (h.distinct j i n hnum' hnum)
          exact ⟨htail', hret', hvalue', (Function.update_of_ne hne _ _).trans hdata⟩
        | _ => trivial
    distinct := h.distinct.move fun k hk => by rw [hi]; exact hk }

/-- The value constructed becomes visible to `pop`, after those accepted before it. -/
theorem Inv.publish (h : Inv capacity s) {value : T} {tail number : Nat}
    (hi : s.loc i = .casTailUp value tail number) (ht : s.tailUp = tail) :
    Inv capacity (SafeCircleQueNOLock.goto { s with
      tailUp := (tail + 1) % (capacity + 1)
      returned := s.returned ++ [value] } i .idle) := by
  have hw := h.won i
  have hnum : (s.loc i).number = some number := by rw [hi]; rfl
  obtain ⟨hret, hacc⟩ := hw.number_lt hnum
  rw [hi] at hw
  obtain ⟨htail, -, hvalue, hdata⟩ := hw
  -- its number is that of the next to be returned
  obtain rfl : s.returned.length = number := by
    apply h.slot_inj h.popped_le h.returned_le (Nat.le_trans h.popped_le hret) (Nat.le_of_lt hacc)
    rw [← h.tailUp, ← htail, ht]
  have hlen : (s.returned ++ [value]).length = s.returned.length + 1 := by
    rw [List.length_append, List.length_singleton]
  exact {
    head := h.head
    tail := h.tail
    tailUp := by
      change (tail + 1) % (capacity + 1) = (s.returned ++ [value]).length % (capacity + 1)
      rw [hlen, htail, Ring.succ_mod]
    popped_le := by
      change s.popped.length ≤ (s.returned ++ [value]).length
      have := h.popped_le
      omega
    returned_le := by
      change (s.returned ++ [value]).length ≤ s.accepted.length
      omega
    bound := h.bound
    filled := by
      change Ring.Filled s.data (capacity + 1) (numbered s.accepted) s.popped.length
        (s.returned ++ [value]).length
      rw [hlen]
      apply h.filled.push
      rw [← htail, hdata, numbered, hvalue]; rfl
    popped := h.popped
    returned := by
      change s.returned ++ [value] = s.accepted.take (s.returned ++ [value]).length
      rw [hlen, List.take_add_one, ← h.returned, hvalue]; rfl
    won := by
      apply Threads.forall_update
        (Q := fun _ y => Loc.Won capacity s.data s.accepted (s.returned ++ [value]).length y)
      · trivial
      · intro j hj
        have hwj := h.won j
        -- the others have other numbers, hence later ones
        have later : ∀ {n : Nat}, (s.loc j).number = some n →
            (s.returned ++ [value]).length ≤ n := by
          intro n hn
          have hle := (hwj.number_lt hn).1
          have hne : s.returned.length ≠ n := by
            intro he
            subst he
            exact hj (h.distinct j i _ hn hnum)
          omega
        cases hx : s.loc j with
        | construct v t n =>
          rw [hx] at hwj later
          exact ⟨hwj.1, later rfl, hwj.2.2⟩
        | casTailUp v t n =>
          rw [hx] at hwj later
          exact ⟨hwj.1, later rfl, hwj.2.2⟩
        | _ => trivial
    distinct := h.distinct.move fun k hk => by cases hk }

/-- A `pop` that has read what is at the head now takes it. -/
theorem Inv.take (h : Inv capacity s) {x : Slot T} {again : Nat} (hup : s.head ≠ s.tailUp)
    (hx : x = s.data s.head) (hagain : again = s.head) :
    Inv capacity (SafeCircleQueNOLock.goto { s with
      head := (again + 1) % (capacity + 1)
      popped := s.popped ++ [x.map Prod.snd] } i .idle) := by
  have hlt : s.popped.length < s.returned.length := by
    apply Nat.lt_of_le_of_ne h.popped_le
    intro he
    exact hup (by rw [h.head, h.tailUp, he])
  have hle : s.popped.length < s.accepted.length := Nat.lt_of_lt_of_le hlt h.returned_le
  have hvalue : x.map Prod.snd = some s.accepted[s.popped.length] := by
    rw [hx, h.head, h.filled _ (Nat.le_refl _) hlt, numbered, List.getElem?_eq_getElem hle]; rfl
  have hlen : (s.popped ++ [x.map Prod.snd]).length = s.popped.length + 1 := by
    rw [List.length_append, List.length_singleton]
  exact {
    head := by
      change (again + 1) % (capacity + 1) = (s.popped ++ [x.map Prod.snd]).length % (capacity + 1)
      rw [hlen, hagain, h.head, Ring.succ_mod]
    tail := h.tail
    tailUp := h.tailUp
    popped_le := by
      change (s.popped ++ [x.map Prod.snd]).length ≤ s.returned.length
      omega
    returned_le := h.returned_le
    bound := by
      have := h.bound
      change s.accepted.length ≤ (s.popped ++ [x.map Prod.snd]).length + capacity
      omega
    filled := by
      change Ring.Filled s.data (capacity + 1) (numbered s.accepted)
        (s.popped ++ [x.map Prod.snd]).length s.returned.length
      rw [hlen]
      exact h.filled.pop
    popped := by
      change s.popped ++ [x.map Prod.snd] =
        (s.accepted.take (s.popped ++ [x.map Prod.snd]).length).map some
      rw [hlen, List.take_add_one, List.map_append, ← h.popped, List.getElem?_eq_getElem hle,
        hvalue]
      rfl
    returned := h.returned
    won := Threads.forall_update
      (Q := fun _ y => Loc.Won capacity s.data s.accepted s.returned.length y) trivial
      fun j _ => h.won j
    distinct := h.distinct.move fun k hk => by cases hk }

theorem Inv.run (h : Inv capacity s) (hs : s.run (capacity + 1) i = some s')
    (hc : Current (capacity + 1) s (.run i)) : Inv capacity s' := by
  unfold SafeCircleQueNOLock.run at hs
  have hc : (s.loc i).Current (capacity + 1) s := hc
  cases hi : s.loc i with
  | idle => rw [hi] at hs; cases hs
  | testFull value tail =>
    simp only [hi, CircleQueue.modulo_succ, Option.map_some, Option.some.injEq] at hs
    subst hs
    split
    · exact h.goto rfl trivial
    · exact h.goto rfl trivial
  | casTail value tail =>
    simp only [hi, CircleQueue.modulo_succ, Option.map_some, Option.some.injEq] at hs
    subst hs
    rw [hi] at hc
    split
    · next ht =>
      have hw := h.win i value (hc ht)
      subst ht
      exact hw
    · exact h.goto rfl trivial
  | construct value tail number => rw [hi] at hs; cases hs; exact h.construct hi
  | casTailUp value tail number =>
    simp only [hi, CircleQueue.modulo_succ, Option.map_some, Option.some.injEq] at hs
    subst hs
    split
    · next ht => exact h.publish hi ht
    · exact h
  | testEmpty head =>
    simp only [hi] at hs
    by_cases he : head = s.tail
    · rw [if_pos he] at hs; cases hs; exact h.goto rfl trivial
    · rw [if_neg he] at hs; cases hs; exact h.goto rfl trivial
  | testTailUp head =>
    simp only [hi] at hs
    by_cases he : head = s.tailUp
    · rw [if_pos he] at hs; cases hs; exact h.goto rfl trivial
    · rw [if_neg he] at hs; cases hs; exact h.goto rfl trivial
  | casHead head data again =>
    simp only [hi, CircleQueue.modulo_succ, Option.map_some, Option.some.injEq] at hs
    subst hs
    rw [hi] at hc
    split
    · next hh =>
      obtain ⟨hup, hdata, hagain⟩ := hc hh
      exact h.take hup hdata hagain
    · exact h.goto rfl trivial
  | _ => rw [hi] at hs; cases hs; exact h.goto rfl trivial

theorem call_eq {op : Op T} (hs : s.call i op = some s') : s.loc i = .idle ∧
    ∃ x : Loc T, s' = s.goto i x ∧
      (x = .loadHead ∨ ∃ value, x = .loadTail value) := by
  unfold SafeCircleQueNOLock.call at hs
  cases hi : s.loc i with
  | idle =>
    cases op with
    | emplace value =>
      simp only [hi, Option.some.injEq] at hs
      exact ⟨rfl, _, hs.symm, .inr ⟨value, rfl⟩⟩
    | pop =>
      simp only [hi, Option.some.injEq] at hs
      exact ⟨rfl, _, hs.symm, .inl rfl⟩
  | _ => rw [hi] at hs; cases op <;> cases hs

theorem inv_inductive {capacity : UInt64} (hc : capacity + 1 ≠ 0) :
    ((lockFreeRing ι T capacity).restrict fun s l _ =>
      Current (capacity + 1).toNat s l).Inductive (Inv capacity.toNat) where
  init := by
    intro s hs
    have hs : s = .new := hs
    rw [hs]
    exact inv_new capacity.toNat
  step := by
    intro s l s' h hst
    obtain ⟨hst, hcur⟩ := hst
    have hst : s.step (capacity + 1).toNat l = some s' := hst
    rw [CircleQueue.toNat_succ hc] at hst hcur
    cases l with
    | run i => exact h.run hst hcur
    | call i op =>
      obtain ⟨-, x, rfl, rfl | ⟨value, rfl⟩⟩ := call_eq hst
      · exact h.goto rfl trivial
      · exact h.goto rfl trivial

/-! ### The queue whose `max_size_` is zero -/

/-- No `emplace` gets past its first remainder. -/
def Loc.Waits : Loc T → Prop
  | .idle | .loadTail _ | .testFull _ _ | .loadHead | .testEmpty _ => True
  | _ => False

structure Void (s : SafeCircleQueNOLock ι T) : Prop where
  indices : s.head = 0 ∧ s.tail = 0
  accepted : s.accepted = []
  returned : s.returned = []
  popped : s.popped = []
  waits : ∀ i, (s.loc i).Waits ∧ ∀ head, s.loc i = .testEmpty head → head = 0

theorem Void.goto (h : Void s) {x : Loc T} (hx : x.Waits ∧ ∀ head, x = .testEmpty head → head = 0) :
    Void (s.goto i x) where
  indices := h.indices
  accepted := h.accepted
  returned := h.returned
  popped := h.popped
  waits := Threads.forall_update
    (Q := fun _ y => Loc.Waits y ∧ ∀ head, y = .testEmpty head → head = 0) hx fun j _ => h.waits j

theorem Void.run (h : Void s) (hs : s.run 0 i = some s') : Void s' := by
  have hw := h.waits i
  unfold SafeCircleQueNOLock.run at hs
  cases hi : s.loc i with
  | idle => rw [hi] at hs; cases hs
  | loadTail value => rw [hi] at hs; cases hs; exact h.goto ⟨trivial, nofun⟩
  | testFull value tail => rw [hi] at hs; cases hs
  | loadHead =>
    rw [hi] at hs
    cases hs
    exact h.goto ⟨trivial, fun head he => (Loc.testEmpty.inj he).symm.trans h.indices.1⟩
  | testEmpty head =>
    simp only [hi] at hs
    rw [hw.2 head hi, h.indices.2, if_pos rfl] at hs
    cases hs
    exact h.goto ⟨trivial, nofun⟩
  | _ => rw [hi] at hw; exact hw.1.elim

theorem void_inductive {capacity : UInt64} (hc : capacity + 1 = 0) :
    (lockFreeRing ι T capacity).Inductive Void where
  init := by
    intro s hs
    have hs : s = .new := hs
    subst hs
    exact ⟨⟨rfl, rfl⟩, rfl, rfl, rfl, fun _ => ⟨trivial, nofun⟩⟩
  step := by
    intro s l s' h hst
    have hst : s.step (capacity + 1).toNat l = some s' := hst
    rw [hc] at hst
    cases l with
    | run i => exact h.run hst
    | call i op =>
      obtain ⟨-, x, rfl, rfl | ⟨value, rfl⟩⟩ := call_eq hst
      · exact h.goto ⟨trivial, nofun⟩
      · exact h.goto ⟨trivial, nofun⟩

/-- **The ring, while every step is `Current`.** The values popped are the
first of those accepted, in the order in which their `emplace`s won, each of
them once and after its `emplace` has made it visible; the values returned are
the first of those accepted too; and the others are between `head_` and
`tail_`. -/
theorem lock_free_ring (capacity : UInt64) (s : SafeCircleQueNOLock ι T)
    (h : ((lockFreeRing ι T capacity).restrict fun s l _ =>
      Current (capacity + 1).toNat s l).Reachable s) :
    s.popped = (s.accepted.take s.popped.length).map some ∧
      s.popped.length ≤ s.returned.length ∧ s.returned <+: s.accepted ∧
      s.accepted.length - s.popped.length = s.between (capacity + 1).toNat := by
  by_cases hc : capacity + 1 = 0
  · have hv := ((void_inductive hc).restrict _).reachable s h
    obtain ⟨hhead, htail⟩ := hv.indices
    rw [SafeCircleQueNOLock.between, hv.accepted, hv.returned, hv.popped, hhead, htail, hc]
    exact ⟨rfl, Nat.le_refl 0, List.prefix_refl _, rfl⟩
  · have hI := (inv_inductive hc).reachable s h
    refine ⟨hI.popped, hI.popped_le, ?_, ?_⟩
    · rw [hI.returned]
      exact List.take_prefix _ _
    · have hbound := hI.bound
      unfold SafeCircleQueNOLock.between
      rw [CircleQueue.toNat_succ hc, hI.head, hI.tail,
        Ring.gap (Nat.le_trans hI.popped_le hI.returned_le) (by omega)]

end

/-- A call of a thread, with its next `n` steps. -/
def calls {ι T : Type} (i : ι) (op : Op T) (n : Nat) : List (Label ι T) :=
  .call i op :: List.replicate n (.run i)

theorem lock_free_ring_refilled : ∃ s, ((lockFreeRing Bool Nat 1).restrict
    fun s l _ => Current 2 s l).Reachable s ∧ s.returned = [5, 6] ∧ s.popped = [some 5] ∧
      s.accepted.length - s.popped.length = s.between 2 := by
  have hrun : ∃ s : SafeCircleQueNOLock Bool Nat, LTS.exec (fun s l =>
      (s.step 2 l).filter fun _ => decide (Current 2 s l)) .new (calls true (.emplace 5) 5 ++
        calls false .pop 6 ++ calls true (.emplace 6) 5) = some s ∧ s.returned = [5, 6] ∧
      s.popped = [some 5] := ⟨_, rfl, rfl, rfl⟩
  obtain ⟨s, he, hr, hp⟩ := hrun
  have h : ((lockFreeRing Bool Nat 1).restrict fun s l _ => Current 2 s l).Reachable s :=
    ⟨.new, _, rfl, LTS.run_restrict_of_exec he⟩
  exact ⟨s, h, hr, hp, (lock_free_ring 1 s h).2.2.2⟩

/-- With room for one value. An `emplace` has found the ring not full when
another thread emplaces, pops and emplaces: its compare-exchange fits `tail_`
again, and the ring that was full is empty. And a `pop` has read its slot when
another thread pops, emplaces, pops and emplaces: it returns the value that was
popped first. -/
theorem stale_compare_exchange :
    (∃ s, (lockFreeRing Bool Nat 1).Reachable s ∧ s.returned = [5, 6] ∧ s.popped = [some 5] ∧
      s.accepted.length - s.popped.length ≠ s.between 2) ∧
    ∃ s, (lockFreeRing Bool Nat 1).Reachable s ∧ s.accepted = [5, 6, 7] ∧
      s.popped = [some 5, some 6, some 5] := by
  have hlost : ∃ s : SafeCircleQueNOLock Bool Nat,
      LTS.exec (SafeCircleQueNOLock.step 2) .new (calls false (.emplace 9) 2 ++
        calls true (.emplace 5) 5 ++ calls true .pop 6 ++ calls true (.emplace 6) 5 ++
        [.run false]) = some s ∧ s.returned = [5, 6] ∧ s.popped = [some 5] ∧
      s.accepted.length - s.popped.length ≠ s.between 2 := ⟨_, rfl, rfl, rfl, by decide⟩
  have htwice : ∃ s : SafeCircleQueNOLock Bool Nat,
      LTS.exec (SafeCircleQueNOLock.step 2) .new (calls true (.emplace 5) 5 ++
        calls false .pop 4 ++ calls true .pop 6 ++ calls true (.emplace 6) 5 ++
        calls true .pop 6 ++ calls true (.emplace 7) 5 ++ [.run false, .run false]) = some s ∧
      s.accepted = [5, 6, 7] ∧ s.popped = [some 5, some 6, some 5] := ⟨_, rfl, rfl, rfl⟩
  obtain ⟨s, he, hs⟩ := hlost
  obtain ⟨t, he', ht⟩ := htwice
  exact ⟨⟨s, LTS.reachable_of_exec rfl he, hs⟩, t, LTS.reachable_of_exec rfl he', ht⟩

end Cxx.LockFree
