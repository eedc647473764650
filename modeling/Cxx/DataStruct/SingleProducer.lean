import Cxx.Core.Linear
import Cxx.Core.Potential
import Cxx.DataStruct.CircleQueue
import Cxx.DataStruct.LockFreeRing

/-!
# One producer and one consumer

`SafeCircleQueNOLock` when all calls of `emplace` are made by one thread and all
calls of `pop` by one. Nothing that a call has read changes before its
compare-exchange then.

* `Single`: what holds in every state of such a run; each step is one of `Does`.
* `single_linear`: the calls take effect one after another, at their last steps, with
  the results of a FIFO queue of at most `Cap` elements.
* `single_wait_free`: no loop is gone through twice.
-/
namespace Cxx.LockFree

variable {ι T : Type}

def Op.spec : Op T → CircleQueue.Op T
  | .emplace value => .emplace value
  | .pop => .pop

/-- The call that a thread is at. -/
def Loc.op : Loc T → Option (CircleQueue.Op T)
  | .idle => none
  | .loadTail value | .testFull value _ | .casTail value _ | .construct value _ _
  | .casTailUp value _ _ => some (.emplace value)
  | .loadHead | .testEmpty _ | .testTailUp _ | .readData _ | .loadAgain _ _ | .casHead _ _ _ =>
    some .pop

@[simp] theorem Loc.op_idle : (Loc.idle : Loc T).op = none := rfl

/-- The steps of the call to come, when each loop is gone through once. -/
def Loc.left : Loc T → Nat
  | .idle => 0
  | .loadTail _ => 5
  | .testFull _ _ => 4
  | .casTail _ _ => 3
  | .construct _ _ _ => 2
  | .casTailUp _ _ _ => 1
  | .loadHead => 6
  | .testEmpty _ => 5
  | .testTailUp _ => 4
  | .readData _ => 3
  | .loadAgain _ _ => 2
  | .casHead _ _ _ => 1

/-- The call that returns at the next step of a thread, and what it returns. A slot
without an element has no value to return. -/
def Loc.effect (maxSize : Nat) (s : SafeCircleQueNOLock ι T) :
    Loc T → Option (CircleQueue.Op T × CircleQueue.Res T)
  | .testFull value tail =>
    if (tail + 1) % maxSize = s.head then some (.emplace value, .emplaced false) else none
  | .casTailUp value tail _ =>
    if s.tailUp = tail then some (.emplace value, .emplaced true) else none
  | .testEmpty head => if head = s.tail then some (.pop, .popped none) else none
  | .testTailUp head => if head = s.tailUp then some (.pop, .popped none) else none
  | .casHead head data _ =>
    if s.head = head then data.map fun d => (.pop, .popped (some d.2)) else none
  | _ => none

def ringCalls (ι T : Type) (maxSize : Nat) :
    Calls ι (SafeCircleQueNOLock ι T) (Label ι T) (CircleQueue.Op T) (CircleQueue.Res T) where
  call
    | .call i op => some (i, op.spec)
    | .run _ => none
  effect s
    | .call _ _ => none
    | .run i => ((s.loc i).effect maxSize s).map fun e => (i, e)
  pending s i := (s.loc i).op

/-- Only `p` calls `emplace`, and only `c` calls `pop`. -/
def Owns (p c : ι) : Label ι T → Prop
  | .call i (.emplace _) => i = p
  | .call i .pop => i = c
  | .run _ => True

instance [DecidableEq ι] (p c : ι) : (l : Label ι T) → Decidable (Owns p c l)
  | .call i (.emplace _) => inferInstanceAs (Decidable (i = p))
  | .call i .pop => inferInstanceAs (Decidable (i = c))
  | .run _ => .isTrue trivial

/-! ## What a call has read still stands -/

def Loc.Fresh (capacity : Nat) (s : SafeCircleQueNOLock ι T) : Loc T → Prop
  | .testFull _ tail => tail = s.tail
  | .casTail _ tail => tail = s.tail ∧ s.accepted.length < s.popped.length + capacity
  | .testEmpty head | .testTailUp head => head = s.head
  | .readData head => head = s.head ∧ s.popped.length < s.returned.length
  | .loadAgain head data =>
    head = s.head ∧ s.popped.length < s.returned.length ∧ data = s.data s.head
  | .casHead head data again =>
    head = s.head ∧ s.popped.length < s.returned.length ∧ data = s.data s.head ∧ again = s.head
  | _ => True

structure Roles (p c : ι) (loc : ι → Loc T) : Prop where
  producer : ∀ i value, (loc i).op = some (.emplace value) → i = p
  consumer : ∀ i, (loc i).op = some .pop → i = c

structure Single (capacity : Nat) (p c : ι) (s : SafeCircleQueNOLock ι T) : Prop where
  inv : Inv capacity s
  roles : Roles p c s.loc
  fresh : ∀ i, (s.loc i).Fresh capacity s
  /-- The producer has one value at most that it has not returned from. -/
  settled : s.accepted.length = s.returned.length + (s.loc p).number.isSome.toNat

/-- A step of a thread, by what it does to the queue. -/
inductive Does [DecidableEq ι] (capacity : Nat) (s : SafeCircleQueNOLock ι T) (i : ι) :
    Option (CircleQueue.Op T × CircleQueue.Res T) → SafeCircleQueNOLock ι T → Prop
  | move (x : Loc T) (hop : x.op = (s.loc i).op) (hleft : x.left < (s.loc i).left)
      (hi : (s.loc i).number = none) (hx : x.number = none) (hfresh : x.Fresh capacity s) :
      Does capacity s i none (s.goto i x)
  | full (value : T) (hop : (s.loc i).op = some (.emplace value))
      (hi : (s.loc i).number = none)
      (hfull : s.accepted.length = s.popped.length + capacity) :
      Does capacity s i (some (.emplace value, .emplaced false)) (s.goto i .idle)
  | win (value : T) (hi : s.loc i = .casTail value s.tail)
      (hroom : s.accepted.length < s.popped.length + capacity) :
      Does capacity s i none (SafeCircleQueNOLock.goto { s with
        tail := (s.tail + 1) % (capacity + 1)
        accepted := s.accepted ++ [value] } i (.construct value s.tail s.accepted.length))
  | construct (value : T) (tail number : Nat) (hi : s.loc i = .construct value tail number) :
      Does capacity s i none (SafeCircleQueNOLock.goto { s with
        data := Function.update s.data tail (some (number, value)) } i
          (.casTailUp value tail number))
  | publish (value : T) (tail number : Nat) (hi : s.loc i = .casTailUp value tail number)
      (ht : s.tailUp = tail) :
      Does capacity s i (some (.emplace value, .emplaced true)) (SafeCircleQueNOLock.goto { s with
        tailUp := (tail + 1) % (capacity + 1)
        returned := s.returned ++ [value] } i .idle)
  | empty (hop : (s.loc i).op = some .pop) (hempty : s.popped.length = s.returned.length) :
      Does capacity s i (some (.pop, .popped none)) (s.goto i .idle)
  | take (value : T) (hop : (s.loc i).op = some .pop)
      (hvalue : s.returned[s.popped.length]? = some value) :
      Does capacity s i (some (.pop, .popped (some value))) (SafeCircleQueNOLock.goto { s with
        head := (s.head + 1) % (capacity + 1)
        popped := s.popped ++ [some value] } i .idle)

section
variable {capacity : Nat} {p c i : ι} {s s' : SafeCircleQueNOLock ι T} {x : Loc T}

theorem Loc.number_of_pop (h : x.op = some .pop) : x.number = none := by
  cases x <;> first | rfl | cases h

theorem Inv.full_iff (h : Inv capacity s) : (s.tail + 1) % (capacity + 1) = s.head ↔
    s.accepted.length = s.popped.length + capacity := by
  have hle : s.popped.length ≤ s.accepted.length := Nat.le_trans h.popped_le h.returned_le
  have hbound := h.bound
  rw [h.tail, h.head, Ring.succ_mod]
  constructor
  · intro he
    by_contra hne
    have := Ring.inj (Nat.le_succ_of_le hle) (by omega) (Nat.le_refl _) (by omega) he
    omega
  · intro he
    rw [he, Nat.add_assoc, Nat.add_mod_right]

theorem Inv.empty_iff (h : Inv capacity s) :
    s.head = s.tailUp ↔ s.popped.length = s.returned.length := by
  have h1 := h.popped_le
  have h2 := h.returned_le
  rw [h.head, h.tailUp]
  exact ⟨h.slot_inj (Nat.le_refl _) (Nat.le_trans h1 h2) h1 h2, fun he => by rw [he]⟩

/-- What is at the head, once something is. -/
theorem Inv.front (h : Inv capacity s) (hlt : s.popped.length < s.returned.length) :
    ∃ value, s.data s.head = some (s.popped.length, value) ∧
      s.returned[s.popped.length]? = some value := by
  have hle : s.popped.length < s.accepted.length := Nat.lt_of_lt_of_le hlt h.returned_le
  refine ⟨s.accepted[s.popped.length], ?_, ?_⟩
  · rw [h.head, h.filled _ (Nat.le_refl _) hlt, numbered, List.getElem?_eq_getElem hle]; rfl
  · rw [h.returned, List.getElem?_take, if_pos hlt, List.getElem?_eq_getElem hle]

/-- The producer's, while the consumer takes a step. -/
theorem Loc.Fresh.producer (h : x.Fresh capacity s) (hx : x.op ≠ some .pop)
    (htail : s'.tail = s.tail) (hacc : s'.accepted = s.accepted)
    (hpop : s.popped.length ≤ s'.popped.length) : x.Fresh capacity s' := by
  cases x with
  | testFull value tail => exact Eq.trans h htail.symm
  | casTail value tail => exact ⟨h.1.trans htail.symm, by have := h.2; rw [hacc]; omega⟩
  | idle | loadTail | construct | casTailUp | loadHead => trivial
  | _ => exact absurd rfl hx

/-- The consumer's, while the producer takes a step. -/
theorem Loc.Fresh.consumer (h : x.Fresh capacity s) (hx : ∀ value, x.op ≠ some (.emplace value))
    (hhead : s'.head = s.head) (hpop : s'.popped = s.popped)
    (hret : s.returned.length ≤ s'.returned.length)
    (hdata : s.popped.length < s.returned.length → s'.data s.head = s.data s.head) :
    x.Fresh capacity s' := by
  cases x with
  | testEmpty head => exact Eq.trans h hhead.symm
  | testTailUp head => exact Eq.trans h hhead.symm
  | readData head =>
    obtain ⟨h1, h2⟩ := h
    exact ⟨h1.trans hhead.symm, by rw [hpop]; omega⟩
  | loadAgain head data =>
    obtain ⟨h1, h2, h3⟩ := h
    exact ⟨h1.trans hhead.symm, by rw [hpop]; omega, by rw [hhead, hdata h2]; exact h3⟩
  | casHead head data again =>
    obtain ⟨h1, h2, h3, h4⟩ := h
    exact ⟨h1.trans hhead.symm, by rw [hpop]; omega, by rw [hhead, hdata h2]; exact h3,
      h4.trans hhead.symm⟩
  | idle | loadHead => trivial
  | _ => exact absurd rfl (hx _)

/-- Another thread has another role. -/
theorem Single.not_emplace (h : Single capacity p c s) {j : ι} (hj : j ≠ i) {value : T}
    (hi : (s.loc i).op = some (.emplace value)) (v : T) : (s.loc j).op ≠ some (.emplace v) :=
  fun he => hj ((h.roles.producer j v he).trans (h.roles.producer i value hi).symm)

theorem Single.not_pop (h : Single capacity p c s) {j : ι} (hj : j ≠ i)
    (hi : (s.loc i).op = some .pop) : (s.loc j).op ≠ some .pop :=
  fun he => hj ((h.roles.consumer j he).trans (h.roles.consumer i hi).symm)

variable [DecidableEq ι]

theorem Roles.move {loc : ι → Loc T} (h : Roles p c loc) (hx : x.op = none ∨ x.op = (loc i).op) :
    Roles p c (Function.update loc i x) where
  producer := by
    refine Threads.forall_update
      (Q := fun j y => ∀ value, Loc.op y = some (.emplace value) → j = p) ?_ fun j _ => h.producer j
    intro value hv
    rcases hx with hx | hx
    · rw [hx] at hv; cases hv
    · exact h.producer i value (hx ▸ hv)
  consumer := by
    refine Threads.forall_update
      (Q := fun j y => Loc.op y = some .pop → j = c) ?_ fun j _ => h.consumer j
    intro hv
    rcases hx with hx | hx
    · rw [hx] at hv; cases hv
    · exact h.consumer i (hx ▸ hv)

/-- What the next step of a thread does, and that it is `Current`. -/
theorem Single.does (h : Single capacity p c s) (hs : s.run (capacity + 1) i = some s') :
    Does capacity s i ((s.loc i).effect (capacity + 1) s) s' ∧
      (s.loc i).Current (capacity + 1) s := by
  have hinv := h.inv
  have hfresh := h.fresh i
  have hle := hinv.popped_le
  have hle' := hinv.returned_le
  have hbound := hinv.bound
  have hop : ∀ {x : Loc T}, s.loc i = x → (s.loc i).op = x.op := fun he => congrArg _ he
  have hmove : ∀ x : Loc T, x.op = (s.loc i).op → x.left < (s.loc i).left →
      (s.loc i).number = none → x.number = none → x.Fresh capacity s →
      Does capacity s i none (s.goto i x) := fun x => .move x
  unfold SafeCircleQueNOLock.run at hs
  cases hi : s.loc i with
  | idle => rw [hi] at hs; cases hs
  | loadTail value =>
    simp only [hi, Option.some.injEq] at hs hmove
    subst hs
    exact ⟨hmove _ rfl (Nat.lt_succ_self _) rfl rfl rfl, trivial⟩
  | testFull value tail =>
    simp only [hi] at hs hfresh hmove
    obtain rfl : tail = s.tail := hfresh
    refine ⟨?_, trivial⟩
    by_cases hfull : (s.tail + 1) % (capacity + 1) = s.head
    · simp only [CircleQueue.modulo_succ, Option.map_some, hfull, if_true,
        Option.some.injEq] at hs
      subst hs
      simp only [Loc.effect, hfull, if_true]
      exact .full value (hop hi) (by rw [hi]; rfl) (hinv.full_iff.mp hfull)
    · simp only [CircleQueue.modulo_succ, Option.map_some, hfull, if_false,
        Option.some.injEq] at hs
      subst hs
      simp only [Loc.effect, hfull, if_false]
      refine hmove _ rfl (Nat.lt_succ_self _) rfl rfl ⟨rfl, ?_⟩
      have := mt hinv.full_iff.mpr hfull
      omega
  | casTail value tail =>
    simp only [hi] at hs hfresh
    obtain ⟨rfl, hroom⟩ := hfresh
    simp only [CircleQueue.modulo_succ, Option.map_some, if_true, Option.some.injEq] at hs
    subst hs
    refine ⟨.win value hi hroom, fun _ hfull => ?_⟩
    have := hinv.full_iff.mp hfull
    omega
  | construct value tail number =>
    simp only [hi, Option.some.injEq] at hs
    subst hs
    exact ⟨.construct value tail number hi, trivial⟩
  | casTailUp value tail number =>
    have hnum : (s.loc i).number = some number := by rw [hi]; rfl
    have hip : i = p := h.roles.producer i value (hop hi)
    have hsettled := h.settled
    have hlt := (hinv.won i).number_lt hnum
    have hw := hinv.won i
    rw [← hip, hnum] at hsettled
    simp only [Option.isSome_some, Bool.toNat_true] at hsettled
    rw [hi] at hw
    have ht : s.tailUp = tail := by
      rw [hinv.tailUp, hw.1]
      exact congrArg (· % (capacity + 1)) (by omega)
    simp only [hi, CircleQueue.modulo_succ, Option.map_some, ht, if_true,
      Option.some.injEq] at hs
    subst hs
    simp only [Loc.effect, ht, if_true]
    exact ⟨.publish value tail number hi ht, trivial⟩
  | loadHead =>
    simp only [hi, Option.some.injEq] at hs hmove
    subst hs
    exact ⟨hmove _ rfl (Nat.lt_succ_self _) rfl rfl rfl, trivial⟩
  | testEmpty head =>
    simp only [hi] at hs hfresh hmove
    obtain rfl : head = s.head := hfresh
    refine ⟨?_, trivial⟩
    by_cases he : s.head = s.tail
    · simp only [he, if_true, Option.some.injEq] at hs
      subst hs
      simp only [Loc.effect, he, if_true]
      rw [hinv.head, hinv.tail] at he
      have := hinv.slot_inj (Nat.le_refl _) (Nat.le_trans hle hle') (Nat.le_trans hle hle')
        (Nat.le_refl _) he
      exact .empty (hop hi) (by omega)
    · simp only [he, if_false, Option.some.injEq] at hs
      subst hs
      simp only [Loc.effect, he, if_false]
      exact hmove _ rfl (Nat.lt_succ_self _) rfl rfl rfl
  | testTailUp head =>
    simp only [hi] at hs hfresh hmove
    obtain rfl : head = s.head := hfresh
    refine ⟨?_, trivial⟩
    by_cases he : s.head = s.tailUp
    · simp only [he, if_true, Option.some.injEq] at hs
      subst hs
      simp only [Loc.effect, he, if_true]
      exact .empty (hop hi) (hinv.empty_iff.mp he)
    · simp only [he, if_false, Option.some.injEq] at hs
      subst hs
      simp only [Loc.effect, he, if_false]
      refine hmove _ rfl (Nat.lt_succ_self _) rfl rfl ⟨rfl, ?_⟩
      have := mt hinv.empty_iff.mpr he
      omega
  | readData head =>
    simp only [hi, Option.some.injEq] at hs hfresh hmove
    obtain ⟨rfl, hlt⟩ := hfresh
    subst hs
    exact ⟨hmove _ rfl (Nat.lt_succ_self _) rfl rfl ⟨rfl, hlt, rfl⟩, trivial⟩
  | loadAgain head data =>
    simp only [hi, Option.some.injEq] at hs hfresh hmove
    obtain ⟨rfl, hlt, hdata⟩ := hfresh
    subst hs
    exact ⟨hmove _ rfl (Nat.lt_succ_self _) rfl rfl ⟨rfl, hlt, hdata, rfl⟩, trivial⟩
  | casHead head data again =>
    simp only [hi] at hs hfresh
    obtain ⟨rfl, hlt, rfl, rfl⟩ := hfresh
    obtain ⟨value, hdata, hvalue⟩ := hinv.front hlt
    simp only [CircleQueue.modulo_succ, Option.map_some, if_true, Option.some.injEq] at hs
    subst hs
    refine ⟨?_, fun _ => ⟨fun he => ?_, rfl, rfl⟩⟩
    · simp only [Loc.effect, hdata, if_true, Option.map_some]
      exact .take value (hop hi) hvalue
    · have := hinv.empty_iff.mp he
      omega

theorem number_update (h : x.number = (s.loc i).number) :
    (Function.update s.loc i x p).number = (s.loc p).number := by
  by_cases hp : p = i
  · rw [hp, Function.update_self, h]
  · rw [Function.update_of_ne hp]

theorem Single.step (h : Single capacity p c s)
    {e : Option (CircleQueue.Op T × CircleQueue.Res T)} (hd : Does capacity s i e s')
    (hinv : Inv capacity s') : Single capacity p c s' := by
  cases hd with
  | move y hop hleft hi hy hfresh =>
    refine ⟨hinv, h.roles.move (.inr hop), ?_, ?_⟩
    · exact Threads.forall_update (Q := fun _ z => Loc.Fresh capacity s z) hfresh
        fun j _ => h.fresh j
    · exact h.settled.trans (by rw [SafeCircleQueNOLock.goto, number_update (hy.trans hi.symm)])
  | full value hop hi hfull =>
    refine ⟨hinv, h.roles.move (.inl rfl), ?_, ?_⟩
    · exact Threads.forall_update (Q := fun _ z => Loc.Fresh capacity s z) trivial
        fun j _ => h.fresh j
    · exact h.settled.trans (by rw [SafeCircleQueNOLock.goto, number_update (x := .idle) hi.symm])
  | empty hop hempty =>
    refine ⟨hinv, h.roles.move (.inl rfl), ?_, ?_⟩
    · exact Threads.forall_update (Q := fun _ z => Loc.Fresh capacity s z) trivial
        fun j _ => h.fresh j
    · exact h.settled.trans (by
        rw [SafeCircleQueNOLock.goto, number_update (x := .idle) (Loc.number_of_pop hop).symm])
  | win value hi hroom =>
    have hop : (s.loc i).op = some (.emplace value) := by rw [hi]; rfl
    have hip : i = p := h.roles.producer i value hop
    refine ⟨hinv, h.roles.move (.inr (by rw [hi]; rfl)), ?_, ?_⟩
    · refine Threads.forall_update (Q := fun _ z => Loc.Fresh capacity (SafeCircleQueNOLock.goto { s
        with tail := (s.tail + 1) % (capacity + 1), accepted := s.accepted ++ [value] } i
          (.construct value s.tail s.accepted.length)) z) trivial fun j hj => ?_
      exact (h.fresh j).consumer (h.not_emplace hj hop) rfl rfl (Nat.le_refl _) fun _ => rfl
    · have hsettled := h.settled
      rw [← hip, hi] at hsettled
      subst hip
      simp [SafeCircleQueNOLock.goto, Loc.number] at hsettled ⊢
      omega
  | construct value tail number hi =>
    have hop : (s.loc i).op = some (.emplace value) := by rw [hi]; rfl
    have hnum : (s.loc i).number = some number := by rw [hi]; rfl
    have hlt := (h.inv.won i).number_lt hnum
    have hw := h.inv.won i
    rw [hi] at hw
    refine ⟨hinv, h.roles.move (.inr (by rw [hi]; rfl)), ?_, ?_⟩
    · refine Threads.forall_update (Q := fun _ z => Loc.Fresh capacity (SafeCircleQueNOLock.goto { s
        with data := Function.update s.data tail (some (number, value)) } i
          (.casTailUp value tail number)) z) trivial fun j hj => ?_
      refine (h.fresh j).consumer (h.not_emplace hj hop) rfl rfl (Nat.le_refl _) fun hready => ?_
      -- the slot is behind the one at the head
      refine Function.update_of_ne (fun he => ?_) _ _
      rw [hw.1, h.inv.head] at he
      have := h.inv.slot_inj (Nat.le_refl _) (Nat.le_trans h.inv.popped_le h.inv.returned_le)
        (Nat.le_trans h.inv.popped_le hlt.1) (Nat.le_of_lt hlt.2) he
      omega
    · exact h.settled.trans (by
        rw [SafeCircleQueNOLock.goto,
          number_update (x := .casTailUp value tail number) (by rw [hi]; rfl)])
  | publish value tail number hi ht =>
    have hop : (s.loc i).op = some (.emplace value) := by rw [hi]; rfl
    have hip : i = p := h.roles.producer i value hop
    refine ⟨hinv, h.roles.move (.inl rfl), ?_, ?_⟩
    · refine Threads.forall_update (Q := fun _ z => Loc.Fresh capacity (SafeCircleQueNOLock.goto { s
        with tailUp := (tail + 1) % (capacity + 1), returned := s.returned ++ [value] } i
          .idle) z) trivial fun j hj => ?_
      exact (h.fresh j).consumer (h.not_emplace hj hop) rfl rfl
        (by simp [SafeCircleQueNOLock.goto]) fun _ => rfl
    · have hsettled := h.settled
      rw [← hip, hi] at hsettled
      subst hip
      simp [SafeCircleQueNOLock.goto, Loc.number] at hsettled ⊢
      omega
  | take value hop hvalue =>
    refine ⟨hinv, h.roles.move (.inl rfl), ?_, ?_⟩
    · refine Threads.forall_update (Q := fun _ z => Loc.Fresh capacity (SafeCircleQueNOLock.goto { s
        with head := (s.head + 1) % (capacity + 1), popped := s.popped ++ [some value] } i
          .idle) z) trivial fun j hj => ?_
      exact (h.fresh j).producer (h.not_pop hj hop) rfl rfl (by simp [SafeCircleQueNOLock.goto])
    · exact h.settled.trans (by
        rw [SafeCircleQueNOLock.goto, number_update (x := .idle) (Loc.number_of_pop hop).symm])

/-- A call starts. -/
theorem Single.call {op : Op T} (h : Single capacity p c s) (hs : s.call i op = some s')
    (ho : Owns p c (.call i op)) : Single capacity p c s' ∧ (s.loc i).op = none ∧
      s'.returned = s.returned ∧ s'.popped = s.popped ∧
      ∃ x : Loc T, s'.loc = Function.update s.loc i x ∧ x.op = some op.spec ∧ x.left ≤ 6 := by
  unfold SafeCircleQueNOLock.call at hs
  have hidle : s.loc i = .idle := by
    cases hi : s.loc i with
    | idle => rfl
    | _ => rw [hi] at hs; cases op <;> cases hs
  have start : ∀ x : Loc T, x.number = none → x.Fresh capacity s →
      x.Won capacity s.data s.accepted s.returned.length →
      Roles p c (Function.update s.loc i x) → Single capacity p c (s.goto i x) := by
    intro x hx hfresh hw hroles
    refine ⟨h.inv.goto hx hw, hroles, ?_, ?_⟩
    · exact Threads.forall_update (Q := fun _ z => Loc.Fresh capacity s z) hfresh
        fun j _ => h.fresh j
    · exact h.settled.trans (by
        rw [SafeCircleQueNOLock.goto, number_update (x := x) (by rw [hidle, hx]; rfl)])
  cases op with
  | emplace value =>
    simp only [hidle, Option.some.injEq] at hs
    subst hs
    refine ⟨start (.loadTail value) rfl trivial trivial ⟨?_, ?_⟩, by rw [hidle]; rfl, rfl, rfl, _,
      rfl, rfl, by simp [Loc.left]⟩
    · exact Threads.forall_update (Q := fun j y => ∀ v, Loc.op y = some (.emplace v) → j = p)
        (fun _ _ => ho) fun j _ => h.roles.producer j
    · exact Threads.forall_update (Q := fun j y => Loc.op y = some .pop → j = c)
        (fun hv => by cases hv) fun j _ => h.roles.consumer j
  | pop =>
    simp only [hidle, Option.some.injEq] at hs
    subst hs
    refine ⟨start .loadHead rfl trivial trivial ⟨?_, ?_⟩, by rw [hidle]; rfl, rfl, rfl, _,
      rfl, rfl, by simp [Loc.left]⟩
    · exact Threads.forall_update (Q := fun j y => ∀ v, Loc.op y = some (.emplace v) → j = p)
        (fun _ hv => by cases hv) fun j _ => h.roles.producer j
    · exact Threads.forall_update (Q := fun j y => Loc.op y = some .pop → j = c)
        (fun _ => ho) fun j _ => h.roles.consumer j

/-- A call has its effect at its last step. -/
theorem Does.returns {op : CircleQueue.Op T} {res : CircleQueue.Res T}
    (hd : Does capacity s i (some (op, res)) s') :
    s'.loc = Function.update s.loc i .idle ∧ (s.loc i).op = some op := by
  cases hd with
  | full value hop => exact ⟨rfl, hop⟩
  | publish value tail number hi => exact ⟨rfl, by rw [hi]; rfl⟩
  | empty hop => exact ⟨rfl, hop⟩
  | take value hop => exact ⟨rfl, hop⟩

theorem Does.goes_on (hd : Does capacity s i none s') : s'.returned = s.returned ∧
    s'.popped = s.popped ∧ ∃ x : Loc T, s'.loc = Function.update s.loc i x ∧
      x.op = (s.loc i).op ∧ x.left < (s.loc i).left := by
  cases hd with
  | move x hop hleft => exact ⟨rfl, rfl, x, rfl, hop, hleft⟩
  | win value hi => exact ⟨rfl, rfl, _, rfl, by rw [hi]; rfl, by rw [hi]; exact Nat.lt_succ_self _⟩
  | construct value tail number hi =>
    exact ⟨rfl, rfl, _, rfl, by rw [hi]; rfl, by rw [hi]; exact Nat.lt_succ_self _⟩

/-- Each access brings its call nearer to the end. -/
theorem Single.lower (h : Single capacity p c s) (hs : s.run (capacity + 1) i = some s') :
    ∃ x : Loc T, s'.loc = Function.update s.loc i x ∧ x.left < (s.loc i).left := by
  obtain ⟨hd, -⟩ := h.does hs
  cases he : (s.loc i).effect (capacity + 1) s with
  | none =>
    rw [he] at hd
    obtain ⟨-, -, x, hloc, -, hleft⟩ := hd.goes_on
    exact ⟨x, hloc, hleft⟩
  | some e =>
    rw [he] at hd
    obtain ⟨hloc, hop⟩ := hd.returns
    refine ⟨.idle, hloc, ?_⟩
    cases hi : s.loc i <;> simp [hi, Loc.op, Loc.left] at hop ⊢

end

/-! ## Whole runs -/

def singleRing (ι T : Type) [DecidableEq ι] (capacity : UInt64) (p c : ι) :
    LTS (SafeCircleQueNOLock ι T) (Label ι T) :=
  (lockFreeRing ι T capacity).restrict fun _ l _ => Owns p c l

/-- The calls that have returned, in their order, with what they have returned. -/
def history [DecidableEq ι] (maxSize : Nat) (ls : List (Label ι T)) :
    List (ι × CircleQueue.Op T × CircleQueue.Res T) :=
  (ringCalls ι T maxSize).effects (SafeCircleQueNOLock.step maxSize) .new ls

section
variable {p c i : ι} {s s' : SafeCircleQueNOLock ι T}

theorem single_new (capacity : Nat) :
    Single capacity p c (.new : SafeCircleQueNOLock ι T) where
  inv := inv_new capacity
  roles := ⟨fun _ _ h => (nomatch h), fun _ h => (nomatch h)⟩
  fresh _ := trivial
  settled := rfl

variable [DecidableEq ι]

theorem Single.run {capacity : Nat} (h : Single capacity p c s)
    (hs : s.run (capacity + 1) i = some s') : Single capacity p c s' :=
  have ⟨hd, hc⟩ := h.does hs
  h.step hd (h.inv.run hs hc)

/-- The queue holds what has been returned by `emplace` and not by `pop`. -/
def Holds (capacity : Nat) (p c : ι) (s : SafeCircleQueNOLock ι T) (vs : List T) : Prop :=
  Single capacity p c s ∧ vs = s.returned.drop s.popped.length

theorem Holds.takes {capacity : Nat} {vs : List T} {op : CircleQueue.Op T} {res : CircleQueue.Res T}
    (h : Holds capacity p c s vs) (hs : s.run (capacity + 1) i = some s')
    (hd : Does capacity s i (some (op, res)) s') :
    res = (CircleQueue.Bounded.apply capacity vs op).1 ∧
      Holds capacity p c s' (CircleQueue.Bounded.apply capacity vs op).2 := by
  obtain ⟨h, rfl⟩ := h
  have hsingle := h.run hs
  have hle := h.inv.popped_le
  have hbound := h.inv.bound
  have hsettled := h.settled
  cases hd with
  | full value hop hi hfull =>
    rw [← h.roles.producer i value hop, hi] at hsettled
    simp only [Option.isSome_none, Bool.toNat_false] at hsettled
    rw [CircleQueue.Bounded.emplace_full _ (by rw [List.length_drop]; omega)]
    exact ⟨rfl, hsingle, rfl⟩
  | publish value tail number hi ht =>
    have hop : (s.loc i).op = some (.emplace value) := by rw [hi]; rfl
    rw [← h.roles.producer i value hop, hi] at hsettled
    simp only [Loc.number, Option.isSome_some, Bool.toNat_true] at hsettled
    rw [CircleQueue.Bounded.emplace_room _ (by rw [List.length_drop]; omega)]
    exact ⟨rfl, hsingle, (List.drop_append_of_le_length hle).symm⟩
  | empty hop hempty =>
    have hnil : s.returned.drop s.popped.length = [] := List.drop_eq_nil_of_le (by omega)
    rw [hnil]
    exact ⟨rfl, hsingle, hnil.symm⟩
  | take value hop hvalue =>
    obtain ⟨hlt, hget⟩ := List.getElem?_eq_some_iff.mp hvalue
    rw [List.drop_eq_getElem_cons hlt, hget]
    refine ⟨rfl, hsingle, ?_⟩
    simp [CircleQueue.Bounded.apply, SafeCircleQueNOLock.goto]

variable {capacity : UInt64} {ls : List (Label ι T)} {l : Label ι T}

/-- A step of the ring, when `Cap + 1` does not wrap. -/
theorem singleRing_step (hc : capacity + 1 ≠ 0) (hs : (singleRing ι T capacity p c).step s l s') :
    s.step (capacity.toNat + 1) l = some s' ∧ Owns p c l := by
  obtain ⟨hst, ho⟩ := hs
  have hst : s.step (capacity + 1).toNat l = some s' := hst
  rw [CircleQueue.toNat_succ hc] at hst
  exact ⟨hst, ho⟩

theorem single_inductive (hc : capacity + 1 ≠ 0) :
    (singleRing ι T capacity p c).Inductive (Single capacity.toNat p c) where
  init := by
    intro s hs
    have hs : s = .new := hs
    rw [hs]
    exact single_new _
  step := by
    intro s l s' h hst
    obtain ⟨hs, ho⟩ := singleRing_step hc hst
    cases l with
    | call i op => exact (h.call hs ho).1
    | run i => exact h.run hs

theorem single_step_linear (hc : capacity + 1 ≠ 0) :
    (ringCalls ι T (capacity.toNat + 1)).Linear (singleRing ι T capacity p c)
      (CircleQueue.Bounded.apply capacity.toNat) (Holds capacity.toNat p c) where
  silent := by
    intro s l s' vs h hst he
    obtain ⟨hs, ho⟩ := singleRing_step hc hst
    obtain ⟨h, rfl⟩ := h
    cases l with
    | call i op =>
      obtain ⟨h', -, hret, hpop, -⟩ := h.call hs ho
      exact ⟨h', by rw [hret, hpop]⟩
    | run i =>
      obtain ⟨hd, -⟩ := h.does hs
      rw [Option.map_eq_none_iff.mp he] at hd
      obtain ⟨hret, hpop, -⟩ := hd.goes_on
      exact ⟨h.run hs, by rw [hret, hpop]⟩
  takes := by
    intro s l s' vs i op res h hst he
    obtain ⟨hs, -⟩ := singleRing_step hc hst
    cases l with
    | call j o => cases he
    | run j =>
      obtain ⟨e, he, heq⟩ := Option.map_eq_some_iff.mp he
      cases heq
      obtain ⟨hd, -⟩ := h.1.does hs
      rw [he] at hd
      exact h.takes hs hd
  thread := by
    intro s l s' vs i h hst
    obtain ⟨hs, ho⟩ := singleRing_step hc hst
    obtain ⟨h, -⟩ := h
    cases l with
    | call j op =>
      obtain ⟨-, hidle, -, -, x, hloc, hop, -⟩ := h.call hs ho
      by_cases hj : j = i
      · subst hj
        simp [ringCalls, hloc, hop, hidle]
      · simp [ringCalls, hloc, Function.update_of_ne (Ne.symm hj), Calls.mine_other hj]
    | run j =>
      obtain ⟨hd, -⟩ := h.does hs
      cases he : (s.loc j).effect (capacity.toNat + 1) s with
      | none =>
        rw [he] at hd
        obtain ⟨-, -, x, hloc, hop, -⟩ := hd.goes_on
        by_cases hj : j = i
        · subst hj
          simp [ringCalls, hloc, hop, he]
        · simp [ringCalls, hloc, Function.update_of_ne (Ne.symm hj), he]
      | some e =>
        rw [he] at hd
        obtain ⟨hloc, hop⟩ := hd.returns
        by_cases hj : j = i
        · subst hj
          simp [ringCalls, hloc, hop, he]
        · simp [ringCalls, hloc, Function.update_of_ne (Ne.symm hj), he, Calls.mine_other hj]

/-- **One producer and one consumer.** Whatever their steps are interleaved like, the
calls return what a FIFO queue of at most `Cap` elements returns in the order of
their last steps, each thread's in its own order. -/
theorem single_linear (hc : capacity + 1 ≠ 0) (r : (singleRing ι T capacity p c).Run .new ls s) :
    (history (capacity + 1).toNat ls).map (fun e => e.2.2) =
        Object.results (CircleQueue.Bounded.apply capacity.toNat) []
          ((history (capacity + 1).toNat ls).map fun e => e.2.1) ∧
      Object.final (CircleQueue.Bounded.apply capacity.toNat) []
          ((history (capacity + 1).toNat ls).map fun e => e.2.1) =
        s.returned.drop s.popped.length ∧
      ∀ i, Calls.mine i (ls.filterMap (ringCalls ι T (capacity + 1).toNat).call) =
        (Calls.mine i (history (capacity + 1).toNat ls)).map Prod.fst ++ (s.loc i).op.toList := by
  rw [CircleQueue.toNat_succ hc]
  obtain ⟨h1, h2, h3⟩ := (single_step_linear hc).run
    (SafeCircleQueNOLock.step (capacity.toNat + 1))
    (fun _ _ _ hst => (singleRing_step hc hst).1) r ⟨single_new _, rfl⟩
  exact ⟨h1, h2.2, h3⟩

def Label.runs (i : ι) : Label ι T → Bool
  | .call _ _ => false
  | .run j => decide (j = i)

def Label.calls (i : ι) : Label ι T → Bool
  | .call j _ => decide (j = i)
  | .run _ => false

/-- What a thread does, each step of its call paid for when it is called. -/
theorem single_steps (hc : capacity + 1 ≠ 0) (h : Single capacity.toNat p c s)
    (r : (singleRing ι T capacity p c).Run s ls s') (i : ι) :
    (s'.loc i).left + ls.countP (Label.runs i) ≤
      (s.loc i).left + 6 * ls.countP (Label.calls i) := by
  have hcost := LTS.run_cost (fun s => (s.loc i).left) (fun l => if Label.runs i l then 1 else 0)
    (fun l => if Label.calls i l then 6 else 0) (single_inductive hc).step ?_ r h
  · rw [LTS.sum_weight, LTS.sum_weight] at hcost
    omega
  · intro s l s' h hst
    obtain ⟨hs, ho⟩ := singleRing_step hc hst
    cases l with
    | call j op =>
      obtain ⟨-, -, -, -, x, hloc, -, hleft⟩ := h.call hs ho
      by_cases hj : j = i
      · subst hj
        simp [Label.runs, Label.calls, hloc]; omega
      · simp [Label.runs, Label.calls, hloc, Function.update_of_ne (Ne.symm hj)]
    | run j =>
      obtain ⟨x, hloc, hleft⟩ := h.lower hs
      by_cases hj : j = i
      · subst hj
        simp [Label.runs, Label.calls, hloc]; omega
      · simp [Label.runs, Label.calls, hloc, hj, Function.update_of_ne (Ne.symm hj)]

/-- **Wait-freedom.** No call takes more than 6 steps, whatever the other thread does
meanwhile, and it can always take its next one. -/
theorem single_wait_free (hc : capacity + 1 ≠ 0)
    (h : (singleRing ι T capacity p c).Reachable s) (i : ι) :
    (∀ op s₁ ls s', (singleRing ι T capacity p c).step s (.call i op) s₁ →
      (singleRing ι T capacity p c).Run s₁ ls s' → ls.countP (Label.calls i) = 0 →
        ls.countP (Label.runs i) + (s'.loc i).left ≤ 6) ∧
      (s.loc i ≠ .idle → ∃ s', (singleRing ι T capacity p c).step s (.run i) s') := by
  have hsingle := (single_inductive hc).reachable s h
  constructor
  · intro op s₁ ls s' hcall r hnone
    obtain ⟨hs, ho⟩ := singleRing_step hc hcall
    obtain ⟨hsingle₁, -, -, -, x, hloc, -, hleft⟩ := hsingle.call hs ho
    have hsteps := single_steps hc hsingle₁ r i
    rw [hloc, Function.update_self, hnone] at hsteps
    omega
  · intro hi
    suffices ∃ s', s.run (capacity + 1).toNat i = some s' by
      obtain ⟨s', hs'⟩ := this
      exact ⟨s', hs', trivial⟩
    rw [CircleQueue.toNat_succ hc]
    unfold SafeCircleQueNOLock.run
    cases hx : s.loc i with
    | idle => exact absurd hx hi
    | testEmpty head | testTailUp head => simp only; split <;> exact ⟨_, rfl⟩
    | testFull value tail | casTail value tail | casTailUp value tail number
    | casHead head data again =>
      simp only [CircleQueue.modulo_succ, Option.map_some]
      exact ⟨_, rfl⟩
    | _ => exact ⟨_, rfl⟩

end

/-- Room for one value: while `pop` takes it another `emplace` is refused. -/
def emplaceWhilePop : List (Label Bool Nat) :=
  calls true (.emplace 5) 5 ++ calls false .pop 3 ++ calls true (.emplace 6) 2 ++
    List.replicate 3 (.run false)

/-- A step of the ring for one value, with one producer and one consumer. -/
def singleStep (s : SafeCircleQueNOLock Bool Nat) (l : Label Bool Nat) :
    Option (SafeCircleQueNOLock Bool Nat) :=
  (s.step 2 l).filter fun _ => decide (Owns true false l)

theorem single_linear_refused : ∃ s, (singleRing Bool Nat 1 true false).Run .new emplaceWhilePop s ∧
    (history 2 emplaceWhilePop).map (fun e => e.2.2) =
      [.emplaced true, .emplaced false, .popped (some 5)] ∧
    (history 2 emplaceWhilePop).map (fun e => e.2.2) =
      Object.results (CircleQueue.Bounded.apply 1) []
        ((history 2 emplaceWhilePop).map fun e => e.2.1) := by
  have hrun : ∃ s, LTS.exec singleStep .new emplaceWhilePop = some s := ⟨_, rfl⟩
  obtain ⟨s, he⟩ := hrun
  have r : (singleRing Bool Nat 1 true false).Run .new emplaceWhilePop s :=
    LTS.run_restrict_of_exec he
  exact ⟨s, r, rfl, (single_linear (by decide) r).1⟩

/-- The `pop` takes all of its steps, three of them after the other's `emplace`. -/
theorem single_wait_free_refused : ∃ s ls,
    (singleRing Bool Nat 1 true false).Reachable s ∧
    (∃ s₁ s', (singleRing Bool Nat 1 true false).step s (.call false .pop) s₁ ∧
      (singleRing Bool Nat 1 true false).Run s₁ ls s') ∧
    ls.countP (Label.runs false) = 6 ∧ ls.countP (Label.runs true) = 2 ∧
      ls.countP (Label.runs false) ≤ 6 := by
  have hrun : ∃ s s₁ s', LTS.exec singleStep .new (calls true (.emplace 5) 5) = some s ∧
      singleStep s (.call false .pop) = some s₁ ∧ LTS.exec singleStep s₁ (List.replicate 3
        (.run false) ++ calls true (.emplace 6) 2 ++ List.replicate 3 (.run false)) = some s' :=
    ⟨_, _, _, rfl, rfl, rfl⟩
  obtain ⟨s, s₁, s', he, hcall, hrest⟩ := hrun
  have hr : (singleRing Bool Nat 1 true false).Reachable s :=
    ⟨.new, _, rfl, LTS.run_restrict_of_exec he⟩
  have hstep : (singleRing Bool Nat 1 true false).step s (.call false .pop) s₁ :=
    ⟨(Option.filter_eq_some_iff.mp hcall).1, rfl⟩
  have r : (singleRing Bool Nat 1 true false).Run s₁ _ s' := LTS.run_restrict_of_exec hrest
  have hbound := (single_wait_free (by decide) hr false).1 .pop s₁ _ s' hstep r rfl
  exact ⟨s, _, hr, ⟨s₁, s', hstep, r⟩, rfl, rfl, Nat.le_trans (Nat.le_add_right _ _) hbound⟩

end Cxx.LockFree
