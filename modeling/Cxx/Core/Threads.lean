import Mathlib.Data.Fintype.Basic
import Mathlib.Data.Finset.Card

/-!
# Threads and condition variables

The threads of a program are the places `f : ι → P` they are at, of which a
step changes one (`Function.update`).

* `Exclusive inside m f`: the mutex `m` and the threads inside its critical
  sections. `Distinct key f`: what one thread has to itself.
* `count p f`: how many threads are at a place with property `p`;
  `count_update` is what a step of one thread does to it.
* `Wait`: the phases of `condition_variable::wait(lock, pred)`.
* `CondVar`: which places are blocked on a condition variable and where a
  notification takes them; `notifyOne`, `notifyAll`.
-/
namespace Cxx

namespace Threads

variable {ι P : Type}

theorem forall_update [DecidableEq ι] {Q : ι → P → Prop} {f : ι → P} {i : ι} {x : P} (hx : Q i x)
    (h : ∀ j, j ≠ i → Q j (f j)) : ∀ j, Q j (Function.update f i x j) := by
  intro j
  by_cases hj : j = i
  · subst hj; rwa [Function.update_self]
  · rw [Function.update_of_ne hj]; exact h j hj

/-! ## Mutual exclusion -/

/-- The threads inside the critical sections of a mutex are its owner. -/
def Exclusive (inside : P → Bool) (m : Option ι) (f : ι → P) : Prop :=
  ∀ i, inside (f i) = true ↔ m = some i

/-- The place of the owner. -/
def held (m : Option ι) (f : ι → P) : Option P := m.map f

theorem held_eq_some {m : Option ι} {f : ι → P} {x : P} (h : held m f = some x) :
    ∃ i, m = some i ∧ f i = x := Option.map_eq_some_iff.mp h

theorem held_enter [DecidableEq ι] {f : ι → P} {i : ι} {x : P} :
    held (some i) (Function.update f i x) = some x := by
  rw [held, Option.map_some, Function.update_self]

section
variable {inside : P → Bool} {m : Option ι} {f g : ι → P} {i j : ι} {x : P}

theorem Exclusive.held_eq (h : Exclusive inside m f) (hi : inside (f i) = true) :
    held m f = some (f i) := by
  rw [(h i).mp hi]; rfl

theorem Exclusive.held_congr (h : Exclusive inside m f)
    (hg : ∀ i, inside (f i) = true → g i = f i) : held m g = held m f := by
  unfold held
  cases m with
  | none => rfl
  | some k => exact congrArg some (hg k ((h k).mpr rfl))

theorem Exclusive.others (h : Exclusive inside m f) (hi : inside (f i) = true) (hj : j ≠ i) :
    inside (f j) = false := by
  cases hin : inside (f j) with
  | false => rfl
  | true =>
    have := (h j).mp hin
    rw [(h i).mp hi] at this
    exact absurd (Option.some.inj this).symm hj

theorem Exclusive.congr (h : Exclusive inside m f) (hg : ∀ i, inside (g i) = inside (f i)) :
    Exclusive inside m g := by
  intro i
  rw [hg i]
  exact h i

variable [DecidableEq ι]

theorem Exclusive.stay (h : Exclusive inside m f) (hx : inside x = inside (f i)) :
    Exclusive inside m (Function.update f i x) := by
  apply h.congr
  intro j
  by_cases hj : j = i
  · subst hj; rw [Function.update_self, hx]
  · rw [Function.update_of_ne hj]

theorem Exclusive.enter (h : Exclusive inside none f) (hx : inside x = true) :
    Exclusive inside (some i) (Function.update f i x) := by
  intro j
  by_cases hj : j = i
  · subst hj; rw [Function.update_self, hx]; simp
  · rw [Function.update_of_ne hj]
    constructor
    · intro hin; cases (h j).mp hin
    · intro he; exact absurd (Option.some.inj he).symm hj

theorem Exclusive.leave (h : Exclusive inside m f) (hi : inside (f i) = true)
    (hx : inside x = false) : Exclusive inside none (Function.update f i x) := by
  intro j
  by_cases hj : j = i
  · subst hj; rw [Function.update_self, hx]; simp
  · rw [Function.update_of_ne hj, h.others hi hj]; simp

/-- The owner moves. -/
theorem Exclusive.held_update (h : Exclusive inside m f) (hi : inside (f i) = true) :
    held m (Function.update f i x) = some x := by
  unfold held
  rw [(h i).mp hi]
  exact held_enter

/-- Someone else moves. -/
theorem Exclusive.held_update_of_outside (h : Exclusive inside m f) (hi : inside (f i) = false) :
    held m (Function.update f i x) = held m f := by
  unfold held
  cases m with
  | none => rfl
  | some k =>
    have hk : k ≠ i := by
      intro he
      subst he
      rw [(h k).mpr rfl] at hi; cases hi
    rw [Option.map_some, Function.update_of_ne hk, Option.map_some]

end

/-! ## What one thread has to itself -/

/-- No two threads have the same key. -/
def Distinct {K : Type} (key : P → Option K) (f : ι → P) : Prop :=
  ∀ i j k, key (f i) = some k → key (f j) = some k → i = j

section
variable {K : Type} {key : P → Option K} {f : ι → P} {i : ι} {x : P}

/-- A thread gets a key that nobody else has. -/
theorem Distinct.gain [DecidableEq ι] (h : Distinct key f)
    (hx : ∀ k, key x = some k → ∀ j, j ≠ i → key (f j) ≠ some k) :
    Distinct key (Function.update f i x) := by
  intro j j' k hj hj'
  by_cases he : j = i
  · by_cases he' : j' = i
    · rw [he, he']
    · rw [he, Function.update_self] at hj
      rw [Function.update_of_ne he'] at hj'
      exact absurd hj' (hx k hj j' he')
  · rw [Function.update_of_ne he] at hj
    by_cases he' : j' = i
    · rw [he', Function.update_self] at hj'
      exact absurd hj (hx k hj' j he)
    · rw [Function.update_of_ne he'] at hj'
      exact h j j' k hj hj'

/-- A thread keeps its key or gives it up. -/
theorem Distinct.move [DecidableEq ι] (h : Distinct key f)
    (hx : ∀ k, key x = some k → key (f i) = some k) : Distinct key (Function.update f i x) :=
  h.gain fun k hk j hj hj' => hj (h j i k hj' (hx k hk))

end

/-! ## Counting -/

section
variable [Fintype ι]

def count (p : P → Bool) (f : ι → P) : Nat := (Finset.univ.filter fun i => p (f i) = true).card

theorem count_pos {p : P → Bool} {f : ι → P} : 0 < count p f ↔ ∃ i, p (f i) = true := by
  unfold count
  rw [Finset.card_pos]
  constructor
  · intro h
    obtain ⟨i, hi⟩ := h
    exact ⟨i, (Finset.mem_filter.mp hi).2⟩
  · intro h
    obtain ⟨i, hi⟩ := h
    exact ⟨i, Finset.mem_filter.mpr ⟨Finset.mem_univ i, hi⟩⟩

theorem count_eq_zero {p : P → Bool} {f : ι → P} : count p f = 0 ↔ ∀ i, p (f i) = false := by
  constructor
  · intro h i
    cases hi : p (f i) with
    | false => rfl
    | true => exact absurd (count_pos.mpr ⟨i, hi⟩) (by omega)
  · intro h
    cases hn : count p f with
    | zero => rfl
    | succ n =>
      have hpos : 0 < count p f := by omega
      obtain ⟨i, hi⟩ := count_pos.mp hpos
      rw [h i] at hi; cases hi

theorem count_congr {p q : P → Bool} {f g : ι → P} (h : ∀ i, p (f i) = q (g i)) :
    count p f = count q g := by
  unfold count
  congr 1
  exact Finset.filter_congr fun i _ => by rw [h i]

theorem count_mono {p q : P → Bool} {f g : ι → P} (h : ∀ i, p (f i) = true → q (g i) = true) :
    count p f ≤ count q g := by
  unfold count
  apply Finset.card_le_card
  intro i hi
  rw [Finset.mem_filter] at hi ⊢
  exact ⟨hi.1, h i hi.2⟩

/-- One thread moves. -/
theorem count_update [DecidableEq ι] (p : P → Bool) (f : ι → P) (i : ι) (x : P) :
    count p (Function.update f i x) + (p (f i)).toNat = count p f + (p x).toNat := by
  have split : ∀ g : ι → P, count p g =
      ((Finset.univ.erase i).filter fun j => p (g j) = true).card + (p (g i)).toNat := by
    intro g
    unfold count
    rw [← Finset.insert_erase (Finset.mem_univ i), Finset.filter_insert]
    cases hp : p (g i) with
    | true =>
      rw [if_pos rfl, Finset.card_insert_of_notMem (by simp), Finset.erase_insert (by simp)]
      rfl
    | false =>
      rw [if_neg (by simp), Finset.erase_insert (by simp)]
      rfl
  have others : ((Finset.univ.erase i).filter fun j => p (Function.update f i x j) = true) =
      (Finset.univ.erase i).filter fun j => p (f j) = true := by
    apply Finset.filter_congr
    intro j hj
    rw [Function.update_of_ne (Finset.ne_of_mem_erase hj)]
  rw [split (Function.update f i x), split f, others, Function.update_self]
  omega

end

end Threads

/-- A thread in a wait on a condition variable. -/
inductive Wait where
  /-- about to lock the mutex and evaluate the predicate -/
  | enter
  /-- the predicate was false; the mutex is still held -/
  | sleepy
  /-- blocked; the mutex has been released -/
  | blocked
  /-- unblocked, about to lock the mutex again and evaluate the predicate -/
  | woken
  deriving DecidableEq, Repr

/-- Whether the next step of the wait is to lock the mutex and evaluate the predicate. -/
def Wait.evaluates : Wait → Bool
  | .enter | .woken => true
  | .sleepy | .blocked => false

/-- The places of a program blocked on one condition variable. -/
structure CondVar (P : Type) where
  blocked : P → Bool
  wake : P → P
  unblocks : ∀ x, blocked x = true → blocked (wake x) = false

namespace CondVar

variable {ι P : Type} (c : CondVar P)

def notifyAll (f : ι → P) : ι → P := fun i => if c.blocked (f i) then c.wake (f i) else f i

/-- One blocked thread wakes up, if there is one. Which one it is, is for the
system to say. -/
def notifyOne [Fintype ι] [DecidableEq ι] (f : ι → P) : Option ι → Option (ι → P)
  | some j => if c.blocked (f j) then some (Function.update f j (c.wake (f j))) else none
  | none => if ∀ j, c.blocked (f j) = false then some f else none

variable {c}

theorem notifyAll_unblocked (f : ι → P) (i : ι) : c.blocked (c.notifyAll f i) = false := by
  unfold notifyAll
  cases h : c.blocked (f i) with
  | true => rw [if_pos rfl]; exact c.unblocks _ h
  | false => simpa using h

theorem notifyAll_of_unblocked {f : ι → P} {i : ι} (h : c.blocked (f i) = false) :
    c.notifyAll f i = f i := by
  unfold notifyAll
  rw [h, if_neg (by simp)]

theorem notifyOne_spec [Fintype ι] [DecidableEq ι] {f g : ι → P} {target : Option ι}
    (h : c.notifyOne f target = some g) :
    (∃ j, c.blocked (f j) = true ∧ g = Function.update f j (c.wake (f j))) ∨
      ((∀ j, c.blocked (f j) = false) ∧ g = f) := by
  unfold notifyOne at h
  cases target with
  | some j =>
    obtain ⟨hj, hg⟩ := Option.ite_none_right_eq_some.mp h
    exact .inl ⟨j, hj, (Option.some.inj hg).symm⟩
  | none =>
    obtain ⟨hj, hg⟩ := Option.ite_none_right_eq_some.mp h
    exact .inr ⟨hj, (Option.some.inj hg).symm⟩

/-- What waking up does not change, a notification does not change. -/
theorem notifyAll_keeps {q : P → Bool} (hq : ∀ x, c.blocked x = true → q (c.wake x) = q x)
    (f : ι → P) (i : ι) : q (c.notifyAll f i) = q (f i) := by
  unfold notifyAll
  cases h : c.blocked (f i) with
  | true => rw [if_pos rfl]; exact hq _ h
  | false => rw [if_neg (by simp)]

/-- The owner of a mutex does not wait, so it stays where it is. -/
theorem held_notifyAll [DecidableEq ι] {inside : P → Bool} {m : Option ι} {f : ι → P}
    (h : Threads.Exclusive inside m f)
    (hwake : ∀ x, c.blocked x = true → inside (c.wake x) = inside x)
    (hrun : ∀ x, inside x = true → c.blocked x = false) {i : ι} {x : P}
    (hi : inside (f i) = false) :
    Threads.held m (Function.update (c.notifyAll f) i x) = Threads.held m f := by
  have hkeeps := notifyAll_keeps hwake f
  rw [(h.congr hkeeps).held_update_of_outside (by rw [hkeeps, hi])]
  exact h.held_congr fun k hk => notifyAll_of_unblocked (hrun _ hk)

theorem notifyOne_keeps [Fintype ι] [DecidableEq ι] {q : P → Bool}
    (hq : ∀ x, c.blocked x = true → q (c.wake x) = q x) {f g : ι → P} {target : Option ι}
    (h : c.notifyOne f target = some g) (i : ι) : q (g i) = q (f i) := by
  rcases notifyOne_spec h with ⟨j, hj, rfl⟩ | ⟨-, rfl⟩
  · by_cases hij : i = j
    · subst hij; rw [Function.update_self, hq _ hj]
    · rw [Function.update_of_ne hij]
  · rfl

/-! ## No lost wake-ups

Each of `n` things that threads are blocked for has a thread that takes it
or sees to it that one does: it is about to notify, or has been notified, or
has found its predicate true. -/

section
variable [Fintype ι]

/-- If a thread is blocked, as many threads help as there are things to be had. -/
def Served (c : CondVar P) (helps : P → Bool) (n : Nat) (f : ι → P) : Prop :=
  0 < Threads.count c.blocked f → n ≤ Threads.count helps f

variable {helps : P → Bool} {m n : Nat} {f g : ι → P} {i : ι} {x : P}

theorem Served.zero : Served c helps 0 f := fun _ => Nat.zero_le _

/-- A blocked thread for which there is something has a helper. -/
theorem Served.helper (h : Served c helps n f) (hi : c.blocked (f i) = true) (hn : 0 < n) :
    ∃ k, helps (f k) = true :=
  Threads.count_pos.mp (Nat.lt_of_lt_of_le hn (h (Threads.count_pos.mpr ⟨i, hi⟩)))

/-- Nobody blocks, nobody stops helping, and there is not more to be had. -/
theorem Served.of_le (h : Served c helps n f)
    (hb : ∀ k, c.blocked (g k) = true → c.blocked (f k) = true)
    (hh : ∀ k, helps (f k) = true → helps (g k) = true) (hm : m ≤ n) : Served c helps m g := by
  intro hpos
  have hf := h (Nat.lt_of_lt_of_le hpos (Threads.count_mono hb))
  exact hm.trans (hf.trans (Threads.count_mono hh))

/-- Notifications on another condition variable. -/
theorem Served.notifyAll_other {d : CondVar P} (h : Served c helps n f)
    (hb : ∀ x, d.blocked x = true → c.blocked (d.wake x) = c.blocked x)
    (hh : ∀ x, d.blocked x = true → helps (d.wake x) = helps x) :
    Served c helps n (d.notifyAll f) :=
  h.of_le (fun k hk => by rwa [notifyAll_keeps hb] at hk)
    (fun k hk => by rwa [notifyAll_keeps hh]) (Nat.le_refl n)

variable [DecidableEq ι]

theorem Served.notifyOne_other {d : CondVar P} (h : Served c helps n f) {target : Option ι}
    (hg : d.notifyOne f target = some g)
    (hb : ∀ x, d.blocked x = true → c.blocked (d.wake x) = c.blocked x)
    (hh : ∀ x, d.blocked x = true → helps (d.wake x) = helps x) : Served c helps n g :=
  h.of_le (fun k hk => by rwa [notifyOne_keeps hb hg] at hk)
    (fun k hk => by rwa [notifyOne_keeps hh hg]) (Nat.le_refl n)

/-- Everyone has been notified. -/
theorem Served.notifyAll (hx : c.blocked x = false) :
    Served c helps n (Function.update (c.notifyAll f) i x) := by
  intro hpos
  obtain ⟨k, hk⟩ := Threads.count_pos.mp hpos
  have hkf : c.blocked (Function.update (c.notifyAll f) i x k) = false :=
    Threads.forall_update (Q := fun _ y => c.blocked y = false) hx
      (fun j _ => notifyAll_unblocked f j) k
  rw [hkf] at hk
  cases hk

theorem Served.move (h : Served c helps n f) (hb : c.blocked x = true → c.blocked (f i) = true)
    (hh : helps (f i) = true → helps x = true) : Served c helps n (Function.update f i x) := by
  apply h.of_le _ _ (Nat.le_refl n)
  · exact Threads.forall_update (Q := fun k y => c.blocked y = true → c.blocked (f k) = true) hb
      fun _ _ => id
  · exact Threads.forall_update (Q := fun k y => helps (f k) = true → helps y = true) hh
      fun _ _ => id

/-- There is one more to be had, and one more helper. -/
theorem Served.add (h : Served c helps n f) (hb : c.blocked x = true → c.blocked (f i) = true)
    (hi : helps (f i) = false) (hx : helps x = true) :
    Served c helps (n + 1) (Function.update f i x) := by
  intro hpos
  have hf := h (Nat.lt_of_lt_of_le hpos (Threads.count_mono (Threads.forall_update
    (Q := fun k y => c.blocked y = true → c.blocked (f k) = true) hb fun _ _ => id)))
  have hcount := Threads.count_update helps f i x
  rw [hi, hx] at hcount
  simp only [Bool.toNat_false, Bool.toNat_true] at hcount
  omega

/-- A helper takes what there is for it. -/
theorem Served.take (h : Served c helps (n + 1) f)
    (hb : c.blocked x = true → c.blocked (f i) = true) :
    Served c helps n (Function.update f i x) := by
  intro hpos
  have hf := h (Nat.lt_of_lt_of_le hpos (Threads.count_mono (Threads.forall_update
    (Q := fun k y => c.blocked y = true → c.blocked (f k) = true) hb fun _ _ => id)))
  have hcount := Threads.count_update helps f i x
  have hle : (helps (f i)).toNat ≤ 1 := Bool.toNat_le _
  omega

/-- A thread notifies and moves on: if somebody is blocked after that, there is one
more helper, the thread that has been woken. -/
theorem notifyOne_helps {target : Option ι} (hg : c.notifyOne f target = some g)
    (hw : ∀ y, c.blocked y = true → helps y = false ∧ helps (c.wake y) = true)
    (hi : c.blocked (f i) = false) (hx : c.blocked x = false)
    (hpos : 0 < Threads.count c.blocked (Function.update g i x)) :
    0 < Threads.count c.blocked f ∧ Threads.count helps f + 1 ≤
      Threads.count helps (Function.update g i x) + (helps (f i)).toNat := by
  rcases notifyOne_spec hg with ⟨j, hj, rfl⟩ | ⟨hnone, rfl⟩
  · have hji : i ≠ j := by
      intro he
      rw [← he, hi] at hj; cases hj
    have hwake := Threads.count_update helps f j (c.wake (f j))
    have hcount := Threads.count_update helps (Function.update f j (c.wake (f j))) i x
    rw [(hw _ hj).1, (hw _ hj).2] at hwake
    rw [Function.update_of_ne hji] at hcount
    simp only [Bool.toNat_false, Bool.toNat_true] at hwake
    exact ⟨Threads.count_pos.mpr ⟨j, hj⟩, by omega⟩
  · -- nobody was blocked
    exfalso
    obtain ⟨k, hk⟩ := Threads.count_pos.mp hpos
    have hkf : c.blocked (Function.update g i x k) = false :=
      Threads.forall_update (Q := fun _ y => c.blocked y = false) hx (fun j _ => hnone j) k
    rw [hkf] at hk
    cases hk

/-- A helper notifies: the thread it wakes helps in its place. -/
theorem Served.notify (h : Served c helps n f) {target : Option ι}
    (hg : c.notifyOne f target = some g) (hw : ∀ y, c.blocked y = true →
      helps y = false ∧ helps (c.wake y) = true) (hi : c.blocked (f i) = false)
    (hx : c.blocked x = false) : Served c helps n (Function.update g i x) := by
  intro hpos
  obtain ⟨hblocked, hhelps⟩ := notifyOne_helps hg hw hi hx hpos
  have hf := h hblocked
  have hle : (helps (f i)).toNat ≤ 1 := Bool.toNat_le _
  omega

/-- There is one more to be had, and a thread that does not help notifies. -/
theorem Served.put (h : Served c helps n f) {target : Option ι}
    (hg : c.notifyOne f target = some g) (hw : ∀ y, c.blocked y = true →
      helps y = false ∧ helps (c.wake y) = true) (hi : c.blocked (f i) = false)
    (hih : helps (f i) = false) (hx : c.blocked x = false) :
    Served c helps (n + 1) (Function.update g i x) := by
  intro hpos
  obtain ⟨hblocked, hhelps⟩ := notifyOne_helps hg hw hi hx hpos
  have hf := h hblocked
  rw [hih, Bool.toNat_false] at hhelps
  omega

end

/-- Whoever sleeps will be told. -/
def Told (asleep tells : P → Bool) (f : ι → P) : Prop :=
  (∃ i, asleep (f i) = true) → ∃ k, tells (f k) = true

theorem Told.of_le {asleep tells : P → Bool} {f g : ι → P} (h : Told asleep tells f)
    (ha : ∀ k, asleep (g k) = true → asleep (f k) = true)
    (ht : ∀ k, tells (f k) = true → tells (g k) = true) : Told asleep tells g := by
  intro hs
  obtain ⟨j, hj⟩ := hs
  obtain ⟨k, hk⟩ := h ⟨j, ha j hj⟩
  exact ⟨k, ht k hk⟩

theorem Told.move [DecidableEq ι] {asleep tells : P → Bool} {f : ι → P} {i : ι} {x : P}
    (h : Told asleep tells f) (ha : asleep x = true → asleep (f i) = true)
    (ht : tells (f i) = true → tells x = true) : Told asleep tells (Function.update f i x) := by
  intro hs
  obtain ⟨j, hj⟩ := hs
  have hf : ∃ i, asleep (f i) = true := by
    by_cases hji : j = i
    · subst hji; rw [Function.update_self] at hj; exact ⟨j, ha hj⟩
    · rw [Function.update_of_ne hji] at hj; exact ⟨j, hj⟩
  obtain ⟨k, hk⟩ := h hf
  by_cases hki : k = i
  · subst hki; exact ⟨k, by rw [Function.update_self]; exact ht hk⟩
  · exact ⟨k, by rw [Function.update_of_ne hki]; exact hk⟩

theorem Told.notifyAll {asleep tells : P → Bool} {f : ι → P} (h : Told asleep tells f)
    (ha : ∀ x, c.blocked x = true → asleep (c.wake x) = true → asleep x = true)
    (ht : ∀ x, c.blocked x = true → tells (c.wake x) = tells x) :
    Told asleep tells (c.notifyAll f) := by
  apply h.of_le
  · intro k hk
    unfold CondVar.notifyAll at hk
    cases hb : c.blocked (f k) with
    | true => rw [hb, if_pos rfl] at hk; exact ha _ hb hk
    | false => rwa [hb, if_neg (by simp)] at hk
  · intro k hk
    rwa [notifyAll_keeps ht]

theorem Told.notifyOne [Fintype ι] [DecidableEq ι] {asleep tells : P → Bool} {f g : ι → P}
    {target : Option ι} (h : Told asleep tells f) (hg : c.notifyOne f target = some g)
    (ha : ∀ x, c.blocked x = true → asleep (c.wake x) = true → asleep x = true)
    (ht : ∀ x, c.blocked x = true → tells (c.wake x) = tells x) : Told asleep tells g := by
  rcases notifyOne_spec hg with ⟨j, hj, rfl⟩ | ⟨-, rfl⟩
  · exact h.move (ha _ hj) (fun hk => by rwa [ht _ hj])
  · exact h

/-- A thread notifies all and moves on. Those asleep now were `deaf`; when there
are such, somebody else is still to tell. -/
theorem Told.broadcast [DecidableEq ι] {asleep tells deaf : P → Bool} {f : ι → P} {i : ι} {x : P}
    (hd : ∀ j, asleep (c.notifyAll f j) = true → deaf (f j) = true)
    (ht : ∀ x, c.blocked x = true → tells (c.wake x) = tells x) (hx : asleep x = false)
    (h : (∃ j, deaf (f j) = true) → ∃ k, k ≠ i ∧ tells (f k) = true) :
    Told asleep tells (Function.update (c.notifyAll f) i x) := by
  intro hs
  obtain ⟨j, hj⟩ := hs
  have hji : j ≠ i := by
    intro he
    rw [he, Function.update_self, hx] at hj
    cases hj
  rw [Function.update_of_ne hji] at hj
  obtain ⟨k, hki, hk⟩ := h ⟨j, hd j hj⟩
  refine ⟨k, ?_⟩
  rw [Function.update_of_ne hki, notifyAll_keeps ht]
  exact hk

theorem Told.teller {asleep tells : P → Bool} {f : ι → P} (i : ι) (hi : tells (f i) = true) :
    Told asleep tells f := fun _ => ⟨i, hi⟩

end CondVar

end Cxx
