import Cxx.Core.Threads
import Mathlib.Data.Finset.Lattice.Fold

/-!
# Mutexes that are held several at a time

The threads of a program are the places `f : ι → P` they are at. `locks x` are
the mutexes that a thread at `x` holds, `wants x` the one it is about to lock.

* `Owned locks owner f`: the mutexes are with the threads that are at places
  where they hold them. `Owned.keep`, `Owned.acquire` and `Owned.release` are
  what a step of one thread does to it.
* `Owned.progress`: when every thread waits for a mutex above all those it holds,
  there is always a thread that does not wait in vain.
-/
namespace Cxx

namespace Locks

variable {ι P M : Type}

/-- The owners of the mutexes are the threads that hold them. -/
def Owned (locks : P → List M) (owner : M → Option ι) (f : ι → P) : Prop :=
  ∀ i m, m ∈ locks (f i) ↔ owner m = some i

/-- A thread at this place cannot go on: another has the mutex it is about to lock. -/
def Blocked (wants : P → Option M) (owner : M → Option ι) (x : P) : Prop :=
  ∃ m, wants x = some m ∧ owner m ≠ none

variable {locks : P → List M} {owner : M → Option ι} {f : ι → P} {i j : ι} {x : P} {m : M}

theorem owned_init (h : ∀ i, locks (f i) = []) : Owned locks (fun _ => none) f := by
  intro i m
  simp [h i]

theorem Owned.owner_eq (h : Owned locks owner f) (hm : m ∈ locks (f i)) : owner m = some i :=
  (h i m).mp hm

/-- A mutex is held by one thread at most. -/
theorem Owned.exclusive (h : Owned locks owner f) (hi : m ∈ locks (f i)) (hj : m ∈ locks (f j)) :
    i = j :=
  Option.some.inj ((h.owner_eq hi).symm.trans (h.owner_eq hj))

variable [DecidableEq ι]

/-- A thread moves, and holds what it held. -/
theorem Owned.keep (h : Owned locks owner f) (hx : ∀ m, m ∈ locks x ↔ m ∈ locks (f i)) :
    Owned locks owner (Function.update f i x) := by
  refine Threads.forall_update (Q := fun j y => ∀ m, m ∈ locks y ↔ owner m = some j) ?_
    fun j _ => h j
  intro m
  rw [hx m]
  exact h i m

variable [DecidableEq M]

theorem Owned.acquire (h : Owned locks owner f) (hm : owner m = none)
    (hx : ∀ m', m' ∈ locks x ↔ m' = m ∨ m' ∈ locks (f i)) :
    Owned locks (Function.update owner m (some i)) (Function.update f i x) := by
  refine Threads.forall_update
    (Q := fun j y => ∀ m', m' ∈ locks y ↔ Function.update owner m (some i) m' = some j)
    (fun m' => ?_) fun j hj m' => ?_
  · rw [hx m', h i m']
    by_cases he : m' = m
    · subst he; simp
    · rw [Function.update_of_ne he]; simp [he]
  · by_cases he : m' = m
    · subst he
      rw [h j m', hm, Function.update_self]
      simp [Ne.symm hj]
    · rw [Function.update_of_ne he]
      exact h j m'

theorem Owned.release (h : Owned locks owner f) (hm : m ∈ locks (f i))
    (hx : ∀ m', m' ∈ locks x ↔ m' ≠ m ∧ m' ∈ locks (f i)) :
    Owned locks (Function.update owner m none) (Function.update f i x) := by
  refine Threads.forall_update
    (Q := fun j y => ∀ m', m' ∈ locks y ↔ Function.update owner m none m' = some j)
    (fun m' => ?_) fun j hj m' => ?_
  · rw [hx m', h i m']
    by_cases he : m' = m
    · subst he; simp
    · rw [Function.update_of_ne he]; simp [he]
  · by_cases he : m' = m
    · subst he
      rw [Function.update_self]
      refine iff_of_false (fun hin => hj (h.exclusive hin hm)) (by simp)
    · rw [Function.update_of_ne he]
      exact h j m'

omit [DecidableEq M] [DecidableEq ι] in
/-- Mutexes are locked in the order of their ranks. Whoever is blocked is blocked,
in the end, by a thread that is not, and that holds something. -/
theorem Owned.progress [Fintype ι] (h : Owned locks owner f) (wants : P → Option M) (rank : M → Nat)
    (hrank : ∀ i m m', wants (f i) = some m → m' ∈ locks (f i) → rank m' < rank m) (i : ι) :
    ¬ Blocked wants owner (f i) ∨ ∃ j, locks (f j) ≠ [] ∧ ¬ Blocked wants owner (f j) := by
  by_contra hnone
  have hall : ∀ j, j = i ∨ locks (f j) ≠ [] → Blocked wants owner (f j) := by
    intro j hj
    by_contra hb
    rcases hj with rfl | hj
    · exact hnone (.inl hb)
    · exact hnone (.inr ⟨j, hj, hb⟩)
  -- each owner waits for a mutex of a higher rank, and the ranks are bounded
  have hchain : ∀ n, ∃ j m, Blocked wants owner (f j) ∧ wants (f j) = some m ∧ n ≤ rank m := by
    intro n
    induction n with
    | zero =>
      have hb := hall i (.inl rfl)
      obtain ⟨m, hm, -⟩ := id hb
      exact ⟨i, m, hb, hm, Nat.zero_le _⟩
    | succ n ih =>
      obtain ⟨j, m, hb, hm, hn⟩ := ih
      obtain ⟨m', hm', howner⟩ := hb
      have he : m' = m := Option.some.inj (hm'.symm.trans hm)
      subst he
      obtain ⟨k, hk⟩ := Option.ne_none_iff_exists'.mp howner
      have hheld := (h k m').mpr hk
      have hbk := hall k (.inr (List.ne_nil_of_mem hheld))
      obtain ⟨w, hw, -⟩ := id hbk
      have := hrank k w m' hw hheld
      exact ⟨k, w, hbk, hw, by omega⟩
  let tops : Finset Nat := Finset.univ.image fun j => ((wants (f j)).map rank).getD 0
  obtain ⟨j, m, -, hm, hn⟩ := hchain (tops.sup id + 1)
  have hle : rank m ≤ tops.sup id := by
    refine Finset.le_sup (f := id) ?_
    refine Finset.mem_image.mpr ⟨j, Finset.mem_univ j, ?_⟩
    rw [hm]; rfl
  omega

end Locks

end Cxx
