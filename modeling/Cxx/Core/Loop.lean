import Mathlib.Logic.Basic

/-!
# Loops

A loop is the function of one turn: it goes on with another state, or leaves
with a result. `Loop.Returns` is the result of a loop that ends; a loop that
runs for ever has none.

* `Returns.unique`: a loop has one result at most.
* `Goes.returns_iff`: the turns already made do not change the result.
* `not_returns`: an invariant whose states all go on keeps the loop running.
* `exec`, `returns_of_exec`: a concrete loop is a computation.
-/
namespace Cxx

inductive Turn (S R : Type) where
  | again (s : S)
  | leave (r : R)
  deriving DecidableEq, Repr

namespace Loop

variable {S R : Type} {turn : S → Turn S R} {s s' s'' : S} {r r' : R}

inductive Returns (turn : S → Turn S R) : S → R → Prop
  | leave {s : S} {r : R} (h : turn s = .leave r) : Returns turn s r
  | again {s s' : S} {r : R} (h : turn s = .again s') (ret : Returns turn s' r) : Returns turn s r

/-- Some turns, after each of which the loop goes on. -/
inductive Goes (turn : S → Turn S R) : S → S → Prop
  | refl (s : S) : Goes turn s s
  | again {s s' s'' : S} (h : turn s = .again s') (go : Goes turn s' s'') : Goes turn s s''

theorem Goes.one (h : turn s = .again s') : Goes turn s s' := .again h (.refl s')

theorem Goes.trans (h : Goes turn s s') (h' : Goes turn s' s'') : Goes turn s s'' := by
  induction h with
  | refl => exact h'
  | again h _ ih => exact .again h (ih h')

/-- The turns of one loop as turns of another. -/
theorem Goes.map {S' R' : Type} {turn' : S' → Turn S' R'} {g : S → S'}
    (hg : ∀ s s', turn s = .again s' → turn' (g s) = .again (g s')) (h : Goes turn s s') :
    Goes turn' (g s) (g s') := by
  induction h with
  | refl => exact .refl _
  | again h _ ih => exact .again (hg _ _ h) ih

theorem Returns.unique (h : Returns turn s r) (h' : Returns turn s r') : r = r' := by
  induction h with
  | leave h =>
    cases h' with
    | leave h' => exact Turn.leave.inj (h.symm.trans h')
    | again h' _ => cases h.symm.trans h'
  | again h _ ih =>
    cases h' with
    | leave h' => cases h.symm.trans h'
    | again h' ret' => exact ih (Turn.again.inj (h.symm.trans h') ▸ ret')

theorem Goes.returns_iff (h : Goes turn s s') : Returns turn s r ↔ Returns turn s' r := by
  induction h with
  | refl => exact Iff.rfl
  | again h _ ih =>
    rw [← ih]
    constructor
    · intro ret
      cases ret with
      | leave h' => cases h.symm.trans h'
      | again h' ret => exact Turn.again.inj (h'.symm.trans h) ▸ ret
    · exact .again h

/-- The loop leaves after some turns. -/
theorem Goes.returns (h : Goes turn s s') (hr : turn s' = .leave r) : Returns turn s r :=
  h.returns_iff.mpr (.leave hr)

theorem Goes.eq_of_returns (h : Goes turn s s') (hr : turn s' = .leave r')
    (ret : Returns turn s r) : r = r' :=
  ret.unique (h.returns hr)

theorem returns_iff_of_leave (h : turn s = .leave r) : Returns turn s r' ↔ r' = r :=
  ⟨fun ret => ret.unique (.leave h), fun he => he ▸ .leave h⟩

/-- States that all go on to one another never leave the loop. -/
theorem not_returns {I : S → Prop} (hI : ∀ s, I s → ∃ s', turn s = .again s' ∧ I s') (hs : I s) :
    ¬ Returns turn s r := by
  intro ret
  induction ret with
  | leave h =>
    obtain ⟨s', hs', -⟩ := hI _ hs
    cases h.symm.trans hs'
  | again h _ ih =>
    obtain ⟨s', hs', hI'⟩ := hI _ hs
    exact ih (Turn.again.inj (h.symm.trans hs') ▸ hI')

/-- A loop whose turns do not make its condition false ends at once or never. -/
theorem eq_of_returns {Q : S → Prop} {turn : S → Turn S S} {s s' : S}
    (hleave : ∀ s, Q s → turn s = .leave s)
    (hagain : ∀ s, ¬ Q s → ∃ s', turn s = .again s' ∧ ¬ Q s') (ret : Returns turn s s') :
    s' = s := by
  by_cases hs : Q s
  · exact (returns_iff_of_leave (hleave s hs)).mp ret
  · exact absurd ret (not_returns hagain hs)

/-- The first turns of a loop, until it leaves. -/
def exec (turn : S → Turn S R) : Nat → S → Option R
  | 0, _ => none
  | fuel + 1, s =>
    match turn s with
    | .leave r => some r
    | .again s' => exec turn fuel s'

theorem returns_of_exec {fuel : Nat} (h : exec turn fuel s = some r) : Returns turn s r := by
  induction fuel generalizing s with
  | zero => cases h
  | succ fuel ih =>
    unfold exec at h
    cases ht : turn s with
    | leave r' =>
      simp only [ht, Option.some.injEq] at h
      exact h ▸ .leave ht
    | again s' =>
      simp only [ht] at h
      exact .again ht (ih h)

end Loop

end Cxx
