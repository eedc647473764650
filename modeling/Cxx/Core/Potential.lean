import Cxx.Core.LTS
import Mathlib.Algebra.Order.Ring.Nat
import Mathlib.Algebra.Order.BigOperators.Group.Finset

/-!
# Potentials

A potential `μ` is a number for every state. A step with the label `l` raises it
by `gain l` at most, and by what `credit` grows by, out of which it pays `cost l`.

* `run_balance`: what a run pays is covered by what it starts with, gains and is credited.
* `run_cost`: the same without credit.
* `run_keeps`: what the steps with some labels keep.
* `run_length`, `run_to_end`: labels that lower `μ` lead to a state where none of them
  has a step.
* `sum_weight`: what the labels of one kind pay, by their number.
* `Threads.total`: the potential of some threads, from the places they are at.
-/
namespace Cxx

namespace LTS

variable {S L : Type} {M : LTS S L} {I : S → Prop}

theorem run_balance (μ credit : S → Nat) (cost gain : L → Nat)
    (hI : ∀ s l s', I s → M.step s l s' → I s')
    (hstep : ∀ s l s', I s → M.step s l s' →
      μ s' + cost l + credit s ≤ μ s + gain l + credit s')
    {s s' : S} {ls : List L} (r : M.Run s ls s') (hs : I s) :
    μ s' + (ls.map cost).sum + credit s ≤ μ s + (ls.map gain).sum + credit s' := by
  induction r with
  | nil => simp
  | @cons s t s' l ls hst _ ih =>
    have h1 := hstep s l t hs hst
    have h2 := ih (hI s l t hs hst)
    simp only [List.map_cons, List.sum_cons]
    omega

theorem run_cost (μ : S → Nat) (cost gain : L → Nat) (hI : ∀ s l s', I s → M.step s l s' → I s')
    (hstep : ∀ s l s', I s → M.step s l s' → μ s' + cost l ≤ μ s + gain l) {s s' : S} {ls : List L}
    (r : M.Run s ls s') (hs : I s) : μ s' + (ls.map cost).sum ≤ μ s + (ls.map gain).sum :=
  run_balance μ (fun _ => 0) cost gain hI hstep r hs

/-- What the steps with some labels keep. -/
theorem run_keeps {p : L → Prop} (hI : ∀ s l s', I s → p l → M.step s l s' → I s') {s s' : S}
    {ls : List L} (r : M.Run s ls s') (hls : ∀ l ∈ ls, p l) (hs : I s) : I s' := by
  induction r with
  | nil => exact hs
  | cons hst _ ih =>
    rw [List.forall_mem_cons] at hls
    exact ih hls.2 (hI _ _ _ hs hls.1 hst)

/-- Labels that lower `μ` do not go on for ever. -/
theorem run_length (μ : S → Nat) {p : L → Prop} (hI : ∀ s l s', I s → p l → M.step s l s' → I s')
    (hstep : ∀ s l s', I s → p l → M.step s l s' → μ s' < μ s) {s s' : S} {ls : List L}
    (r : M.Run s ls s') (hls : ∀ l ∈ ls, p l) (hs : I s) : ls.length ≤ μ s := by
  induction r with
  | nil => simp
  | cons hst _ ih =>
    rw [List.forall_mem_cons] at hls
    have hlt := hstep _ _ _ hs hls.1 hst
    have hle := ih hls.2 (hI _ _ _ hs hls.1 hst)
    rw [List.length_cons]
    omega

/-- They lead to a state where none of them has a step. -/
theorem run_to_end (μ : S → Nat) (p : L → Prop)
    (hI : ∀ s l s', I s → p l → M.step s l s' → I s')
    (hstep : ∀ s l s', I s → p l → M.step s l s' → μ s' < μ s) {s : S} (hs : I s) :
    ∃ ls s', M.Run s ls s' ∧ (∀ l ∈ ls, p l) ∧ I s' ∧ ∀ l t, p l → ¬ M.step s' l t := by
  induction hn : μ s using Nat.strong_induction_on generalizing s with
  | _ n ih =>
    by_cases hend : ∀ l t, p l → ¬ M.step s l t
    · exact ⟨[], s, .nil s, by simp, hs, hend⟩
    · simp only [not_forall, not_not] at hend
      obtain ⟨l, t, hl, hst⟩ := hend
      have hlt : μ t < n := hn ▸ hstep s l t hs hl hst
      obtain ⟨ls, s', r, hls, hs', hend⟩ := ih (μ t) hlt (hI s l t hs hl hst) rfl
      refine ⟨l :: ls, s', .cons hst r, ?_, hs', hend⟩
      simpa using ⟨hl, hls⟩

/-- The labels that `p` picks weigh `k` each. -/
theorem sum_weight (p : L → Bool) (k : Nat) (ls : List L) :
    (ls.map fun l => if p l then k else 0).sum = k * ls.countP p := by
  induction ls with
  | nil => simp
  | cons l ls ih =>
    simp only [List.map_cons, List.sum_cons, ih, List.countP_cons]
    cases p l <;> simp [Nat.mul_add, Nat.add_comm]

end LTS

namespace Threads

variable {ι P : Type} [Fintype ι] {weight : P → Nat} {f g : ι → P}

def total (weight : P → Nat) (f : ι → P) : Nat := ∑ i, weight (f i)

theorem total_const (x : P) : total weight (fun _ : ι => x) = Fintype.card ι * weight x := by
  simp [total]

/-- One thread moves. -/
theorem total_update [DecidableEq ι] (weight : P → Nat) (f : ι → P) (i : ι) (x : P) :
    total weight (Function.update f i x) + weight (f i) = total weight f + weight x := by
  unfold total
  rw [← Finset.add_sum_erase _ _ (Finset.mem_univ i),
    ← Finset.add_sum_erase _ (fun j => weight (f j)) (Finset.mem_univ i), Function.update_self]
  have hothers : ∑ j ∈ Finset.univ.erase i, weight (Function.update f i x j) =
      ∑ j ∈ Finset.univ.erase i, weight (f j) :=
    Finset.sum_congr rfl fun j hj => by rw [Function.update_of_ne (Finset.ne_of_mem_erase hj)]
  omega

theorem total_le {k : Nat} (h : ∀ i, weight (g i) ≤ weight (f i) + k) :
    total weight g ≤ total weight f + Fintype.card ι * k := by
  have hsum := Finset.sum_le_sum fun i (_ : i ∈ Finset.univ) => h i
  simpa [total, Finset.sum_add_distrib] using hsum

end Threads

end Cxx
