import Mathlib.Data.List.Basic

/-!
# Labelled transition systems

`LTS S L` is a set of initial states and a labelled step relation. A run is
a list of labels from one state to another; a state is reachable when some
run from an initial state ends in it.

* `Inductive.reachable`: a predicate that holds initially and is kept by
  every step holds of every reachable state. `Inductive.assuming` lets the
  step case use an invariant that is already known.
* `restrict H`: the runs all of whose steps satisfy `H`. `run_restrict_congr`
  compares two such restrictions step by step, `run_restrict_or` says what
  becomes of the other runs.
* `Simulation`: every step of one system is matched by steps of another, so
  that its reachable states are related to reachable ones.
* `ofFn`: the system of a step function; `exec` runs a list of labels
  through it, so that a concrete run is a computation.
-/
namespace Cxx

structure LTS (S L : Type) where
  init : S → Prop
  step : S → L → S → Prop

namespace LTS

variable {S L T K : Type} {M : LTS S L}

inductive Run (M : LTS S L) : S → List L → S → Prop
  | nil (s : S) : Run M s [] s
  | cons {s s' s'' : S} {l : L} {ls : List L} (h : M.step s l s') (r : Run M s' ls s'') :
      Run M s (l :: ls) s''

def Reachable (M : LTS S L) (s : S) : Prop := ∃ s₀ ls, M.init s₀ ∧ M.Run s₀ ls s

theorem Run.append {s s' s'' : S} {ks ls : List L} (r : M.Run s ks s') (r' : M.Run s' ls s'') :
    M.Run s (ks ++ ls) s'' := by
  induction r with
  | nil => exact r'
  | cons h _ ih => exact .cons h (ih r')

/-! ## Invariants -/

structure Inductive (M : LTS S L) (I : S → Prop) : Prop where
  init : ∀ s, M.init s → I s
  step : ∀ s l s', I s → M.step s l s' → I s'

theorem Inductive.run {I : S → Prop} (h : M.Inductive I) {s s' : S} {ls : List L}
    (r : M.Run s ls s') (hs : I s) : I s' := by
  induction r with
  | nil => exact hs
  | cons hst _ ih => exact ih (h.step _ _ _ hs hst)

theorem Inductive.reachable {I : S → Prop} (h : M.Inductive I) (s : S) (hr : M.Reachable s) :
    I s := by
  obtain ⟨s₀, ls, h₀, r⟩ := hr
  exact h.run r (h.init _ h₀)

/-- A predicate kept by the steps that leave states satisfying a known
invariant `J` is itself an invariant of the reachable states. -/
theorem Inductive.assuming {I J : S → Prop} (hJ : M.Inductive J) (h₀ : ∀ s, M.init s → I s)
    (hs : ∀ s l s', J s → I s → M.step s l s' → I s') : M.Inductive fun s => J s ∧ I s where
  init := fun s h => ⟨hJ.init s h, h₀ s h⟩
  step := fun s l s' ⟨hj, hi⟩ hst => ⟨hJ.step s l s' hj hst, hs s l s' hj hi hst⟩

/-! ## Runs under a condition on their steps -/

def restrict (M : LTS S L) (H : S → L → S → Prop) : LTS S L where
  init := M.init
  step := fun s l s' => M.step s l s' ∧ H s l s'

/-- An invariant of a system is one of its restrictions. -/
theorem Inductive.restrict {I : S → Prop} (h : M.Inductive I) (H : S → L → S → Prop) :
    (M.restrict H).Inductive I where
  init := h.init
  step := fun s l s' hi hst => h.step s l s' hi hst.1

theorem run_restrict_of_imp {I : S → Prop} {H K : S → L → S → Prop}
    (hI : (M.restrict H).Inductive I)
    (himp : ∀ s l s', I s → M.step s l s' → H s l s' → K s l s') {s s' : S} {ls : List L}
    (hs : I s) (r : (M.restrict H).Run s ls s') : (M.restrict K).Run s ls s' := by
  induction r with
  | nil => exact .nil _
  | cons h _ ih => exact .cons ⟨h.1, himp _ _ _ hs h.1 h.2⟩ (ih (hI.step _ _ _ hs h))

/-- Two step conditions that agree on every step leaving a state that
satisfies an invariant select the same runs. -/
theorem run_restrict_congr {I : S → Prop} {H K : S → L → S → Prop} (hI : (M.restrict H).Inductive I)
    (hiff : ∀ s l s', I s → M.step s l s' → (H s l s' ↔ K s l s')) {s s' : S} {ls : List L}
    (hs : I s) : (M.restrict H).Run s ls s' ↔ (M.restrict K).Run s ls s' := by
  have hK : (M.restrict K).Inductive I :=
    ⟨hI.init, fun s l s' hi h => hI.step s l s' hi ⟨h.1, (hiff s l s' hi h.1).mpr h.2⟩⟩
  constructor
  · exact run_restrict_of_imp hI (fun s l s' hi hst => (hiff s l s' hi hst).mp) hs
  · exact run_restrict_of_imp hK (fun s l s' hi hst => (hiff s l s' hi hst).mpr) hs

/-- What becomes of a run if it leaves a restriction: when the steps outside it
lead to states that satisfy `B`, and `B` stays. -/
theorem run_restrict_or {I B : S → Prop} {H : S → L → S → Prop} (hI : (M.restrict H).Inductive I)
    (hB : ∀ s l s', I s → M.step s l s' → ¬ H s l s' → B s')
    (hstay : ∀ s l s', B s → M.step s l s' → B s') {s t : S} {ls : List L} (hs : I s)
    (r : M.Run s ls t) : (M.restrict H).Run s ls t ∨ B t := by
  have stays : ∀ {s t : S} {ls : List L}, M.Run s ls t → B s → B t := by
    intro s t ls r
    induction r with
    | nil => exact id
    | cons h _ ih => exact fun hb => ih (hstay _ _ _ hb h)
  induction r with
  | nil => exact .inl (.nil _)
  | @cons s s' t l ls h r ih =>
    by_cases hH : H s l s'
    · rcases ih (hI.step _ _ _ hs ⟨h, hH⟩) with hr | hb
      · exact .inl (.cons ⟨h, hH⟩ hr)
      · exact .inr hb
    · exact .inr (stays r (hB _ _ _ hs h hH))

/-! ## Simulations -/

/-- Every step of `M` is matched by a run of `N`, which may be empty. -/
structure Simulation (M : LTS S L) (N : LTS T K) (R : S → T → Prop) : Prop where
  init : ∀ s, M.init s → ∃ t, N.init t ∧ R s t
  step : ∀ s l s' t, R s t → M.step s l s' → ∃ ks t', N.Run t ks t' ∧ R s' t'

theorem Simulation.run {N : LTS T K} {R : S → T → Prop} (h : M.Simulation N R) {s s' : S}
    {ls : List L}
    (r : M.Run s ls s') : ∀ {t : T}, R s t → ∃ ks t', N.Run t ks t' ∧ R s' t' := by
  induction r with
  | nil => intro t hR; exact ⟨[], t, .nil t, hR⟩
  | cons hs _ ih =>
    intro t hR
    obtain ⟨ks, t', h₁, hR'⟩ := h.step _ _ _ _ hR hs
    obtain ⟨ks', t'', h₂, hR''⟩ := ih hR'
    exact ⟨ks ++ ks', t'', h₁.append h₂, hR''⟩

theorem Simulation.reachable {N : LTS T K} {R : S → T → Prop} (h : M.Simulation N R) {s : S}
    (hr : M.Reachable s) : ∃ t, N.Reachable t ∧ R s t := by
  obtain ⟨s₀, ls, h₀, r⟩ := hr
  obtain ⟨t₀, ht₀, hR⟩ := h.init _ h₀
  obtain ⟨ks, t, ht, hR'⟩ := h.run r hR
  exact ⟨t, ⟨t₀, ks, ht₀, ht⟩, hR'⟩

/-! ## Systems given by a step function -/

def ofFn (init : S → Prop) (step : S → L → Option S) : LTS S L where
  init := init
  step := fun s l s' => step s l = some s'

def exec (step : S → L → Option S) : S → List L → Option S
  | s, [] => some s
  | s, l :: ls => (step s l).bind fun s' => exec step s' ls

theorem run_of_exec {init : S → Prop} {step : S → L → Option S} :
    ∀ {ls : List L} {s s' : S}, exec step s ls = some s' → (ofFn init step).Run s ls s'
  | [], s, s', h => by
    simp only [exec, Option.some.injEq] at h
    subst h; exact .nil s
  | l :: ls, s, s', h => by
    simp only [exec, Option.bind_eq_some_iff] at h
    obtain ⟨t, ht, hr⟩ := h
    exact .cons ht (run_of_exec hr)

/-- One step is a run. -/
theorem run_step {init : S → Prop} {step : S → L → Option S} {s s' : S} {l : L}
    (h : step s l = some s') :
    (ofFn init step).Run s [l] s' := .cons h (.nil s')

theorem reachable_of_exec {init : S → Prop} {step : S → L → Option S} {ls : List L} {s s' : S}
    (hs : init s) (h : exec step s ls = some s') : (ofFn init step).Reachable s' :=
  ⟨s, ls, hs, run_of_exec h⟩

/-- A run whose steps satisfy a decidable condition is a computation too. -/
theorem run_restrict_of_exec {init : S → Prop} {step : S → L → Option S} {H : S → L → S → Prop}
    [∀ s l s', Decidable (H s l s')] {ls : List L} : ∀ {s s' : S},
    exec (fun s l => (step s l).filter fun s' => decide (H s l s')) s ls = some s' →
      ((ofFn init step).restrict H).Run s ls s' := by
  induction ls with
  | nil =>
    intro s s' h
    simp only [exec, Option.some.injEq] at h
    subst h; exact .nil s
  | cons l ls ih =>
    intro s s' h
    simp only [exec, Option.bind_eq_some_iff, Option.filter_eq_some_iff, decide_eq_true_eq] at h
    obtain ⟨t, ⟨ht, hH⟩, hr⟩ := h
    exact .cons ⟨ht, hH⟩ (ih hr)

end LTS

end Cxx
