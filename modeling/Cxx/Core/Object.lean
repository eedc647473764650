import Cxx.Core.LTS

/-!
# Objects and what they implement

An object is a transition system whose labels are the calls with their
results; a call that does not return has no step. A specification is a
function from a call to its result and the state it leaves.

* `Implements`: every call returns, with the result of the specification.
* `Implements.run`, `Implements.total`: so do all sequences of calls.
* `results_congr`: the same for an object that is a function itself.
-/
namespace Cxx

namespace Object

variable {S T Op Res : Type}

/-- The results of a sequence of calls, and the state it leaves. -/
def results (f : T → Op → Res × T) : T → List Op → List Res
  | _, [] => []
  | t, op :: ops => (f t op).1 :: results f (f t op).2 ops

def final (f : T → Op → Res × T) (t : T) (ops : List Op) : T :=
  ops.foldl (fun t op => (f t op).2) t

structure Implements (M : LTS S (Op × Res)) (f : T → Op → Res × T) (R : S → T → Prop) : Prop where
  returns : ∀ s t op, R s t → ∃ res s', M.step s (op, res) s'
  agrees : ∀ s t op res s', R s t → M.step s (op, res) s' → res = (f t op).1 ∧ R s' (f t op).2

variable {M : LTS S (Op × Res)} {f : T → Op → Res × T} {R : S → T → Prop} {s s' : S} {t : T}
  {ls : List (Op × Res)}

/-- A call has the one outcome that the specification names. -/
theorem implements_of_step (h : ∀ s t op, R s t → ∃ s', R s' (f t op).2 ∧
    ∀ res s'', M.step s (op, res) s'' ↔ res = (f t op).1 ∧ s'' = s') : Implements M f R where
  returns := by
    intro s t op hR
    obtain ⟨s', -, hstep⟩ := h s t op hR
    exact ⟨(f t op).1, s', (hstep _ _).mpr ⟨rfl, rfl⟩⟩
  agrees := by
    intro s t op res s'' hR hst
    obtain ⟨s', hR', hstep⟩ := h s t op hR
    obtain ⟨rfl, rfl⟩ := (hstep res s'').mp hst
    exact ⟨rfl, hR'⟩

theorem Implements.run (h : Implements M f R) (r : M.Run s ls s') : ∀ {t : T}, R s t →
    ls.map Prod.snd = results f t (ls.map Prod.fst) ∧ R s' (final f t (ls.map Prod.fst)) := by
  induction r with
  | nil => exact fun hR => ⟨rfl, hR⟩
  | @cons s s' s'' l ls hst _ ih =>
    intro t hR
    obtain ⟨op, res⟩ := l
    obtain ⟨hres, hR'⟩ := h.agrees _ _ _ _ _ hR hst
    obtain ⟨hresults, hR''⟩ := ih hR'
    exact ⟨congrArg₂ List.cons hres hresults, hR''⟩

theorem Implements.total (h : Implements M f R) (ops : List Op) : ∀ {s : S} {t : T}, R s t →
    ∃ ls s', ls.map Prod.fst = ops ∧ M.Run s ls s' := by
  induction ops with
  | nil => intro s t _; exact ⟨[], s, rfl, .nil s⟩
  | cons op ops ih =>
    intro s t hR
    obtain ⟨res, s', hst⟩ := h.returns s t op hR
    obtain ⟨ls, s'', hops, r⟩ := ih (h.agrees _ _ _ _ _ hR hst).2
    exact ⟨(op, res) :: ls, s'', congrArg (List.cons op) hops, .cons hst r⟩

/-- Two functions that answer every call alike from related states. -/
theorem results_congr {f : S → Op → Res × S} {g : T → Op → Res × T} {R : S → T → Prop}
    (h : ∀ s t op, R s t → (f s op).1 = (g t op).1 ∧ R (f s op).2 (g t op).2) (ops : List Op) :
    ∀ {s : S} {t : T}, R s t →
      results f s ops = results g t ops ∧ R (final f s ops) (final g t ops) := by
  induction ops with
  | nil => exact fun hR => ⟨rfl, hR⟩
  | cons op ops ih =>
    intro s t hR
    obtain ⟨hres, hR'⟩ := h s t op hR
    obtain ⟨hresults, hfinal⟩ := ih hR'
    exact ⟨congrArg₂ List.cons hres hresults, hfinal⟩

end Object

end Cxx
