import Cxx.Core.LTS
import Cxx.Core.Object

/-!
# Calls that take several steps

The threads of a program make calls, each of which is some steps long. Of a label
`call` says which call it starts and of which thread; `effect s l` is the call that
takes effect at a step, with its result; `pending s i` is the one that thread `i` is at.

* `Linear`: a step is one call of the specification if a call takes effect, and else none.
* `Linear.run`: the calls in the order of their effects have the results of the
  specification, and each thread's are those it has made but for its pending one.
-/
namespace Cxx

structure Calls (ι S L Op Res : Type) where
  call : L → Option (ι × Op)
  effect : S → L → Option (ι × Op × Res)
  pending : S → ι → Option Op

namespace Calls

variable {ι S T L Op Res α : Type}

/-- What is the thread's, in its order. -/
def mine [DecidableEq ι] (i : ι) (xs : List (ι × α)) : List α :=
  (xs.filter fun x => decide (x.1 = i)).map Prod.snd

variable [DecidableEq ι] {i j : ι}

theorem mine_append (xs ys : List (ι × α)) : mine i (xs ++ ys) = mine i xs ++ mine i ys := by
  simp [mine]

@[simp] theorem mine_nil : mine i ([] : List (ι × α)) = [] := rfl

@[simp] theorem mine_self (a : α) : mine i [(i, a)] = [a] := by
  simp [mine]

theorem mine_other (h : j ≠ i) (a : α) : mine i [(j, a)] = [] := by
  simp [mine, h]

variable (C : Calls ι S L Op Res) (step : S → L → Option S)

/-- The calls of a run in the order of their effects. -/
def effects : S → List L → List (ι × Op × Res)
  | _, [] => []
  | s, l :: ls => (C.effect s l).toList ++
    match step s l with
    | none => []
    | some s' => effects s' ls

/-- The state `s` stands for the state `t` of the specification `f`. -/
structure Linear (M : LTS S L) (f : T → Op → Res × T) (R : S → T → Prop) : Prop where
  silent : ∀ s l s' t, R s t → M.step s l s' → C.effect s l = none → R s' t
  takes : ∀ s l s' t i op res, R s t → M.step s l s' → C.effect s l = some (i, op, res) →
    res = (f t op).1 ∧ R s' (f t op).2
  thread : ∀ s l s' t i, R s t → M.step s l s' →
    (C.pending s i).toList ++ mine i (C.call l).toList =
      (mine i (C.effect s l).toList).map Prod.fst ++ (C.pending s' i).toList

variable {C} {M : LTS S L} {f : T → Op → Res × T} {R : S → T → Prop}

theorem Linear.run (step : S → L → Option S) (h : C.Linear M f R)
    (hM : ∀ s l s', M.step s l s' → step s l = some s')
    {s s' : S} {ls : List L} (r : M.Run s ls s') : ∀ {t : T}, R s t →
    ((C.effects step s ls).map fun e => e.2.2) =
        Object.results f t ((C.effects step s ls).map fun e => e.2.1) ∧
      R s' (Object.final f t ((C.effects step s ls).map fun e => e.2.1)) ∧
      ∀ i, (C.pending s i).toList ++ mine i (ls.filterMap C.call) =
        (mine i (C.effects step s ls)).map Prod.fst ++ (C.pending s' i).toList := by
  induction r with
  | nil =>
    intro t hR
    exact ⟨rfl, hR, fun i => by simp [effects]⟩
  | @cons s s' s'' l ls hst _ ih =>
    intro t hR
    have hthread := fun i => h.thread s l s' t i hR hst
    have hcalls : (l :: ls).filterMap C.call = (C.call l).toList ++ ls.filterMap C.call := by
      cases hc : C.call l <;> simp [hc]
    simp only [effects, hM s l s' hst, hcalls, mine_append]
    cases he : C.effect s l with
    | none =>
      obtain ⟨h1, h2, h3⟩ := ih (h.silent s l s' t hR hst he)
      refine ⟨h1, h2, fun i => ?_⟩
      rw [← List.append_assoc, hthread i, he]
      exact h3 i
    | some e =>
      obtain ⟨j, op, res⟩ := e
      obtain ⟨hres, hR'⟩ := h.takes s l s' t j op res hR hst he
      obtain ⟨h1, h2, h3⟩ := ih hR'
      refine ⟨congrArg₂ List.cons hres h1, h2, fun i => ?_⟩
      rw [← List.append_assoc, hthread i, he, List.append_assoc, h3 i, List.map_append,
        List.append_assoc]

end Calls

end Cxx
