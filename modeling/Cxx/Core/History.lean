import Mathlib.Data.List.Basic
import Mathlib.Data.List.Perm.Basic

/-!
# Histories of containers

The pushes and pops of a container in their order. A container is given by
where `put` takes a value in; the next value to be popped is the first one.

* `Legal put es vs`: the container can have the history `es`, and holds `vs`.
* `Legal.perm`, `Legal.fifo`: what has been pushed has been popped, once, or is held.
* `Legal.lifo`: a stack pops what was pushed last, of what it holds.
-/
namespace Cxx.History

variable {T : Type}

inductive Event (T : Type) where
  | push (v : T)
  | pop (v : T)
  deriving DecidableEq, Repr

def Event.pushed? : Event T → Option T
  | .push v => some v
  | .pop _ => none

def Event.popped? : Event T → Option T
  | .push _ => none
  | .pop v => some v

def pushes (es : List (Event T)) : List T := es.filterMap Event.pushed?

def pops (es : List (Event T)) : List T := es.filterMap Event.popped?

inductive Legal (put : List T → T → List T) : List (Event T) → List T → Prop
  | nil : Legal put [] []
  | push {es : List (Event T)} {vs : List T} (v : T) (h : Legal put es vs) :
      Legal put (es ++ [.push v]) (put vs v)
  | pop {es : List (Event T)} {vs : List T} {v : T} (h : Legal put es (v :: vs)) :
      Legal put (es ++ [.pop v]) vs

variable {put : List T → T → List T} {es es' : List (Event T)} {vs : List T} {v : T}

theorem pushes_push (es : List (Event T)) (v : T) : pushes (es ++ [.push v]) = pushes es ++ [v] :=
  List.filterMap_append

theorem pushes_pop (es : List (Event T)) (v : T) : pushes (es ++ [.pop v]) = pushes es :=
  List.filterMap_append.trans (List.append_nil _)

theorem pops_push (es : List (Event T)) (v : T) : pops (es ++ [.push v]) = pops es :=
  List.filterMap_append.trans (List.append_nil _)

theorem pops_pop (es : List (Event T)) (v : T) : pops (es ++ [.pop v]) = pops es ++ [v] :=
  List.filterMap_append

/-- Every value pushed has been popped once, or is held. -/
theorem Legal.perm (hput : ∀ vs v, (put vs v).Perm (v :: vs)) (h : Legal put es vs) :
    (pushes es).Perm (pops es ++ vs) := by
  induction h with
  | nil => exact .refl _
  | @push es vs v _ ih =>
    rw [pushes_push, pops_push]
    calc (pushes es ++ [v]).Perm (v :: pushes es) := List.perm_append_singleton _ _
      _ |>.Perm (v :: (pops es ++ vs)) := ih.cons v
      _ |>.Perm (pops es ++ (v :: vs)) := List.perm_middle.symm
      _ |>.Perm (pops es ++ put vs v) := (hput vs v).symm.append_left _
  | @pop es vs v _ ih =>
    rw [pushes_pop, pops_pop, List.append_assoc]
    exact ih

/-- A queue pops in the order of the pushes. -/
theorem Legal.fifo (h : Legal (fun vs v => vs ++ [v]) es vs) : pushes es = pops es ++ vs := by
  induction h with
  | nil => rfl
  | push v _ ih => rw [pushes_push, pops_push, ih, List.append_assoc]
  | pop _ ih =>
    rw [pushes_pop, pops_pop, ih, List.append_assoc]
    rfl

/-- The value pushed last, of those held: what came in after it is gone. -/
theorem Legal.lifo (h : Legal (fun vs v => v :: vs) es (v :: vs)) :
    ∃ es₁ es₂, es = es₁ ++ .push v :: es₂ ∧ Legal (fun vs v => v :: vs) es₁ vs ∧
      Legal (fun vs v => v :: vs) es₂ [] := by
  have general : ∀ {es : List (Event T)} {held : List T}, Legal (fun vs v => v :: vs) es held →
      ∀ above, held = above ++ v :: vs → ∃ es₁ es₂, es = es₁ ++ .push v :: es₂ ∧
        Legal (fun vs v => v :: vs) es₁ vs ∧ Legal (fun vs v => v :: vs) es₂ above := by
    intro es held h
    induction h with
    | nil => intro above he; exact absurd he.symm (List.append_ne_nil_of_right_ne_nil _ nofun)
    | @push es held w hes ih =>
      intro above he
      have he : w :: held = above ++ v :: vs := he
      cases above with
      | nil =>
        obtain ⟨rfl, rfl⟩ := List.cons.inj he
        exact ⟨es, [], rfl, hes, .nil⟩
      | cons x above =>
        obtain ⟨rfl, hrest⟩ := List.cons.inj he
        obtain ⟨es₁, es₂, rfl, h₁, h₂⟩ := ih above hrest
        exact ⟨es₁, es₂ ++ [.push w], by rw [List.append_assoc]; rfl, h₁, h₂.push w⟩
    | @pop es held w _ ih =>
      intro above he
      obtain ⟨es₁, es₂, rfl, h₁, h₂⟩ := ih (w :: above) (congrArg (List.cons w) he)
      exact ⟨es₁, es₂ ++ [.pop w], by rw [List.append_assoc]; rfl, h₁, h₂.pop⟩
  exact general h [] rfl

/-- What a pop has taken was the first value held. -/
theorem Legal.popped (h : Legal put (es ++ .pop v :: es') vs) :
    ∃ held, Legal put es (v :: held) := by
  have general : ∀ {all : List (Event T)} {vs : List T}, Legal put all vs →
      ∀ es', all = es ++ .pop v :: es' → ∃ held, Legal put es (v :: held) := by
    intro all vs h
    induction h with
    | nil => intro es' he; exact absurd he.symm (List.append_ne_nil_of_right_ne_nil _ nofun)
    | push w _ ih =>
      intro es' he
      rcases List.eq_nil_or_concat es' with rfl | ⟨front, e, rfl⟩
      · cases (List.append_inj' he rfl).2
      · rw [List.concat_eq_append, ← List.cons_append, ← List.append_assoc] at he
        exact ih front (List.append_inj' he rfl).1
    | @pop all vs w hall ih =>
      intro es' he
      rcases List.eq_nil_or_concat es' with rfl | ⟨front, e, rfl⟩
      · obtain ⟨rfl, hlast⟩ := List.append_inj' he rfl
        cases hlast
        exact ⟨vs, hall⟩
      · rw [List.concat_eq_append, ← List.cons_append, ← List.append_assoc] at he
        exact ih front (List.append_inj' he rfl).1
  exact general h es' rfl

end Cxx.History
