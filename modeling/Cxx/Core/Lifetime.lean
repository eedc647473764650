import Mathlib.Data.List.Basic
import Mathlib.Logic.Function.Basic

/-!
# Lifetimes

The constructions and destructions of objects at some places. `replay` keeps
track of the places with a live object: an object is constructed only where
there is none, and destroyed only where there is one. `Proper`: that is so
throughout, and no object is left alive; then every object constructed has been
destroyed exactly once.
-/
namespace Cxx.Lifetime

variable {K : Type}

inductive Event (K : Type) where
  | construct (place : K)
  | destroy (place : K)
  deriving DecidableEq, Repr

def Event.isConstruct : Event K → Bool
  | .construct _ => true
  | .destroy _ => false

variable [DecidableEq K] {alive alive' : K → Bool} {es : List (Event K)} {e : Event K} {k : K}

def Event.apply (alive : K → Bool) : Event K → Option (K → Bool)
  | .construct k => if alive k then none else some (Function.update alive k true)
  | .destroy k => if alive k then some (Function.update alive k false) else none

def replay : (K → Bool) → List (Event K) → Option (K → Bool)
  | alive, [] => some alive
  | alive, e :: es => (e.apply alive).bind fun alive' => replay alive' es

def Proper (es : List (Event K)) : Prop :=
  ∃ alive, replay (fun _ => false) es = some alive ∧ ∀ k, alive k = false

theorem proper_nil : Proper ([] : List (Event K)) := ⟨_, rfl, fun _ => rfl⟩

/-- A construction leaves one object alive, and every object that was. -/
theorem apply_construct (h : e.apply alive = some alive') (he : e.isConstruct = true) :
    (∃ k, alive' k = true) ∧ ∀ k, alive k = true → alive' k = true := by
  cases e with
  | destroy k => cases he
  | construct k =>
    obtain ⟨-, h⟩ := Option.ite_none_left_eq_some.mp h
    cases h
    refine ⟨⟨k, Function.update_self _ _ _⟩, fun j hj => ?_⟩
    by_cases hjk : j = k
    · rw [hjk, Function.update_self]
    · rw [Function.update_of_ne hjk]; exact hj

theorem replay_constructs (hc : ∀ e ∈ es, e.isConstruct = true) :
    ∀ {alive : K → Bool}, replay alive es = some alive' → alive k = true → alive' k = true := by
  induction es with
  | nil => intro alive h hk; cases h; exact hk
  | cons e es ih =>
    intro alive h hk
    obtain ⟨alive₁, he, hr⟩ := Option.bind_eq_some_iff.mp h
    have hkept := (apply_construct he (hc e List.mem_cons_self)).2 k hk
    exact ih (fun e he => hc e (List.mem_cons_of_mem _ he)) hr hkept

/-- Where nothing is destroyed, nothing must have been constructed. -/
theorem Proper.eq_nil (h : Proper es) (hc : ∀ e ∈ es, e.isConstruct = true) : es = [] := by
  cases es with
  | nil => rfl
  | cons e es =>
    obtain ⟨alive', hr, hdead⟩ := h
    obtain ⟨alive, he, hr⟩ := Option.bind_eq_some_iff.mp hr
    obtain ⟨k, hk⟩ := (apply_construct he (hc e List.mem_cons_self)).1
    have hk' := replay_constructs (fun e he => hc e (List.mem_cons_of_mem _ he)) hr hk
    rw [hdead k] at hk'
    cases hk'

end Cxx.Lifetime
