import Mathlib.Data.List.Basic

/-!
# Logged computations that may fault

`Exec ω ε α` is a finished computation: the actions it performed, in order,
and its result or the fault that ended it. A fault keeps the actions that
came before it. `bind_of_ok` and `bind_of_error` are how a sequence is
evaluated step by step.
-/
namespace Cxx

structure Exec (ω ε α : Type) where
  log : List ω
  out : Except ε α

namespace Exec

variable {ω ε α β : Type}

protected def pure (a : α) : Exec ω ε α := ⟨[], .ok a⟩

protected def bind (x : Exec ω ε α) (f : α → Exec ω ε β) : Exec ω ε β :=
  match x.out with
  | .ok a => ⟨x.log ++ (f a).log, (f a).out⟩
  | .error e => ⟨x.log, .error e⟩

instance : Monad (Exec ω ε) where
  pure := Exec.pure
  bind := Exec.bind

def emit (a : ω) : Exec ω ε Unit := ⟨[a], .ok ()⟩

def fault (e : ε) : Exec ω ε α := ⟨[], .error e⟩

theorem bind_of_ok {x : Exec ω ε α} {l : List ω} {a : α} (h : x = ⟨l, .ok a⟩)
    (f : α → Exec ω ε β) : x >>= f = ⟨l ++ (f a).log, (f a).out⟩ := by
  subst h; rfl

theorem bind_of_error {x : Exec ω ε α} {l : List ω} {e : ε} (h : x = ⟨l, .error e⟩)
    (f : α → Exec ω ε β) : x >>= f = ⟨l, .error e⟩ := by
  subst h; rfl

@[simp] theorem ok_bind (l : List ω) (a : α) (f : α → Exec ω ε β) :
    (⟨l, .ok a⟩ : Exec ω ε α) >>= f = ⟨l ++ (f a).log, (f a).out⟩ := rfl

@[simp] theorem error_bind (l : List ω) (e : ε) (f : α → Exec ω ε β) :
    (⟨l, .error e⟩ : Exec ω ε α) >>= f = ⟨l, .error e⟩ := rfl

@[simp] theorem pure_eq (a : α) : (pure a : Exec ω ε α) = ⟨[], .ok a⟩ := rfl

@[simp] theorem emit_bind (a : ω) (f : Unit → Exec ω ε β) :
    (emit a : Exec ω ε Unit) >>= f = ⟨a :: (f ()).log, (f ()).out⟩ := rfl

theorem emit_bind_out (a : ω) (f : Unit → Exec ω ε β) : (emit a >>= f).out = (f ()).out := rfl

/-- A sequence that comes to its end went through both of its parts. -/
theorem out_bind {x : Exec ω ε α} {f : α → Exec ω ε β} {b : β} (h : (x >>= f).out = .ok b) :
    ∃ a, x.out = .ok a ∧ (f a).out = .ok b := by
  obtain ⟨l, out⟩ := x
  cases out with
  | ok a => exact ⟨a, rfl, h⟩
  | error e => cases h

theorem out_bind_error {x : Exec ω ε α} {f : α → Exec ω ε β} {e : ε}
    (h : (x >>= f).out = .error e) :
    x.out = .error e ∨ ∃ a, x.out = .ok a ∧ (f a).out = .error e := by
  obtain ⟨l, out⟩ := x
  cases out with
  | ok a => exact .inr ⟨a, rfl, h⟩
  | error e' => cases h; exact .inl rfl

/-- What a sequence logs was logged by one of its two parts. -/
theorem mem_log_bind {x : Exec ω ε α} {f : α → Exec ω ε β} {w : ω} (h : w ∈ (x >>= f).log) :
    w ∈ x.log ∨ ∃ a, x.out = .ok a ∧ w ∈ (f a).log := by
  obtain ⟨l, out⟩ := x
  cases out with
  | ok a =>
    rw [ok_bind] at h
    exact (List.mem_append.mp h).imp id fun h => ⟨a, rfl, h⟩
  | error e => exact .inl h

end Exec

end Cxx
