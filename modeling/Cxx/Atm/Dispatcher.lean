import Mathlib.Data.List.Basic

/-!
# Dispatch chains

Model of include/atm/Dispatcher.hpp over any type of messages. A chain is
`wait()` with handlers added by `handle`; a handler for a type `T` is the
function that is `some` exactly on the messages of that type, which is what
the `dynamic_cast` decides. The outermost object holds the handler added
last and asks it first.

* `dispatch_eq`: the handler added last that takes the message is the one
  that runs.
-/
namespace Cxx.Atm

/-- `wait` is `Dispatcher`, `handle` is `TemplateDispatcher`. -/
inductive Dispatcher (M A : Type) where
  | wait
  | handle (prev : Dispatcher M A) (f : M → Option A)

inductive Dispatched (A : Type) where
  | handled (a : A)
  /-- `throw CloseQueue()` -/
  | closed
  | discarded
  deriving DecidableEq, Repr

variable {M A : Type}

/-- mirrors include/atm/Dispatcher.hpp:47-53, 84-88 -/
def Dispatcher.dispatch (isClose : M → Bool) : Dispatcher M A → M → Dispatched A
  | .wait, msg => if isClose msg then .closed else .discarded
  | .handle prev f, msg =>
    match f msg with
    | some a => .handled a
    | none => prev.dispatch isClose msg

/-- The handlers of a chain, the one added last first. -/
def Dispatcher.handlers : Dispatcher M A → List (M → Option A)
  | .wait => []
  | .handle prev f => f :: prev.handlers

theorem dispatch_eq (isClose : M → Bool) (d : Dispatcher M A) (msg : M) :
    d.dispatch isClose msg =
      match d.handlers.findSome? (· msg) with
      | some a => .handled a
      | none => if isClose msg then .closed else .discarded := by
  induction d with
  | wait => rfl
  | handle prev f ih =>
    cases h : f msg with
    | some a => simp [Dispatcher.dispatch, Dispatcher.handlers, h]
    | none => simp [Dispatcher.dispatch, Dispatcher.handlers, h, ih]

end Cxx.Atm
