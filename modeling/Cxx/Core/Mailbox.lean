import Cxx.Core.Threads

/-!
# Mailboxes

A queue under a mutex, into which any thread puts messages and from which one
thread takes them, with a condition variable on which it waits for them. What is
done under the mutex is one step, except that the wait keeps it from the test of
its predicate until it is blocked.

* `push_eq_some`, `pop_cases`: what the two ends can do.
* `Listens`: the reader does not sleep beside a message.
* `Wait.cost`: what the reader can still do without one.
-/
namespace Cxx

/-- What a notification does to a wait. -/
def Wait.notify : Wait → Wait
  | .blocked => .woken
  | w => w

/-- The steps that a wait can take before it is blocked. -/
def Wait.cost : Wait → Nat
  | .enter | .woken => 2
  | .sleepy => 1
  | .blocked => 0

theorem Wait.cost_notify (w : Wait) : w.notify.cost ≤ w.cost + 2 := by
  cases w <;> simp [notify, cost]

structure Mailbox (T : Type) where
  queue : List T
  wait : Wait
  deriving DecidableEq, Repr

namespace Mailbox

variable {T : Type}

def new : Mailbox T := ⟨[], .enter⟩

/-- A message is put in, and the reader notified. The mutex is the reader's while
it is about to be blocked. -/
def push (b : Mailbox T) (v : T) : Option (Mailbox T) :=
  if b.wait = .sleepy then none else some ⟨b.queue ++ [v], b.wait.notify⟩

/-- A step of the reader, with the message that it takes. -/
def pop (b : Mailbox T) : Option (Mailbox T × Option T) :=
  match b.wait with
  | .blocked => none
  | .sleepy => some (⟨b.queue, .blocked⟩, none)
  | .enter | .woken =>
    match b.queue with
    | [] => some (⟨[], .sleepy⟩, none)
    | v :: rest => some (⟨rest, .enter⟩, some v)

/-- A wait may be unblocked for no reason. -/
def spurious (b : Mailbox T) : Option (Mailbox T) :=
  match b.wait with
  | .blocked => some ⟨b.queue, .woken⟩
  | _ => none

variable {b b' : Mailbox T} {v : T} {msg : Option T}

theorem push_eq_some : b.push v = some b' ↔
    b.wait ≠ .sleepy ∧ b' = ⟨b.queue ++ [v], b.wait.notify⟩ := by
  unfold push
  by_cases h : b.wait = .sleepy <;> simp [h, eq_comm]

theorem push_eq_none : b.push v = none ↔ b.wait = .sleepy := by
  unfold push
  by_cases h : b.wait = .sleepy <;> simp [h]

theorem pop_eq_none : b.pop = none ↔ b.wait = .blocked := by
  unfold pop
  cases hw : b.wait <;> cases hq : b.queue <;> simp

/-- The reader goes on with its wait, or takes the first message. -/
theorem pop_cases (h : b.pop = some (b', msg)) :
    (msg = none ∧ b'.queue = b.queue ∧ b'.wait.cost + 1 = b.wait.cost ∧
      ((b'.wait = .sleepy ∨ b'.wait = .blocked) ∧ (b.wait = .sleepy ∨ b.queue = []))) ∨
    ∃ v, msg = some v ∧ b.queue = v :: b'.queue ∧ b'.wait = .enter ∧ b.wait.cost = 2 := by
  obtain ⟨queue, wait⟩ := b
  cases wait <;> cases queue <;> cases h <;> simp [Wait.cost]

theorem spurious_eq_some : b.spurious = some b' ↔
    b.wait = .blocked ∧ b' = ⟨b.queue, .woken⟩ := by
  unfold spurious
  cases b.wait <;> simp [eq_comm]

/-! ## The reader does not sleep beside a message -/

def Listens (b : Mailbox T) : Prop := b.wait = .sleepy ∨ b.wait = .blocked → b.queue = []

theorem listens_new : (new : Mailbox T).Listens := fun _ => rfl

theorem Listens.push (h : b.push v = some b') : b'.Listens := by
  obtain ⟨hw, rfl⟩ := push_eq_some.mp h
  intro hs
  cases hb : b.wait <;> simp_all [Wait.notify]

theorem Listens.pop (hb : b.Listens) (h : b.pop = some (b', msg)) : b'.Listens := by
  rcases pop_cases h with ⟨-, hq, -, -, hw | hq'⟩ | ⟨v, -, -, hw, -⟩
  · exact fun _ => hq.trans (hb (.inl hw))
  · exact fun _ => hq.trans hq'
  · intro hs
    rw [hw] at hs
    simp at hs

theorem Listens.spurious (h : b.spurious = some b') : b'.Listens := by
  obtain ⟨-, rfl⟩ := spurious_eq_some.mp h
  intro hs
  simp at hs

end Mailbox

end Cxx
