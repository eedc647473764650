import Cxx.Core.LTS
import Cxx.Core.Threads

/-!
# `ThreadPool`

Model of include/ThreadPool.hpp: any finite number of workers, calls of
`commit` from any number of clients, and the one call of `stop`, which the
destructor makes. Tasks are numbered in the order in which they are put into
`tasks_`. The critical section of `commit` is one step, and so is the run of a
task: tasks return. The workers' waits are taken apart. `thread_num_`, which
nothing here depends on once the workers have been started, and the futures'
contents are left out.

* `Moves`: everything one step can do.
-/
namespace Cxx.Pool

/-- Where a worker is. -/
inductive Worker where
  /-- `while(!stop_.load())` -/
  | check
  | wait (w : Wait)
  /-- after the wait, with the mutex -/
  | take
  | run (task : Nat)
  | done
  deriving DecidableEq, Repr

/-- Where a call of `commit` is. -/
inductive Client where
  | idle
  /-- `if(stop_.load())` -/
  | check
  | push
  | notify
  deriving DecidableEq, Repr

/-- Where the call of `stop` is. -/
inductive Stopper where
  | idle
  | notify
  | join
  | returned
  deriving DecidableEq, Repr

/-- `cv_lock_` -/
def cvLock : CondVar Worker where
  blocked
    | .wait .blocked => true
    | _ => false
  wake
    | .wait .blocked => .wait .woken
    | x => x
  unblocks := by
    intro x h
    cases x with
    | wait w => cases w <;> rfl
    | _ => cases h

variable {W C : Type}

structure ThreadPool (W C : Type) where
  tasks : List Nat
  stop : Bool
  /-- The worker that owns `cv_mt_`. -/
  cvMt : Option W
  worker : W → Worker
  client : C → Client
  stopper : Stopper
  /-- How many tasks have been put into `tasks_`. -/
  accepted : Nat
  /-- The tasks that have been run, and by whom. -/
  ran : List (W × Nat)

def ThreadPool.new : ThreadPool W C where
  tasks := []
  stop := false
  cvMt := none
  worker := fun _ => .check
  client := fun _ => .idle
  stopper := .idle
  accepted := 0
  ran := []

/-- mirrors include/ThreadPool.hpp:61 -/
def ThreadPool.pred (s : ThreadPool W C) : Bool := s.stop || !s.tasks.isEmpty

section
variable [DecidableEq W] [DecidableEq C]

def ThreadPool.goto (s : ThreadPool W C) (w : W) (x : Worker) : ThreadPool W C :=
  { s with worker := Function.update s.worker w x }

def ThreadPool.move (s : ThreadPool W C) (c : C) (x : Client) : ThreadPool W C :=
  { s with client := Function.update s.client c x }

/-- mirrors include/ThreadPool.hpp:56-72 -/
def ThreadPool.work (s : ThreadPool W C) (w : W) : Option (ThreadPool W C) :=
  match s.worker w with
  | .check => some (s.goto w (if s.stop then .done else .wait .enter))
  | .wait .enter | .wait .woken =>
    if s.cvMt = none then
      some (ThreadPool.goto { s with cvMt := some w } w (if s.pred then .take else .wait .sleepy))
    else none
  | .wait .sleepy => some (ThreadPool.goto { s with cvMt := none } w (.wait .blocked))
  | .wait .blocked => none
  | .take =>
    match s.tasks with
    | [] => some (ThreadPool.goto { s with cvMt := none } w .done)
    | task :: tasks => some (ThreadPool.goto { s with tasks, cvMt := none } w (.run task))
  | .run task => some (ThreadPool.goto { s with ran := s.ran ++ [(w, task)] } w .check)
  | .done => none

/-- mirrors include/ThreadPool.hpp:26-39 -/
def ThreadPool.commit [Fintype W] (s : ThreadPool W C) (c : C) (target : Option W) :
    Option (ThreadPool W C) :=
  match s.client c with
  | .idle => some (s.move c .check)
  | .check => some (s.move c (if s.stop then .idle else .push))
  | .push =>
    if s.cvMt = none then
      some (ThreadPool.move { s with
        tasks := s.tasks ++ [s.accepted]
        accepted := s.accepted + 1 } c .notify)
    else none
  | .notify =>
    (cvLock.notifyOne s.worker target).map fun worker => ThreadPool.move { s with worker } c .idle

/-- The threads are joined one after the other; the last join returns when all
workers are done.
mirrors include/ThreadPool.hpp:74-83 -/
def ThreadPool.shutdown [Fintype W] (s : ThreadPool W C) : Option (ThreadPool W C) :=
  match s.stopper with
  | .idle => some { s with stop := true, stopper := .notify }
  | .notify => some { s with worker := cvLock.notifyAll s.worker, stopper := .join }
  | .join => if ∀ w, s.worker w = .done then some { s with stopper := .returned } else none
  | .returned => none

inductive Label (W C : Type) where
  | worker (w : W)
  | commit (c : C) (target : Option W)
  | stop
  /-- A wait may be unblocked for no reason. -/
  | spurious (w : W)
  deriving DecidableEq, Repr

def ThreadPool.step [Fintype W] (s : ThreadPool W C) : Label W C → Option (ThreadPool W C)
  | .worker w => s.work w
  | .commit c target => s.commit c target
  | .stop => s.shutdown
  | .spurious w =>
    if s.worker w = .wait .blocked then some (s.goto w (.wait .woken)) else none

end

def pool (W C : Type) [DecidableEq W] [Fintype W] [DecidableEq C] :
    LTS (ThreadPool W C) (Label W C) := LTS.ofFn (· = ThreadPool.new) ThreadPool.step

/-! ## What a step can do -/

/-- The steps, by the place they leave. -/
inductive Moves [DecidableEq W] [Fintype W] [DecidableEq C] (s : ThreadPool W C) :
    Label W C → ThreadPool W C → Prop
  | leave (w : W) (h : s.worker w = .check) (hs : s.stop = true) :
      Moves s (.worker w) (s.goto w .done)
  | enter (w : W) (h : s.worker w = .check) (hs : s.stop = false) :
      Moves s (.worker w) (s.goto w (.wait .enter))
  | awake (w : W) (p : Wait) (h : s.worker w = .wait p) (hp : p.evaluates = true)
      (hb : s.pred = true) :
      Moves s (.worker w) (ThreadPool.goto { s with cvMt := some w } w .take)
  | doze (w : W) (p : Wait) (h : s.worker w = .wait p) (hp : p.evaluates = true)
      (hb : s.pred = false) :
      Moves s (.worker w) (ThreadPool.goto { s with cvMt := some w } w (.wait .sleepy))
  | block (w : W) (h : s.worker w = .wait .sleepy) :
      Moves s (.worker w) (ThreadPool.goto { s with cvMt := none } w (.wait .blocked))
  | giveUp (w : W) (h : s.worker w = .take) (hq : s.tasks = []) :
      Moves s (.worker w) (ThreadPool.goto { s with cvMt := none } w .done)
  | take (w : W) (task : Nat) (tasks : List Nat) (h : s.worker w = .take)
      (hq : s.tasks = task :: tasks) :
      Moves s (.worker w) (ThreadPool.goto { s with tasks, cvMt := none } w (.run task))
  | run (w : W) (task : Nat) (h : s.worker w = .run task) :
      Moves s (.worker w) (ThreadPool.goto { s with ran := s.ran ++ [(w, task)] } w .check)
  | commit (c : C) (target : Option W) (x : Client) (h : s.client c ≠ .push)
      (hx : x = .push → s.stop = false) : Moves s (.commit c target) (s.move c x)
  | push (c : C) (target : Option W) (h : s.client c = .push) :
      Moves s (.commit c target) (ThreadPool.move { s with
        tasks := s.tasks ++ [s.accepted]
        accepted := s.accepted + 1 } c .notify)
  | notify (c : C) (target : Option W) (h : s.client c = .notify) (worker : W → Worker)
      (hn : cvLock.notifyOne s.worker target = some worker) :
      Moves s (.commit c target) (ThreadPool.move { s with worker } c .idle)
  | stop (h : s.stopper = .idle) : Moves s .stop { s with stop := true, stopper := .notify }
  | notifyAll (h : s.stopper = .notify) :
      Moves s .stop { s with worker := cvLock.notifyAll s.worker, stopper := .join }
  | joined (h : s.stopper = .join) (hw : ∀ w, s.worker w = .done) :
      Moves s .stop { s with stopper := .returned }
  | spurious (w : W) (h : s.worker w = .wait .blocked) :
      Moves s (.spurious w) (s.goto w (.wait .woken))

theorem blocked_worker {x : Worker} : cvLock.blocked x = true ↔ x = .wait .blocked := by
  cases x with
  | wait w => cases w <;> simp [cvLock]
  | _ => simp [cvLock]

theorem keeps_worker (q : Worker → Bool) (hq : q (.wait .woken) = q (.wait .blocked)) (x : Worker)
    (h : cvLock.blocked x = true) : q (cvLock.wake x) = q x := by
  rw [blocked_worker.mp h]
  exact hq

section
variable [DecidableEq W] [Fintype W] [DecidableEq C] {s s' : ThreadPool W C}

theorem evaluate_moves {w : W} {p : Wait} (h : s.worker w = .wait p) (hp : p.evaluates = true) :
    Moves s (.worker w)
      (ThreadPool.goto { s with cvMt := some w } w (if s.pred then .take else .wait .sleepy)) := by
  cases hb : s.pred with
  | true => exact .awake w p h hp hb
  | false => exact .doze w p h hp hb

theorem work_moves {w : W} (h : s.work w = some s') : Moves s (.worker w) s' := by
  unfold ThreadPool.work at h
  cases hw : s.worker w with
  | check =>
    rw [hw] at h
    cases h
    cases hs : s.stop with
    | true => exact .leave w hw hs
    | false => exact .enter w hw hs
  | wait p =>
    rw [hw] at h
    cases p with
    | enter =>
      obtain ⟨-, h⟩ := Option.ite_none_right_eq_some.mp h
      exact Option.some.inj h ▸ evaluate_moves hw rfl
    | woken =>
      obtain ⟨-, h⟩ := Option.ite_none_right_eq_some.mp h
      exact Option.some.inj h ▸ evaluate_moves hw rfl
    | sleepy => cases h; exact .block w hw
    | blocked => cases h
  | take =>
    rw [hw] at h
    cases hq : s.tasks with
    | nil =>
      have hm := Moves.giveUp (s := s) w hw hq
      simp only [hq, Option.some.injEq] at h hm
      exact h ▸ hm
    | cons task tasks =>
      simp only [hq, Option.some.injEq] at h
      exact h ▸ .take w task tasks hw hq
  | run task => rw [hw] at h; cases h; exact .run w task hw
  | done => rw [hw] at h; cases h

theorem commit_moves {c : C} {target : Option W} (h : s.commit c target = some s') :
    Moves s (.commit c target) s' := by
  unfold ThreadPool.commit at h
  cases hc : s.client c with
  | idle =>
    rw [hc] at h
    cases h
    exact .commit c target .check (by simp [hc]) (fun h => by cases h)
  | check =>
    rw [hc] at h
    cases h
    cases hs : s.stop with
    | true => exact .commit c target .idle (by simp [hc]) (fun h => by cases h)
    | false => exact .commit c target .push (by simp [hc]) (fun _ => hs)
  | push =>
    rw [hc] at h
    obtain ⟨-, h⟩ := Option.ite_none_right_eq_some.mp h
    exact Option.some.inj h ▸ .push c target hc
  | notify =>
    rw [hc] at h
    obtain ⟨worker, hn, rfl⟩ := Option.map_eq_some_iff.mp h
    exact .notify c target hc worker hn

theorem step_moves {l : Label W C} (h : s.step l = some s') : Moves s l s' := by
  cases l with
  | worker w => exact work_moves h
  | commit c target => exact commit_moves h
  | stop =>
    have h : s.shutdown = some s' := h
    unfold ThreadPool.shutdown at h
    cases hs : s.stopper with
    | idle => rw [hs] at h; cases h; exact .stop hs
    | notify => rw [hs] at h; cases h; exact .notifyAll hs
    | join =>
      rw [hs] at h
      obtain ⟨hw, h⟩ := Option.ite_none_right_eq_some.mp h
      exact Option.some.inj h ▸ .joined hs hw
    | returned => rw [hs] at h; cases h
  | spurious w =>
    obtain ⟨hw, h⟩ := Option.ite_none_right_eq_some.mp h
    exact Option.some.inj h ▸ .spurious w hw

end

end Cxx.Pool
