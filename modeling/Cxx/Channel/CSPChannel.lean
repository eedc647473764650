import Cxx.Core.LTS
import Cxx.Core.Threads

/-!
# `CSPChannel`

Model of include/CSPChannel.hpp, for any finite number of threads that call
`send`, `recv` and `stop`. A thread is at a `Loc`, between two steps of its
call; the steps of a call are those that other threads can tell apart.
`stop` writes `stop_` without the mutex, and so may come between any two of
them.

* `Moves`: everything one step can do.
* `mutex`: the threads inside a critical section are the owner of `cv_mt_`.
-/
namespace Cxx.Channel

/-- Where a thread is. -/
inductive Loc (T : Type) where
  | idle
  | sendWait (data : T) (w : Wait)
  /-- `if(stop_)` -/
  | sendCheck (data : T)
  | sendPush (data : T)
  | sendNotify (data : T)
  | sendReturn (data : T) (ok : Bool)
  | recvWait (w : Wait)
  /-- `if(stop_&&queue_.empty())` -/
  | recvCheck
  | recvPop
  | recvNotify (data : T)
  | recvReturn (data : Option T)
  /-- `stop_ = true` -/
  | stopWrite
  | stopProducers
  | stopConsumers
  deriving DecidableEq, Repr

inductive Op (T : Type) where
  | send (data : T)
  | recv
  | stop
  deriving DecidableEq, Repr

def Op.start {T : Type} : Op T → Loc T
  | .send data => .sendWait data .enter
  | .recv => .recvWait .enter
  | .stop => .stopWrite

variable {ι T : Type}

/-- `cv_producer_` -/
def cvProducer : CondVar (Loc T) where
  blocked
    | .sendWait _ .blocked => true
    | _ => false
  wake
    | .sendWait data .blocked => .sendWait data .woken
    | x => x
  unblocks := by
    intro x h
    cases x with
    | sendWait data w => cases w <;> rfl
    | _ => cases h

/-- `cv_consumer_` -/
def cvConsumer : CondVar (Loc T) where
  blocked
    | .recvWait .blocked => true
    | _ => false
  wake
    | .recvWait .blocked => .recvWait .woken
    | x => x
  unblocks := by
    intro x h
    cases x with
    | recvWait w => cases w <;> rfl
    | _ => cases h

structure CSPChannel (ι T : Type) where
  queue : List T
  stop : Bool
  /-- The owner of `cv_mt_`. -/
  cvMt : Option ι
  loc : ι → Loc T
  /-- The values pushed by `send` and popped by `recv`. -/
  pushed : List T
  popped : List T
  /-- The values whose `send` has returned true, and those `recv` has returned. -/
  sent : List T
  received : List T
  /-- A `recv` has returned false. -/
  closed : Bool

def CSPChannel.new : CSPChannel ι T where
  queue := []
  stop := false
  cvMt := none
  loc := fun _ => .idle
  pushed := []
  popped := []
  sent := []
  received := []
  closed := false

/-- mirrors include/CSPChannel.hpp:18 -/
def CSPChannel.canSend (s : CSPChannel ι T) (capacity : Nat) : Bool :=
  (capacity == 0 && s.queue.isEmpty) || decide (s.queue.length < capacity) || s.stop

/-- mirrors include/CSPChannel.hpp:28 -/
def CSPChannel.canRecv (s : CSPChannel ι T) : Bool := !s.queue.isEmpty || s.stop

section
variable [DecidableEq ι]

def CSPChannel.goto (s : CSPChannel ι T) (i : ι) (x : Loc T) : CSPChannel ι T :=
  { s with loc := Function.update s.loc i x }

/-- A step of `wait(lock, pred)`, from `site` to `next`. -/
def CSPChannel.wait (s : CSPChannel ι T) (i : ι) (pred : Bool) (site : Wait → Loc T)
    (next : Loc T) : Wait → Option (CSPChannel ι T)
  | .enter | .woken =>
    if s.cvMt = none then
      some (CSPChannel.goto { s with cvMt := some i } i (if pred then next else site .sleepy))
    else none
  | .sleepy => some (CSPChannel.goto { s with cvMt := none } i (site .blocked))
  | .blocked => none

/-- The next step of thread `i`; a `notify_one` wakes `target`.
mirrors include/CSPChannel.hpp:16-40 -/
def CSPChannel.run [Fintype ι] (capacity : Nat) (s : CSPChannel ι T) (i : ι) (target : Option ι) :
    Option (CSPChannel ι T) :=
  match s.loc i with
  | .idle => none
  | .sendWait data w => s.wait i (s.canSend capacity) (.sendWait data) (.sendCheck data) w
  | .sendCheck data => some (s.goto i (if s.stop then .sendReturn data false else .sendPush data))
  | .sendPush data =>
    some (CSPChannel.goto { s with queue := s.queue ++ [data], pushed := s.pushed ++ [data] } i
      (.sendNotify data))
  | .sendNotify data =>
    (cvConsumer.notifyOne s.loc target).map fun loc =>
      CSPChannel.goto { s with loc } i (.sendReturn data true)
  | .sendReturn data ok =>
    some (CSPChannel.goto { s with cvMt := none, sent := if ok then s.sent ++ [data] else s.sent } i
      .idle)
  | .recvWait w => s.wait i s.canRecv .recvWait .recvCheck w
  | .recvCheck =>
    some (s.goto i (if s.stop && s.queue.isEmpty then .recvReturn none else .recvPop))
  | .recvPop =>
    match s.queue with
    | [] => none
    | data :: queue =>
      some (CSPChannel.goto { s with queue, popped := s.popped ++ [data] } i (.recvNotify data))
  | .recvNotify data =>
    (cvProducer.notifyOne s.loc target).map fun loc =>
      CSPChannel.goto { s with loc } i (.recvReturn (some data))
  | .recvReturn data =>
    some (CSPChannel.goto { s with
      cvMt := none
      received := s.received ++ data.toList
      closed := s.closed || data.isNone } i .idle)
  | .stopWrite => some (CSPChannel.goto { s with stop := true } i .stopProducers)
  | .stopProducers =>
    some (CSPChannel.goto { s with loc := cvProducer.notifyAll s.loc } i .stopConsumers)
  | .stopConsumers => some (CSPChannel.goto { s with loc := cvConsumer.notifyAll s.loc } i .idle)

inductive Label (ι T : Type) where
  | call (i : ι) (op : Op T)
  | run (i : ι) (target : Option ι)
  /-- A wait may be unblocked for no reason. -/
  | spurious (i : ι)
  deriving DecidableEq, Repr

def CSPChannel.spurious (s : CSPChannel ι T) (i : ι) : Option (CSPChannel ι T) :=
  if cvProducer.blocked (s.loc i) then some (s.goto i (cvProducer.wake (s.loc i)))
  else if cvConsumer.blocked (s.loc i) then some (s.goto i (cvConsumer.wake (s.loc i)))
  else none

def CSPChannel.call (s : CSPChannel ι T) (i : ι) (op : Op T) : Option (CSPChannel ι T) :=
  match s.loc i with
  | .idle => some (s.goto i op.start)
  | _ => none

def CSPChannel.step [Fintype ι] (capacity : Nat) (s : CSPChannel ι T) :
    Label ι T → Option (CSPChannel ι T)
  | .call i op => s.call i op
  | .run i target => s.run capacity i target
  | .spurious i => s.spurious i

end

def channel (ι T : Type) [DecidableEq ι] [Fintype ι] (capacity : Nat) :
    LTS (CSPChannel ι T) (Label ι T) :=
  LTS.ofFn (· = CSPChannel.new) (CSPChannel.step capacity)

/-! ## What a step can do -/

/-- The steps, by the place they leave. -/
inductive Moves [DecidableEq ι] [Fintype ι] (capacity : Nat) (s : CSPChannel ι T) :
    CSPChannel ι T → Prop
  | call (i : ι) (op : Op T) (h : s.loc i = .idle) : Moves capacity s (s.goto i op.start)
  | spuriousSend (i : ι) (data : T) (h : s.loc i = .sendWait data .blocked) :
      Moves capacity s (s.goto i (.sendWait data .woken))
  | spuriousRecv (i : ι) (h : s.loc i = .recvWait .blocked) :
      Moves capacity s (s.goto i (.recvWait .woken))
  | sendTrue (i : ι) (data : T) (w : Wait) (h : s.loc i = .sendWait data w)
      (hw : w.evaluates = true) (hm : s.cvMt = none) (hp : s.canSend capacity = true) :
      Moves capacity s (CSPChannel.goto { s with cvMt := some i } i (.sendCheck data))
  | sendFalse (i : ι) (data : T) (w : Wait) (h : s.loc i = .sendWait data w)
      (hw : w.evaluates = true) (hm : s.cvMt = none) (hp : s.canSend capacity = false) :
      Moves capacity s (CSPChannel.goto { s with cvMt := some i } i (.sendWait data .sleepy))
  | sendBlock (i : ι) (data : T) (h : s.loc i = .sendWait data .sleepy) :
      Moves capacity s (CSPChannel.goto { s with cvMt := none } i (.sendWait data .blocked))
  | sendStopped (i : ι) (data : T) (h : s.loc i = .sendCheck data) (hs : s.stop = true) :
      Moves capacity s (s.goto i (.sendReturn data false))
  | sendChecked (i : ι) (data : T) (h : s.loc i = .sendCheck data) (hs : s.stop = false) :
      Moves capacity s (s.goto i (.sendPush data))
  | sendPush (i : ι) (data : T) (h : s.loc i = .sendPush data) :
      Moves capacity s (CSPChannel.goto
        { s with queue := s.queue ++ [data], pushed := s.pushed ++ [data] } i (.sendNotify data))
  | sendNotify (i : ι) (data : T) (h : s.loc i = .sendNotify data) (target : Option ι)
      (loc : ι → Loc T) (hn : cvConsumer.notifyOne s.loc target = some loc) :
      Moves capacity s (CSPChannel.goto { s with loc } i (.sendReturn data true))
  | sendReturn (i : ι) (data : T) (ok : Bool) (h : s.loc i = .sendReturn data ok) :
      Moves capacity s (CSPChannel.goto
        { s with cvMt := none, sent := if ok then s.sent ++ [data] else s.sent } i .idle)
  | recvTrue (i : ι) (w : Wait) (h : s.loc i = .recvWait w) (hw : w.evaluates = true)
      (hm : s.cvMt = none) (hp : s.canRecv = true) :
      Moves capacity s (CSPChannel.goto { s with cvMt := some i } i .recvCheck)
  | recvFalse (i : ι) (w : Wait) (h : s.loc i = .recvWait w) (hw : w.evaluates = true)
      (hm : s.cvMt = none) (hp : s.canRecv = false) :
      Moves capacity s (CSPChannel.goto { s with cvMt := some i } i (.recvWait .sleepy))
  | recvBlock (i : ι) (h : s.loc i = .recvWait .sleepy) :
      Moves capacity s (CSPChannel.goto { s with cvMt := none } i (.recvWait .blocked))
  | recvClosed (i : ι) (h : s.loc i = .recvCheck) (hs : s.stop = true) (hq : s.queue = []) :
      Moves capacity s (s.goto i (.recvReturn none))
  | recvChecked (i : ι) (h : s.loc i = .recvCheck) (hs : s.stop = false ∨ s.queue ≠ []) :
      Moves capacity s (s.goto i .recvPop)
  | recvPop (i : ι) (data : T) (queue : List T) (h : s.loc i = .recvPop)
      (hq : s.queue = data :: queue) :
      Moves capacity s (CSPChannel.goto { s with queue, popped := s.popped ++ [data] } i
        (.recvNotify data))
  | recvNotify (i : ι) (data : T) (h : s.loc i = .recvNotify data) (target : Option ι)
      (loc : ι → Loc T) (hn : cvProducer.notifyOne s.loc target = some loc) :
      Moves capacity s (CSPChannel.goto { s with loc } i (.recvReturn (some data)))
  | recvReturn (i : ι) (data : Option T) (h : s.loc i = .recvReturn data) :
      Moves capacity s (CSPChannel.goto { s with
        cvMt := none
        received := s.received ++ data.toList
        closed := s.closed || data.isNone } i .idle)
  | stopWrite (i : ι) (h : s.loc i = .stopWrite) :
      Moves capacity s (CSPChannel.goto { s with stop := true } i .stopProducers)
  | stopProducers (i : ι) (h : s.loc i = .stopProducers) :
      Moves capacity s
        (CSPChannel.goto { s with loc := cvProducer.notifyAll s.loc } i .stopConsumers)
  | stopConsumers (i : ι) (h : s.loc i = .stopConsumers) :
      Moves capacity s (CSPChannel.goto { s with loc := cvConsumer.notifyAll s.loc } i .idle)

theorem blocked_producer {x : Loc T} :
    cvProducer.blocked x = true ↔ ∃ data, x = .sendWait data .blocked := by
  cases x with
  | sendWait data w => cases w <;> simp [cvProducer]
  | _ => simp [cvProducer]

theorem blocked_consumer {x : Loc T} : cvConsumer.blocked x = true ↔ x = .recvWait .blocked := by
  cases x with
  | recvWait w => cases w <;> simp [cvConsumer]
  | _ => simp [cvConsumer]

section
variable [DecidableEq ι] {s s' : CSPChannel ι T} {i : ι} {capacity : Nat}

theorem wait_spec {pred : Bool} {site : Wait → Loc T} {next : Loc T} {w : Wait}
    (h : s.wait i pred site next w = some s') :
    (w.evaluates = true ∧ s.cvMt = none ∧
      s' = CSPChannel.goto { s with cvMt := some i } i (if pred then next else site .sleepy)) ∨
    (w = .sleepy ∧ s' = CSPChannel.goto { s with cvMt := none } i (site .blocked)) := by
  cases w with
  | enter =>
    obtain ⟨hm, h⟩ := Option.ite_none_right_eq_some.mp h
    exact .inl ⟨rfl, hm, (Option.some.inj h).symm⟩
  | woken =>
    obtain ⟨hm, h⟩ := Option.ite_none_right_eq_some.mp h
    exact .inl ⟨rfl, hm, (Option.some.inj h).symm⟩
  | sleepy => exact .inr ⟨rfl, (Option.some.inj h).symm⟩
  | blocked => cases h

variable [Fintype ι]

theorem run_moves {target : Option ι} (h : s.run capacity i target = some s') :
    Moves capacity s s' := by
  unfold CSPChannel.run at h
  cases hi : s.loc i with
  | idle => rw [hi] at h; cases h
  | sendWait data w =>
    rw [hi] at h
    rcases wait_spec h with ⟨hw, hm, rfl⟩ | ⟨rfl, rfl⟩
    · cases hp : s.canSend capacity with
      | true => exact .sendTrue i data w hi hw hm hp
      | false => exact .sendFalse i data w hi hw hm hp
    · exact .sendBlock i data hi
  | sendCheck data =>
    rw [hi] at h
    cases h
    cases hs : s.stop with
    | true => exact .sendStopped i data hi hs
    | false => exact .sendChecked i data hi hs
  | sendPush data =>
    rw [hi] at h
    cases h
    exact .sendPush i data hi
  | sendNotify data =>
    rw [hi] at h
    obtain ⟨loc, hn, rfl⟩ := Option.map_eq_some_iff.mp h
    exact .sendNotify i data hi target loc hn
  | sendReturn data ok =>
    rw [hi] at h
    cases h
    exact .sendReturn i data ok hi
  | recvWait w =>
    rw [hi] at h
    rcases wait_spec h with ⟨hw, hm, rfl⟩ | ⟨rfl, rfl⟩
    · cases hp : s.canRecv with
      | true => exact .recvTrue i w hi hw hm hp
      | false => exact .recvFalse i w hi hw hm hp
    · exact .recvBlock i hi
  | recvCheck =>
    rw [hi] at h
    cases h
    by_cases hc : (s.stop && s.queue.isEmpty) = true
    · rw [if_pos hc]
      rw [Bool.and_eq_true, List.isEmpty_iff] at hc
      exact .recvClosed i hi hc.1 hc.2
    · rw [if_neg hc]
      rw [Bool.and_eq_true, List.isEmpty_iff, not_and_or, Bool.not_eq_true] at hc
      exact .recvChecked i hi hc
  | recvPop =>
    rw [hi] at h
    cases hq : s.queue with
    | nil => simp [hq] at h
    | cons data queue =>
      simp only [hq, Option.some.injEq] at h
      exact h ▸ .recvPop i data queue hi hq
  | recvNotify data =>
    rw [hi] at h
    obtain ⟨loc, hn, rfl⟩ := Option.map_eq_some_iff.mp h
    exact .recvNotify i data hi target loc hn
  | recvReturn data =>
    rw [hi] at h
    cases h
    exact .recvReturn i data hi
  | stopWrite =>
    rw [hi] at h
    cases h
    exact .stopWrite i hi
  | stopProducers =>
    rw [hi] at h
    cases h
    exact .stopProducers i hi
  | stopConsumers =>
    rw [hi] at h
    cases h
    exact .stopConsumers i hi

theorem step_moves {l : Label ι T} (h : s.step capacity l = some s') :
    Moves capacity s s' := by
  cases l with
  | call i op =>
    have h : s.call i op = some s' := h
    unfold CSPChannel.call at h
    cases hi : s.loc i with
    | idle => rw [hi] at h; cases h; exact .call i op hi
    | _ => rw [hi] at h; cases h
  | run i target => exact run_moves h
  | spurious i =>
    have h : s.spurious i = some s' := h
    unfold CSPChannel.spurious at h
    split at h
    · rename_i hb
      obtain ⟨data, hi⟩ := blocked_producer.mp hb
      cases h
      rw [hi]
      exact .spuriousSend i data hi
    · obtain ⟨hb, h⟩ := Option.ite_none_right_eq_some.mp h
      have hi := blocked_consumer.mp hb
      cases h
      rw [hi]
      exact .spuriousRecv i hi

end

/-! ## Mutual exclusion -/

/-- Whether a thread is in its critical section. -/
def Loc.inside : Loc T → Bool
  | .sendWait _ .sleepy | .sendCheck _ | .sendPush _ | .sendNotify _ | .sendReturn _ _
  | .recvWait .sleepy | .recvCheck | .recvPop | .recvNotify _ | .recvReturn _ => true
  | _ => false

/-- The place of the owner of `cv_mt_`. -/
def CSPChannel.held (s : CSPChannel ι T) : Option (Loc T) := Threads.held s.cvMt s.loc

def Exclusive (s : CSPChannel ι T) : Prop := Threads.Exclusive Loc.inside s.cvMt s.loc

theorem inside_unblocked {x : Loc T} (h : x.inside = true) :
    cvProducer.blocked x = false ∧ cvConsumer.blocked x = false := by
  cases x with
  | sendWait data w => cases w <;> first | exact ⟨rfl, rfl⟩ | cases h
  | recvWait w => cases w <;> first | exact ⟨rfl, rfl⟩ | cases h
  | _ => exact ⟨rfl, rfl⟩

theorem keeps_producer (q : Loc T → Bool)
    (hq : ∀ data, q (.sendWait data .woken) = q (.sendWait data .blocked)) (x : Loc T)
    (h : cvProducer.blocked x = true) : q (cvProducer.wake x) = q x := by
  obtain ⟨data, rfl⟩ := blocked_producer.mp h
  exact hq data

theorem keeps_consumer (q : Loc T → Bool)
    (hq : q (.recvWait .woken) = q (.recvWait .blocked)) (x : Loc T)
    (h : cvConsumer.blocked x = true) : q (cvConsumer.wake x) = q x := by
  rw [blocked_consumer.mp h]
  exact hq

/-! A notification moves no one into or out of a critical section. -/

theorem wake_producer (x : Loc T) (h : cvProducer.blocked x = true) :
    (cvProducer.wake x).inside = x.inside := keeps_producer Loc.inside (fun _ => rfl) x h

theorem wake_consumer (x : Loc T) (h : cvConsumer.blocked x = true) :
    (cvConsumer.wake x).inside = x.inside := keeps_consumer Loc.inside rfl x h

theorem start_inside (op : Op T) : op.start.inside = false := by cases op <;> rfl

theorem Moves.exclusive [DecidableEq ι] [Fintype ι] {s s' : CSPChannel ι T} {capacity : Nat}
    (h : Moves capacity s s') (hx : Exclusive s) : Exclusive s' := by
  unfold Exclusive at hx
  cases h with
  | call i op h => exact hx.stay (by rw [h, start_inside]; rfl)
  | spuriousSend i data h => exact hx.stay (by rw [h]; rfl)
  | spuriousRecv i h => exact hx.stay (by rw [h]; rfl)
  | sendTrue i data w h hw hm hp => exact (hm ▸ hx).enter rfl
  | sendFalse i data w h hw hm hp => exact (hm ▸ hx).enter rfl
  | sendBlock i data h => exact hx.leave (by rw [h]; rfl) rfl
  | sendStopped i data h hs => exact hx.stay (by rw [h]; rfl)
  | sendChecked i data h hs => exact hx.stay (by rw [h]; rfl)
  | sendPush i data h => exact hx.stay (by rw [h]; rfl)
  | sendNotify i data h target loc hn =>
    have hi := CondVar.notifyOne_keeps wake_consumer hn
    exact (hx.congr hi).stay (by rw [hi, h]; rfl)
  | sendReturn i data ok h => exact hx.leave (by rw [h]; rfl) rfl
  | recvTrue i w h hw hm hp => exact (hm ▸ hx).enter rfl
  | recvFalse i w h hw hm hp => exact (hm ▸ hx).enter rfl
  | recvBlock i h => exact hx.leave (by rw [h]; rfl) rfl
  | recvClosed i h hs hq => exact hx.stay (by rw [h]; rfl)
  | recvChecked i h hs => exact hx.stay (by rw [h]; rfl)
  | recvPop i data queue h hq => exact hx.stay (by rw [h]; rfl)
  | recvNotify i data h target loc hn =>
    have hi := CondVar.notifyOne_keeps wake_producer hn
    exact (hx.congr hi).stay (by rw [hi, h]; rfl)
  | recvReturn i data h => exact hx.leave (by rw [h]; rfl) rfl
  | stopWrite i h => exact hx.stay (by rw [h]; rfl)
  | stopProducers i h =>
    have hi := CondVar.notifyAll_keeps wake_producer s.loc
    exact (hx.congr hi).stay (by rw [hi, h]; rfl)
  | stopConsumers i h =>
    have hi := CondVar.notifyAll_keeps wake_consumer s.loc
    exact (hx.congr hi).stay (by rw [hi, h]; rfl)

theorem exclusive_inductive [DecidableEq ι] [Fintype ι] (capacity : Nat) :
    (channel ι T capacity).Inductive Exclusive where
  init := by
    intro s hs
    subst hs
    intro i
    constructor
    · intro h; cases h
    · intro h; cases h
  step := fun _ _ _ hx hst => (step_moves hst).exclusive hx

end Cxx.Channel
