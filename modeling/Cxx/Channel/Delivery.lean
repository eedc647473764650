import Cxx.Channel.CSPChannel

/-!
# What a channel delivers

The values in flight are those in `queue_`, and the one that the owner of
the mutex has pushed or popped without having returned. `Delivery` is what
holds of them, and of the place of the owner, in every state.

* `delivery`: bounded, in order, nothing twice, and closed for good once a
  `recv` has returned false.
-/
namespace Cxx.Channel

variable {ι T : Type}

/-- A channel without its threads. -/
structure Values (T : Type) where
  queue : List T
  stop : Bool
  pushed : List T
  popped : List T
  sent : List T
  received : List T
  closed : Bool

def CSPChannel.values (s : CSPChannel ι T) : Values T :=
  ⟨s.queue, s.stop, s.pushed, s.popped, s.sent, s.received, s.closed⟩

/-- What the owner of the mutex has pushed, and will return true for. -/
def pushing : Option (Loc T) → List T
  | some (.sendNotify data) | some (.sendReturn data true) => [data]
  | _ => []

/-- What the owner of the mutex has popped, and will return. -/
def taking : Option (Loc T) → List T
  | some (.recvNotify data) | some (.recvReturn (some data)) => [data]
  | _ => []

/-- What a thread knows at each place of its critical section. -/
def Here (capacity : Nat) (v : Values T) : Option (Loc T) → Prop
  | some (.sendWait _ .sleepy) => max capacity 1 ≤ v.queue.length
  | some (.recvWait .sleepy) => v.queue = []
  | some (.sendCheck _) => v.queue.length < max capacity 1 ∨ v.stop = true
  | some (.sendPush _) => v.queue.length < max capacity 1 ∧ v.closed = false
  | some (.sendNotify _) | some (.sendReturn _ true) => v.closed = false
  | some .recvCheck => v.queue ≠ [] ∨ v.stop = true
  | some .recvPop => v.queue ≠ []
  | some (.recvNotify _) | some (.recvReturn (some _)) => v.closed = false
  | some (.recvReturn none) => v.stop = true ∧ v.queue = []
  | _ => True

structure Delivery (capacity : Nat) (v : Values T) (x : Option (Loc T)) : Prop where
  size : v.queue.length ≤ max capacity 1
  fifo : v.pushed = v.popped ++ v.queue
  sent : v.pushed = v.sent ++ pushing x
  received : v.popped = v.received ++ taking x
  here : Here capacity v x
  closed : v.closed = true →
    v.stop = true ∧ v.queue = [] ∧ v.sent = v.pushed ∧ v.received = v.popped

theorem canSend_iff {s : CSPChannel ι T} {capacity : Nat} :
    s.canSend capacity = true ↔ s.queue.length < max capacity 1 ∨ s.stop = true := by
  unfold CSPChannel.canSend
  rw [Bool.or_eq_true, Bool.or_eq_true, Bool.and_eq_true, beq_iff_eq, List.isEmpty_iff,
    decide_eq_true_eq, ← List.length_eq_zero_iff]
  constructor
  · intro h
    rcases h with (⟨h1, h2⟩ | h) | h
    · left; omega
    · left; omega
    · exact .inr h
  · intro h
    rcases h with h | h
    · by_cases hc : capacity = 0
      · exact .inl (.inl ⟨hc, by omega⟩)
      · exact .inl (.inr (by omega))
    · exact .inr h

theorem canRecv_iff {s : CSPChannel ι T} : s.canRecv = true ↔ s.queue ≠ [] ∨ s.stop = true := by
  unfold CSPChannel.canRecv
  rw [Bool.or_eq_true, Bool.not_eq_true', List.isEmpty_eq_false_iff]

/-- What a thread that is about to block has found. -/
theorem no_room {s : CSPChannel ι T} {capacity : Nat} (h : s.canSend capacity = false) :
    max capacity 1 ≤ s.queue.length ∧ s.stop = false := by
  have hn : ¬ (s.queue.length < max capacity 1 ∨ s.stop = true) := by
    rw [← canSend_iff, h]; simp
  rw [not_or, Nat.not_lt, Bool.not_eq_true] at hn
  exact hn

theorem no_value {s : CSPChannel ι T} (h : s.canRecv = false) : s.queue = [] ∧ s.stop = false := by
  have hn : ¬ (s.queue ≠ [] ∨ s.stop = true) := by
    rw [← canRecv_iff, h]; simp
  rw [not_or, not_not, Bool.not_eq_true] at hn
  exact hn

/-! ## The steps inside a critical section -/

section
variable {v : Values T} {capacity : Nat} {data : T}

/-- From one place to another with nothing in flight at either. -/
theorem Delivery.move {x y : Option (Loc T)} (h : Delivery capacity v x) (hy : Here capacity v y)
    (hp : pushing y = pushing x) (ht : taking y = taking x) : Delivery capacity v y where
  size := h.size
  fifo := h.fifo
  sent := hp ▸ h.sent
  received := ht ▸ h.received
  here := hy
  closed := h.closed

theorem Delivery.push (h : Delivery capacity v (some (.sendPush data))) :
    Delivery capacity { v with queue := v.queue ++ [data], pushed := v.pushed ++ [data] }
      (some (.sendNotify data)) := by
  obtain ⟨hroom, hopen⟩ := h.here
  refine ⟨?_, ?_, ?_, h.received, hopen, fun hc => ?_⟩
  · rw [List.length_append, List.length_singleton]; exact hroom
  · rw [h.fifo, List.append_assoc]
  · have hsent : v.pushed = v.sent ++ [] := h.sent
    rw [List.append_nil] at hsent
    exact congrArg (· ++ [data]) hsent
  · exact absurd (hopen.symm.trans hc) (by decide)

theorem Delivery.sendReturn {ok : Bool} (h : Delivery capacity v (some (.sendReturn data ok))) :
    Delivery capacity { v with sent := if ok then v.sent ++ [data] else v.sent } none := by
  cases ok with
  | false =>
    exact ⟨h.size, h.fifo, h.sent, h.received, trivial, h.closed⟩
  | true =>
    have hopen : v.closed = false := h.here
    refine ⟨h.size, h.fifo, ?_, h.received, trivial, fun hc => ?_⟩
    · exact h.sent.trans (List.append_nil _).symm
    · exact absurd (hopen.symm.trans hc) (by decide)

/-- A value is in the queue, so no `recv` has returned false. -/
theorem Delivery.still_open (h : Delivery capacity v (some .recvPop)) : v.closed = false := by
  cases hc : v.closed with
  | false => rfl
  | true => exact absurd (h.closed hc).2.1 h.here

theorem Delivery.pop {queue : List T} (h : Delivery capacity v (some .recvPop))
    (hq : v.queue = data :: queue) :
    Delivery capacity { v with queue, popped := v.popped ++ [data] } (some (.recvNotify data)) := by
  have hopen := h.still_open
  have hsize := h.size
  refine ⟨?_, ?_, h.sent, ?_, hopen, fun hc => ?_⟩
  · rw [hq, List.length_cons] at hsize
    exact Nat.le_of_succ_le hsize
  · rw [h.fifo, hq, List.append_assoc]; rfl
  · have hrec : v.popped = v.received ++ [] := h.received
    rw [List.append_nil] at hrec
    exact congrArg (· ++ [data]) hrec
  · exact absurd (hopen.symm.trans hc) (by decide)

theorem Delivery.recvReturn {data : Option T} (h : Delivery capacity v (some (.recvReturn data))) :
    Delivery capacity { v with
      received := v.received ++ data.toList
      closed := v.closed || data.isNone } none := by
  cases data with
  | some data =>
    have hopen : v.closed = false := h.here
    refine ⟨h.size, h.fifo, h.sent, ?_, trivial, fun hc => ?_⟩
    · exact h.received.trans (List.append_nil _).symm
    · rw [hopen] at hc; cases hc
  | none =>
    -- the owner has seen `stop_` and the empty queue, and nobody else is inside
    obtain ⟨hstop, hempty⟩ : v.stop = true ∧ v.queue = [] := h.here
    have hsent : v.pushed = v.sent ++ [] := h.sent
    have hrec : v.popped = v.received ++ [] := h.received
    rw [List.append_nil] at hsent hrec
    refine ⟨h.size, h.fifo, h.sent, ?_, trivial, fun _ => ⟨hstop, hempty, hsent.symm, ?_⟩⟩
    · exact hrec.trans (by simp [taking])
    · exact (List.append_nil _).trans hrec.symm

theorem Delivery.stop {x : Option (Loc T)} (h : Delivery capacity v x) :
    Delivery capacity { v with stop := true } x := by
  refine ⟨h.size, h.fifo, h.sent, h.received, ?_, fun hc => ⟨rfl, (h.closed hc).2⟩⟩
  have hhere := h.here
  cases x with
  | none => trivial
  | some x =>
    cases x with
    | sendCheck d => exact .inr rfl
    | recvCheck => exact .inr rfl
    | recvReturn d =>
      cases d with
      | none => exact ⟨rfl, hhere.2⟩
      | some d => exact hhere
    | sendReturn d ok => cases ok <;> exact hhere
    | sendWait d w => cases w <;> exact hhere
    | recvWait w => cases w <;> exact hhere
    | _ => exact hhere

end

/-! ## All steps -/

/-- What is known at a place inside. -/
theorem Delivery.of_loc {s : CSPChannel ι T} {capacity : Nat}
    (hd : Delivery capacity s.values s.held) (hx : Exclusive s) {i : ι} {x : Loc T}
    (hi : s.loc i = x) (hin : x.inside = true) :
    Delivery capacity s.values (some x) := by
  have := hx.held_eq (by rw [hi]; exact hin)
  rw [hi] at this
  exact this ▸ hd

section
variable [DecidableEq ι] [Fintype ι] {s s' : CSPChannel ι T} {capacity : Nat}

theorem Moves.delivers (h : Moves capacity s s') (hx : Exclusive s)
    (hd : Delivery capacity s.values s.held) : Delivery capacity s'.values s'.held := by
  have here : ∀ {i : ι} {x : Loc T}, s.loc i = x → x.inside = true →
      Delivery capacity s.values (some x) := fun hi hin => hd.of_loc hx hi hin
  have free : s.cvMt = none → Delivery capacity s.values none := by
    intro hm
    have : s.held = none := by unfold CSPChannel.held; rw [hm]; rfl
    exact this ▸ hd
  -- the place of the owner after a step
  have outer : ∀ {i : ι} {x : Loc T} {v : Values T}, (s.loc i).inside = false →
      Delivery capacity v s.held →
      Delivery capacity v (Threads.held s.cvMt (Function.update s.loc i x)) := by
    intro i x v hi h
    rw [hx.held_update_of_outside hi]; exact h
  have inner : ∀ {f : ι → Loc T} {i : ι} {x : Loc T} {v : Values T},
      (∀ k, (f k).inside = (s.loc k).inside) → (s.loc i).inside = true →
      Delivery capacity v (some x) →
      Delivery capacity v (Threads.held s.cvMt (Function.update f i x)) := by
    intro f i x v hf hi h
    rw [(hx.congr hf).held_update (by rw [hf, hi])]; exact h
  have enter : ∀ {i : ι} {x : Loc T} {v : Values T}, Delivery capacity v (some x) →
      Delivery capacity v (Threads.held (some i) (Function.update s.loc i x)) := by
    intro i x v h
    rw [Threads.held_enter]; exact h
  have notified : ∀ {cv : CondVar (Loc T)} {i : ι} {x : Loc T},
      (∀ y, cv.blocked y = true → (cv.wake y).inside = y.inside) →
      (∀ y, y.inside = true → cv.blocked y = false) → (s.loc i).inside = false →
      Delivery capacity s.values
        (Threads.held s.cvMt (Function.update (cv.notifyAll s.loc) i x)) := by
    intro cv i x hwake hrun hi
    rw [CondVar.held_notifyAll hx hwake hrun hi]; exact hd
  cases h with
  | call i op h => exact outer (by rw [h]; rfl) hd
  | spuriousSend i data h => exact outer (by rw [h]; rfl) hd
  | spuriousRecv i h => exact outer (by rw [h]; rfl) hd
  | sendTrue i data w h hw hm hp => exact enter ((free hm).move (canSend_iff.mp hp) rfl rfl)
  | sendFalse i data w h hw hm hp => exact enter ((free hm).move (no_room hp).1 rfl rfl)
  | sendBlock i data h => exact (here h rfl).move trivial rfl rfl
  | sendStopped i data h hs =>
    exact inner (fun _ => rfl) (by rw [h]; rfl) ((here h rfl).move trivial rfl rfl)
  | sendChecked i data h hs =>
    have hroom : s.queue.length < max capacity 1 := by
      rcases (here h rfl).here with hroom | hstop
      · exact hroom
      · exact absurd (hs.symm.trans hstop) (by decide)
    have hopen : s.closed = false := by
      cases hc : s.closed with
      | false => rfl
      | true => exact absurd (hs.symm.trans (hd.closed hc).1) (by decide)
    exact inner (fun _ => rfl) (by rw [h]; rfl) ((here h rfl).move ⟨hroom, hopen⟩ rfl rfl)
  | sendPush i data h => exact inner (fun _ => rfl) (by rw [h]; rfl) (here h rfl).push
  | sendNotify i data h target loc hn =>
    exact inner (CondVar.notifyOne_keeps wake_consumer hn) (by rw [h]; rfl)
      ((here h rfl).move (here h rfl).here rfl rfl)
  | sendReturn i data ok h => exact (here h rfl).sendReturn
  | recvTrue i w h hw hm hp => exact enter ((free hm).move (canRecv_iff.mp hp) rfl rfl)
  | recvFalse i w h hw hm hp => exact enter ((free hm).move (no_value hp).1 rfl rfl)
  | recvBlock i h => exact (here h rfl).move trivial rfl rfl
  | recvClosed i h hs hq =>
    exact inner (fun _ => rfl) (by rw [h]; rfl) ((here h rfl).move ⟨hs, hq⟩ rfl rfl)
  | recvChecked i h hs =>
    have hq : s.queue ≠ [] := by
      rcases (here h rfl).here with hq | hstop
      · exact hq
      · rcases hs with hs | hq
        · exact absurd (hs.symm.trans hstop) (by decide)
        · exact hq
    exact inner (fun _ => rfl) (by rw [h]; rfl) ((here h rfl).move hq rfl rfl)
  | recvPop i data queue h hq => exact inner (fun _ => rfl) (by rw [h]; rfl) ((here h rfl).pop hq)
  | recvNotify i data h target loc hn =>
    exact inner (CondVar.notifyOne_keeps wake_producer hn) (by rw [h]; rfl)
      ((here h rfl).move (here h rfl).here rfl rfl)
  | recvReturn i data h => exact (here h rfl).recvReturn
  | stopWrite i h => exact outer (by rw [h]; rfl) hd.stop
  | stopProducers i h =>
    exact notified wake_producer (fun _ hk => (inside_unblocked hk).1) (by rw [h]; rfl)
  | stopConsumers i h =>
    exact notified wake_consumer (fun _ hk => (inside_unblocked hk).2) (by rw [h]; rfl)

/-- Once a `recv` has returned false, nothing is pushed. -/
theorem Moves.closed (h : Moves capacity s s') (hx : Exclusive s)
    (hd : Delivery capacity s.values s.held) (hc : s.closed = true) :
    s'.closed = true ∧ s'.pushed = s.pushed := by
  cases h with
  | sendPush i data h =>
    exact absurd ((hd.of_loc hx h rfl).here.2.symm.trans hc) (by decide)
  | recvReturn i data h => exact ⟨by simp [CSPChannel.goto, hc], rfl⟩
  | _ => exact ⟨hc, rfl⟩

theorem delivery_inductive (capacity : Nat) : (channel ι T capacity).Inductive
    fun s => Exclusive s ∧ Delivery capacity s.values s.held := by
  apply (exclusive_inductive capacity).assuming
  · intro s hs
    subst hs
    exact ⟨Nat.zero_le _, rfl, rfl, rfl, trivial, fun h => by cases h⟩
  · exact fun s l s' hx hd hst => (step_moves hst).delivers hx hd

theorem closed_run {ls : List (Label ι T)} {t : CSPChannel ι T}
    (r : (channel ι T capacity).Run s ls t) : Exclusive s ∧ Delivery capacity s.values s.held →
      s.closed = true → t.pushed = s.pushed := by
  induction r with
  | nil => exact fun _ _ => rfl
  | cons hst _ ih =>
    intro hd hc
    obtain ⟨hc', hp⟩ := (step_moves hst).closed hd.1 hd.2 hc
    exact (ih ((delivery_inductive capacity).step _ _ _ hd hst) hc').trans hp

/-- **Delivery and closing.** In every state: the queue is within its bound;
the values pushed are those popped and those in the queue, in order; the
successful `send`s are those pushes, the last of them perhaps not returned
yet, and the same holds for `recv` and the pops. Once a `recv` has returned
false all that was sent has been received, and nothing more is pushed. -/
theorem delivery (capacity : Nat) (s : CSPChannel ι T)
    (h : (channel ι T capacity).Reachable s) :
    s.queue.length ≤ max capacity 1 ∧ s.pushed = s.popped ++ s.queue ∧
      s.pushed = s.sent ++ pushing s.held ∧ s.popped = s.received ++ taking s.held ∧
      (s.closed = true → s.received = s.sent ∧ s.received = s.pushed ∧
        ∀ ls t, (channel ι T capacity).Run s ls t → t.pushed = s.pushed) := by
  have hd := (delivery_inductive capacity).reachable s h
  refine ⟨hd.2.size, hd.2.fifo, hd.2.sent, hd.2.received, fun hc => ?_⟩
  obtain ⟨-, hempty, hsent, hrec⟩ := hd.2.closed hc
  have hall : s.pushed = s.popped := by
    have hfifo := hd.2.fifo
    rw [hempty, List.append_nil] at hfifo
    exact hfifo
  have hrec : s.received = s.pushed := hrec.trans hall.symm
  exact ⟨hrec.trans hsent.symm, hrec, fun ls t r => closed_run r hd hc⟩

end

/-- A value is sent and received, the channel stopped, and a second `recv` fails. -/
def sendThenStop : List (Label Bool Nat) :=
  .call false (.send 5) :: List.replicate 5 (.run false none) ++
    .call true .recv :: List.replicate 5 (.run true none) ++
    .call false .stop :: List.replicate 3 (.run false none) ++
    .call true .recv :: List.replicate 3 (.run true none)

theorem delivery_stopped : ∃ s, (channel Bool Nat 0).Reachable s ∧ s.closed = true ∧
    s.sent = [5] ∧ s.received = s.sent := by
  have hrun : ∃ s : CSPChannel Bool Nat, LTS.exec (CSPChannel.step 0) .new sendThenStop = some s ∧
      s.closed = true ∧ s.sent = [5] := ⟨_, rfl, rfl, rfl⟩
  obtain ⟨s, he, hc, hsent⟩ := hrun
  have hr : (channel Bool Nat 0).Reachable s := LTS.reachable_of_exec rfl he
  exact ⟨s, hr, hc, hsent, ((delivery 0 s hr).2.2.2.2 hc).1⟩

end Cxx.Channel
