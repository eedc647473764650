import Cxx.Channel.Delivery

/-!
# Lost wake-ups

`stop` writes `stop_` and notifies without holding the mutex. A thread that
has found its predicate false, and has not blocked yet, does not hear these
notifications, and then blocks with nobody left to wake it.

* `no_lost_wakeup`: no thread is stranded in a run in which a `notify_all`
  of `stop` leaves out such threads only if another one is still to come.
* `recv_stranded`: a run in which one is.
-/
namespace Cxx.Channel

variable {ι T : Type}

/-- Has been notified, or is in an operation that is going to notify. -/
def Loc.active : Loc T → Bool
  | .sendWait _ .woken | .sendCheck _ | .sendPush _ | .sendNotify _
  | .recvWait .woken | .recvCheck | .recvPop | .recvNotify _
  | .stopProducers | .stopConsumers => true
  | _ => false

def Quiet (s : CSPChannel ι T) : Prop := ∀ i, (s.loc i).active = false

/-- A thread is blocked although its predicate holds. -/
def Stranded (capacity : Nat) (s : CSPChannel ι T) : Prop :=
  ∃ i, (∃ data, s.loc i = .sendWait data .blocked ∧ s.canSend capacity = true) ∨
    (s.loc i = .recvWait .blocked ∧ s.canRecv = true)

/-- Has found its predicate false, and is about to block. -/
def Loc.sleepyProducer : Loc T → Bool
  | .sendWait _ .sleepy => true
  | _ => false

def Loc.sleepyConsumer : Loc T → Bool
  | .recvWait .sleepy => true
  | _ => false

/-- When a `stop` notifies the producers and a `send` is about to block, another
`stop` has the producers still to notify; and the same for the consumers. -/
def Heard (s : CSPChannel ι T) (_ : Label ι T) (s' : CSPChannel ι T) : Prop :=
  (∀ i, s.loc i = .stopProducers → s'.loc i = .stopConsumers →
    (∃ j, (s.loc j).sleepyProducer = true) → ∃ k, k ≠ i ∧ s.loc k = .stopProducers) ∧
  ∀ i, s.loc i = .stopConsumers → s'.loc i = .idle → (∃ j, (s.loc j).sleepyConsumer = true) →
    ∃ k, k ≠ i ∧ (s.loc k = .stopProducers ∨ s.loc k = .stopConsumers)

instance [DecidableEq ι] [Fintype ι] [DecidableEq T] (s : CSPChannel ι T) (l : Label ι T)
    (s' : CSPChannel ι T) : Decidable (Heard s l s') := instDecidableAnd

/-! ## Who helps whom -/

/-- Will take a free place, or see to it that a producer does. -/
def helpsProducer : Loc T → Bool
  | .sendWait _ .woken | .sendCheck _ | .sendPush _ | .recvNotify _ => true
  | _ => false

/-- Will take a value, or see to it that a consumer does. -/
def helpsConsumer : Loc T → Bool
  | .recvWait .woken | .recvCheck | .recvPop | .sendNotify _ => true
  | _ => false

def asleepProducer : Loc T → Bool
  | .sendWait _ .sleepy | .sendWait _ .blocked => true
  | _ => false

def asleepConsumer : Loc T → Bool
  | .recvWait .sleepy | .recvWait .blocked => true
  | _ => false

def tellsProducers : Loc T → Bool
  | .stopProducers => true
  | _ => false

def tellsConsumers : Loc T → Bool
  | .stopProducers | .stopConsumers => true
  | _ => false

structure Awake [Fintype ι] (capacity : Nat) (s : CSPChannel ι T) : Prop where
  producers : s.stop = false →
    cvProducer.Served helpsProducer (max capacity 1 - s.queue.length) s.loc
  consumers : s.stop = false → cvConsumer.Served helpsConsumer s.queue.length s.loc
  stoppedProducers : s.stop = true → CondVar.Told asleepProducer tellsProducers s.loc
  stoppedConsumers : s.stop = true → CondVar.Told asleepConsumer tellsConsumers s.loc

theorem helps_of_wake_producer (x : Loc T) (h : cvProducer.blocked x = true) :
    helpsProducer x = false ∧ helpsProducer (cvProducer.wake x) = true := by
  obtain ⟨data, rfl⟩ := blocked_producer.mp h
  exact ⟨rfl, rfl⟩

theorem helps_of_wake_consumer (x : Loc T) (h : cvConsumer.blocked x = true) :
    helpsConsumer x = false ∧ helpsConsumer (cvConsumer.wake x) = true := by
  rw [blocked_consumer.mp h]
  exact ⟨rfl, rfl⟩

/-- A helper, and one who will tell, are active. -/
theorem active_of_helps {x : Loc T} (h : helpsProducer x = true ∨ helpsConsumer x = true ∨
    tellsProducers x = true ∨ tellsConsumers x = true) : x.active = true := by
  cases x with
  | sendWait data w =>
    cases w with
    | woken => rfl
    | _ => simp [helpsProducer, helpsConsumer, tellsProducers, tellsConsumers] at h
  | recvWait w =>
    cases w with
    | woken => rfl
    | _ => simp [helpsProducer, helpsConsumer, tellsProducers, tellsConsumers] at h
  | _ => first | rfl | simp [helpsProducer, helpsConsumer, tellsProducers, tellsConsumers] at h

/-- A stranded thread is on somebody's mind. -/
theorem Awake.not_quiet [Fintype ι] {s : CSPChannel ι T} {capacity : Nat}
    (ha : Awake capacity s) (hs : Stranded capacity s) : ∃ i, (s.loc i).active = true := by
  obtain ⟨i, ⟨data, hi, hp⟩ | ⟨hi, hp⟩⟩ := hs
  · cases hstop : s.stop with
    | true =>
      obtain ⟨k, hk⟩ := ha.stoppedProducers hstop ⟨i, by rw [hi]; rfl⟩
      exact ⟨k, active_of_helps (.inr (.inr (.inl hk)))⟩
    | false =>
      have hroom : s.queue.length < max capacity 1 := by
        rcases canSend_iff.mp hp with hroom | h
        · exact hroom
        · exact absurd (hstop.symm.trans h) (by decide)
      obtain ⟨k, hk⟩ := (ha.producers hstop).helper (i := i) (by rw [hi]; rfl)
        (Nat.sub_pos_of_lt hroom)
      exact ⟨k, active_of_helps (.inl hk)⟩
  · cases hstop : s.stop with
    | true =>
      obtain ⟨k, hk⟩ := ha.stoppedConsumers hstop ⟨i, by rw [hi]; rfl⟩
      exact ⟨k, active_of_helps (.inr (.inr (.inr hk)))⟩
    | false =>
      have hq : s.queue ≠ [] := by
        rcases canRecv_iff.mp hp with hq | h
        · exact hq
        · exact absurd (hstop.symm.trans h) (by decide)
      obtain ⟨k, hk⟩ := (ha.consumers hstop).helper (i := i) (by rw [hi]; rfl)
        (List.length_pos_iff.mpr hq)
      exact ⟨k, active_of_helps (.inr (.inl hk))⟩

/-- Those who are asleep after a `notify_all` were about to block. -/
theorem asleep_notifyAll_producer {f : ι → Loc T} {j : ι}
    (h : asleepProducer (cvProducer.notifyAll f j) = true) : (f j).sleepyProducer = true := by
  unfold CondVar.notifyAll at h
  cases hb : cvProducer.blocked (f j) with
  | true =>
    obtain ⟨data, hj⟩ := blocked_producer.mp hb
    rw [hj] at h
    cases h
  | false =>
    rw [hb, if_neg (by simp)] at h
    cases hj : f j with
    | sendWait data w =>
      rw [hj] at h hb
      cases w with
      | sleepy => rfl
      | blocked => cases hb
      | _ => cases h
    | _ => rw [hj] at h; cases h

theorem asleep_notifyAll_consumer {f : ι → Loc T} {j : ι}
    (h : asleepConsumer (cvConsumer.notifyAll f j) = true) : (f j).sleepyConsumer = true := by
  unfold CondVar.notifyAll at h
  cases hb : cvConsumer.blocked (f j) with
  | true =>
    rw [blocked_consumer.mp hb] at h
    cases h
  | false =>
    rw [hb, if_neg (by simp)] at h
    cases hj : f j with
    | recvWait w =>
      rw [hj] at h hb
      cases w with
      | sleepy => rfl
      | blocked => cases hb
      | _ => cases h
    | _ => rw [hj] at h; cases h

section
variable [DecidableEq ι] [Fintype ι] {s s' : CSPChannel ι T} {capacity : Nat}

theorem Moves.producers (h : Moves capacity s s') (hx : Exclusive s)
    (hd : Delivery capacity s.values s.held) (ha : Awake capacity s) (hs : s'.stop = false) :
    cvProducer.Served helpsProducer (max capacity 1 - s'.queue.length) s'.loc := by
  cases h with
  | call i op h =>
    exact (ha.producers hs).move (by cases op <;> simp [Op.start, cvProducer])
      (by simp [h, helpsProducer])
  | spuriousSend i data h =>
    exact (ha.producers hs).move (by simp [cvProducer]) (by simp [helpsProducer])
  | sendTrue i data w h hw hm hp =>
    exact (ha.producers hs).move (by simp [cvProducer]) (by simp [helpsProducer])
  | sendFalse i data w h hw hm hp =>
    change cvProducer.Served helpsProducer (max capacity 1 - s.queue.length) _
    rw [Nat.sub_eq_zero_of_le (no_room hp).1]
    exact .zero
  | sendBlock i data h =>
    have hfull : max capacity 1 ≤ s.queue.length := (hd.of_loc hx h rfl).here
    change cvProducer.Served helpsProducer (max capacity 1 - s.queue.length) _
    rw [Nat.sub_eq_zero_of_le hfull]
    exact .zero
  | sendStopped i data h hs' => exact absurd (hs.symm.trans hs') (by decide)
  | recvClosed i h hs' hq => exact absurd (hs.symm.trans hs') (by decide)
  | sendChecked i data h hs' =>
    exact (ha.producers hs).move (by simp [cvProducer]) (by simp [helpsProducer])
  | sendPush i data h =>
    -- takes a free place
    have hroom : s.queue.length < max capacity 1 := (hd.of_loc hx h rfl).here.1
    have hn : max capacity 1 - s.queue.length =
        max capacity 1 - (s.queue ++ [data]).length + 1 := by
      rw [List.length_append, List.length_singleton]; omega
    exact (hn ▸ ha.producers hs).take (by simp [cvProducer])
  | sendNotify i data h target loc hn =>
    have hloc := (ha.producers hs).notifyOne_other hn (keeps_consumer _ rfl) (keeps_consumer _ rfl)
    have hi : helpsProducer (loc i) = false := by
      rw [CondVar.notifyOne_keeps (keeps_consumer helpsProducer rfl) hn, h]; rfl
    exact hloc.move (by simp [cvProducer]) (by simp [hi])
  | recvPop i data queue h hq =>
    -- frees a place, and will notify
    have hsize : s.queue.length ≤ max capacity 1 := hd.size
    have hn : max capacity 1 - queue.length = max capacity 1 - s.queue.length + 1 := by
      rw [hq, List.length_cons] at hsize ⊢; omega
    change cvProducer.Served helpsProducer (max capacity 1 - queue.length) _
    rw [hn]
    exact (ha.producers hs).add (by simp [cvProducer]) (by rw [h]; rfl) rfl
  | recvNotify i data h target loc hn =>
    exact (ha.producers hs).notify hn helps_of_wake_producer (by rw [h]; rfl) rfl
  | stopWrite i h => cases hs
  | stopProducers i h => exact .notifyAll rfl
  | stopConsumers i h =>
    have hloc := (ha.producers hs).notifyAll_other (keeps_consumer _ rfl) (keeps_consumer _ rfl)
    have hi : helpsProducer (cvConsumer.notifyAll s.loc i) = false := by
      rw [CondVar.notifyAll_keeps (keeps_consumer helpsProducer rfl), h]; rfl
    exact hloc.move (by simp [cvProducer]) (by simp [hi])
  | sendReturn i data ok h | spuriousRecv i h | recvTrue i w h hw hm hp | recvFalse i w h hw hm hp
  | recvBlock i h | recvChecked i h hs' | recvReturn i data h =>
    exact (ha.producers hs).move (by simp [cvProducer]) (by simp [h, helpsProducer])

theorem Moves.consumers (h : Moves capacity s s') (hx : Exclusive s)
    (hd : Delivery capacity s.values s.held) (ha : Awake capacity s) (hs : s'.stop = false) :
    cvConsumer.Served helpsConsumer s'.queue.length s'.loc := by
  cases h with
  | call i op h =>
    exact (ha.consumers hs).move (by cases op <;> simp [Op.start, cvConsumer])
      (by simp [h, helpsConsumer])
  | spuriousRecv i h =>
    exact (ha.consumers hs).move (by simp [cvConsumer]) (by simp [helpsConsumer])
  | recvTrue i w h hw hm hp =>
    exact (ha.consumers hs).move (by simp [cvConsumer]) (by simp [helpsConsumer])
  | recvFalse i w h hw hm hp =>
    change cvConsumer.Served helpsConsumer s.queue.length _
    rw [(no_value hp).1]
    exact .zero
  | recvBlock i h =>
    have hempty : s.queue = [] := (hd.of_loc hx h rfl).here
    change cvConsumer.Served helpsConsumer s.queue.length _
    rw [hempty]
    exact .zero
  | sendStopped i data h hs' => exact absurd (hs.symm.trans hs') (by decide)
  | recvClosed i h hs' hq => exact absurd (hs.symm.trans hs') (by decide)
  | recvChecked i h hs' =>
    exact (ha.consumers hs).move (by simp [cvConsumer]) (by simp [helpsConsumer])
  | recvPop i data queue h hq =>
    have hn : s.queue.length = queue.length + 1 := by rw [hq, List.length_cons]
    exact (hn ▸ ha.consumers hs).take (by simp [cvConsumer])
  | recvNotify i data h target loc hn =>
    have hloc := (ha.consumers hs).notifyOne_other hn (keeps_producer _ fun _ => rfl)
      (keeps_producer _ fun _ => rfl)
    have hi : helpsConsumer (loc i) = false := by
      rw [CondVar.notifyOne_keeps (keeps_producer helpsConsumer fun _ => rfl) hn, h]; rfl
    exact hloc.move (by simp [cvConsumer]) (by simp [hi])
  | sendPush i data h =>
    -- a value more, and will notify
    change cvConsumer.Served helpsConsumer (s.queue ++ [data]).length _
    rw [List.length_append, List.length_singleton]
    exact (ha.consumers hs).add (by simp [cvConsumer]) (by rw [h]; rfl) rfl
  | sendNotify i data h target loc hn =>
    exact (ha.consumers hs).notify hn helps_of_wake_consumer (by rw [h]; rfl) rfl
  | stopWrite i h => cases hs
  | stopConsumers i h => exact .notifyAll rfl
  | stopProducers i h =>
    have hloc := (ha.consumers hs).notifyAll_other (keeps_producer _ fun _ => rfl)
      (keeps_producer _ fun _ => rfl)
    have hi : helpsConsumer (cvProducer.notifyAll s.loc i) = false := by
      rw [CondVar.notifyAll_keeps (keeps_producer helpsConsumer fun _ => rfl), h]; rfl
    exact hloc.move (by simp [cvConsumer]) (by simp [hi])
  | recvReturn i data h | spuriousSend i data h | sendTrue i data w h hw hm hp
  | sendFalse i data w h hw hm hp | sendBlock i data h | sendChecked i data h hs'
  | sendReturn i data ok h =>
    exact (ha.consumers hs).move (by simp [cvConsumer]) (by simp [h, helpsConsumer])

theorem Moves.toldProducers (h : Moves capacity s s') (ha : Awake capacity s)
    {l : Label ι T} (hheard : Heard s l s') (hs : s'.stop = true) :
    CondVar.Told asleepProducer tellsProducers s'.loc := by
  cases h with
  | call i op h =>
    exact (ha.stoppedProducers hs).move (by cases op <;> simp [Op.start, asleepProducer])
      (by simp [h, tellsProducers])
  | sendFalse i data w h hw hm hp => exact absurd ((no_room hp).2.symm.trans hs) (by decide)
  | sendBlock i data h =>
    exact (ha.stoppedProducers hs).move (by simp [h, asleepProducer]) (by simp [h, tellsProducers])
  | sendNotify i data h target loc hn =>
    have hloc := (ha.stoppedProducers hs).notifyOne hn
      (fun x hb hk => by rwa [keeps_consumer asleepProducer rfl x hb] at hk) (keeps_consumer _ rfl)
    have hi : tellsProducers (loc i) = false := by
      rw [CondVar.notifyOne_keeps (keeps_consumer tellsProducers rfl) hn, h]; rfl
    exact hloc.move (by simp [asleepProducer]) (by simp [hi])
  | recvNotify i data h target loc hn =>
    have hloc := (ha.stoppedProducers hs).notifyOne hn
      (fun x hb hk => by obtain ⟨d, rfl⟩ := blocked_producer.mp hb; rfl)
      (keeps_producer _ fun _ => rfl)
    have hi : tellsProducers (loc i) = false := by
      rw [CondVar.notifyOne_keeps (keeps_producer tellsProducers fun _ => rfl) hn, h]; rfl
    exact hloc.move (by simp [asleepProducer]) (by simp [hi])
  | stopWrite i h =>
    exact .teller i (by simp only [CSPChannel.goto, Function.update_self]; rfl)
  | stopProducers i h =>
    -- the one who is asleep was about to block: another `stop` will tell it
    apply CondVar.Told.broadcast (fun j => asleep_notifyAll_producer)
      (keeps_producer _ fun _ => rfl) rfl
    intro hdeaf
    obtain ⟨k, hki, hk⟩ := hheard.1 i h (Function.update_self _ _ _) hdeaf
    exact ⟨k, hki, by rw [hk]; rfl⟩
  | stopConsumers i h =>
    have hloc := (ha.stoppedProducers hs).notifyAll
      (fun x hb hk => by rwa [keeps_consumer asleepProducer rfl x hb] at hk) (keeps_consumer _ rfl)
    have hi : tellsProducers (cvConsumer.notifyAll s.loc i) = false := by
      rw [CondVar.notifyAll_keeps (keeps_consumer tellsProducers rfl), h]; rfl
    exact hloc.move (by simp [asleepProducer]) (by simp [hi])
  | spuriousSend i data h | spuriousRecv i h | sendTrue i data w h hw hm hp
  | sendStopped i data h hs'
  | sendChecked i data h hs' | sendPush i data h | sendReturn i data ok h | recvTrue i w h hw hm hp
  | recvFalse i w h hw hm hp | recvBlock i h | recvClosed i h hs' hq | recvChecked i h hs'
  | recvPop i data queue h hq | recvReturn i data h =>
    exact (ha.stoppedProducers hs).move (by simp [asleepProducer]) (by simp [h, tellsProducers])

theorem Moves.toldConsumers (h : Moves capacity s s') (ha : Awake capacity s)
    {l : Label ι T} (hheard : Heard s l s') (hs : s'.stop = true) :
    CondVar.Told asleepConsumer tellsConsumers s'.loc := by
  cases h with
  | call i op h =>
    exact (ha.stoppedConsumers hs).move (by cases op <;> simp [Op.start, asleepConsumer])
      (by simp [h, tellsConsumers])
  | recvFalse i w h hw hm hp => exact absurd ((no_value hp).2.symm.trans hs) (by decide)
  | recvBlock i h =>
    exact (ha.stoppedConsumers hs).move (by simp [h, asleepConsumer]) (by simp [h, tellsConsumers])
  | sendNotify i data h target loc hn =>
    have hloc := (ha.stoppedConsumers hs).notifyOne hn
      (fun x hb hk => by rw [blocked_consumer.mp hb]; rfl) (keeps_consumer _ rfl)
    have hi : tellsConsumers (loc i) = false := by
      rw [CondVar.notifyOne_keeps (keeps_consumer tellsConsumers rfl) hn, h]; rfl
    exact hloc.move (by simp [asleepConsumer]) (by simp [hi])
  | recvNotify i data h target loc hn =>
    have hloc := (ha.stoppedConsumers hs).notifyOne hn
      (fun x hb hk => by rwa [keeps_producer asleepConsumer (fun _ => rfl) x hb] at hk)
      (keeps_producer _ fun _ => rfl)
    have hi : tellsConsumers (loc i) = false := by
      rw [CondVar.notifyOne_keeps (keeps_producer tellsConsumers fun _ => rfl) hn, h]; rfl
    exact hloc.move (by simp [asleepConsumer]) (by simp [hi])
  | stopWrite i h =>
    exact .teller i (by simp only [CSPChannel.goto, Function.update_self]; rfl)
  | stopProducers i h =>
    exact .teller i (by simp only [CSPChannel.goto, Function.update_self]; rfl)
  | stopConsumers i h =>
    apply CondVar.Told.broadcast (fun j => asleep_notifyAll_consumer) (keeps_consumer _ rfl) rfl
    intro hdeaf
    obtain ⟨k, hki, hk | hk⟩ := hheard.2 i h (Function.update_self _ _ _) hdeaf
    · exact ⟨k, hki, by rw [hk]; rfl⟩
    · exact ⟨k, hki, by rw [hk]; rfl⟩
  | spuriousSend i data h | spuriousRecv i h | sendTrue i data w h hw hm hp
  | sendFalse i data w h hw hm hp | sendBlock i data h | sendStopped i data h hs'
  | sendChecked i data h hs' | sendPush i data h | sendReturn i data ok h | recvTrue i w h hw hm hp
  | recvClosed i h hs' hq | recvChecked i h hs' | recvPop i data queue h hq | recvReturn i data h =>
    exact (ha.stoppedConsumers hs).move (by simp [asleepConsumer]) (by simp [h, tellsConsumers])

theorem awake_inductive (capacity : Nat) : ((channel ι T capacity).restrict Heard).Inductive
    fun s => (Exclusive s ∧ Delivery capacity s.values s.held) ∧ Awake capacity s where
  init := by
    intro s hs
    refine ⟨(delivery_inductive capacity).init s hs, ?_⟩
    subst hs
    refine ⟨fun _ hpos => ?_, fun _ => .zero, fun h => (by cases h), fun h => (by cases h)⟩
    obtain ⟨i, hi⟩ := Threads.count_pos.mp hpos
    cases hi
  step := by
    intro s l s' h hst
    obtain ⟨⟨hx, hd⟩, ha⟩ := h
    have hm := step_moves hst.1
    refine ⟨(delivery_inductive capacity).step s l s' ⟨hx, hd⟩ hst.1, ?_⟩
    exact ⟨hm.producers hx hd ha, hm.consumers hx hd ha, hm.toldProducers ha hst.2,
      hm.toldConsumers ha hst.2⟩

/-- **No lost wake-up.** In every run in which the notifications of `stop` are
heard, no state leaves a thread stranded with nothing on its way. -/
theorem no_lost_wakeup (capacity : Nat) (s : CSPChannel ι T) (ls : List (Label ι T))
    (r : ((channel ι T capacity).restrict Heard).Run .new ls s) :
    ¬ (Quiet s ∧ Stranded capacity s) := by
  intro h
  have ha := ((awake_inductive capacity).run r ((awake_inductive capacity).init _ rfl)).2
  obtain ⟨i, hi⟩ := ha.not_quiet h.2
  rw [h.1 i] at hi
  cases hi

end

/-- The channel is stopped when a `recv` has blocked on it. -/
def stopAfterBlocking : List (Label Bool Nat) :=
  [.call true .recv, .run true none, .run true none, .call false .stop, .run false none,
    .run false none, .run false none]

theorem no_lost_wakeup_blocked : ∃ s : CSPChannel Bool Nat,
    ((channel Bool Nat 10).restrict Heard).Run .new stopAfterBlocking s ∧
      s.loc true = .recvWait .woken ∧ ¬ (Quiet s ∧ Stranded 10 s) := by
  have hrun : ∃ s : CSPChannel Bool Nat, LTS.exec
      (fun s l => (s.step 10 l).filter fun s' => decide (Heard s l s')) .new stopAfterBlocking =
        some s ∧ s.loc true = .recvWait .woken := ⟨_, rfl, rfl⟩
  obtain ⟨s, he, hw⟩ := hrun
  have r : ((channel Bool Nat 10).restrict Heard).Run .new stopAfterBlocking s :=
    LTS.run_restrict_of_exec he
  exact ⟨s, r, hw, no_lost_wakeup 10 s stopAfterBlocking r⟩

/-- The channel is stopped while a `recv` has found it empty and has not blocked yet. -/
def stopBeforeBlocking : List (Label Bool Nat) :=
  [.call true .recv, .run true none, .call false .stop, .run false none, .run false none,
    .run false none, .run true none]

theorem recv_stranded : ∃ s, (channel Bool Nat 10).Reachable s ∧ s.stop = true ∧
    Quiet s ∧ Stranded 10 s := by
  have hrun : ∃ s : CSPChannel Bool Nat,
      LTS.exec (CSPChannel.step 10) .new stopBeforeBlocking = some s ∧ s.stop = true ∧
        s.loc false = .idle ∧ s.loc true = .recvWait .blocked := ⟨_, rfl, rfl, rfl, rfl⟩
  obtain ⟨s, he, hs, h0, h1⟩ := hrun
  have hready : s.canRecv = true := canRecv_iff.mpr (.inr hs)
  refine ⟨s, LTS.reachable_of_exec rfl he, hs, fun i => ?_, true, .inr ⟨h1, hready⟩⟩
  cases i with
  | false => rw [h0]; rfl
  | true => rw [h1]; rfl

end Cxx.Channel
