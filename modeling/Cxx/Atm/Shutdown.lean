import Cxx.Atm.Accounting

/-!
# Shutting the machines down

`shutdown` is the system with calls of `done()`, which put a `CloseQueue` in
a machine's queue. The last link of every dispatcher chain throws it, and it
leaves the wait. `ATM::run` has its loop in a `try` block that catches it;
the loops of `BankMachine::run` and `InterfaceMachine::run` have none, so that
there it leaves `run` as well.

* `Turn`: what a step means for one machine; `Turn.run` is the run to the
  `CloseQueue`, the same for all three.
* `orderly_iff`: shutdown is orderly for the ATM, and for it alone.
-/
namespace Cxx.Atm

structure Shutdown where
  sys : System
  /-- The messages each machine has popped. -/
  popped : QueueId → List Msg

def Shutdown.new : Shutdown := ⟨.new, fun _ => []⟩

inductive ShutLabel where
  | sys (l : Label)
  /-- mirrors include/atm/ATM.hpp:23, BankMachine.hpp:40, InterfaceMachine.hpp:56 -/
  | done (q : QueueId)
  deriving DecidableEq, Repr

def System.queue (s : System) : QueueId → List Letter
  | .atm => s.atmQueue
  | .bank => s.bankQueue
  | .interface => s.interfaceQueue

def System.ended (s : System) : QueueId → Bool
  | .atm => s.atm.ended
  | .bank => s.bank.ended
  | .interface => s.interface.ended

/-- The steps of a machine. -/
def QueueId.label : QueueId → Label
  | .atm => .atm
  | .bank => .bank
  | .interface => .interface

/-- What a machine pops in its next step. The ATM is not always in a wait. -/
def System.pops (s : System) : QueueId → List Msg
  | .atm => s.atmPops
  | .bank => (s.bankQueue.take 1).map Letter.msg
  | .interface => (s.interfaceQueue.take 1).map Letter.msg

def Shutdown.step (s : Shutdown) : ShutLabel → Option Shutdown
  | .sys l =>
    (s.sys.step l).map fun sys =>
      { sys, popped := fun q => if l = q.label then s.popped q ++ s.sys.pops q else s.popped q }
  | .done q => some { s with sys := s.sys.send (some q) ⟨.closeQueue, .user⟩ }

def shutdown : LTS Shutdown ShutLabel := LTS.ofFn (· = Shutdown.new) Shutdown.step

inductive Exit where
  | running
  | returned
  /-- left by an exception -/
  | threw
  deriving DecidableEq, Repr

/-- Whether `run` catches `CloseQueue`.
mirrors include/atm/ATM.hpp:16-21, BankMachine.hpp:12-39, InterfaceMachine.hpp:10-55 -/
def QueueId.catchesClose : QueueId → Bool
  | .atm => true
  | .bank => false
  | .interface => false

def System.exit (s : System) (q : QueueId) : Exit :=
  if s.ended q then if q.catchesClose then .returned else .threw else .running

/-- A machine has handled or discarded a message as its wait prescribes. -/
def System.Dealt (s s' : System) (msg : Msg) : QueueId → Prop
  | .atm =>
    match s.atm.chain.dispatch Msg.isClose msg with
    | .handled r => s'.atm = { r.1 with waiting := false }
    | .closed => s'.atm = { s.atm with ended := true }
    | .discarded => s'.atm = s.atm
  | .bank =>
    match s.bank.chain.dispatch Msg.isClose msg with
    | .handled r => s'.bank = r.1
    | .closed => s'.bank = { s.bank with ended := true }
    | .discarded => s'.bank = s.bank
  | .interface =>
    match s.interface.chain.dispatch Msg.isClose msg with
    | .handled r => s'.interface = r.1
    | .closed => s'.interface = { s.interface with ended := true }
    | .discarded => s'.interface = s.interface

/-- From every reachable state in which a machine runs and has a `CloseQueue`
in its queue, in every run: it pops what is in front of the first one, in
order, deals with each message as its wait prescribes, and pops nothing
behind the `CloseQueue`. Until it has popped that one it can always go on,
and it does not make more than so many steps; then `run` has returned. -/
def Orderly (q : QueueId) : Prop :=
  ∀ s, shutdown.Reachable s → s.sys.exit q = .running →
    ∀ pre l post, s.sys.queue q = pre ++ l :: post → l.msg = .closeQueue →
      (∀ x ∈ pre, x.msg ≠ .closeQueue) →
    ∀ ls t, shutdown.Run s ls t →
      ∃ taken, t.popped q = s.popped q ++ taken ∧ taken <+: pre.map Letter.msg ++ [.closeQueue] ∧
        (∀ t' msg, t.step (.sys q.label) = some t' → t'.popped q = t.popped q ++ [msg] →
          t.sys.Dealt t'.sys msg q) ∧
        if taken = pre.map Letter.msg ++ [.closeQueue] then t.sys.exit q = .returned
        else t.sys.exit q = .running ∧ (∃ t', t.step (.sys q.label) = some t') ∧
          ls.count (.sys q.label) < 3 * (pre.length + 1)

/-! ## Sending -/

/-- Machines as they were, queues longer at most. -/
structure Grows (s s' : System) : Prop where
  atm : s'.atm = s.atm
  bank : s'.bank = s.bank
  interface : s'.interface = s.interface
  queue : ∀ q, s.queue q <+: s'.queue q

theorem Grows.refl (s : System) : Grows s s := ⟨rfl, rfl, rfl, fun _ => List.prefix_refl _⟩

theorem Grows.trans {s s' s'' : System} (h : Grows s s') (h' : Grows s' s'') : Grows s s'' where
  atm := h'.atm.trans h.atm
  bank := h'.bank.trans h.bank
  interface := h'.interface.trans h.interface
  queue := fun q => (h.queue q).trans (h'.queue q)

theorem send_grows (s : System) (q : Sender) (l : Letter) : Grows s (s.send q l) := by
  cases q with
  | none => exact .refl s
  | some id =>
    refine ⟨?_, ?_, ?_, fun q => ?_⟩
    · cases id <;> rfl
    · cases id <;> rfl
    · cases id <;> rfl
    · cases id <;> cases q <;>
        first
        | exact List.prefix_append _ _
        | exact List.prefix_refl _

theorem fromAtm_grows (posts : List Post) : ∀ s : System, Grows s (s.fromAtm posts) := by
  induction posts with
  | nil => exact .refl
  | cons p posts ih =>
    intro s
    obtain ⟨q, msg⟩ := p
    have hg : Grows s { s with serial := if q = some .bank then s.serial + 1 else s.serial } :=
      ⟨rfl, rfl, rfl, fun q => by cases q <;> exact List.prefix_refl _⟩
    exact (hg.trans (send_grows _ q _)).trans (ih _)

theorem fromBank_grows (request : Letter) (before after : UInt32) (posts : List Post) :
    ∀ s : System, Grows s (s.fromBank request before after posts) := by
  induction posts with
  | nil => exact .refl
  | cons p posts ih =>
    intro s
    obtain ⟨q, msg⟩ := p
    exact (send_grows _ _ _).trans (ih _)

/-! ## A step as one machine sees it -/

/-- The calls of state functions before the ATM is in a wait again. -/
def System.debt (s : System) : QueueId → Nat
  | .atm => if s.atm.waiting then 0 else if s.atm.state = .doneProcessing then 2 else 1
  | _ => 0

theorem debt_le (s : System) (q : QueueId) : s.debt q ≤ 2 := by
  cases q with
  | atm =>
    simp only [System.debt]
    split
    · exact Nat.zero_le _
    · split <;> decide
  | bank => exact Nat.zero_le _
  | interface => exact Nat.zero_le _

/-- What a step means for a running machine. -/
inductive Turn (q : QueueId) (s : Shutdown) (own : Bool) (s' : Shutdown) : Prop
  | other (hown : own = false) (hq : s.sys.queue q <+: s'.sys.queue q)
      (hp : s'.popped q = s.popped q) (he : s'.sys.ended q = s.sys.ended q)
      (hd : s'.sys.debt q = s.sys.debt q)
  | enter (hown : own = true) (hq : s.sys.queue q <+: s'.sys.queue q)
      (hp : s'.popped q = s.popped q) (he : s'.sys.ended q = s.sys.ended q)
      (hd : s'.sys.debt q + 1 = s.sys.debt q)
  | pop {l : Letter} {rest : List Letter} (hown : own = true) (hl : s.sys.queue q = l :: rest)
      (hq : rest <+: s'.sys.queue q) (hp : s'.popped q = s.popped q ++ [l.msg])
      (he : s'.sys.ended q = l.msg.isClose) (hd : s.sys.debt q = 0)

/-- A step that has changed `s.sys` to `t` elsewhere, and then sends. -/
theorem Turn.of_grows {q : QueueId} {s s' : Shutdown} {t : System} (h : Grows t s'.sys)
    (hq : t.queue q = s.sys.queue q) (he : t.ended q = s.sys.ended q)
    (hd : t.debt q = s.sys.debt q) (hp : s'.popped q = s.popped q) : Turn q s false s' := by
  apply Turn.other rfl (hq ▸ h.queue q) hp
  · rw [← he]
    cases q
    · exact congrArg ATM.ended h.atm
    · exact congrArg BankMachine.ended h.bank
    · exact congrArg InterfaceMachine.ended h.interface
  · rw [← hd]
    cases q
    · unfold System.debt; rw [h.atm]
    · rfl
    · rfl

theorem ATM.pop_ended {a : ATM} (ha : a.ended = false) (msg : Msg) :
    (a.pop msg).1.ended = msg.isClose := by
  rcases a.pop_spec msg with ht | ⟨rfl, hp⟩ | ⟨hp, hne, -⟩
  · generalize a.pop msg = r at ht
    obtain ⟨a', posts⟩ := r
    cases ht <;> exact ha
  · rw [hp]; rfl
  · rw [hp]
    cases msg <;> first | exact ha | exact absurd rfl hne

theorem BankMachine.pop_ended {b : BankMachine} (hb : b.ended = false) (msg : Msg) :
    (b.pop msg).1.ended = msg.isClose := by
  rw [pop_eq]
  cases msg with
  | withdraw account amount q =>
    by_cases ha : amount ≤ b.balance
    · simp only [if_pos ha]; exact hb
    · simp only [if_neg ha]; exact hb
  | closeQueue => rfl
  | _ => exact hb

theorem InterfaceMachine.pop_ended {i : InterfaceMachine} (hi : i.ended = false) (msg : Msg) :
    (i.pop msg).1.ended = msg.isClose := by
  cases msg <;> first | exact hi | rfl

theorem ATM.enter_ended (a : ATM) : a.enter.1.ended = a.ended := a.request_enter.2

/-- Only `doneProcessing` goes on to another state function. -/
theorem enter_debt {s : System} (hw : s.atm.waiting = false) :
    System.debt { s with atm := s.atm.enter.1 } .atm + 1 = s.debt .atm := by
  obtain ⟨state, h⟩ : ∃ state, s.atm.state = state := ⟨_, rfl⟩
  cases state <;> simp [System.debt, ATM.enter, h, hw]

/-! A step changes a machine and its queue, and then it sends. -/

theorem stepAtm_grows {s s' : System} (h : s.stepAtm = some s') : s.atm.ended = false ∧
    ((s.atm.waiting = false ∧ Grows { s with atm := s.atm.enter.1 } s') ∨
    ∃ l rest session, s.atm.waiting = true ∧ s.atmQueue = l :: rest ∧
      Grows { s with atm := (s.atm.pop l.msg).1, atmQueue := rest, session } s') := by
  obtain ⟨he, ⟨hw, rfl⟩ | ⟨l, rest, hw, hq, rfl⟩⟩ := stepAtm_eq_some h
  · exact ⟨he, .inl ⟨hw, fromAtm_grows _ _⟩⟩
  · exact ⟨he, .inr ⟨l, rest, _, hw, hq, fromAtm_grows _ _⟩⟩

theorem stepBank_grows {s s' : System} (h : s.stepBank = some s') : s.bank.ended = false ∧
    ∃ l rest lastServed, s.bankQueue = l :: rest ∧
      Grows { s with bank := (s.bank.pop l.msg).1, bankQueue := rest, lastServed } s' := by
  obtain ⟨he, l, rest, hq, rfl⟩ := stepBank_eq_some h
  exact ⟨he, l, rest, _, hq, fromBank_grows _ _ _ _ _⟩

theorem Turn.of_own {q : QueueId} {s s' : Shutdown} (h : s.sys.step q.label = some s'.sys)
    (hp : s'.popped q = s.popped q ++ s.sys.pops q) : s.sys.ended q = false ∧ Turn q s true s' := by
  cases q with
  | atm =>
    obtain ⟨he, ⟨hw, hg⟩ | ⟨l, rest, session, hw, hq, hg⟩⟩ := stepAtm_grows h
    · refine ⟨he, .enter rfl (hg.queue .atm) ?_ ?_ ?_⟩
      · simp [hp, System.pops, System.atmPops, hw]
      · exact (congrArg ATM.ended hg.atm).trans (ATM.enter_ended _)
      · rw [← enter_debt hw]
        simp only [System.debt, hg.atm]
    · refine ⟨he, .pop (l := l) rfl hq (hg.queue .atm) ?_ ?_ ?_⟩
      · simp [hp, System.pops, System.atmPops, hw, hq]
      · exact (congrArg ATM.ended hg.atm).trans (ATM.pop_ended he _)
      · simp [System.debt, hw]
  | bank =>
    obtain ⟨he, l, rest, lastServed, hq, hg⟩ := stepBank_grows h
    refine ⟨he, .pop (l := l) rfl hq (hg.queue .bank) ?_ ?_ rfl⟩
    · simp [hp, System.pops, hq]
    · exact (congrArg BankMachine.ended hg.bank).trans (BankMachine.pop_ended he _)
  | interface =>
    obtain ⟨he, l, rest, hq, hs⟩ := stepInterface_eq_some h
    have hrest : rest <+: s'.sys.queue .interface := by rw [hs]; exact List.prefix_refl _
    refine ⟨he, .pop (l := l) rfl hq hrest ?_ ?_ rfl⟩
    · simp [hp, System.pops, hq]
    · rw [hs]; exact InterfaceMachine.pop_ended he _

/-- A machine is left alone, but for its queue, while the others run. -/
theorem Turn.of_other {q : QueueId} {l : Label} {s s' : Shutdown} (h : s.sys.step l = some s'.sys)
    (hl : l ≠ q.label) (hp : s'.popped q = s.popped q) : Turn q s false s' := by
  cases l with
  | user msg =>
    obtain ⟨-, hs⟩ := step_user h
    exact .of_grows (hs ▸ send_grows _ _ _) rfl rfl rfl hp
  | atm =>
    obtain ⟨-, ⟨-, hg⟩ | ⟨m, rest, session, -, -, hg⟩⟩ := stepAtm_grows h
    · cases q with
      | atm => exact absurd rfl hl
      | bank | interface => exact .of_grows hg rfl rfl rfl hp
    · cases q with
      | atm => exact absurd rfl hl
      | bank | interface => exact .of_grows hg rfl rfl rfl hp
  | bank =>
    obtain ⟨-, m, rest, lastServed, -, hg⟩ := stepBank_grows h
    cases q with
    | bank => exact absurd rfl hl
    | atm | interface => exact .of_grows hg rfl rfl rfl hp
  | interface =>
    obtain ⟨i, rest, hs⟩ := step_interface h
    have hg : Grows { s.sys with interface := i, interfaceQueue := rest } s'.sys := by
      rw [hs]; exact .refl _
    cases q with
    | interface => exact absurd rfl hl
    | atm | bank => exact .of_grows hg rfl rfl rfl hp

theorem step_turn {q : QueueId} {s s' : Shutdown} {l : ShutLabel} (h : s.step l = some s') :
    Turn q s (l = .sys q.label) s' ∧ (l = .sys q.label → s.sys.ended q = false) := by
  cases l with
  | done p =>
    cases h
    have hne : decide (ShutLabel.done p = .sys q.label) = false := rfl
    rw [hne]
    exact ⟨.of_grows (send_grows _ _ _) rfl rfl rfl rfl, fun hd => by cases hd⟩
  | sys l =>
    obtain ⟨sys, hs, rfl⟩ := Option.map_eq_some_iff.mp h
    by_cases hl : l = q.label
    · subst hl
      have hp : (if q.label = q.label then s.popped q ++ s.sys.pops q else s.popped q) =
        s.popped q ++ s.sys.pops q := if_pos rfl
      have hturn : s.sys.ended q = false ∧ Turn q s true ⟨sys, fun p =>
        if q.label = p.label then s.popped p ++ s.sys.pops p else s.popped p⟩ := Turn.of_own hs hp
      obtain ⟨he, ht⟩ := hturn
      rw [decide_eq_true rfl]
      exact ⟨ht, fun _ => he⟩
    · have hne : decide (ShutLabel.sys l = .sys q.label) = false :=
        decide_eq_false fun h => hl (ShutLabel.sys.inj h)
      rw [hne]
      exact ⟨.of_other (s := s) hs hl (if_neg hl), fun h => absurd (ShutLabel.sys.inj h) hl⟩

/-! ## Runs to the `CloseQueue` -/

theorem ended_run {q : QueueId} {s t : Shutdown} {ls : List ShutLabel} (r : shutdown.Run s ls t) :
    s.sys.ended q = true → t.sys.ended q = true ∧ t.popped q = s.popped q := by
  induction r with
  | nil => exact fun he => ⟨he, rfl⟩
  | cons hst _ ih =>
    intro he
    obtain ⟨ht, hrun⟩ := step_turn (q := q) hst
    cases ht with
    | other hown hq hp he' hd =>
      obtain ⟨h1, h2⟩ := ih (he'.trans he)
      exact ⟨h1, h2.trans hp⟩
    | enter hown => rw [hrun (of_decide_eq_true hown)] at he; cases he
    | pop hown => rw [hrun (of_decide_eq_true hown)] at he; cases he

/-- Until the `CloseQueue` is popped, the machine has popped part of what was
in front of it, and each of its steps brings it closer. -/
def Closing (q : QueueId) (pre : List Letter) (l : Letter) (s t : Shutdown) (own : Nat) : Prop :=
  t.sys.ended q = false ∧ ∃ pre₁ pre₂ post, pre = pre₁ ++ pre₂ ∧
    t.popped q = s.popped q ++ pre₁.map Letter.msg ∧ t.sys.queue q = pre₂ ++ l :: post ∧
    own + 3 * pre₂.length + t.sys.debt q ≤ 3 * pre.length + s.sys.debt q

theorem closing_run {q : QueueId} {l : Letter} (hl : l.msg = .closeQueue) {s t : Shutdown}
    {ls : List ShutLabel} (r : shutdown.Run s ls t) :
    ∀ {pre post : List Letter}, s.sys.queue q = pre ++ l :: post →
      (∀ x ∈ pre, x.msg ≠ .closeQueue) → s.sys.ended q = false →
      (t.sys.ended q = true ∧
        t.popped q = s.popped q ++ (pre.map Letter.msg ++ [.closeQueue])) ∨
      Closing q pre l s t (ls.count (.sys q.label)) := by
  induction r with
  | nil s =>
    intro pre post hq _ he
    exact .inr ⟨he, [], pre, post, rfl, (List.append_nil _).symm, hq, by simp⟩
  | @cons s s' t lab ls hst r ih =>
    intro pre post hq hpre he
    -- the rest of the run starts with the same messages in front of the `CloseQueue`, or one less
    cases (step_turn (q := q) hst).1 with
    | other hown hq' hp he' hd =>
      obtain ⟨more, hmore⟩ := hq'
      rw [hq, List.append_assoc, List.cons_append] at hmore
      rcases ih hmore.symm hpre (he'.trans he) with ⟨h1, h2⟩ | ⟨h1, p₁, p₂, post', h2, h3, h4, h5⟩
      · exact .inl ⟨h1, hp ▸ h2⟩
      · refine .inr ⟨h1, p₁, p₂, post', h2, hp ▸ h3, h4, ?_⟩
        rw [List.count_cons_of_ne (of_decide_eq_false hown), ← hd]
        exact h5
    | enter hown hq' hp he' hd =>
      obtain ⟨more, hmore⟩ := hq'
      rw [hq, List.append_assoc, List.cons_append] at hmore
      rcases ih hmore.symm hpre (he'.trans he) with ⟨h1, h2⟩ | ⟨h1, p₁, p₂, post', h2, h3, h4, h5⟩
      · exact .inl ⟨h1, hp ▸ h2⟩
      · refine .inr ⟨h1, p₁, p₂, post', h2, hp ▸ h3, h4, ?_⟩
        rw [of_decide_eq_true hown, List.count_cons_self]
        omega
    | @pop x rest hown hl' hq' hp he' hd =>
      rw [hl'] at hq
      cases pre with
      | nil =>
        cases hq
        obtain ⟨h1, h2⟩ := ended_run r (he'.trans (by rw [hl]; rfl))
        rw [hl] at hp
        exact .inl ⟨h1, h2.trans hp⟩
      | cons y pre =>
        rw [List.cons_append] at hq
        obtain ⟨rfl, rfl⟩ := List.cons.inj hq
        obtain ⟨more, hmore⟩ := hq'
        rw [List.append_assoc, List.cons_append] at hmore
        have hx : x.msg.isClose = false := by
          have := hpre x List.mem_cons_self
          cases hm : x.msg <;> first | rfl | exact absurd hm this
        have hrest : ∀ z ∈ pre, z.msg ≠ .closeQueue :=
          fun z hz => hpre z (List.mem_cons_of_mem _ hz)
        rcases ih hmore.symm hrest (he'.trans hx) with
          ⟨h1, h2⟩ | ⟨h1, p₁, p₂, post', h2, h3, h4, h5⟩
        · refine .inl ⟨h1, ?_⟩
          rw [h2, hp, List.map_cons, List.append_assoc]; rfl
        · refine .inr ⟨h1, x :: p₁, p₂, post', by rw [h2]; rfl, ?_, h4, ?_⟩
          · rw [h3, hp, List.map_cons, List.append_assoc]; rfl
          · rw [of_decide_eq_true hown, List.count_cons_self, List.length_cons]
            have := debt_le s'.sys q
            omega

/-- A running machine with something in its queue can go on. -/
theorem step_enabled {q : QueueId} {s : Shutdown} (he : s.sys.ended q = false)
    (hq : s.sys.queue q ≠ []) : ∃ s', s.step (.sys q.label) = some s' := by
  obtain ⟨l, rest, hq⟩ := List.exists_cons_of_ne_nil hq
  have hsys : ∃ sys, s.sys.step q.label = some sys := by
    cases q with
    | atm =>
      have he : s.sys.atm.ended = false := he
      have hq : s.sys.atmQueue = l :: rest := hq
      simp only [QueueId.label, System.step, System.stepAtm, he, hq]
      cases s.sys.atm.waiting <;> exact ⟨_, rfl⟩
    | bank =>
      have he : s.sys.bank.ended = false := he
      have hq : s.sys.bankQueue = l :: rest := hq
      simp only [QueueId.label, System.step, System.stepBank, he, hq]
      exact ⟨_, rfl⟩
    | interface =>
      have he : s.sys.interface.ended = false := he
      have hq : s.sys.interfaceQueue = l :: rest := hq
      simp only [QueueId.label, System.step, System.stepInterface, he, hq]
      exact ⟨_, rfl⟩
  obtain ⟨sys, hsys⟩ := hsys
  exact ⟨_, by simp only [Shutdown.step, hsys, Option.map_some]; rfl⟩

theorem step_dealt {q : QueueId} {s s' : Shutdown} {msg : Msg}
    (h : s.step (.sys q.label) = some s') (hp : s'.popped q = s.popped q ++ [msg]) :
    s.sys.Dealt s'.sys msg q := by
  obtain ⟨sys, hs, rfl⟩ := Option.map_eq_some_iff.mp h
  simp only [if_true, List.append_cancel_left_eq] at hp
  cases q with
  | atm =>
    obtain ⟨-, ⟨hw, -⟩ | ⟨l, rest, session, hw, hq, hg⟩⟩ := stepAtm_grows hs
    · simp [System.pops, System.atmPops, hw] at hp
    · simp only [System.pops, System.atmPops, hw, hq, if_true, List.take_succ_cons, List.take_zero,
        List.map_cons, List.map_nil, List.cons.injEq, and_true] at hp
      subst hp
      have ha : sys.atm = (s.sys.atm.pop l.msg).1 := hg.atm
      unfold ATM.pop at ha
      unfold System.Dealt
      cases hd : s.sys.atm.chain.dispatch Msg.isClose l.msg <;> simp only [hd] at ha <;> exact ha
  | bank =>
    obtain ⟨-, l, rest, lastServed, hq, hg⟩ := stepBank_grows hs
    simp only [System.pops, hq, List.take_succ_cons, List.take_zero,
      List.map_cons, List.map_nil, List.cons.injEq, and_true] at hp
    subst hp
    have hb : sys.bank = (s.sys.bank.pop l.msg).1 := hg.bank
    unfold BankMachine.pop at hb
    unfold System.Dealt
    cases hd : s.sys.bank.chain.dispatch Msg.isClose l.msg <;> simp only [hd] at hb <;> exact hb
  | interface =>
    obtain ⟨-, l, rest, hq, hi⟩ := stepInterface_eq_some hs
    simp only [System.pops, hq, List.take_succ_cons, List.take_zero,
      List.map_cons, List.map_nil, List.cons.injEq, and_true] at hp
    subst hp
    have hi : sys.interface = (s.sys.interface.pop l.msg).1 := by rw [hi]
    unfold InterfaceMachine.pop at hi
    unfold System.Dealt
    cases hd : s.sys.interface.chain.dispatch Msg.isClose l.msg <;> simp only [hd] at hi <;>
      exact hi

/-- What holds of all three machines: everything but how `run` is left. -/
theorem closing_order {q : QueueId} {s : Shutdown} (he : s.sys.ended q = false)
    {pre post : List Letter} {l : Letter} (hq : s.sys.queue q = pre ++ l :: post)
    (hl : l.msg = .closeQueue) (hpre : ∀ x ∈ pre, x.msg ≠ .closeQueue) {ls : List ShutLabel}
    {t : Shutdown} (r : shutdown.Run s ls t) :
    ∃ taken, t.popped q = s.popped q ++ taken ∧ taken <+: pre.map Letter.msg ++ [.closeQueue] ∧
      if taken = pre.map Letter.msg ++ [.closeQueue] then t.sys.ended q = true
      else t.sys.ended q = false ∧ (∃ t', t.step (.sys q.label) = some t') ∧
        ls.count (.sys q.label) < 3 * (pre.length + 1) := by
  rcases closing_run hl r hq hpre he with ⟨h1, h2⟩ | ⟨h1, p₁, p₂, post', h2, h3, h4, h5⟩
  · refine ⟨_, h2, List.prefix_refl _, ?_⟩
    rw [if_pos rfl]
    exact h1
  · refine ⟨_, h3, ⟨p₂.map Letter.msg ++ [.closeQueue], ?_⟩, ?_⟩
    · rw [h2, List.map_append, List.append_assoc]
    · have hne : p₁.map Letter.msg ≠ pre.map Letter.msg ++ [.closeQueue] := by
        intro h
        have := congrArg List.length h
        rw [h2] at this
        simp only [List.length_map, List.length_append, List.length_cons, List.length_nil] at this
        omega
      rw [if_neg hne]
      refine ⟨h1, step_enabled h1 (by rw [h4]; simp), ?_⟩
      have := debt_le s.sys q
      omega

theorem exit_running {s : System} {q : QueueId} : s.exit q = .running ↔ s.ended q = false := by
  unfold System.exit
  cases s.ended q <;> cases q <;> simp [QueueId.catchesClose]

/-- Any machine can be closed, and then `run` is left as it is left. -/
theorem closed_exit (q : QueueId) : ∃ s t ls, shutdown.Reachable s ∧ s.sys.ended q = false ∧
    s.popped q = [] ∧ s.sys.queue q = [⟨.closeQueue, .user⟩] ∧ shutdown.Run s ls t ∧
    t.popped q = [.closeQueue] ∧ t.sys.exit q = if q.catchesClose then .returned else .threw := by
  have hs : ∃ s, LTS.exec Shutdown.step .new [.done q] = some s ∧ s.sys.ended q = false ∧
      s.popped q = [] ∧ s.sys.queue q = [⟨.closeQueue, .user⟩] := by
    cases q <;> exact ⟨_, rfl, rfl, rfl, rfl⟩
  obtain ⟨s, he, hend, hp, hq⟩ := hs
  have ht : ∃ t ls, LTS.exec Shutdown.step s ls = some t ∧ t.popped q = [.closeQueue] ∧
      t.sys.exit q = if q.catchesClose then .returned else .threw := by
    cases q
    · cases he; exact ⟨_, [.sys .atm, .sys .atm], rfl, rfl, rfl⟩
    · cases he; exact ⟨_, [.sys .bank], rfl, rfl, rfl⟩
    · cases he; exact ⟨_, [.sys .interface], rfl, rfl, rfl⟩
  obtain ⟨t, ls, he', hpop, hexit⟩ := ht
  exact ⟨s, t, ls, LTS.reachable_of_exec rfl he, hend, hp, hq, LTS.run_of_exec he', hpop, hexit⟩

/-- **Orderly shutdown.** All three machines take what is queued before the
`CloseQueue`, in order, and nothing behind it; but only the ATM's `run` returns. -/
theorem orderly_iff (q : QueueId) : Orderly q ↔ q = .atm := by
  constructor
  · intro h
    obtain ⟨s, t, ls, hr, he, hp, hq, r, hpop, hexit⟩ := closed_exit q
    obtain ⟨taken, h1, h2, -, h3⟩ :=
      h s hr (exit_running.mpr he) [] _ [] hq rfl (fun x hx => by cases hx) ls t r
    rw [hp, hpop, List.nil_append] at h1
    have h3 := (if_pos h1.symm).mp h3
    rw [hexit] at h3
    cases q with
    | atm => rfl
    | bank => cases h3
    | interface => cases h3
  · intro hq
    subst hq
    intro s _ hrun pre l post hq hl hpre ls t r
    obtain ⟨taken, h1, h2, h3⟩ := closing_order (exit_running.mp hrun) hq hl hpre r
    refine ⟨taken, h1, h2, fun t' msg => step_dealt, ?_⟩
    by_cases ht : taken = pre.map Letter.msg ++ [.closeQueue]
    · rw [if_pos ht] at h3 ⊢
      unfold System.exit
      rw [if_pos h3]
      rfl
    · rw [if_neg ht] at h3 ⊢
      exact ⟨exit_running.mpr h3.1, h3.2⟩

/-- `bank.done()`, and the bank's next step. -/
theorem bank_run_throws : ∃ s t, LTS.exec Shutdown.step .new [.done .bank] = some s ∧
    s.step (.sys .bank) = some t ∧ t.popped .bank = [.closeQueue] ∧ t.sys.exit .bank = .threw ∧
    ¬ Orderly .bank := by
  have hrun : ∃ s t, LTS.exec Shutdown.step .new [.done .bank] = some s ∧
      s.step (.sys .bank) = some t ∧ t.popped .bank = [.closeQueue] ∧
      t.sys.exit .bank = .threw ∧ s.sys.exit .bank = .running ∧ s.popped .bank = [] ∧
      s.sys.queue .bank = [⟨.closeQueue, .user⟩] := ⟨_, _, rfl, rfl, rfl, rfl, rfl, rfl, rfl⟩
  obtain ⟨s, t, he, hs, hp, ht, hr, hp₀, hq⟩ := hrun
  refine ⟨s, t, he, hs, hp, ht, fun h => ?_⟩
  obtain ⟨taken, h1, -, -, h3⟩ := h s (LTS.reachable_of_exec rfl he) hr [] _ [] hq rfl
    (fun x hx => by cases hx) _ t (LTS.run_step hs)
  rw [hp, hp₀, List.nil_append] at h1
  have h3 := (if_pos h1.symm).mp h3
  rw [ht] at h3
  cases h3

end Cxx.Atm
