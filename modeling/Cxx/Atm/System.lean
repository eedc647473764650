import Cxx.Core.LTS
import Cxx.Atm.Machines

/-!
# The three machines and their queues

`system` is the transition system of `ATM::run`, `BankMachine::run` and
`InterfaceMachine::run` over their queues, with the users' `send` calls.
What a machine does with one popped message is one step: it pops from its
own queue, its other fields are its own, and of the queues it sends to only
the ATM's has another sender, to which no handler sends twice.

**What is recorded.** A queued message is a `Letter`: the message and its
origin. Requests carry the card session they were sent in and their number
among the ATM's messages to the bank; a reply carries the request it
answers and the balance before and after. `session`, `serial`, `displays`
and `lastServed` are such records too. The machines only ever see messages.

**Results.** `System.step_atm` and the lemmas around it say what a step can
do; `pipeline` is the FIFO of requests that have been sent and whose replies
have not been popped, and `Sound` is what holds of it in every state:
`system_sound`.
-/
namespace Cxx.Atm

/-- A card session, and a number among the messages to the bank. -/
structure Stamp where
  session : Nat
  serial : Nat
  deriving DecidableEq, Repr

inductive Origin where
  | user
  | atm (stamp : Stamp)
  | bank (request : Msg) (stamp : Stamp) (before after : UInt32)
  deriving DecidableEq, Repr

structure Letter where
  msg : Msg
  origin : Origin
  deriving DecidableEq, Repr

/-- What the users send. -/
def Msg.isUser : Msg → Bool
  | .cardInserted _ | .digitPressed _ | .clearLastPressed | .withdrawPressed _ | .balancePressed
  | .cancelPressed => true
  | _ => false

structure System where
  atm : ATM
  bank : BankMachine
  interface : InterfaceMachine
  atmQueue : List Letter
  bankQueue : List Letter
  interfaceQueue : List Letter
  /-- Cards accepted so far. -/
  session : Nat
  /-- Messages sent to the bank so far. -/
  serial : Nat
  /-- Messages sent to the interface so far. -/
  displays : List Msg
  /-- The last `withdraw` the bank has answered: what was asked for, and what was taken. -/
  lastServed : Option (UInt32 × Nat)
  deriving DecidableEq, Repr

def System.new : System where
  atm := .new
  bank := .new
  interface := .new
  atmQueue := []
  bankQueue := []
  interfaceQueue := []
  session := 0
  serial := 0
  displays := []
  lastServed := none

/-- `Sender::send`; nothing is sent through a null sender.
mirrors include/atm/Dispatcher.hpp:98-102 -/
def System.send (s : System) (q : Sender) (l : Letter) : System :=
  match q with
  | none => s
  | some .atm => { s with atmQueue := s.atmQueue ++ [l] }
  | some .bank => { s with bankQueue := s.bankQueue ++ [l] }
  | some .interface =>
    { s with interfaceQueue := s.interfaceQueue ++ [l], displays := s.displays ++ [l.msg] }

/-- The sends of a handler of the ATM. -/
def System.fromAtm (s : System) : List Post → System
  | [] => s
  | (q, msg) :: posts =>
    let serial := if q = some .bank then s.serial + 1 else s.serial
    (({ s with serial }).send q ⟨msg, .atm ⟨s.session, serial⟩⟩).fromAtm posts

def Origin.stamp : Origin → Stamp
  | .user => ⟨0, 0⟩
  | .atm stamp => stamp
  | .bank _ stamp _ _ => stamp

/-- The sends of a handler of the bank, which is called with `request`. -/
def System.fromBank (s : System) (request : Letter) (before after : UInt32) : List Post → System
  | [] => s
  | (q, msg) :: posts =>
    let l : Letter := ⟨msg, .bank request.msg request.origin.stamp before after⟩
    (s.send q l).fromBank request before after posts

/-- The account, and the last withdrawal served from it. -/
structure Ledger where
  bank : BankMachine
  lastServed : Option (UInt32 × Nat)
  deriving DecidableEq, Repr

def Ledger.serve (g : Ledger) (msg : Msg) : Ledger where
  bank := (g.bank.pop msg).1
  lastServed :=
    match msg with
    | .withdraw _ amount _ => some (amount, g.bank.balance.toNat - (g.bank.pop msg).1.balance.toNat)
    | _ => g.lastServed

def System.ledger (s : System) : Ledger := ⟨s.bank, s.lastServed⟩

inductive Label where
  | user (msg : Msg)
  | atm
  | bank
  | interface
  deriving DecidableEq, Repr

def System.stepAtm (s : System) : Option System :=
  if s.atm.ended then none
  else if !s.atm.waiting then some (({ s with atm := s.atm.enter.1 }).fromAtm s.atm.enter.2)
  else
    match s.atmQueue with
    | [] => none
    | l :: rest =>
      let r := s.atm.pop l.msg
      let session :=
        if s.atm.state = .waitForCard ∧ r.1.state = .gettingPin then s.session + 1 else s.session
      some (({ s with atm := r.1, atmQueue := rest, session }).fromAtm r.2)

def System.stepBank (s : System) : Option System :=
  if s.bank.ended then none
  else
    match s.bankQueue with
    | [] => none
    | l :: rest =>
      let g := s.ledger.serve l.msg
      some (({ s with bank := g.bank, bankQueue := rest, lastServed := g.lastServed }).fromBank l
        s.bank.balance g.bank.balance (s.bank.pop l.msg).2)

def System.stepInterface (s : System) : Option System :=
  if s.interface.ended then none
  else
    match s.interfaceQueue with
    | [] => none
    | l :: rest => some { s with interface := (s.interface.pop l.msg).1, interfaceQueue := rest }

def System.step (s : System) : Label → Option System
  | .user msg => if msg.isUser then some (s.send ATM.sender ⟨msg, .user⟩) else none
  | .atm => s.stepAtm
  | .bank => s.stepBank
  | .interface => s.stepInterface

def system : LTS System Label := LTS.ofFn (· = System.new) System.step

/-! ## What a step can do -/

section
variable (s : System) (m m' : Msg)

@[simp] theorem fromAtm_nil : s.fromAtm [] = s := rfl

@[simp] theorem fromAtm_interface : s.fromAtm [(ATM.interface, m)] =
    { s with
      interfaceQueue := s.interfaceQueue ++ [⟨m, .atm ⟨s.session, s.serial⟩⟩]
      displays := s.displays ++ [m] } :=
  rfl

@[simp] theorem fromAtm_bank : s.fromAtm [(ATM.bank, m)] =
    { s with
      bankQueue := s.bankQueue ++ [⟨m, .atm ⟨s.session, s.serial + 1⟩⟩]
      serial := s.serial + 1 } := rfl

@[simp] theorem fromAtm_bank_interface : s.fromAtm [(ATM.bank, m), (ATM.interface, m')] =
    { s with
      bankQueue := s.bankQueue ++ [⟨m, .atm ⟨s.session, s.serial + 1⟩⟩]
      serial := s.serial + 1
      interfaceQueue := s.interfaceQueue ++ [⟨m', .atm ⟨s.session, s.serial + 1⟩⟩]
      displays := s.displays ++ [m'] } := rfl

end

/-- A step of the ATM enters its state function, or gives it the front of the queue. -/
theorem stepAtm_eq_some {s s' : System} (h : s.stepAtm = some s') : s.atm.ended = false ∧
    ((s.atm.waiting = false ∧ s' = ({ s with atm := s.atm.enter.1 }).fromAtm s.atm.enter.2) ∨
    ∃ l rest, s.atm.waiting = true ∧ s.atmQueue = l :: rest ∧
      s' = ({ s with
        atm := (s.atm.pop l.msg).1
        atmQueue := rest
        session := if s.atm.state = AtmState.waitForCard ∧
          (s.atm.pop l.msg).1.state = AtmState.gettingPin then s.session + 1
          else s.session }).fromAtm (s.atm.pop l.msg).2) := by
  cases he : s.atm.ended with
  | true => simp [System.stepAtm, he] at h
  | false =>
    refine ⟨rfl, ?_⟩
    cases hw : s.atm.waiting with
    | false =>
      simp only [System.stepAtm, he, hw, Bool.false_eq_true, if_false, Bool.not_false, if_true,
        Option.some.injEq] at h
      exact .inl ⟨rfl, h.symm⟩
    | true =>
      cases hq : s.atmQueue with
      | nil => simp [System.stepAtm, he, hw, hq] at h
      | cons l rest =>
        simp only [System.stepAtm, he, hw, hq, Bool.false_eq_true, if_false, Bool.not_true,
          Option.some.injEq] at h
        exact .inr ⟨l, rest, rfl, rfl, h.symm⟩

theorem stepBank_eq_some {s s' : System} (h : s.stepBank = some s') : s.bank.ended = false ∧
    ∃ l rest, s.bankQueue = l :: rest ∧
      s' = ({ s with
        bank := (s.ledger.serve l.msg).bank
        bankQueue := rest
        lastServed := (s.ledger.serve l.msg).lastServed }).fromBank l s.bank.balance
          (s.ledger.serve l.msg).bank.balance (s.bank.pop l.msg).2 := by
  cases he : s.bank.ended with
  | true => simp [System.stepBank, he] at h
  | false =>
    cases hq : s.bankQueue with
    | nil => simp [System.stepBank, he, hq] at h
    | cons l rest =>
      simp only [System.stepBank, he, hq, Bool.false_eq_true, if_false, Option.some.injEq] at h
      exact ⟨rfl, l, rest, rfl, h.symm⟩

theorem stepInterface_eq_some {s s' : System} (h : s.stepInterface = some s') :
    s.interface.ended = false ∧ ∃ l rest, s.interfaceQueue = l :: rest ∧
      s' = { s with interface := (s.interface.pop l.msg).1, interfaceQueue := rest } := by
  cases he : s.interface.ended with
  | true => simp [System.stepInterface, he] at h
  | false =>
    cases hq : s.interfaceQueue with
    | nil => simp [System.stepInterface, he, hq] at h
    | cons l rest =>
      simp only [System.stepInterface, he, hq, Bool.false_eq_true, if_false,
        Option.some.injEq] at h
      exact ⟨rfl, l, rest, rfl, h.symm⟩

/-- The three things an ATM step can be, `closeQueue` aside. -/
inductive AtmStep (s : System) : System → Prop
  | enter (hw : s.atm.waiting = false) :
      AtmStep s (({ s with atm := s.atm.enter.1 }).fromAtm s.atm.enter.2)
  | discard {l : Letter} {rest : List Letter} (hw : s.atm.waiting = true)
      (hq : s.atmQueue = l :: rest)
      (hn : ∀ a posts, ¬ s.atm.Takes l.msg a posts) : AtmStep s { s with atmQueue := rest }
  | take {l : Letter} {rest : List Letter} {a : ATM} {posts : List Post} (hw : s.atm.waiting = true)
      (hq : s.atmQueue = l :: rest) (ht : s.atm.Takes l.msg a posts) :
      AtmStep s (({ s with
        atm := a
        atmQueue := rest
        session := if s.atm.state = AtmState.waitForCard ∧ a.state = AtmState.gettingPin then
          s.session + 1
          else s.session }).fromAtm posts)

theorem step_atm {s s' : System} (h : s.stepAtm = some s')
    (hc : ∀ l ∈ s.atmQueue, l.msg ≠ .closeQueue) :
    AtmStep s s' := by
  obtain ⟨-, ⟨hw, rfl⟩ | ⟨l, rest, hw, hq, rfl⟩⟩ := stepAtm_eq_some h
  · exact .enter hw
  · rcases s.atm.pop_spec l.msg with ht | ⟨hclose, -⟩ | ⟨hd, -, hn⟩
    · exact .take hw hq ht
    · exact absurd hclose (hc l (by simp [hq]))
    · have hne : ¬ (s.atm.state = .waitForCard ∧ s.atm.state = .gettingPin) := by
        intro hs; rw [hs.1] at hs; cases hs.2
      rw [hd, if_neg hne]
      exact .discard hw hq hn

/-- Before a wait only the interface hears from the ATM. -/
theorem enter_spec (s : System) :
    ∃ a d ds, ({ s with atm := s.atm.enter.1 }).fromAtm s.atm.enter.2 =
      { s with atm := a, interfaceQueue := s.interfaceQueue ++ d, displays := s.displays ++ ds } ∧
    a = s.atm.enter.1 ∧ ds = s.atm.enter.2.map Prod.snd := by
  obtain ⟨state, h⟩ : ∃ state, s.atm.state = state := ⟨_, rfl⟩
  cases state <;> simp only [ATM.enter, h, fromAtm_interface, fromAtm_nil]
  all_goals first
    | exact ⟨_, _, _, rfl, rfl, rfl⟩
    | exact ⟨_, [], [], by simp, rfl, rfl⟩

theorem step_user {s s' : System} {msg : Msg} (h : s.step (.user msg) = some s') :
    msg.isUser = true ∧ s' = s.send ATM.sender ⟨msg, .user⟩ := by
  cases hu : msg.isUser with
  | false => simp [System.step, hu] at h
  | true =>
    simp only [System.step, hu, if_true, Option.some.injEq] at h
    exact ⟨rfl, h.symm⟩

theorem step_interface {s s' : System} (h : s.step .interface = some s') :
    ∃ i rest, s' = { s with interface := i, interfaceQueue := rest } := by
  obtain ⟨-, l, rest, -, hs⟩ := stepInterface_eq_some h
  exact ⟨_, _, hs⟩

/-! ## Requests and replies -/

/-- A bank with balance `before` answers `reply` to the ATM and is left with `after`. -/
def Answers (request : Msg) (before : UInt32) (reply : Msg) (after : UInt32) : Prop :=
  (⟨before, false⟩ : BankMachine).pop request = (⟨after, false⟩, [(ATM.sender, reply)])

/-- What the ATM sends to the bank. -/
inductive FromAtm : Msg → Prop
  | verifyPin (account pin : List Char) : FromAtm (.verifyPin account pin ATM.sender)
  | withdraw (account : List Char) (amount : UInt32) : FromAtm (.withdraw account amount ATM.sender)
  | getBalance (account : List Char) : FromAtm (.getBalance account ATM.sender)
  | cancelWithdrawal (account : List Char) (amount : UInt32) :
      FromAtm (.cancelWithdrawal account amount)

/-- A request is answered by one reply of its kind; a cancellation by none. -/
theorem FromAtm.answer {m : Msg} (h : FromAtm m) (before : UInt32) :
    (m.requestKind = none ∧ ∃ b : UInt32,
      (⟨before, false⟩ : BankMachine).pop m = (⟨b, false⟩, [])) ∨
    (m.requestKind ≠ none ∧ ∃ reply b,
      Answers m before reply b ∧ reply.replyKind = m.requestKind) := by
  cases h with
  | verifyPin account pin =>
    refine .inr ⟨by simp [Msg.requestKind], _, _, BankMachine.pop_eq _ _, ?_⟩
    split <;> rfl
  | withdraw account amount =>
    right
    by_cases ha : amount ≤ before
    · refine ⟨by simp [Msg.requestKind], .withdrawOk, before - amount, ?_, rfl⟩
      rw [Answers, BankMachine.pop_eq]; simp [ha]
    · refine ⟨by simp [Msg.requestKind], .withdrawDenied, before, ?_, rfl⟩
      rw [Answers, BankMachine.pop_eq]; simp [ha]
  | getBalance account => exact .inr ⟨by simp [Msg.requestKind], _, _, BankMachine.pop_eq _ _, rfl⟩
  | cancelWithdrawal account amount => exact .inl ⟨rfl, _, BankMachine.pop_eq _ _⟩

theorem Answers.kind {m reply : Msg} {before after : UInt32} (h : Answers m before reply after)
    (hm : FromAtm m) : reply.replyKind = m.requestKind ∧ m.requestKind ≠ none := by
  rcases hm.answer before with ⟨-, b, hb⟩ | ⟨hk, r, b, hb, hr⟩
  · rw [Answers, hb] at h; simp at h
  · rw [Answers, hb, Prod.mk.injEq] at h
    obtain ⟨-, h⟩ := h
    simp only [List.cons.injEq, Prod.mk.injEq, true_and, and_true] at h
    exact ⟨h ▸ hr, hk⟩

/-- The request whose reply a state waits for. -/
def ATM.request (a : ATM) : Option Msg :=
  match a.state with
  | .verifyingPin => some (.verifyPin a.account a.pin sender)
  | .processingWithdrawal => some (.withdraw a.account a.withdrawalAmount sender)
  | .processBalance => some (.getBalance a.account sender)
  | _ => none

theorem ATM.request_kind {a : ATM} {m : Msg} (h : a.request = some m) :
    m.requestKind = a.state.awaits ∧ a.state.awaits ≠ none := by
  obtain ⟨state, hs⟩ : ∃ state, a.state = state := ⟨_, rfl⟩
  cases state <;> simp only [ATM.request, hs, reduceCtorEq, Option.some.injEq] at h
  all_goals subst h; simp [hs, AtmState.awaits, Msg.requestKind]

def Letter.answered (l : Letter) : Option (Msg × Stamp) :=
  match l.origin with
  | .bank request stamp _ _ => some (request, stamp)
  | _ => none

def Letter.asked (l : Letter) : Option (Msg × Stamp) :=
  l.msg.requestKind.map fun _ => (l.msg, l.origin.stamp)

/-- The requests whose replies the ATM has not popped, the oldest first. -/
def System.pipeline (s : System) : List (Msg × Stamp) :=
  s.atmQueue.filterMap Letter.answered ++ s.bankQueue.filterMap Letter.asked

/-- Letters the ATM may find in its queue: a user's, or the bank's answer to one of its requests. -/
def Incoming (l : Letter) : Prop :=
  (l.msg.isUser = true ∧ l.origin = .user) ∨
    ∃ request stamp before after, l.origin = .bank request stamp before after ∧ FromAtm request ∧
      Answers request before l.msg after

structure Sound (s : System) : Prop where
  alive : s.atm.ended = false
  incoming : ∀ l ∈ s.atmQueue, Incoming l
  requests : ∀ l ∈ s.bankQueue, FromAtm l.msg ∧ ∃ stamp, l.origin = .atm stamp
  ordered : s.pipeline.Pairwise fun p q => p.2.serial < q.2.serial
  bounded : ∀ p ∈ s.pipeline, p.2.serial ≤ s.serial
  /-- The reply a state waits for has been asked for, last of all. -/
  awaiting : ∀ m, s.atm.request = some m → s.pipeline.getLast? = some (m, ⟨s.session, s.serial⟩)

/-! ## The ATM keeps it -/

theorem pipeline_cons {s : System} {l : Letter} {rest : List Letter} (hq : s.atmQueue = l :: rest) :
    s.pipeline = l.answered.toList ++
      (rest.filterMap Letter.answered ++ s.bankQueue.filterMap Letter.asked) := by
  rw [System.pipeline, hq, List.filterMap_cons]
  cases l.answered <;> rfl

section
variable {s : System} {l : Letter} {rest : List Letter}

/-- Popping a message without asking for anything new. -/
theorem Sound.quiet (h : Sound s) (hq : s.atmQueue = l :: rest) {a : ATM} (ha : a.ended = false)
    (hr : a.request = none) (n : Nat) (i : List Letter) (d : List Msg) :
    Sound { s with
      atm := a
      atmQueue := rest
      session := n
      interfaceQueue := i
      displays := d } := by
  have ho := h.ordered
  have hb := h.bounded
  rw [pipeline_cons hq] at ho hb
  exact {
    alive := ha
    incoming := fun l hl => h.incoming l (by rw [hq]; exact List.mem_cons_of_mem _ hl)
    requests := h.requests
    ordered := (List.pairwise_append.mp ho).2.1
    bounded := fun p hp => hb p (List.mem_append_right _ hp)
    awaiting := fun m hm => by rw [hr] at hm; cases hm }

/-- Popping a message and asking for a reply. -/
theorem Sound.ask (h : Sound s) (hq : s.atmQueue = l :: rest) {a : ATM} (ha : a.ended = false)
    {m : Msg}
    (hm : FromAtm m) (hr : a.request = some m) :
    Sound { s with
      atm := a
      atmQueue := rest
      bankQueue := s.bankQueue ++ [⟨m, .atm ⟨s.session, s.serial + 1⟩⟩]
      serial := s.serial + 1 } := by
  have ho := h.ordered
  have hb := h.bounded
  rw [pipeline_cons hq] at ho hb
  obtain ⟨k, hk⟩ : ∃ k, m.requestKind = some k := by
    obtain ⟨h1, h2⟩ := a.request_kind hr
    exact Option.ne_none_iff_exists'.mp (h1 ▸ h2)
  have hask : Letter.asked ⟨m, .atm ⟨s.session, s.serial + 1⟩⟩ =
    some (m, ⟨s.session, s.serial + 1⟩) := by
    simp [Letter.asked, hk, Origin.stamp]
  have hp : System.pipeline { s with
      atm := a
      atmQueue := rest
      bankQueue := s.bankQueue ++ [⟨m, .atm ⟨s.session, s.serial + 1⟩⟩]
      serial := s.serial + 1 } =
      (rest.filterMap Letter.answered ++ s.bankQueue.filterMap Letter.asked) ++
        [(m, ⟨s.session, s.serial + 1⟩)] := by
    simp [System.pipeline, List.filterMap_append, hask]
  have hle : ∀ p ∈ rest.filterMap Letter.answered ++ s.bankQueue.filterMap Letter.asked,
    p.2.serial ≤ s.serial :=
    fun p hp => hb p (List.mem_append_right _ hp)
  refine ⟨ha, fun l hl => h.incoming l (by rw [hq]; exact List.mem_cons_of_mem _ hl),
    fun l hl => ?_, ?_, ?_, ?_⟩
  · rcases List.mem_append.mp hl with hl | hl
    · exact h.requests l hl
    · rw [List.mem_singleton] at hl; subst hl; exact ⟨hm, _, rfl⟩
  · rw [hp, List.pairwise_append]
    refine ⟨(List.pairwise_append.mp ho).2.1, List.pairwise_singleton _ _, fun p hp q hq => ?_⟩
    rw [List.mem_singleton] at hq
    subst hq
    exact Nat.lt_succ_of_le (hle p hp)
  · rw [hp]
    intro p hp
    rcases List.mem_append.mp hp with hp | hp
    · exact Nat.le_succ_of_le (hle p hp)
    · rw [List.mem_singleton] at hp; subst hp; exact Nat.le_refl _
  · intro m' hm'
    obtain rfl : m = m' := Option.some.inj (hr.symm.trans hm')
    rw [hp, List.getLast?_concat]

/-- Popping a message and sending a cancellation, to which no reply comes. -/
theorem Sound.cancelled (h : Sound s) (hq : s.atmQueue = l :: rest) {a : ATM} (ha : a.ended = false)
    (hr : a.request = none) {account : List Char} {amount : UInt32} (i : List Letter)
    (d : List Msg) :
    Sound { s with
      atm := a
      atmQueue := rest
      bankQueue := s.bankQueue ++ [⟨.cancelWithdrawal account amount,
        .atm ⟨s.session, s.serial + 1⟩⟩]
      serial := s.serial + 1
      interfaceQueue := i
      displays := d } := by
  have hquiet := h.quiet hq ha hr s.session i d
  have hp : ∀ t : System, t.atmQueue = rest →
      t.bankQueue = s.bankQueue ++ [⟨.cancelWithdrawal account amount,
        .atm ⟨s.session, s.serial + 1⟩⟩] →
      t.pipeline =
        System.pipeline
          { s with atm := a, atmQueue := rest, interfaceQueue := i, displays := d } := by
    intro t h1 h2
    simp [System.pipeline, h1, h2, List.filterMap_append, Letter.asked, Msg.requestKind]
  refine ⟨ha, hquiet.incoming, fun l hl => ?_, ?_, ?_, fun m hm => by rw [hr] at hm; cases hm⟩
  · rcases List.mem_append.mp hl with hl | hl
    · exact h.requests l hl
    · rw [List.mem_singleton] at hl; subst hl; exact ⟨.cancelWithdrawal account amount, _, rfl⟩
  · rw [hp _ rfl rfl]; exact hquiet.ordered
  · rw [hp _ rfl rfl]; exact fun p hp => Nat.le_succ_of_le (hquiet.bounded p hp)

theorem Sound.discard (h : Sound s) (hq : s.atmQueue = l :: rest)
    (hn : ∀ a posts, ¬ s.atm.Takes l.msg a posts) : Sound { s with atmQueue := rest } := by
  have ho := h.ordered
  have hb := h.bounded
  have haw := h.awaiting
  rw [pipeline_cons hq] at ho hb haw
  refine ⟨h.alive, fun l hl => h.incoming l (by rw [hq]; exact List.mem_cons_of_mem _ hl),
    h.requests,
    (List.pairwise_append.mp ho).2.1, fun p hp => hb p (List.mem_append_right _ hp), fun m hm => ?_⟩
  have haw := haw m hm
  change (rest.filterMap Letter.answered ++ s.bankQueue.filterMap Letter.asked).getLast? = _
  generalize rest.filterMap Letter.answered ++ s.bankQueue.filterMap Letter.asked = p at haw ⊢
  cases hp : p with
  | cons x xs => rwa [hp, List.getLast?_append_of_ne_nil _ (by simp)] at haw
  | nil =>
    -- otherwise the message is the very reply the state waits for
    exfalso
    rw [hp, List.append_nil] at haw
    rcases h.incoming l (by simp [hq]) with ⟨-, hu⟩ | ⟨req, st, before, after, ho, hf, ha⟩
    · rw [Letter.answered, hu] at haw; cases haw
    · rw [Letter.answered, ho] at haw
      obtain ⟨rfl, -⟩ := Prod.mk.inj (Option.some.inj haw)
      obtain ⟨k1, k2⟩ := s.atm.request_kind hm
      obtain ⟨k, hkk⟩ := Option.ne_none_iff_exists'.mp k2
      obtain ⟨a, posts, ht⟩ := ATM.takes_awaited hkk ((ha.kind hf).1.trans (k1.trans hkk))
      exact hn a posts ht

theorem Sound.take (h : Sound s) (hq : s.atmQueue = l :: rest) {a : ATM} {posts : List Post}
    (ht : s.atm.Takes l.msg a posts) :
    Sound (({ s with
      atm := a
      atmQueue := rest
      session := if s.atm.state = AtmState.waitForCard ∧ a.state = AtmState.gettingPin then
        s.session + 1
        else s.session }).fromAtm posts) := by
  have he := h.alive
  generalize l.msg = m at ht
  cases ht with
  | card hs account => rw [fromAtm_interface]; exact h.quiet hq (by exact he) (by rfl) _ _ _
  | digit hs d hp => exact h.quiet hq (by exact he) (by simp [ATM.request, hs]) _ _ _
  | lastDigit hs d hp =>
    rw [if_neg (by simp [hs]), fromAtm_bank]
    exact h.ask hq (by exact he) (.verifyPin _ _) rfl
  | clear hs => exact h.quiet hq (by exact he) (by simp [ATM.request, hs]) _ _ _
  | cancel hs => exact h.quiet hq (by exact he) (by rfl) _ _ _
  | verified hs => rw [fromAtm_interface]; exact h.quiet hq (by exact he) (by rfl) _ _ _
  | incorrect hs => rw [fromAtm_interface]; exact h.quiet hq (by exact he) (by rfl) _ _ _
  | withdraw hs amount =>
    rw [if_neg (by simp [hs]), fromAtm_bank]
    exact h.ask hq (by exact he) (.withdraw _ _) rfl
  | getBalance hs =>
    rw [if_neg (by simp [hs]), fromAtm_bank]
    exact h.ask hq (by exact he) (.getBalance _) rfl
  | ok hs => rw [fromAtm_interface]; exact h.quiet hq (by exact he) (by rfl) _ _ _
  | denied hs => rw [fromAtm_interface]; exact h.quiet hq (by exact he) (by rfl) _ _ _
  | cancelWithdrawal hs =>
    rw [if_neg (by simp [hs]), fromAtm_bank_interface]
    exact h.cancelled hq (by exact he) rfl _ _
  | balance hs amount => rw [fromAtm_interface]; exact h.quiet hq (by exact he) (by rfl) _ _ _

theorem ATM.request_enter (a : ATM) :
    a.enter.1.request = a.request ∧ a.enter.1.ended = a.ended := by
  obtain ⟨state, h⟩ : ∃ state, a.state = state := ⟨_, rfl⟩
  cases state <;> simp [ATM.enter, ATM.request, h]

theorem Sound.enter (h : Sound s) :
    Sound (({ s with atm := s.atm.enter.1 }).fromAtm s.atm.enter.2) := by
  obtain ⟨a, d, ds, he, rfl, -⟩ := enter_spec s
  obtain ⟨hr, hend⟩ := s.atm.request_enter
  rw [he]
  exact ⟨hend.trans h.alive, h.incoming, h.requests, h.ordered, h.bounded, fun m hm =>
    h.awaiting m (hr ▸ hm)⟩

end

/-! ## The others keep it -/

/-- A step of the bank: it serves the front of its queue, and answers unless
it is a cancellation. -/
theorem step_bank {s s' : System} (h : Sound s) (hs : s.stepBank = some s') :
    ∃ l rest stamp, s.bankQueue = l :: rest ∧ l.origin = .atm stamp ∧ FromAtm l.msg ∧
      s.bank.ended = false ∧
      ((l.msg.requestKind = none ∧
        s' = { s with
          bank := (s.ledger.serve l.msg).bank
          bankQueue := rest
          lastServed := (s.ledger.serve l.msg).lastServed }) ∨
      (l.msg.requestKind ≠ none ∧ ∃ reply,
        Answers l.msg s.bank.balance reply (s.ledger.serve l.msg).bank.balance ∧
        s' = { s with
          bank := (s.ledger.serve l.msg).bank
          bankQueue := rest
          lastServed := (s.ledger.serve l.msg).lastServed
          atmQueue := s.atmQueue ++
            [⟨reply, .bank l.msg stamp s.bank.balance
              (s.ledger.serve l.msg).bank.balance⟩] })) := by
  obtain ⟨he, l, rest, hq, rfl⟩ := stepBank_eq_some hs
  obtain ⟨hf, stamp, ho⟩ := h.requests l (by simp [hq])
  have hb : s.bank = ⟨s.bank.balance, false⟩ := by rw [← he]
  have hserve : (s.ledger.serve l.msg).bank = (s.bank.pop l.msg).1 := rfl
  refine ⟨l, rest, stamp, hq, ho, hf, he, ?_⟩
  rcases hf.answer s.bank.balance with ⟨hk, b, hp⟩ | ⟨hk, reply, b, hp, -⟩
  · rw [← hb] at hp
    rw [hp]
    exact .inl ⟨hk, rfl⟩
  · have hp' : s.bank.pop l.msg = (⟨b, false⟩, [(ATM.sender, reply)]) := by rw [hb]; exact hp
    rw [hp']
    refine .inr ⟨hk, reply, ?_, ?_⟩
    · rw [hserve, hp']; exact hp
    · simp only [System.fromBank, System.send, ATM.sender, ho, Origin.stamp]

/-- The ATM and its requests are as they were. -/
theorem Sound.of_pipeline {s t : System} (h : Sound s) (ha : t.atm = s.atm)
    (hn : t.session = s.session)
    (hr : t.serial = s.serial) (hp : t.pipeline = s.pipeline) (hin : ∀ l ∈ t.atmQueue, Incoming l)
    (hreq : ∀ l ∈ t.bankQueue, l ∈ s.bankQueue) : Sound t where
  alive := ha ▸ h.alive
  incoming := hin
  requests := fun l hl => h.requests l (hreq l hl)
  ordered := hp ▸ h.ordered
  bounded := by rw [hp, hr]; exact h.bounded
  awaiting := by rw [ha, hp, hn, hr]; exact h.awaiting

theorem Sound.bank {s s' : System} (h : Sound s) (hs : s.stepBank = some s') : Sound s' := by
  obtain ⟨l, rest, stamp, hq, ho, hf, -, ⟨hk, rfl⟩ | ⟨hk, reply, ha, rfl⟩⟩ := step_bank h hs
  · -- a cancellation is not in the pipeline
    have hl : l.asked = none := by simp [Letter.asked, hk]
    refine h.of_pipeline rfl rfl rfl ?_ h.incoming
      fun m hm => by rw [hq]; exact List.mem_cons_of_mem _ hm
    simp [System.pipeline, hq, hl]
  · -- an answered request moves from one queue to the other
    obtain ⟨k, hk⟩ := Option.ne_none_iff_exists'.mp hk
    have hl : l.asked = some (l.msg, stamp) := by simp [Letter.asked, hk, ho, Origin.stamp]
    refine h.of_pipeline rfl rfl rfl ?_ (fun m hm => ?_)
      fun m hm => by rw [hq]; exact List.mem_cons_of_mem _ hm
    · simp [System.pipeline, hq, List.filterMap_append, hl, Letter.answered]
    · rcases List.mem_append.mp hm with hm | hm
      · exact h.incoming m hm
      · rw [List.mem_singleton] at hm
        subst hm
        exact .inr ⟨_, _, _, _, rfl, hf, ha⟩

theorem Sound.user {s : System} (h : Sound s) {msg : Msg} (hm : msg.isUser = true) :
    Sound (s.send ATM.sender ⟨msg, .user⟩) := by
  refine h.of_pipeline rfl rfl rfl ?_ (fun l hl => ?_) fun l hl => hl
  · simp [System.pipeline, System.send, ATM.sender, List.filterMap_append, Letter.answered]
  · rcases List.mem_append.mp hl with hl | hl
    · exact h.incoming l hl
    · rw [List.mem_singleton] at hl; subst hl; exact .inl ⟨hm, rfl⟩

theorem Incoming.not_close {l : Letter} (h : Incoming l) : l.msg ≠ .closeQueue := by
  rcases h with ⟨hu, -⟩ | ⟨req, st, before, after, -, hf, ha⟩
  · intro he; rw [he] at hu; cases hu
  · obtain ⟨h1, h2⟩ := ha.kind hf
    intro he
    rw [he] at h1
    exact h2 h1.symm

theorem Sound.atm_step {s s' : System} (h : Sound s) (hs : s.stepAtm = some s') : AtmStep s s' :=
  step_atm hs fun l hl => (h.incoming l hl).not_close

/-- **Requests and replies.** What holds in every state of every run. -/
theorem system_sound : system.Inductive Sound where
  init := by
    intro s hs
    subst hs
    exact ⟨rfl, by simp [System.new], by simp [System.new], by simp [System.pipeline, System.new],
      by simp [System.pipeline, System.new],
      fun m hm => by simp [System.new, ATM.new, ATM.request] at hm⟩
  step := by
    intro s l s' h hs
    have hs : s.step l = some s' := hs
    cases l with
    | user msg =>
      obtain ⟨hu, rfl⟩ := step_user hs
      exact h.user hu
    | atm =>
      cases h.atm_step hs with
      | enter hw => exact h.enter
      | discard hw hq hn => exact h.discard hq hn
      | take hw hq ht => exact h.take hq ht
    | bank => exact h.bank hs
    | interface =>
      obtain ⟨i, rest, rfl⟩ := step_interface hs
      exact h.of_pipeline rfl rfl rfl rfl h.incoming fun l hl => hl

/-- Only the ATM's own steps change the ATM and show something. -/
theorem step_others {s s' : System} {l : Label} (h : Sound s) (hs : s.step l = some s')
    (hl : l ≠ .atm) :
    s'.atm = s.atm ∧ s'.displays = s.displays := by
  cases l with
  | user msg =>
    obtain ⟨-, rfl⟩ := step_user hs
    exact ⟨rfl, rfl⟩
  | atm => exact absurd rfl hl
  | bank =>
    obtain ⟨l, rest, stamp, -, -, -, -, ⟨-, rfl⟩ | ⟨-, reply, -, rfl⟩⟩ := step_bank h hs
    · exact ⟨rfl, rfl⟩
    · exact ⟨rfl, rfl⟩
  | interface =>
    obtain ⟨i, rest, rfl⟩ := step_interface hs
    exact ⟨rfl, rfl⟩

end Cxx.Atm
