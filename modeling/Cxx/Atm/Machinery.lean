import Cxx.Core.Mailbox
import Cxx.Atm.Accounting

/-!
# The machines as threads

Each machine runs in a thread of its own, and reads its messages from a mailbox:
`messaging::Queue` of include/atm/Message.hpp. `machinery` takes the steps of the
three threads one by one: a step of `waitAndPop`, a call of `send`, the handler of a
message. The fields of a machine are read by its own thread alone. While a handler
runs they lag behind what it will leave: `BankMachine` sends `withdraw_ok` before it
lowers `balance_`.

* `Process.machine` is what the handler that runs will leave, `Process.fields` what
  is in memory.
* `Refines`: a state of the threads stands for one of `system`, in which a handler
  and its sends are one step. A message that the ATM has yet to send counts as sent;
  one that the bank is about to answer as not popped.
* `machinery_refines`: every state that the threads get to stands for a reachable
  one of `system`, and the fields lag behind it by one handler at most.
-/
namespace Cxx.Atm

/-- A thread: its machine, its queue, and what its handler has still to send. `fields`
are those that are in memory; what the handler writes after its sends is there, at the
latest, when the thread takes its next step. -/
structure Process (S : Type) where
  machine : S
  fields : S
  box : Mailbox Msg
  posts : List Post

structure Machinery where
  atm : Process ATM
  bank : Process BankMachine
  interface : Process InterfaceMachine

def Machinery.new : Machinery where
  atm := ⟨.new, .new, .new, []⟩
  bank := ⟨.new, .new, .new, []⟩
  interface := ⟨.new, .new, .new, []⟩

/-- `Sender::send`, with `Queue::push`.
mirrors include/atm/Dispatcher.hpp:98-102, include/atm/Message.hpp:24-29 -/
def Machinery.push (s : Machinery) (q : Sender) (msg : Msg) : Option Machinery :=
  match q with
  | none => some s
  | some .atm => (s.atm.box.push msg).map fun box => { s with atm := { s.atm with box } }
  | some .bank => (s.bank.box.push msg).map fun box => { s with bank := { s.bank with box } }
  | some .interface =>
    (s.interface.box.push msg).map fun box => { s with interface := { s.interface with box } }

/-- The fields as a handler has written them when it comes to its sends.
mirrors include/atm/ATM.hpp:38-39, 46, 53-54, 77 -/
def ATM.before (a : ATM) (msg : Msg) : ATM :=
  match a.state, msg with
  | .waitForCard, .cardInserted account => { a with account, pin := [] }
  | .gettingPin, .digitPressed digit => { a with pin := a.pin ++ [digit] }
  | .gettingPin, .clearLastPressed => { a with pin := a.pin.dropLast }
  | .waitForAction, .withdrawPressed amount => { a with withdrawalAmount := amount }
  | _, _ => a

/-- mirrors include/atm/BankMachine.hpp:34-35 -/
def BankMachine.before (b : BankMachine) (msg : Msg) : BankMachine :=
  match msg with
  | .cancelWithdrawal _ amount => { b with balance := b.balance + amount }
  | _ => b

/-- The interface sends nothing. -/
def InterfaceMachine.before (i : InterfaceMachine) (msg : Msg) : InterfaceMachine := (i.pop msg).1

/-- A step of `Queue::waitAndPop` and, when it returns, the handler of the message.
mirrors include/atm/Message.hpp:31-37, include/atm/Dispatcher.hpp:39-45 -/
def Process.poll {S : Type} (pop : S → Msg → S × List Post) (before : S → Msg → S)
    (p : Process S) : Option (Process S) :=
  p.box.pop.map fun (box, msg) =>
    match msg with
    | none => { p with fields := p.machine, box }
    | some msg => ⟨(pop p.machine msg).1, before p.machine msg, box, (pop p.machine msg).2⟩

def Machinery.stepAtm (s : Machinery) : Option Machinery :=
  match s.atm.posts with
  | (q, msg) :: posts => Machinery.push { s with atm := { s.atm with posts } } q msg
  | [] =>
    if s.atm.machine.ended then none
    else if !s.atm.machine.waiting then
      some { s with atm := ⟨s.atm.machine.enter.1, s.atm.machine, s.atm.box,
        s.atm.machine.enter.2⟩ }
    else (s.atm.poll ATM.pop ATM.before).map fun atm => { s with atm }

def Machinery.stepBank (s : Machinery) : Option Machinery :=
  match s.bank.posts with
  | (q, msg) :: posts => Machinery.push { s with bank := { s.bank with posts } } q msg
  | [] =>
    if s.bank.machine.ended then none
    else (s.bank.poll BankMachine.pop BankMachine.before).map fun bank => { s with bank }

def Machinery.stepInterface (s : Machinery) : Option Machinery :=
  match s.interface.posts with
  | (q, msg) :: posts => Machinery.push { s with interface := { s.interface with posts } } q msg
  | [] =>
    if s.interface.machine.ended then none
    else
      (s.interface.poll InterfaceMachine.pop InterfaceMachine.before).map fun interface =>
        { s with interface }

inductive Move where
  | user (msg : Msg)
  | atm
  | bank
  | interface
  /-- The wait of a machine is unblocked for no reason. -/
  | spurious (q : QueueId)
  deriving DecidableEq, Repr

def Machinery.step (s : Machinery) : Move → Option Machinery
  | .user msg => if msg.isUser then s.push ATM.sender msg else none
  | .atm => s.stepAtm
  | .bank => s.stepBank
  | .interface => s.stepInterface
  | .spurious .atm => s.atm.box.spurious.map fun box => { s with atm := { s.atm with box } }
  | .spurious .bank => s.bank.box.spurious.map fun box => { s with bank := { s.bank with box } }
  | .spurious .interface =>
    s.interface.box.spurious.map fun box => { s with interface := { s.interface with box } }

def machinery : LTS Machinery Move := LTS.ofFn (· = Machinery.new) Machinery.step

/-! ## What a step can do -/

/-- The messages to the interface among the sends of a handler. -/
def toInterface (posts : List Post) : List Msg :=
  posts.filterMap fun p => if p.1 = ATM.interface then some p.2 else none

theorem InterfaceMachine.pop_posts (i : InterfaceMachine) (msg : Msg) : (i.pop msg).2 = [] := by
  cases msg <;> rfl

/-- A poll goes on with the wait, or calls the handler of the first message. -/
theorem poll_cases {S : Type} {pop : S → Msg → S × List Post} {before : S → Msg → S}
    {p p' : Process S} (h : p.poll pop before = some p') :
    (p'.machine = p.machine ∧ p'.posts = p.posts ∧ p'.box.queue = p.box.queue) ∨
    ∃ msg, p.box.queue = msg :: p'.box.queue ∧ p'.machine = (pop p.machine msg).1 ∧
      p'.posts = (pop p.machine msg).2 := by
  obtain ⟨⟨box, msg⟩, hpop, rfl⟩ := Option.map_eq_some_iff.mp h
  rcases Mailbox.pop_cases hpop with ⟨rfl, hq, -⟩ | ⟨v, rfl, hq, -⟩
  · exact .inl ⟨rfl, rfl, hq⟩
  · exact .inr ⟨v, hq, rfl, rfl⟩

/-- What the ATM sends goes to the bank and to the interface. -/
def Outward (posts : List Post) : Prop := ∀ p ∈ posts, p.1 = ATM.bank ∨ p.1 = ATM.interface

theorem ATM.Takes.outward {a a' : ATM} {msg : Msg} {posts : List Post} (h : a.Takes msg a' posts) :
    Outward posts := by
  cases h <;> simp [Outward]

theorem ATM.enter_outward (a : ATM) : Outward a.enter.2 := by
  unfold ATM.enter
  cases a.state <;> simp [Outward]

theorem ATM.pop_outward (a : ATM) (msg : Msg) : Outward (a.pop msg).2 := by
  rcases a.pop_spec msg with ht | ⟨-, hp⟩ | ⟨hp, -⟩
  · exact ht.outward
  · rw [hp]; intro p hm; cases hm
  · rw [hp]; intro p hm; cases hm

theorem Outward.away {posts : List Post} (h : Outward posts) : ∀ p ∈ posts, p.1 ≠ ATM.sender := by
  intro p hp he
  rcases h p hp with hq | hq <;> rw [he] at hq <;> cases hq

/-- The sends of a handler of the ATM leave the rest as it is. -/
theorem fromAtm_frame (posts : List Post) : ∀ s : System, (s.fromAtm posts).atm = s.atm ∧
    (s.fromAtm posts).bank = s.bank ∧ (s.fromAtm posts).interface = s.interface ∧
    (s.fromAtm posts).interfaceQueue.map Letter.msg =
      s.interfaceQueue.map Letter.msg ++ toInterface posts := by
  induction posts with
  | nil => exact fun s => ⟨rfl, rfl, rfl, (List.append_nil _).symm⟩
  | cons post posts ih =>
    intro s
    obtain ⟨q, msg⟩ := post
    simp only [System.fromAtm]
    generalize (if q = some QueueId.bank then s.serial + 1 else s.serial) = n
    obtain ⟨h1, h2, h3, h4⟩ :=
      ih (({ s with serial := n }).send q ⟨msg, .atm ⟨s.session, n⟩⟩)
    rcases q with - | - | - | -
    · exact ⟨h1, h2, h3, h4⟩
    · exact ⟨h1, h2, h3, h4⟩
    · exact ⟨h1, h2, h3, h4⟩
    · exact ⟨h1, h2, h3, h4.trans (by simp [System.send, toInterface, ATM.interface])⟩

/-! ## Refinement -/

/-- The bank's part: it is between two messages, or about to send the answer to one
that `system` has not popped. -/
def BankRefines (f : Machinery) (c : System) : Prop :=
  (f.bank.posts = [] ∧ c.bank = f.bank.machine ∧
    c.bankQueue.map Letter.msg = f.bank.box.queue ++ toBank f.atm.posts) ∨
  ∃ msg reply, f.bank.posts = [(ATM.sender, reply)] ∧
    c.bank.pop msg = (f.bank.machine, f.bank.posts) ∧
    c.bankQueue.map Letter.msg = msg :: (f.bank.box.queue ++ toBank f.atm.posts)

structure Refines (f : Machinery) (c : System) : Prop where
  sound : Sound c
  alive : c.bank.ended = false
  atm : c.atm = f.atm.machine
  atmQueue : c.atmQueue.map Letter.msg = f.atm.box.queue
  outward : Outward f.atm.posts
  bank : BankRefines f c
  interface : c.interface = f.interface.machine
  silent : f.interface.posts = []
  interfaceQueue :
    c.interfaceQueue.map Letter.msg = f.interface.box.queue ++ toInterface f.atm.posts

/-- A state of the threads that stands for one of the system after some steps. -/
def Followed (f : Machinery) (c : System) : Prop := ∃ ls c', system.Run c ls c' ∧ Refines f c'

theorem Refines.stay {f : Machinery} {c : System} (h : Refines f c) : Followed f c :=
  ⟨[], c, .nil c, h⟩

theorem Followed.one {f : Machinery} {c : System} (l : Label) (c' : System)
    (hs : c.step l = some c')
    (h : Sound c' ∧ c'.bank.ended = false → Refines f c') (hc : Sound c ∧ c.bank.ended = false) :
    Followed f c :=
  ⟨[l], c', LTS.run_step hs, h (system_bank_alive.step c l c' hc hs)⟩

section
variable {f f' : Machinery} {c : System} {msg : Msg}

/-- A push to the queue of the ATM. -/
theorem Refines.user (h : Refines f c) (hs : f.step (.user msg) = some f') : Followed f' c := by
  cases hu : msg.isUser with
  | false => simp [Machinery.step, hu] at hs
  | true =>
    simp only [Machinery.step, hu, if_true, Machinery.push, ATM.sender] at hs
    obtain ⟨box, hbox, rfl⟩ := Option.map_eq_some_iff.mp hs
    obtain ⟨-, rfl⟩ := Mailbox.push_eq_some.mp hbox
    refine Followed.one (.user msg) (c.send ATM.sender ⟨msg, .user⟩)
      (by simp only [System.step, hu, if_true]) (fun hc => ?_) ⟨h.sound, h.alive⟩
    exact ⟨hc.1, hc.2, h.atm, by simp [System.send, ATM.sender, h.atmQueue], h.outward, h.bank,
      h.interface, h.silent, h.interfaceQueue⟩

/-- What the ATM sends has counted as sent since the message was popped. -/
theorem Refines.send {q : Sender} {posts : List Post} (h : Refines f c)
    (hp : f.atm.posts = (q, msg) :: posts)
    (hs : Machinery.push { f with atm := { f.atm with posts } } q msg = some f') :
    Refines f' c := by
  have hout := h.outward
  have hbank := h.bank
  have hinterface := h.interfaceQueue
  unfold BankRefines at hbank
  rw [hp] at hout hbank hinterface
  have hrest : Outward posts := fun p hm => hout p (List.mem_cons_of_mem _ hm)
  rcases hout (q, msg) List.mem_cons_self with hq | hq
  · have hq : q = some .bank := hq
    subst hq
    obtain ⟨box, hbox, rfl⟩ := Option.map_eq_some_iff.mp hs
    obtain ⟨-, rfl⟩ := Mailbox.push_eq_some.mp hbox
    refine ⟨h.sound, h.alive, h.atm, h.atmQueue, hrest, ?_, h.interface, h.silent, ?_⟩
    · unfold BankRefines
      simpa [toBank, ATM.bank] using hbank
    · simpa [toInterface, ATM.interface] using hinterface
  · have hq : q = some .interface := hq
    subst hq
    obtain ⟨box, hbox, rfl⟩ := Option.map_eq_some_iff.mp hs
    obtain ⟨-, rfl⟩ := Mailbox.push_eq_some.mp hbox
    refine ⟨h.sound, h.alive, h.atm, h.atmQueue, hrest, ?_, h.interface, h.silent, ?_⟩
    · unfold BankRefines
      simpa [toBank, ATM.bank] using hbank
    · simpa [toInterface, ATM.interface] using hinterface

/-- A handler of the ATM, or the part of a state function before its wait. -/
theorem Refines.handle {a : ATM} {g : Machinery} (h : Refines f c) (c' : System) (posts : List Post)
    (hp : f.atm.posts = []) (hs : c.step .atm = some (c'.fromAtm posts))
    (hout : Outward posts) (hatm : c'.atm = a)
    (hqueue : c'.atmQueue.map Letter.msg = g.atm.box.queue)
    (hbank : c'.bank = c.bank) (hbankQueue : c'.bankQueue = c.bankQueue)
    (hinterface : c'.interface = c.interface)
    (hinterfaceQueue : c'.interfaceQueue = c.interfaceQueue)
    (hg : g = { f with atm := ⟨a, g.atm.fields, g.atm.box, posts⟩ }) : Followed g c := by
  obtain ⟨h1, h2, h3, h4⟩ := fromAtm_frame posts c'
  obtain ⟨h5, h6⟩ := fromAtm_queues posts c' hout.away
  refine Followed.one .atm (c'.fromAtm posts) hs (fun hc => ?_) ⟨h.sound, h.alive⟩
  have hb := h.bank
  have hi := h.interfaceQueue
  unfold BankRefines at hb
  rw [hp] at hb hi
  rw [hg]
  refine ⟨hc.1, hc.2, h1.trans hatm, (congrArg _ h5).trans hqueue, hout, ?_,
    h3.trans (hinterface.trans h.interface), h.silent, ?_⟩
  · unfold BankRefines
    rw [h6, h2, hbank, hbankQueue]
    rcases hb with ⟨hb1, hb2, hb3⟩ | ⟨m, reply, hb1, hb2, hb3⟩
    · exact .inl ⟨hb1, hb2, by rw [hb3]; simp [toBank]⟩
    · exact .inr ⟨m, reply, hb1, hb2, by rw [hb3]; simp [toBank]⟩
  · rw [h4, hinterfaceQueue, hi]
    simp [toInterface]

theorem Refines.stepAtm (h : Refines f c) (hs : f.stepAtm = some f') : Followed f' c := by
  unfold Machinery.stepAtm at hs
  cases hp : f.atm.posts with
  | cons p posts =>
    rw [hp] at hs
    exact (h.send hp hs).stay
  | nil =>
    simp only [hp] at hs
    cases he : f.atm.machine.ended with
    | true => simp [he] at hs
    | false =>
      cases hw : f.atm.machine.waiting with
      | false =>
        simp only [he, hw, Bool.false_eq_true, if_false, Bool.not_false, if_true,
          Option.some.injEq] at hs
        subst hs
        refine h.handle { c with atm := c.atm.enter.1 } c.atm.enter.2 hp ?_
          (c.atm.enter_outward) rfl h.atmQueue rfl rfl rfl rfl ?_
        · simp only [System.step, System.stepAtm, h.atm, he, hw, Bool.false_eq_true, if_false,
            Bool.not_false, if_true]
        · rw [h.atm]
      | true =>
        simp only [he, hw, Bool.false_eq_true, if_false, Bool.not_true] at hs
        obtain ⟨atm, hpoll, rfl⟩ := Option.map_eq_some_iff.mp hs
        rcases poll_cases hpoll with ⟨h1, h2, h3⟩ | ⟨m, hq, h1, h2⟩
        · refine Refines.stay ⟨h.sound, h.alive, h.atm.trans h1.symm, h.atmQueue.trans h3.symm,
            ?_, ?_, h.interface, h.silent, ?_⟩
          · exact h2 ▸ h.outward
          · have := h.bank
            unfold BankRefines at this ⊢
            rwa [← h2] at this
          · have := h.interfaceQueue
            rwa [← h2] at this
        · have hqueue := h.atmQueue
          rw [hq] at hqueue
          obtain ⟨l, rest, hc, rfl, hrest⟩ := List.map_eq_cons_iff.mp hqueue
          refine h.handle { c with
            atm := (c.atm.pop l.msg).1
            atmQueue := rest
            session := if c.atm.state = AtmState.waitForCard ∧
              (c.atm.pop l.msg).1.state = AtmState.gettingPin then c.session + 1
              else c.session } (c.atm.pop l.msg).2 hp ?_ (c.atm.pop_outward l.msg) rfl
            hrest rfl rfl rfl rfl ?_
          · simp only [System.step, System.stepAtm, h.atm, he, hw, hc, Bool.false_eq_true, if_false,
              Bool.not_true]
          · rw [h.atm, ← h1, ← h2]

/-- The bank answers with one message, and to the ATM; a cancellation with none. -/
theorem FromAtm.posts {m : Msg} (h : FromAtm m) {b : BankMachine} (hb : b.ended = false) :
    (b.pop m).2 = [] ∨ ∃ reply, (b.pop m).2 = [(ATM.sender, reply)] := by
  obtain ⟨balance, ended⟩ := b
  cases hb
  rcases h.answer balance with ⟨-, b, hp⟩ | ⟨-, reply, b, hp, -⟩
  · exact .inl (by rw [hp])
  · exact .inr ⟨reply, by rw [hp]⟩

/-- The bank's step in the system, by what its handler sends. -/
theorem system_stepBank {l : Letter} {rest : List Letter} (hb : c.bank.ended = false)
    (hq : c.bankQueue = l :: rest) :
    c.step .bank = some (({ c with
      bank := (c.bank.pop l.msg).1
      bankQueue := rest
      lastServed := (c.ledger.serve l.msg).lastServed }).fromBank l c.bank.balance
        (c.bank.pop l.msg).1.balance (c.bank.pop l.msg).2) := by
  simp only [System.step, System.stepBank, hb, hq, Bool.false_eq_true, if_false]
  rfl

theorem Refines.stepBank (h : Refines f c) (hs : f.stepBank = some f') : Followed f' c := by
  unfold Machinery.stepBank at hs
  rcases h.bank with ⟨hp, hbank, hqueue⟩ | ⟨m, reply, hp, hpop, hqueue⟩
  · -- the bank is in its wait
    simp only [hp] at hs
    cases he : f.bank.machine.ended with
    | true => simp [he] at hs
    | false =>
      simp only [he, Bool.false_eq_true, if_false] at hs
      obtain ⟨bank, hpoll, rfl⟩ := Option.map_eq_some_iff.mp hs
      rcases poll_cases hpoll with ⟨h1, h2, h3⟩ | ⟨m, hq, h1, h2⟩
      · refine Refines.stay ⟨h.sound, h.alive, h.atm, h.atmQueue, h.outward, .inl ⟨?_, ?_, ?_⟩,
          h.interface, h.silent, h.interfaceQueue⟩
        · exact h2.trans hp
        · exact hbank.trans h1.symm
        · exact hqueue.trans (by rw [← h3])
      · rw [hq] at hqueue
        obtain ⟨l, rest, hc, rfl, hrest⟩ := List.map_eq_cons_iff.mp hqueue
        obtain ⟨hfrom, -⟩ := h.sound.requests l (by rw [hc]; exact List.mem_cons_self)
        rw [← hbank] at h1 h2
        rcases hfrom.posts h.alive with hnil | ⟨reply, hreply⟩
        · -- a cancellation, which is done with
          have hstep := system_stepBank h.alive hc
          rw [hnil] at hstep
          refine Followed.one _ _ hstep (fun hc' => ?_) ⟨h.sound, h.alive⟩
          exact ⟨hc'.1, hc'.2, h.atm, h.atmQueue, h.outward, .inl ⟨h2.trans hnil, h1.symm, hrest⟩,
            h.interface, h.silent, h.interfaceQueue⟩
        · refine Refines.stay ⟨h.sound, h.alive, h.atm, h.atmQueue, h.outward, .inr
            ⟨l.msg, reply, h2.trans hreply, Prod.ext h1.symm h2.symm, ?_⟩, h.interface, h.silent,
            h.interfaceQueue⟩
          rw [hc, List.map_cons, hrest]; rfl
  · -- the bank sends its answer
    simp only [hp, Machinery.push, ATM.sender] at hs
    obtain ⟨box, hbox, rfl⟩ := Option.map_eq_some_iff.mp hs
    obtain ⟨-, rfl⟩ := Mailbox.push_eq_some.mp hbox
    obtain ⟨l, rest, hc, rfl, hrest⟩ := List.map_eq_cons_iff.mp hqueue
    have hstep := system_stepBank h.alive hc
    rw [hpop, hp] at hstep
    refine Followed.one _ _ hstep (fun hc' => ?_) ⟨h.sound, h.alive⟩
    refine ⟨hc'.1, hc'.2, h.atm, ?_, h.outward, .inl ⟨rfl, rfl, hrest⟩, h.interface, h.silent,
      h.interfaceQueue⟩
    simp [System.fromBank, System.send, ATM.sender, h.atmQueue]

theorem Refines.stepInterface (h : Refines f c) (hs : f.stepInterface = some f') :
    Followed f' c := by
  simp only [Machinery.stepInterface, h.silent] at hs
  cases he : f.interface.machine.ended with
  | true => simp [he] at hs
  | false =>
    simp only [he, Bool.false_eq_true, if_false] at hs
    obtain ⟨interface, hpoll, rfl⟩ := Option.map_eq_some_iff.mp hs
    rcases poll_cases hpoll with ⟨h1, h2, h3⟩ | ⟨m, hq, h1, h2⟩
    · refine Refines.stay ⟨h.sound, h.alive, h.atm, h.atmQueue, h.outward, h.bank,
        h.interface.trans h1.symm, h2.trans h.silent, ?_⟩
      exact h.interfaceQueue.trans (by rw [← h3])
    · have hqueue := h.interfaceQueue
      rw [hq] at hqueue
      obtain ⟨l, rest, hc, rfl, hrest⟩ := List.map_eq_cons_iff.mp hqueue
      refine Followed.one .interface { c with
        interface := (c.interface.pop l.msg).1, interfaceQueue := rest } ?_ (fun hc' => ?_)
        ⟨h.sound, h.alive⟩
      · simp only [System.step, System.stepInterface, h.interface, he, hc, Bool.false_eq_true,
          if_false]
      · exact ⟨hc'.1, hc'.2, h.atm, h.atmQueue, h.outward, h.bank,
          by rw [h.interface]; exact h1.symm,
          h2.trans (InterfaceMachine.pop_posts _ _), hrest⟩

/-- A wait that is unblocked for no reason changes nothing that counts. -/
theorem Refines.spurious {q : QueueId} (h : Refines f c) (hs : f.step (.spurious q) = some f') :
    Refines f' c := by
  cases q with
  | atm =>
    obtain ⟨box, hbox, rfl⟩ := Option.map_eq_some_iff.mp hs
    obtain ⟨-, rfl⟩ := Mailbox.spurious_eq_some.mp hbox
    exact ⟨h.sound, h.alive, h.atm, h.atmQueue, h.outward, h.bank, h.interface, h.silent,
      h.interfaceQueue⟩
  | bank =>
    obtain ⟨box, hbox, rfl⟩ := Option.map_eq_some_iff.mp hs
    obtain ⟨-, rfl⟩ := Mailbox.spurious_eq_some.mp hbox
    exact ⟨h.sound, h.alive, h.atm, h.atmQueue, h.outward, h.bank, h.interface, h.silent,
      h.interfaceQueue⟩
  | interface =>
    obtain ⟨box, hbox, rfl⟩ := Option.map_eq_some_iff.mp hs
    obtain ⟨-, rfl⟩ := Mailbox.spurious_eq_some.mp hbox
    exact ⟨h.sound, h.alive, h.atm, h.atmQueue, h.outward, h.bank, h.interface, h.silent,
      h.interfaceQueue⟩

end

theorem refines_new : Refines .new .new where
  sound := system_sound.init _ rfl
  alive := rfl
  atm := rfl
  atmQueue := rfl
  outward := fun _ h => by cases h
  bank := .inl ⟨rfl, rfl, rfl⟩
  interface := rfl
  silent := rfl
  interfaceQueue := rfl

theorem machinery_simulation : machinery.Simulation system Refines where
  init := by
    intro f hf
    subst hf
    exact ⟨.new, rfl, refines_new⟩
  step := by
    intro f l f' c h hs
    cases l with
    | user msg => exact h.user hs
    | atm => exact h.stepAtm hs
    | bank => exact h.stepBank hs
    | interface => exact h.stepInterface hs
    | spurious q => exact (h.spurious hs).stay

/-! ### The fields in memory -/

/-- A call of a handler: from the fields that it has written when it comes to its sends
to those it leaves. -/
def Handles {S : Type} (pop : S → Msg → S × List Post) (before : S → Msg → S) (fields machine : S)
    (posts : List Post) : Prop :=
  ∃ s msg, fields = before s msg ∧ pop s msg = (machine, posts)

/-- The part of a state function before its wait sends first. -/
def ATM.Handles (fields machine : ATM) (posts : List Post) : Prop :=
  Atm.Handles ATM.pop ATM.before fields machine posts ∨ fields.enter = (machine, posts)

/-- The fields are what the handler leaves, or what it has written before its sends, of
which `posts` are still to be made. -/
def Process.Lags {S : Type} (handles : S → S → List Post → Prop) (p : Process S) : Prop :=
  p.fields = p.machine ∨ ∃ posts, handles p.fields p.machine posts ∧ p.posts <:+ posts

structure Lagging (f : Machinery) : Prop where
  atm : f.atm.Lags ATM.Handles
  bank : f.bank.Lags (Handles BankMachine.pop BankMachine.before)
  interface : f.interface.Lags (Handles InterfaceMachine.pop InterfaceMachine.before)

section
variable {S : Type} {pop : S → Msg → S × List Post} {before : S → Msg → S} {p p' : Process S}
  {handles : S → S → List Post → Prop} {post : Post} {posts : List Post} {f f' : Machinery}

theorem Process.Lags.send (h : p.Lags handles) (hp : p.posts = post :: posts) :
    ({ p with posts } : Process S).Lags handles := by
  rcases h with h | ⟨all, hall, hsuffix⟩
  · exact .inl h
  · rw [hp] at hsuffix
    exact .inr ⟨all, hall, (List.suffix_cons post posts).trans hsuffix⟩

theorem lags_poll (h : p.poll pop before = some p') : p'.Lags (Handles pop before) := by
  obtain ⟨⟨box, msg⟩, -, rfl⟩ := Option.map_eq_some_iff.mp h
  cases msg with
  | none => exact .inl rfl
  | some msg => exact .inr ⟨_, ⟨p.machine, msg, rfl, rfl⟩, List.suffix_refl _⟩

/-- A push changes the queues only. -/
theorem Lagging.push {q : Sender} {msg : Msg} (h : Lagging f) (hs : f.push q msg = some f') :
    Lagging f' := by
  rcases q with - | - | - | -
  · cases hs; exact h
  · obtain ⟨box, -, rfl⟩ := Option.map_eq_some_iff.mp hs; exact ⟨h.atm, h.bank, h.interface⟩
  · obtain ⟨box, -, rfl⟩ := Option.map_eq_some_iff.mp hs; exact ⟨h.atm, h.bank, h.interface⟩
  · obtain ⟨box, -, rfl⟩ := Option.map_eq_some_iff.mp hs; exact ⟨h.atm, h.bank, h.interface⟩

theorem Lagging.stepAtm (h : Lagging f) (hs : f.stepAtm = some f') : Lagging f' := by
  unfold Machinery.stepAtm at hs
  split at hs
  · next hp =>
    refine Lagging.push ?_ hs
    exact ⟨h.atm.send hp, h.bank, h.interface⟩
  · split at hs
    · cases hs
    split at hs
    · cases hs
      exact ⟨.inr ⟨_, .inr rfl, List.suffix_refl _⟩, h.bank, h.interface⟩
    · obtain ⟨atm, hpoll, rfl⟩ := Option.map_eq_some_iff.mp hs
      refine ⟨?_, h.bank, h.interface⟩
      rcases lags_poll hpoll with he | ⟨posts, hposts, hsuffix⟩
      · exact .inl he
      · exact .inr ⟨posts, .inl hposts, hsuffix⟩

theorem Lagging.stepBank (h : Lagging f) (hs : f.stepBank = some f') : Lagging f' := by
  unfold Machinery.stepBank at hs
  split at hs
  · next hp =>
    refine Lagging.push ?_ hs
    exact ⟨h.atm, h.bank.send hp, h.interface⟩
  · split at hs
    · cases hs
    · obtain ⟨bank, hpoll, rfl⟩ := Option.map_eq_some_iff.mp hs
      exact ⟨h.atm, lags_poll hpoll, h.interface⟩

theorem Lagging.stepInterface (h : Lagging f) (hs : f.stepInterface = some f') : Lagging f' := by
  unfold Machinery.stepInterface at hs
  split at hs
  · next hp =>
    refine Lagging.push ?_ hs
    exact ⟨h.atm, h.bank, h.interface.send hp⟩
  · split at hs
    · cases hs
    · obtain ⟨interface, hpoll, rfl⟩ := Option.map_eq_some_iff.mp hs
      exact ⟨h.atm, h.bank, lags_poll hpoll⟩

end

theorem lagging_inductive : machinery.Inductive Lagging where
  init := by
    intro f hf
    subst hf
    exact ⟨.inl rfl, .inl rfl, .inl rfl⟩
  step := by
    intro f l f' h hs
    cases l with
    | user msg =>
      simp only [machinery, LTS.ofFn, Machinery.step] at hs
      split at hs
      · exact h.push hs
      · cases hs
    | atm => exact h.stepAtm hs
    | bank => exact h.stepBank hs
    | interface => exact h.stepInterface hs
    | spurious q =>
      cases q <;>
      · obtain ⟨box, -, rfl⟩ := Option.map_eq_some_iff.mp hs
        exact ⟨h.atm, h.bank, h.interface⟩

/-- A card, a PIN and a withdrawal; the bank has sent its answer, and has not lowered
`balance_`. -/
def withdrawBeforeBooking : List Move :=
  [.atm, .atm, .user (.cardInserted ['A']), .atm, .atm, .atm] ++
    List.replicate 4 (.user (.digitPressed '0')) ++ List.replicate 9 .atm ++
    [.bank, .bank, .user (.withdrawPressed 50)] ++ List.replicate 6 .atm ++ [.bank, .bank]

end Cxx.Atm
