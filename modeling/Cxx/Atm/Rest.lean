import Cxx.Atm.Machinery
import Cxx.Core.Potential

/-!
# The machines come to rest

The threads of the machines work off what the users have sent, and then wait.

* `Awake`: a machine that is about to sleep or sleeps has nothing to do.
* `Machinery.work`: a measure that every step of a machine lowers. A message of a
  user raises it by 39 at most, a wait that is unblocked for no reason by 2.
* `machinery_rests`: however the threads are scheduled they come to rest, and then
  the queues are empty and the ATM waits for the user.
-/
namespace Cxx.Atm

/-! ## What a sleeping machine knows -/

/-- The machine is at the end of a test of its predicate, or blocked. -/
def Process.Asleep {S : Type} (p : Process S) : Prop := p.box.wait = .sleepy ∨ p.box.wait = .blocked

structure Process.Attends {S : Type} (p : Process S) : Prop where
  queue : p.Asleep → p.box.queue = []
  posts : p.Asleep → p.posts = []

structure Awake (f : Machinery) : Prop where
  atm : f.atm.Attends
  bank : f.bank.Attends
  interface : f.interface.Attends
  waits : f.atm.Asleep → f.atm.machine.waiting = true
  ready : f.atm.machine.waiting = true → f.atm.machine.state ≠ .doneProcessing
  sends : ∀ p ∈ f.atm.posts, p.2 ≠ .closeQueue
  shows : ∀ m ∈ f.interface.box.queue, m ≠ .closeQueue
  alive : f.interface.machine.ended = false

section
variable {S : Type} {p p' : Process S} {box : Mailbox Msg} {msg : Msg}

theorem not_asleep_push (h : p.box.push msg = some box) :
    ¬ ({ p with box } : Process S).Asleep := by
  obtain ⟨hw, rfl⟩ := Mailbox.push_eq_some.mp h
  unfold Process.Asleep
  cases hb : p.box.wait <;> simp_all [Wait.notify]

theorem Process.Attends.push (h : p.box.push msg = some box) :
    ({ p with box } : Process S).Attends :=
  ⟨Mailbox.Listens.push h, fun hs => absurd hs (not_asleep_push h)⟩

theorem Process.Attends.spurious (h : p.box.spurious = some box) :
    ({ p with box } : Process S).Attends ∧ ¬ ({ p with box } : Process S).Asleep := by
  have hl := Mailbox.Listens.spurious h
  obtain ⟨-, rfl⟩ := Mailbox.spurious_eq_some.mp h
  have hn : ¬ ({ p with box := ⟨p.box.queue, .woken⟩ } : Process S).Asleep := by
    simp [Process.Asleep]
  exact ⟨⟨hl, fun hs => absurd hs hn⟩, hn⟩

/-- A poll of a machine that has sent everything. -/
theorem Process.Attends.poll {pop : S → Msg → S × List Post} {before : S → Msg → S}
    (ha : p.Attends) (hp : p.posts = []) (h : p.poll pop before = some p') :
    p'.Attends ∧ (p'.Asleep → p'.machine = p.machine) := by
  obtain ⟨⟨box, msg⟩, hpop, rfl⟩ := Option.map_eq_some_iff.mp h
  have hl : box.Listens := Mailbox.Listens.pop ha.queue hpop
  rcases Mailbox.pop_cases hpop with ⟨rfl, -⟩ | ⟨v, rfl, -, hw, -⟩
  · exact ⟨⟨hl, fun _ => hp⟩, fun _ => rfl⟩
  · have hn : ¬ (⟨(pop p.machine v).1, before p.machine v, box, (pop p.machine v).2⟩ :
        Process S).Asleep := by
      simp [Process.Asleep, hw]
    exact ⟨⟨hl, fun hs => absurd hs hn⟩, fun hs => absurd hs hn⟩

end

/-! What the ATM sends, and where it waits. -/

theorem ATM.Takes.open {a a' : ATM} {msg : Msg} {posts : List Post} (h : a.Takes msg a' posts) :
    (∀ p ∈ posts, p.2 ≠ .closeQueue) ∧ a'.waiting = false := by
  cases h <;> simp

theorem ATM.pop_open (a : ATM) (msg : Msg) : (∀ p ∈ (a.pop msg).2, p.2 ≠ .closeQueue) ∧
    ((a.pop msg).1.waiting = true → (a.pop msg).1.state = a.state ∧ a.waiting = true) := by
  rcases a.pop_spec msg with ht | ⟨-, hp⟩ | ⟨hp, -⟩
  · refine ⟨ht.open.1, fun hw => ?_⟩
    rw [ht.open.2] at hw; cases hw
  · rw [hp]; exact ⟨by simp, fun hw => ⟨rfl, hw⟩⟩
  · rw [hp]; exact ⟨by simp, fun hw => ⟨rfl, hw⟩⟩

theorem ATM.enter_open (a : ATM) (hw : a.waiting = false) : (∀ p ∈ a.enter.2, p.2 ≠ .closeQueue) ∧
    (a.enter.1.waiting = true → a.enter.1.state ≠ .doneProcessing) := by
  unfold ATM.enter
  cases a.state <;> simp [hw]

theorem InterfaceMachine.pop_stays {i : InterfaceMachine} {msg : Msg} (h : msg ≠ .closeQueue) :
    (i.pop msg).1.ended = i.ended := by
  cases msg <;> first | rfl | exact absurd rfl h

section
variable {f f' : Machinery} {c : System}

/-- A push to a queue. -/
theorem Awake.push {q : Sender} {msg : Msg} (h : Awake f)
    (hm : q = ATM.interface → msg ≠ .closeQueue) (hs : f.push q msg = some f') : Awake f' := by
  rcases q with - | - | - | -
  · cases hs; exact h
  · obtain ⟨box, hbox, rfl⟩ := Option.map_eq_some_iff.mp hs
    exact { h with
      atm := .push hbox
      waits := fun hw => absurd hw (not_asleep_push hbox) }
  · obtain ⟨box, hbox, rfl⟩ := Option.map_eq_some_iff.mp hs
    exact { h with bank := .push hbox }
  · obtain ⟨box, hbox, rfl⟩ := Option.map_eq_some_iff.mp hs
    refine { h with interface := .push hbox, shows := fun m hin => ?_ }
    obtain ⟨-, rfl⟩ := Mailbox.push_eq_some.mp hbox
    rcases List.mem_append.mp hin with hin | hin
    · exact h.shows m hin
    · rw [List.mem_singleton.mp hin]; exact hm rfl

theorem Awake.stepAtm (h : Awake f) (hs : f.stepAtm = some f') : Awake f' := by
  unfold Machinery.stepAtm at hs
  cases hp : f.atm.posts with
  | cons p posts =>
    rw [hp] at hs
    have hnot : ¬ f.atm.Asleep := fun ha => by
      rw [h.atm.posts ha] at hp; cases hp
    have hmem : p ∈ f.atm.posts := by rw [hp]; exact List.mem_cons_self
    refine Awake.push (f := { f with atm := { f.atm with posts } }) { h with
      atm := ⟨fun ha => absurd ha hnot, fun ha => absurd ha hnot⟩
      sends := fun p hm => h.sends p (by rw [hp]; exact List.mem_cons_of_mem _ hm) }
      (fun _ => h.sends p hmem) hs
  | nil =>
    simp only [hp] at hs
    cases he : f.atm.machine.ended with
    | true => simp [he] at hs
    | false =>
      cases hw : f.atm.machine.waiting with
      | false =>
        simp only [he, hw, Bool.false_eq_true, if_false, Bool.not_false, if_true,
          Option.some.injEq] at hs
        subst hs
        have hnot : ¬ f.atm.Asleep := fun ha => by
          rw [h.waits ha] at hw; cases hw
        obtain ⟨h1, h2⟩ := f.atm.machine.enter_open hw
        exact { h with
          atm := ⟨fun ha => absurd ha hnot, fun ha => absurd ha hnot⟩
          waits := fun ha => absurd ha hnot
          ready := h2
          sends := h1 }
      | true =>
        simp only [he, hw, Bool.false_eq_true, if_false, Bool.not_true] at hs
        obtain ⟨atm, hpoll, rfl⟩ := Option.map_eq_some_iff.mp hs
        obtain ⟨hatt, hsame⟩ := h.atm.poll hp hpoll
        rcases poll_cases hpoll with ⟨h1, h2, -⟩ | ⟨m, -, h1, h2⟩
        · exact { h with
            atm := hatt
            waits := fun _ => (congrArg ATM.waiting h1).trans hw
            ready := fun hw => by
              change atm.machine.state ≠ _
              change atm.machine.waiting = true at hw
              rw [h1] at hw ⊢
              exact h.ready hw
            sends := fun p hm => h.sends p (by rw [← h2]; exact hm) }
        · obtain ⟨h3, h4⟩ := f.atm.machine.pop_open m
          exact { h with
            atm := hatt
            waits := fun ha => (congrArg ATM.waiting (hsame ha)).trans hw
            ready := fun hw => by
              change atm.machine.state ≠ _
              change atm.machine.waiting = true at hw
              rw [h1] at hw ⊢
              obtain ⟨h5, h6⟩ := h4 hw
              rw [h5]
              exact h.ready h6
            sends := fun p hm => h3 p (by rw [← h2]; exact hm) }

theorem Awake.stepBank (h : Awake f) (hr : Refines f c) (hs : f.stepBank = some f') :
    Awake f' := by
  unfold Machinery.stepBank at hs
  cases hp : f.bank.posts with
  | cons p posts =>
    rw [hp] at hs
    have hnot : ¬ f.bank.Asleep := fun ha => by
      rw [h.bank.posts ha] at hp; cases hp
    have hq : p.1 = ATM.sender := by
      rcases hr.bank with ⟨hnil, -⟩ | ⟨m, reply, hone, -⟩
      · rw [hp] at hnil; cases hnil
      · rw [hp] at hone; cases hone; rfl
    refine Awake.push (f := { f with bank := { f.bank with posts } }) { h with
      bank := ⟨fun ha => absurd ha hnot, fun ha => absurd ha hnot⟩ } (fun he => ?_) hs
    rw [hq] at he; cases he
  | nil =>
    simp only [hp] at hs
    obtain ⟨-, hs⟩ := Option.ite_none_left_eq_some.mp hs
    obtain ⟨bank, hpoll, rfl⟩ := Option.map_eq_some_iff.mp hs
    exact { h with bank := (h.bank.poll hp hpoll).1 }

theorem Awake.stepInterface (h : Awake f) (hr : Refines f c) (hs : f.stepInterface = some f') :
    Awake f' := by
  simp only [Machinery.stepInterface, hr.silent] at hs
  obtain ⟨-, hs⟩ := Option.ite_none_left_eq_some.mp hs
  obtain ⟨interface, hpoll, rfl⟩ := Option.map_eq_some_iff.mp hs
  have hatt := (h.interface.poll hr.silent hpoll).1
  rcases poll_cases hpoll with ⟨h1, -, h3⟩ | ⟨m, hq, h1, -⟩
  · exact { h with
      interface := hatt
      shows := fun m hm => h.shows m (by rw [← h3]; exact hm)
      alive := (congrArg InterfaceMachine.ended h1).trans h.alive }
  · refine { h with
      interface := hatt
      shows := fun m hm => h.shows m (by rw [hq]; exact List.mem_cons_of_mem _ hm)
      alive := ?_ }
    have hm := h.shows m (by rw [hq]; exact List.mem_cons_self)
    exact (congrArg InterfaceMachine.ended h1).trans ((InterfaceMachine.pop_stays hm).trans h.alive)

theorem Awake.step {l : Move} (h : Awake f) (hr : Refines f c) (hs : f.step l = some f') :
    Awake f' := by
  cases l with
  | user msg =>
    obtain ⟨hu, hs⟩ := Option.ite_none_right_eq_some.mp hs
    exact h.push (fun he => by cases he) hs
  | atm => exact h.stepAtm hs
  | bank => exact h.stepBank hr hs
  | interface => exact h.stepInterface hr hs
  | spurious q =>
    cases q with
    | atm =>
      obtain ⟨box, hbox, rfl⟩ := Option.map_eq_some_iff.mp hs
      obtain ⟨hatt, hnot⟩ := Process.Attends.spurious hbox
      exact { h with atm := hatt, waits := fun ha => absurd ha hnot }
    | bank =>
      obtain ⟨box, hbox, rfl⟩ := Option.map_eq_some_iff.mp hs
      exact { h with bank := (Process.Attends.spurious hbox).1 }
    | interface =>
      obtain ⟨box, hbox, rfl⟩ := Option.map_eq_some_iff.mp hs
      refine { h with interface := (Process.Attends.spurious hbox).1, shows := ?_ }
      obtain ⟨-, rfl⟩ := Mailbox.spurious_eq_some.mp hbox
      exact h.shows

end

theorem awake_new : Awake .new := by
  have hn : ∀ {S : Type} (machine : S), ¬ (⟨machine, machine, .new, []⟩ : Process S).Asleep := by
    intro S machine
    simp [Process.Asleep, Mailbox.new]
  exact {
    atm := ⟨Mailbox.listens_new, fun _ => rfl⟩
    bank := ⟨Mailbox.listens_new, fun _ => rfl⟩
    interface := ⟨Mailbox.listens_new, fun _ => rfl⟩
    waits := fun h => absurd h (hn _)
    ready := fun h => by cases h
    sends := fun _ h => by cases h
    shows := fun _ h => by cases h
    alive := rfl }

/-- The threads stand for a state of the system, and do not sleep beside a message. -/
def Kept (f : Machinery) : Prop := (∃ c, Refines f c) ∧ Awake f

theorem kept_inductive : machinery.Inductive Kept where
  init := by
    intro f hf
    subst hf
    exact ⟨⟨_, refines_new⟩, awake_new⟩
  step := by
    intro f l f' h hs
    obtain ⟨⟨c, hr⟩, ha⟩ := h
    obtain ⟨ls, c', -, hr'⟩ := machinery_simulation.step f l f' c hr hs
    exact ⟨⟨c', hr'⟩, ha.step hr hs⟩

/-! ## The work that is left -/

/-- What a message in the queue of the ATM can still cause. -/
def Msg.weight (msg : Msg) : Nat := if msg.replyKind.isSome then 15 else 37

def weight (queue : List Msg) : Nat := (queue.map Msg.weight).sum

/-- What a message that the ATM has yet to send can still cause. -/
def Post.weight (p : Post) : Nat := if p.1 = ATM.bank then 22 else 4

def postsWeight (posts : List Post) : Nat := (posts.map Post.weight).sum

/-- What the ATM does before its next wait. -/
def ATM.work (a : ATM) : Nat :=
  if a.waiting then 0
  else match a.state with
  | .waitForCard | .waitForAction => 5
  | .doneProcessing => 10
  | _ => 1

def Machinery.work (f : Machinery) : Nat :=
  f.atm.machine.work + postsWeight f.atm.posts + weight f.atm.box.queue + f.atm.box.wait.cost +
    18 * f.bank.posts.length + 19 * f.bank.box.queue.length + f.bank.box.wait.cost +
    f.interface.box.queue.length + f.interface.box.wait.cost

@[simp] theorem weight_nil : weight [] = 0 := rfl

@[simp] theorem weight_cons (msg : Msg) (queue : List Msg) :
    weight (msg :: queue) = msg.weight + weight queue := rfl

@[simp] theorem weight_append (q₁ q₂ : List Msg) : weight (q₁ ++ q₂) = weight q₁ + weight q₂ := by
  simp [weight]

@[simp] theorem postsWeight_nil : postsWeight [] = 0 := rfl

@[simp] theorem postsWeight_cons (p : Post) (posts : List Post) :
    postsWeight (p :: posts) = Post.weight p + postsWeight posts := rfl

theorem Msg.weight_le (msg : Msg) : 15 ≤ msg.weight ∧ msg.weight ≤ 37 := by
  unfold weight
  split <;> omega

/-- What a message causes is paid for by its weight. -/
theorem ATM.Takes.work {a a' : ATM} {msg : Msg} {posts : List Post} (h : a.Takes msg a' posts) :
    a'.work + postsWeight posts + 1 ≤ msg.weight := by
  cases h <;>
    simp_all [ATM.work, Post.weight, Msg.weight, Msg.replyKind, ATM.bank, ATM.interface]

theorem ATM.pop_work {a : ATM} (hw : a.waiting = true) (msg : Msg) :
    (a.pop msg).1.work + postsWeight (a.pop msg).2 + 1 ≤ msg.weight := by
  have hle := msg.weight_le.1
  rcases a.pop_spec msg with ht | ⟨-, hp⟩ | ⟨hp, -⟩
  · exact ht.work
  · rw [hp]
    simp only [ATM.work, hw, if_true, postsWeight_nil]
    omega
  · rw [hp]
    simp only [ATM.work, hw, if_true, postsWeight_nil]
    omega

theorem ATM.enter_work {a : ATM} (hw : a.waiting = false) :
    a.enter.1.work + postsWeight a.enter.2 + 1 ≤ a.work := by
  unfold ATM.enter
  cases hs : a.state <;> simp [ATM.work, Post.weight, ATM.bank, ATM.interface, hs, hw]

/-- The bank answers with one reply at most. -/
theorem BankMachine.pop_replies (b : BankMachine) (msg : Msg) :
    (b.pop msg).2.length ≤ 1 ∧ ∀ p ∈ (b.pop msg).2, p.2.weight = 15 := by
  rw [BankMachine.pop_eq]
  cases msg with
  | verifyPin account pin q =>
    refine ⟨by simp, fun p hp => ?_⟩
    rw [List.mem_singleton.mp hp]
    split <;> rfl
  | withdraw account amount q =>
    by_cases ha : amount ≤ b.balance <;> simp [ha, Msg.weight, Msg.replyKind]
  | _ => simp [Msg.weight, Msg.replyKind]

/-- The work of a poll that takes no message. -/
theorem poll_work {S : Type} {pop : S → Msg → S × List Post} {before : S → Msg → S}
    {p p' : Process S} (h : p.poll pop before = some p') :
    (p'.machine = p.machine ∧ p'.posts = p.posts ∧ p'.box.queue = p.box.queue ∧
      p'.box.wait.cost + 1 = p.box.wait.cost) ∨
    ∃ msg, p.box.queue = msg :: p'.box.queue ∧ p'.machine = (pop p.machine msg).1 ∧
      p'.posts = (pop p.machine msg).2 ∧ p'.box.wait.cost = p.box.wait.cost := by
  obtain ⟨⟨box, msg⟩, hpop, rfl⟩ := Option.map_eq_some_iff.mp h
  rcases Mailbox.pop_cases hpop with ⟨rfl, hq, hc, -⟩ | ⟨v, rfl, hq, hw, hc⟩
  · exact .inl ⟨rfl, rfl, hq, hc⟩
  · refine .inr ⟨v, hq, rfl, rfl, ?_⟩
    change box.wait.cost = _
    rw [hw, hc]; rfl

section
variable {f f' : Machinery} {c : System}

/-- What a push costs: the message itself, and the step of the reader that is woken. -/
theorem push_work {q : Sender} {msg : Msg} (hs : f.push q msg = some f') :
    (q = ATM.sender → f'.work ≤ f.work + msg.weight + 2) ∧
      (q = ATM.bank → f'.work ≤ f.work + 21) ∧ (q = ATM.interface → f'.work ≤ f.work + 3) := by
  rcases q with - | - | - | -
  · exact ⟨fun h => (by cases h), fun h => (by cases h), fun h => (by cases h)⟩
  · obtain ⟨box, hbox, rfl⟩ := Option.map_eq_some_iff.mp hs
    obtain ⟨-, rfl⟩ := Mailbox.push_eq_some.mp hbox
    refine ⟨fun _ => ?_, fun h => (by cases h), fun h => (by cases h)⟩
    have := Wait.cost_notify f.atm.box.wait
    simp only [Machinery.work, weight_append, weight_cons, weight_nil]
    omega
  · obtain ⟨box, hbox, rfl⟩ := Option.map_eq_some_iff.mp hs
    obtain ⟨-, rfl⟩ := Mailbox.push_eq_some.mp hbox
    refine ⟨fun h => (by cases h), fun _ => ?_, fun h => (by cases h)⟩
    have := Wait.cost_notify f.bank.box.wait
    simp only [Machinery.work, List.length_append, List.length_singleton]
    omega
  · obtain ⟨box, hbox, rfl⟩ := Option.map_eq_some_iff.mp hs
    obtain ⟨-, rfl⟩ := Mailbox.push_eq_some.mp hbox
    refine ⟨fun h => (by cases h), fun h => (by cases h), fun _ => ?_⟩
    have := Wait.cost_notify f.interface.box.wait
    simp only [Machinery.work, List.length_append, List.length_singleton]
    omega

theorem work_stepAtm (hr : Refines f c) (hs : f.stepAtm = some f') : f'.work + 1 ≤ f.work := by
  unfold Machinery.stepAtm at hs
  cases hp : f.atm.posts with
  | cons p posts =>
    obtain ⟨q, msg⟩ := p
    rw [hp] at hs
    obtain ⟨g, hg⟩ : ∃ g : Machinery, g = { f with atm := { f.atm with posts } } := ⟨_, rfl⟩
    have hpush : g.push q msg = some f' := by rw [hg]; exact hs
    obtain ⟨-, hb, hi⟩ := push_work hpush
    have hout := hr.outward (q, msg) (by rw [hp]; exact List.mem_cons_self)
    have hbefore : f.work = g.work + Post.weight (q, msg) := by
      simp only [Machinery.work, hg, hp, postsWeight_cons]
      omega
    rcases hout with hq | hq
    · have hq : q = ATM.bank := hq
      have := hb hq
      simp only [Post.weight, hq, if_true] at hbefore
      omega
    · have hq : q = ATM.interface := hq
      have := hi hq
      simp only [Post.weight, hq, ATM.interface, ATM.bank, Option.some.injEq, reduceCtorEq,
        if_false] at hbefore
      omega
  | nil =>
    simp only [hp] at hs
    obtain ⟨-, hs⟩ := Option.ite_none_left_eq_some.mp hs
    cases hw : f.atm.machine.waiting with
    | false =>
      simp only [hw, Bool.not_false, if_true, Option.some.injEq] at hs
      subst hs
      have := ATM.enter_work hw
      simp only [Machinery.work, hp, postsWeight_nil]
      omega
    | true =>
      simp only [hw, Bool.not_true, Bool.false_eq_true, if_false] at hs
      obtain ⟨atm, hpoll, rfl⟩ := Option.map_eq_some_iff.mp hs
      rcases poll_work hpoll with ⟨h1, h2, h3, h4⟩ | ⟨m, hq, h1, h2, h3⟩
      · simp only [Machinery.work, h1, h2, h3]
        omega
      · have := ATM.pop_work hw m
        have hzero : f.atm.machine.work = 0 := by simp [ATM.work, hw]
        simp only [Machinery.work, h1, h2, h3, hq, hp, hzero, weight_cons, postsWeight_nil]
        omega

theorem work_stepBank (hr : Refines f c) (hs : f.stepBank = some f') : f'.work + 1 ≤ f.work := by
  unfold Machinery.stepBank at hs
  cases hp : f.bank.posts with
  | cons p posts =>
    obtain ⟨q, msg⟩ := p
    rw [hp] at hs
    have hq : q = ATM.sender ∧ posts = [] ∧ msg.weight = 15 := by
      rcases hr.bank with ⟨hnil, -⟩ | ⟨m, reply, hone, hpop, -⟩
      · rw [hp] at hnil; cases hnil
      · rw [hp] at hone
        cases hone
        refine ⟨rfl, rfl, (c.bank.pop_replies m).2 (ATM.sender, _) ?_⟩
        rw [hpop, hp]; exact List.mem_cons_self
    obtain ⟨g, hg⟩ : ∃ g : Machinery, g = { f with bank := { f.bank with posts } } := ⟨_, rfl⟩
    have hpush : g.push q msg = some f' := by rw [hg]; exact hs
    have := (push_work hpush).1 hq.1
    have hbefore : f.work = g.work + 18 := by
      simp only [Machinery.work, hg, hp, List.length_cons]
      omega
    omega
  | nil =>
    simp only [hp] at hs
    obtain ⟨-, hs⟩ := Option.ite_none_left_eq_some.mp hs
    obtain ⟨bank, hpoll, rfl⟩ := Option.map_eq_some_iff.mp hs
    rcases poll_work hpoll with ⟨h1, h2, h3, h4⟩ | ⟨m, hq, h1, h2, h3⟩
    · simp only [Machinery.work, h2, h3]
      omega
    · have := (f.bank.machine.pop_replies m).1
      simp only [Machinery.work, h2, h3, hq, hp, List.length_cons, List.length_nil]
      omega

theorem work_stepInterface (hr : Refines f c) (hs : f.stepInterface = some f') :
    f'.work + 1 ≤ f.work := by
  simp only [Machinery.stepInterface, hr.silent] at hs
  obtain ⟨-, hs⟩ := Option.ite_none_left_eq_some.mp hs
  obtain ⟨interface, hpoll, rfl⟩ := Option.map_eq_some_iff.mp hs
  rcases poll_work hpoll with ⟨h1, h2, h3, h4⟩ | ⟨m, hq, h1, h2, h3⟩
  · simp only [Machinery.work, h3]
    omega
  · simp only [Machinery.work, h3, hq, List.length_cons]
    omega

/-- The steps of the machines. -/
def Move.isMachine : Move → Bool
  | .atm | .bank | .interface => true
  | _ => false

/-- What a step that is not a machine's adds to the work. -/
def Move.load : Move → Nat
  | .user _ => 39
  | .spurious _ => 2
  | _ => 0

theorem work_step {l : Move} (hr : Refines f c) (hs : f.step l = some f') :
    f'.work + l.isMachine.toNat ≤ f.work + l.load := by
  cases l <;> simp only [Move.isMachine, Move.load, Bool.toNat_true, Bool.toNat_false, Nat.add_zero]
  case user msg =>
    obtain ⟨-, hs⟩ := Option.ite_none_right_eq_some.mp hs
    have := (push_work hs).1 rfl
    have := msg.weight_le.2
    omega
  case atm => exact work_stepAtm hr hs
  case bank => exact work_stepBank hr hs
  case interface => exact work_stepInterface hr hs
  case spurious q =>
    cases q
    all_goals
      obtain ⟨box, hbox, rfl⟩ := Option.map_eq_some_iff.mp hs
      obtain ⟨hw, rfl⟩ := Mailbox.spurious_eq_some.mp hbox
      simp only [Machinery.work, hw, Wait.cost]
      omega

theorem followed_step (f : Machinery) (l : Move) (f' : Machinery) (h : ∃ c, Refines f c)
    (hs : machinery.step f l f') : ∃ c, Refines f' c := by
  obtain ⟨c, hr⟩ := h
  obtain ⟨-, c', -, hr'⟩ := machinery_simulation.step f l f' c hr hs
  exact ⟨c', hr'⟩

theorem work_run {ls : List Move} (r : machinery.Run f ls f') (hr : ∃ c, Refines f c) :
    f'.work + ls.countP Move.isMachine ≤ f.work + (ls.map Move.load).sum := by
  have h := LTS.run_cost Machinery.work (fun l => if l.isMachine then 1 else 0) Move.load
    followed_step ?_ r hr
  · rw [LTS.sum_weight] at h
    omega
  · intro f l f' ⟨c, hr⟩ hs
    have := work_step hr hs
    cases hl : l.isMachine <;> simp [hl] at this ⊢ <;> omega

/-! ## Rest -/

/-- Every machine is blocked in its wait, and there are no messages. -/
structure Machinery.AtRest (f : Machinery) : Prop where
  atm : f.atm.box = ⟨[], .blocked⟩ ∧ f.atm.posts = []
  bank : f.bank.box = ⟨[], .blocked⟩ ∧ f.bank.posts = []
  interface : f.interface.box = ⟨[], .blocked⟩ ∧ f.interface.posts = []
  state : f.atm.machine.state = .waitForCard ∨ f.atm.machine.state = .gettingPin ∨
    f.atm.machine.state = .waitForAction

theorem blocked_of_poll {S : Type} {pop : S → Msg → S × List Post} {before : S → Msg → S}
    {p : Process S} (ha : p.Attends) (h : p.poll pop before = none) : p.box = ⟨[], .blocked⟩ := by
  have hw := Mailbox.pop_eq_none.mp (Option.map_eq_none_iff.mp h)
  have hq := ha.queue (.inr hw)
  exact congrArg₂ Mailbox.mk hq hw

/-- A machine whose queue is locked by its own wait can go on with it. -/
theorem poll_of_sleepy {S : Type} (pop : S → Msg → S × List Post) (before : S → Msg → S)
    {p : Process S} (hw : p.box.wait = .sleepy) : p.poll pop before ≠ none := by
  intro h
  have := Mailbox.pop_eq_none.mp (Option.map_eq_none_iff.mp h)
  rw [hw] at this
  cases this

/-- Where the machines cannot go on, the ATM does not wait for the bank. -/
theorem Refines.waits_for_user (hr : Refines f c) (ha : Awake f)
    (hw : f.atm.machine.waiting = true) (hq : f.atm.box.queue = []) (hb : f.bank.box.queue = [])
    (hp : f.atm.posts = []) (hbp : f.bank.posts = []) : f.atm.machine.state = .waitForCard ∨
      f.atm.machine.state = .gettingPin ∨ f.atm.machine.state = .waitForAction := by
  have hatm : c.atmQueue = [] := List.map_eq_nil_iff.mp (hr.atmQueue.trans hq)
  have hbank : c.bankQueue = [] := by
    rcases hr.bank with ⟨-, -, h⟩ | ⟨m, reply, h, -⟩
    · rw [hb, hp] at h
      exact List.map_eq_nil_iff.mp h
    · rw [hbp] at h; cases h
  have hnone : f.atm.machine.state.awaits = none := by
    by_contra hk
    obtain ⟨k, hk⟩ := Option.ne_none_iff_exists'.mp hk
    rcases hr.sound.pending (k := k) (by rw [hr.atm]; exact hk) with ⟨l, hl, -⟩ | ⟨l, hl, -⟩
    · rw [hbank] at hl; cases hl
    · rw [hatm] at hl; cases hl
  have hdone := ha.ready hw
  cases hs : f.atm.machine.state <;> simp_all [AtmState.awaits]

/-- A machine can go on, or all are at rest. -/
theorem Kept.at_rest (h : Kept f) (hn : ∀ l, l.isMachine = true → f.step l = none) :
    f.AtRest := by
  obtain ⟨⟨c, hr⟩, ha⟩ := h
  have hatm : f.stepAtm = none := hn .atm rfl
  have hbank : f.stepBank = none := hn .bank rfl
  have hinterface : f.stepInterface = none := hn .interface rfl
  have halive : f.atm.machine.ended = false := by rw [← hr.atm]; exact hr.sound.alive
  -- the interface has nothing to send
  have hi : f.interface.box = ⟨[], .blocked⟩ := by
    simp only [Machinery.stepInterface, hr.silent, ha.alive, Bool.false_eq_true, if_false,
      Option.map_eq_none_iff] at hinterface
    exact blocked_of_poll ha.interface hinterface
  -- nor has the bank: the ATM would have to be about to block
  have hbp : f.bank.posts = [] := by
    rcases hr.bank with ⟨h, -⟩ | ⟨m, reply, h, -⟩
    · exact h
    · simp only [Machinery.stepBank, h, Machinery.push, ATM.sender, Option.map_eq_none_iff] at hbank
      have hsleepy := Mailbox.push_eq_none.mp hbank
      simp only [Machinery.stepAtm, ha.atm.posts (.inl hsleepy), halive,
        ha.waits (.inl hsleepy), Bool.false_eq_true, if_false, Bool.not_true,
        Option.map_eq_none_iff] at hatm
      exact absurd hatm (poll_of_sleepy _ _ hsleepy)
  have hb : f.bank.box = ⟨[], .blocked⟩ := by
    have halive : f.bank.machine.ended = false := by
      rcases hr.bank with ⟨-, h, -⟩ | ⟨m, reply, h, -⟩
      · rw [← h]; exact hr.alive
      · rw [hbp] at h; cases h
    simp only [Machinery.stepBank, hbp, halive, Bool.false_eq_true, if_false,
      Option.map_eq_none_iff] at hbank
    exact blocked_of_poll ha.bank hbank
  have hp : f.atm.posts = [] := by
    cases hp : f.atm.posts with
    | nil => rfl
    | cons p posts =>
      obtain ⟨q, msg⟩ := p
      simp only [Machinery.stepAtm, hp] at hatm
      rcases hr.outward (q, msg) (by rw [hp]; exact List.mem_cons_self) with hq | hq
      · have hq : q = some .bank := hq
        subst hq
        simp only [Machinery.push, Option.map_eq_none_iff] at hatm
        have := Mailbox.push_eq_none.mp hatm
        rw [hb] at this; cases this
      · have hq : q = some .interface := hq
        subst hq
        simp only [Machinery.push, Option.map_eq_none_iff] at hatm
        have := Mailbox.push_eq_none.mp hatm
        rw [hi] at this; cases this
  simp only [Machinery.stepAtm, hp, halive, Bool.false_eq_true, if_false] at hatm
  cases hw : f.atm.machine.waiting with
  | false => simp [hw] at hatm
  | true =>
    simp only [hw, Bool.not_true, Bool.false_eq_true, if_false, Option.map_eq_none_iff] at hatm
    have hbox := blocked_of_poll ha.atm hatm
    exact ⟨⟨hbox, hp⟩, ⟨hb, hbp⟩, ⟨hi, hr.silent⟩,
      hr.waits_for_user ha hw (by rw [hbox]) (by rw [hb]) hp hbp⟩

theorem Machinery.AtRest.stuck (h : f.AtRest) (ha : Awake f) {l : Move} (hl : l.isMachine = true) :
    f.step l = none := by
  have poll : ∀ {S : Type} {pop : S → Msg → S × List Post} {before : S → Msg → S}
      {p : Process S}, p.box = ⟨[], .blocked⟩ → p.poll pop before = none := by
    intro S pop before p hb
    simp [Process.poll, hb, Mailbox.pop]
  have hw := ha.waits (.inr (by rw [h.atm.1]))
  cases l with
  | atm =>
    simp only [Machinery.step, Machinery.stepAtm, h.atm.2, hw, poll h.atm.1]
    simp
  | bank =>
    simp only [Machinery.step, Machinery.stepBank, h.bank.2, poll h.bank.1]
    simp
  | interface =>
    simp only [Machinery.step, Machinery.stepInterface, h.interface.2, poll h.interface.1]
    simp
  | _ => cases hl

theorem Kept.lower {l : Move} {f' : Machinery} (h : Kept f) (hl : l.isMachine = true)
    (hs : machinery.step f l f') : f'.work < f.work := by
  obtain ⟨⟨c, hr⟩, -⟩ := h
  have := work_step hr hs
  cases l <;> simp [Move.isMachine, Move.load] at hl this <;> omega

/-- The machines by themselves, until they are at rest. -/
theorem Kept.to_rest (h : Kept f) : ∃ ls f', machinery.Run f ls f' ∧
    (∀ l ∈ ls, l.isMachine = true) ∧ f'.AtRest := by
  obtain ⟨ls, f', r, hls, hk, hend⟩ := LTS.run_to_end Machinery.work (fun l => l.isMachine = true)
    (fun s l s' hk _ hs => kept_inductive.step s l s' hk hs) (fun _ _ _ hk => hk.lower) h
  refine ⟨ls, f', r, hls, hk.at_rest fun l hl => ?_⟩
  cases hs : f'.step l with
  | none => rfl
  | some g => exact absurd hs (hend l g hl)

end

def Move.isUser : Move → Bool
  | .user _ => true
  | _ => false

def Move.isSpurious : Move → Bool
  | .spurious _ => true
  | _ => false

theorem load_sum (ls : List Move) : (ls.map Move.load).sum =
    39 * ls.countP Move.isUser + 2 * ls.countP Move.isSpurious := by
  induction ls with
  | nil => rfl
  | cons l ls ih =>
    simp only [List.map_cons, List.sum_cons, ih, List.countP_cons]
    cases l <;> simp [Move.load, Move.isUser, Move.isSpurious] <;> omega

/-- **The work of the machines is bounded.** From the start, the threads of the three
machines take no more than 39 steps for each message of a user and 2 for each wait
that is unblocked for no reason, and 11 of their own. -/
theorem machinery_bounded {ls : List Move} {f : Machinery} (r : machinery.Run .new ls f) :
    ls.countP Move.isMachine ≤
      11 + 39 * ls.countP Move.isUser + 2 * ls.countP Move.isSpurious := by
  have h := work_run r ⟨_, refines_new⟩
  have hnew : Machinery.work .new = 11 := rfl
  rw [load_sum, hnew] at h
  omega

/-- A card and a PIN; the bank has popped the request, and before it answers the user
cancels. -/
def cancelBeforeAnswer : List Move :=
  [.atm, .atm, .user (.cardInserted ['A']), .atm, .atm, .atm] ++
    List.replicate 4 (.user (.digitPressed '0')) ++ List.replicate 9 .atm ++
    [.bank, .user .cancelPressed]

theorem machinery_bounded_cancel : ∃ f, machinery.Run .new cancelBeforeAnswer f ∧
    cancelBeforeAnswer.countP Move.isMachine = 15 ∧
    cancelBeforeAnswer.countP Move.isMachine ≤ 11 + 39 * 6 + 2 * 0 := by
  have hrun : ∃ f, LTS.exec Machinery.step .new cancelBeforeAnswer = some f := ⟨_, rfl⟩
  obtain ⟨f, he⟩ := hrun
  have r : machinery.Run .new cancelBeforeAnswer f := LTS.run_of_exec he
  exact ⟨f, r, rfl, machinery_bounded r⟩

/-- **The machines come to rest.** Without further messages of users every schedule of
the three threads comes to its end, which is where they are at rest: all queues are
empty, every machine is blocked in its wait, and the ATM waits for a user. -/
theorem machinery_rests {f : Machinery} (h : machinery.Reachable f) :
    (∀ ls f', machinery.Run f ls f' → (∀ l ∈ ls, l.isMachine = true) → ls.length ≤ f.work) ∧
      ((∀ l, l.isMachine = true → f.step l = none) ↔ f.AtRest) ∧
      ∃ ls f', machinery.Run f ls f' ∧ (∀ l ∈ ls, l.isMachine = true) ∧ f'.AtRest := by
  have hk := kept_inductive.reachable f h
  refine ⟨fun ls f' r hls => ?_, ⟨hk.at_rest, fun hr l hl => hr.stuck hk.2 hl⟩, hk.to_rest⟩
  exact LTS.run_length Machinery.work (fun s l s' hk _ hs => kept_inductive.step s l s' hk hs)
    (fun _ _ _ hk => hk.lower) r hls hk

theorem machinery_rests_cancel : ∃ f, machinery.Reachable f ∧
    f.bank.posts = [(ATM.sender, .pinVerified)] ∧ ¬ f.AtRest ∧
    ∃ ls f', machinery.Run f ls f' ∧ (∀ l ∈ ls, l.isMachine = true) ∧ f'.AtRest := by
  have hrun : ∃ f, LTS.exec Machinery.step .new cancelBeforeAnswer = some f ∧
      f.bank.posts = [(ATM.sender, .pinVerified)] := ⟨_, rfl, rfl⟩
  obtain ⟨f, he, hposts⟩ := hrun
  have hr : machinery.Reachable f := LTS.reachable_of_exec rfl he
  refine ⟨f, hr, hposts, fun h => ?_, (machinery_rests hr).2.2⟩
  rw [h.bank.2] at hposts
  cases hposts

end Cxx.Atm
