import Cxx.Atm.Rest
import Cxx.Atm.Sessions

/-!
# What the interface prints

`InterfaceMachine` prints its messages one after another, so that its lines are the
front of what the ATM has displayed. (`BankMachine` prints to the same stream: a line
when a withdrawal has been cancelled. Its lines are left out here; they may come
between those of the interface, and after them.)

* `system_screen`: printed, or in the queue, is the text of all that has been displayed.
* `machinery_screen`: the lines of the interface are the text of a sequence of card
  sessions, and when the machines are at rest the last of them tell the user what the
  ATM waits for.
-/
namespace Cxx.Atm

/-- The lines that are printed for a message. -/
def Msg.lines (msg : Msg) : List String := (InterfaceMachine.new.pop msg).1.printed

/-- What the user has been told last when a state waits for the user. -/
def AtmState.prompts : AtmState → List Msg
  | .waitForCard => [.displayEnterCard]
  | .gettingPin => [.displayEnterPin, .displayPinIncorrectMessage]
  | .waitForAction => [.displayWithdrawalOptions]
  | _ => []

theorem InterfaceMachine.pop_printed (i : InterfaceMachine) (msg : Msg) :
    (i.pop msg).1.printed = i.printed ++ msg.lines := by
  cases msg <;> first | rfl | exact (List.append_nil _).symm

theorem shown_sent (posts : List Post) : shown (posts.map .sent) = toInterface posts := by
  unfold shown toInterface
  rw [List.filterMap_map]
  refine List.filterMap_congr fun p _ => ?_
  obtain ⟨q, msg⟩ := p
  rcases q with - | - | - | - <;> rfl

/-- What has been displayed is printed or will be. -/
def Shows (s : System) : Prop :=
  s.interface.printed ++ (s.interfaceQueue.map Letter.msg).flatMap Msg.lines =
    s.displays.flatMap Msg.lines

/-- The last display tells what the ATM waits for. -/
def Prompted (s : System) : Prop :=
  (s.atm.waiting = true ∨ s.atm.state = .gettingPin) → s.atm.state.prompts ≠ [] →
    ∃ m ∈ s.atm.state.prompts, s.displays.getLast? = some m

theorem Shows.fromAtm {s : System} (h : Shows s) (posts : List Post) :
    Shows (s.fromAtm posts) := by
  obtain ⟨-, -, hi, hq⟩ := fromAtm_frame posts s
  have hd := (fromAtm_displays posts s).2
  unfold Shows at h ⊢
  rw [hi, hq, hd, shown_sent, List.flatMap_append, List.flatMap_append, ← List.append_assoc, h]

theorem Prompted.enter {s : System} (h : Prompted s) (hw : s.atm.waiting = false) :
    Prompted (({ s with atm := s.atm.enter.1 }).fromAtm s.atm.enter.2) := by
  obtain ⟨hatm, hd⟩ := fromAtm_displays s.atm.enter.2 { s with atm := s.atm.enter.1 }
  unfold Prompted at h ⊢
  rw [hatm, hd, shown_sent]
  cases hs : s.atm.state <;>
    simp_all [ATM.enter, AtmState.prompts, toInterface, ATM.interface]

theorem Prompted.take {s : System} (h : Prompted s) {l : Letter} {a : ATM} {posts : List Post}
    (ht : s.atm.Takes l.msg a posts) (rest : List Letter) (n : Nat) :
    Prompted (({ s with atm := a, atmQueue := rest, session := n }).fromAtm posts) := by
  obtain ⟨hatm, hd⟩ := fromAtm_displays posts { s with atm := a, atmQueue := rest, session := n }
  unfold Prompted at h ⊢
  rw [hatm, hd, shown_sent]
  generalize l.msg = m at ht
  cases ht <;> simp_all [AtmState.prompts, toInterface, ATM.interface, ATM.bank]

theorem system_screen : system.Inductive fun s => Sound s ∧ Shows s ∧ Prompted s := by
  apply system_sound.assuming
  · intro s hs
    subst hs
    exact ⟨rfl, by simp [Prompted, System.new, ATM.new]⟩
  · intro s l s' h hi hs
    have hs : s.step l = some s' := hs
    obtain ⟨hshow, hprompt⟩ := hi
    cases l with
    | user msg =>
      obtain ⟨-, rfl⟩ := step_user hs
      exact ⟨hshow, hprompt⟩
    | atm =>
      cases h.atm_step hs with
      | enter hw => exact ⟨Shows.fromAtm (s := { s with atm := s.atm.enter.1 }) hshow _,
        hprompt.enter hw⟩
      | discard hw hq hn => exact ⟨hshow, hprompt⟩
      | @take l rest a posts hw hq ht =>
        exact ⟨Shows.fromAtm (s := { s with atm := a, atmQueue := rest, session := _ }) hshow _,
          hprompt.take ht rest _⟩
    | bank =>
      obtain ⟨l, rest, stamp, -, -, -, -, ⟨-, rfl⟩ | ⟨-, reply, -, rfl⟩⟩ := step_bank h hs
      · exact ⟨hshow, hprompt⟩
      · exact ⟨hshow, hprompt⟩
    | interface =>
      obtain ⟨-, l, rest, hq, rfl⟩ := stepInterface_eq_some hs
      refine ⟨?_, hprompt⟩
      unfold Shows at hshow ⊢
      rw [hq, List.map_cons, List.flatMap_cons, ← List.append_assoc] at hshow
      rw [InterfaceMachine.pop_printed]
      exact hshow

/-- **The screen.** However the threads are scheduled, the lines that the interface has
printed are the front of the text of a sequence of card sessions; and whenever the
machines are at rest, the last of them are the prompt of the state that the ATM waits
in. -/
theorem machinery_screen {f : Machinery} (h : machinery.Reachable f) :
    (∃ shapes : List Shape,
      f.interface.machine.printed <+: (shapes.flatMap Shape.word).flatMap Msg.lines) ∧
    (f.AtRest → ∃ m ∈ f.atm.machine.state.prompts, m.lines <:+ f.interface.machine.printed) := by
  obtain ⟨c, hc, href⟩ := machinery_simulation.reachable h
  obtain ⟨-, hshow, hprompt⟩ := system_screen.reachable c hc
  unfold Shows at hshow
  unfold Prompted at hprompt
  rw [href.interface, href.interfaceQueue] at hshow
  rw [href.atm] at hprompt
  constructor
  · obtain ⟨shapes, rest, hrest⟩ := system_displays hc
    refine ⟨shapes, (f.interface.box.queue ++ toInterface f.atm.posts).flatMap Msg.lines ++
      rest.flatMap Msg.lines, ?_⟩
    rw [← List.append_assoc, hshow, ← List.flatMap_append, hrest]
  · intro hr
    have hw := (kept_inductive.reachable f h).2.waits (.inr (by rw [hr.atm.1]))
    have hne : f.atm.machine.state.prompts ≠ [] := by
      rcases hr.state with hs | hs | hs <;> rw [hs] <;> simp [AtmState.prompts]
    obtain ⟨m, hm, hlast⟩ := hprompt (.inl hw) hne
    obtain ⟨d, hd⟩ := List.getLast?_eq_some_iff.mp hlast
    refine ⟨m, hm, d.flatMap Msg.lines, ?_⟩
    rw [hr.interface.1, hr.atm.2, hd, List.flatMap_append] at hshow
    simpa [toInterface] using hshow.symm

theorem machinery_screen_new : ∃ f, machinery.Reachable f ∧ f.AtRest ∧
    f.interface.machine.printed = ["Please enter your card (I)"] ∧
    ∃ m ∈ f.atm.machine.state.prompts, m.lines <:+ f.interface.machine.printed := by
  have hrun : ∃ f, LTS.exec Machinery.step .new
      ([.atm, .atm] ++ List.replicate 2 .atm ++ List.replicate 2 .bank ++
        List.replicate 3 .interface) = some f ∧
      f.atm.box = ⟨[], .blocked⟩ ∧ f.atm.posts = [] ∧ f.bank.box = ⟨[], .blocked⟩ ∧
      f.bank.posts = [] ∧ f.interface.box = ⟨[], .blocked⟩ ∧ f.interface.posts = [] ∧
      f.atm.machine.state = .waitForCard ∧
      f.interface.machine.printed = ["Please enter your card (I)"] :=
    ⟨_, rfl, rfl, rfl, rfl, rfl, rfl, rfl, rfl, rfl⟩
  obtain ⟨f, he, h1, h2, h3, h4, h5, h6, hs, hp⟩ := hrun
  have hr : machinery.Reachable f := LTS.reachable_of_exec rfl he
  have hrest : f.AtRest := ⟨⟨h1, h2⟩, ⟨h3, h4⟩, ⟨h5, h6⟩, .inl hs⟩
  exact ⟨f, hr, hrest, hp, (machinery_screen hr).2 hrest⟩

end Cxx.Atm
