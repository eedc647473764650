import Cxx.Atm.System

/-!
# What the interface is shown

`atmAlone` is `ATM::run` by itself: any message at all may be popped from its
queue, at any time and in any order. Its log has the messages that a handler
took and the messages that were sent, in the order in which this happened.

**Sessions.** A session is the part of the log from one `display_enter_card`
to the next. `Shape.word` is what the interface is shown in a session.

**Results.** `Stage` says how far the current session has got, for each state
of the ATM: which part of a `word` has been shown, and what has happened to
the amount. `logged_inductive` is that every run keeps it, and `protocol`
that the log is a list of whole sessions and the beginning of one more.
`system_simulation`: seen from the ATM, the three machines together are
`atmAlone` with particular deliveries, so what it shows holds of `system`.
-/
namespace Cxx.Atm

inductive Event where
  /-- A handler has run on a popped message. -/
  | took (msg : Msg)
  | sent (post : Post)
  deriving DecidableEq, Repr

structure AtmLog where
  atm : ATM
  log : List Event
  deriving DecidableEq, Repr

inductive Cue where
  /-- `state_()` is called. -/
  | enter
  /-- The wait pops a message. -/
  | deliver (msg : Msg)
  deriving DecidableEq, Repr

/-- A message that a handler has run on ends the wait. -/
def ATM.took (a : ATM) (msg : Msg) : List Event := if (a.pop msg).1.waiting then [] else [.took msg]

def AtmLog.step (w : AtmLog) : Cue → Option AtmLog
  | .enter =>
    if w.atm.ended || w.atm.waiting then none
    else some ⟨w.atm.enter.1, w.log ++ w.atm.enter.2.map .sent⟩
  | .deliver msg =>
    if w.atm.ended || !w.atm.waiting then none
    else some ⟨(w.atm.pop msg).1, w.log ++ w.atm.took msg ++ (w.atm.pop msg).2.map .sent⟩

def atmAlone : LTS AtmLog Cue := LTS.ofFn (· = ⟨.new, []⟩) AtmLog.step

/-! ## Sessions -/

/-- The messages sent to the interface. -/
def shown (e : List Event) : List Msg :=
  e.filterMap fun
    | .sent (some .interface, msg) => some msg
    | _ => none

inductive Ending where
  | issued (amount : UInt32) | insufficient | cancelled
  deriving DecidableEq, Repr

def Ending.msg : Ending → Msg
  | .issued amount => .issueMoney amount
  | .insufficient => .displayInsufficientFunds
  | .cancelled => .displayWithdrawalCancelled

/-- The course of a session: the number of wrong PINs and, if then the right
one came, the balances shown and the end of the withdrawal. -/
structure Shape where
  incorrect : Nat
  authorised : Option (List UInt32 × Option Ending)
  deriving DecidableEq, Repr

def opening (incorrect : Nat) : List Msg :=
  [.displayEnterCard, .displayEnterPin] ++ List.replicate incorrect .displayPinIncorrectMessage

def balances (amounts : List UInt32) : List Msg :=
  amounts.flatMap fun amount => [.displayBalance amount, .displayWithdrawalOptions]

/-- What the interface is shown in a whole session. -/
def Shape.word (w : Shape) : List Msg :=
  opening w.incorrect ++
    (match w.authorised with
    | none => []
    | some (amounts, ending) =>
      [.displayPinCorrectMessage, .displayWithdrawalOptions] ++ balances amounts ++
        (ending.map Ending.msg).toList) ++
    [.ejectCard]

def Event.isPress : Event → Bool
  | .took (.withdrawPressed _) => true
  | _ => false

def Event.isWithdraw : Event → Bool
  | .sent (_, .withdraw _ _ _) => true
  | _ => false

/-- What the events of a session say about amounts: money is issued only for
what was asked for at the interface, at most one withdrawal is sent to the
bank, and a cancellation only for that withdrawal. -/
structure Regular (e : List Event) : Prop where
  issued : ∀ amount, .sent (ATM.interface, .issueMoney amount) ∈ e →
    .took (.withdrawPressed amount) ∈ e
  presses : e.countP Event.isPress ≤ 1
  withdraws : e.countP Event.isWithdraw ≤ 1
  cancels : ∀ account amount, .sent (ATM.bank, .cancelWithdrawal account amount) ∈ e →
    .sent (ATM.bank, .withdraw account amount ATM.sender) ∈ e

/-! ## How far a session has got -/

/-- The events with an amount to withdraw. -/
def Event.isMoney : Event → Bool
  | .took (.withdrawPressed _) | .sent (_, .withdraw _ _ _) | .sent (_, .cancelWithdrawal _ _)
  | .sent (_, .issueMoney _) => true
  | _ => false

def asking (account : List Char) (amount : UInt32) : List Event :=
  [.took (.withdrawPressed amount), .sent (ATM.bank, .withdraw account amount ATM.sender)]

/-- What can have happened to the amount. -/
inductive Deal : List Event → Prop
  | none : Deal []
  | asked (account : List Char) (amount : UInt32) : Deal (asking account amount)
  | issued (account : List Char) (amount : UInt32) :
      Deal (asking account amount ++ [.sent (ATM.interface, .issueMoney amount)])
  | cancelled (account : List Char) (amount : UInt32) :
      Deal (asking account amount ++ [.sent (ATM.bank, .cancelWithdrawal account amount)])

theorem Deal.regular {e : List Event} (h : Deal e) : Regular e := by
  cases h with
  | none => exact ⟨by simp, Nat.zero_le 1, Nat.zero_le 1, by simp⟩
  | asked account amount => exact ⟨by simp [asking], Nat.le_refl 1, Nat.le_refl 1, by simp [asking]⟩
  | issued account amount =>
    exact ⟨by simp [asking], Nat.le_refl 1, Nat.le_refl 1, by simp [asking]⟩
  | cancelled account amount =>
    exact ⟨by simp [asking], Nat.le_refl 1, Nat.le_refl 1, by simp [asking]⟩

theorem countP_money {p : Event → Bool} (hp : ∀ x, p x = true → x.isMoney = true) (e : List Event) :
    (e.filter Event.isMoney).countP p = e.countP p := by
  rw [List.countP_filter]
  refine List.countP_congr fun x _ => ?_
  rw [Bool.and_eq_true]
  exact ⟨fun h => h.1, fun h => ⟨h, hp x h⟩⟩

theorem isPress_money (x : Event) (h : x.isPress = true) : x.isMoney = true := by
  unfold Event.isPress at h
  split at h
  · rfl
  · cases h

theorem isWithdraw_money (x : Event) (h : x.isWithdraw = true) : x.isMoney = true := by
  unfold Event.isWithdraw at h
  split at h
  · rfl
  · cases h

/-- Only the events with an amount matter. -/
theorem Regular.of_money {e : List Event} (h : Regular (e.filter Event.isMoney)) : Regular e where
  issued := fun amount hx =>
    (List.mem_filter.mp (h.issued amount (List.mem_filter.mpr ⟨hx, rfl⟩))).1
  presses := countP_money isPress_money e ▸ h.presses
  withdraws := countP_money isWithdraw_money e ▸ h.withdraws
  cancels := fun account amount hx =>
    (List.mem_filter.mp (h.cancels account amount (List.mem_filter.mpr ⟨hx, rfl⟩))).1

/-- What is shown from the right PIN to the next menu. -/
def menus (incorrect : Nat) (amounts : List UInt32) : List Msg :=
  opening incorrect ++ [.displayPinCorrectMessage] ++
    amounts.flatMap fun amount => [.displayWithdrawalOptions, .displayBalance amount]

/-- What the interface has been shown in the current session, for each state
of the ATM. -/
def Displays (a : ATM) (d : List Msg) : Prop :=
  match a.state with
  | .waitForCard => d = if a.waiting then [.displayEnterCard] else []
  | .gettingPin | .verifyingPin => ∃ n, d = opening n
  | .waitForAction =>
    ∃ n amounts, d = menus n amounts ++ if a.waiting then [.displayWithdrawalOptions] else []
  | .processingWithdrawal | .processBalance =>
    ∃ n amounts, d = menus n amounts ++ [.displayWithdrawalOptions]
  | .doneProcessing => ∃ w : Shape, d ++ [.ejectCard] = w.word

/-- What has happened to the amount in the current session. -/
def Dealt (a : ATM) (e : List Event) : Prop :=
  match a.state with
  | .processingWithdrawal => e = asking a.account a.withdrawalAmount
  | .doneProcessing => Deal e
  | _ => e = []

structure Stage (a : ATM) (e : List Event) : Prop where
  displays : Displays a (shown e)
  dealt : Dealt a (e.filter Event.isMoney)

/-- The menu of a session is shown before each balance, or after it. -/
theorem menus_concat (n : Nat) (amounts : List UInt32) :
    menus n amounts ++ [.displayWithdrawalOptions] =
    opening n ++ ([.displayPinCorrectMessage, .displayWithdrawalOptions] ++ balances amounts) := by
  have hrotate : ∀ xs : List UInt32,
      (xs.flatMap fun amount => [Msg.displayWithdrawalOptions, .displayBalance amount]) ++
        [.displayWithdrawalOptions] =
        .displayWithdrawalOptions :: balances xs := by
    intro xs
    induction xs with
    | nil => rfl
    | cons x xs ih => simp [balances] at ih ⊢; exact ih
  rw [menus, List.append_assoc, hrotate, List.append_assoc]
  rfl

theorem word_opening (n : Nat) : opening n ++ [.ejectCard] = (Shape.mk n none).word := by
  simp [Shape.word]

theorem word_menus (n : Nat) (amounts : List UInt32) (ending : Option Ending) :
    menus n amounts ++ [.displayWithdrawalOptions] ++ (ending.map Ending.msg).toList ++
      [.ejectCard] =
      (Shape.mk n (some (amounts, ending))).word := by
  rw [menus_concat]
  simp [Shape.word]

/-- A session that has not ended can still be ended by a cancellation. -/
theorem Displays.begins {a : ATM} {d : List Msg} (h : Displays a d) :
    ∃ w : Shape, d <+: w.word := by
  have hopening : ∀ n, opening n <+: (Shape.mk n none).word := fun n => ⟨_, word_opening n⟩
  have hmenus : ∀ n amounts, menus n amounts ++ [.displayWithdrawalOptions] <+:
    (Shape.mk n (some (amounts, none))).word :=
    fun n amounts => ⟨[.ejectCard], by rw [← word_menus]; simp⟩
  unfold Displays at h
  split at h
  · refine ⟨⟨0, none⟩, ?_⟩
    rw [h]
    split
    · exact ⟨_, rfl⟩
    · exact List.nil_prefix
  · obtain ⟨n, rfl⟩ := h; exact ⟨_, hopening n⟩
  · obtain ⟨n, rfl⟩ := h; exact ⟨_, hopening n⟩
  · obtain ⟨n, amounts, rfl⟩ := h
    refine ⟨_, List.IsPrefix.trans ?_ (hmenus n amounts)⟩
    split
    · exact List.prefix_rfl
    · rw [List.append_nil]; exact List.prefix_append _ _
  · obtain ⟨n, amounts, rfl⟩ := h; exact ⟨_, hmenus n amounts⟩
  · obtain ⟨n, amounts, rfl⟩ := h; exact ⟨_, hmenus n amounts⟩
  · obtain ⟨w, hw⟩ := h; exact ⟨w, _, hw⟩

theorem Dealt.deal {a : ATM} {e : List Event} (h : Dealt a e) : Deal e := by
  unfold Dealt at h
  split at h
  · rw [h]; exact .asked _ _
  · exact h
  · rw [h]; exact .none

theorem Stage.regular {a : ATM} {e : List Event} (h : Stage a e) : Regular e :=
  .of_money h.dealt.deal.regular

/-! ## What one step does to it -/

theorem shown_append (e f : List Event) : shown (e ++ f) = shown e ++ shown f := by
  simp [shown]

theorem opening_succ (n : Nat) : opening n ++ [.displayPinIncorrectMessage] = opening (n + 1) := by
  simp [opening, List.replicate_succ']

theorem menus_succ (n : Nat) (amounts : List UInt32) (amount : UInt32) :
    menus n amounts ++ [.displayWithdrawalOptions] ++ [.displayBalance amount] =
      menus n (amounts ++ [amount]) := by
  simp [menus]

/-- A session ends without a menu in view, or with one and perhaps the end of a withdrawal. -/
theorem word_cancel {a : ATM} {d : List Msg} (h : Displays a d) (hw : a.waiting = true)
    (hs : a.state = .gettingPin ∨ a.state = .verifyingPin ∨ a.state = .waitForAction ∨
      a.state = .processBalance) :
    ∃ w : Shape, d ++ [.ejectCard] = w.word := by
  have hmenu : ∀ n amounts, ∃ w : Shape,
      menus n amounts ++ [.displayWithdrawalOptions] ++ [.ejectCard] = w.word :=
    fun n amounts => ⟨⟨n, some (amounts, none)⟩, by rw [← word_menus]; simp⟩
  rcases hs with hs | hs | hs | hs <;> simp only [Displays, hs, hw, if_true] at h
  · obtain ⟨n, rfl⟩ := h; exact ⟨_, word_opening n⟩
  · obtain ⟨n, rfl⟩ := h; exact ⟨_, word_opening n⟩
  · obtain ⟨n, amounts, rfl⟩ := h; exact hmenu n amounts
  · obtain ⟨n, amounts, rfl⟩ := h; exact hmenu n amounts

/-- In the states a cancellation leads from there is no withdrawal yet. -/
theorem dealt_nothing {a : ATM} {e : List Event} (h : Dealt a e)
    (hp : a.state ≠ .processingWithdrawal)
    (hd : a.state ≠ .doneProcessing) : e = [] := by
  unfold Dealt at h
  split at h
  · contradiction
  · contradiction
  · exact h

theorem Displays.take {a a' : ATM} {d : List Msg} (h : Displays a d) (hw : a.waiting = true)
    {msg : Msg}
    {posts : List Post} (ht : a.Takes msg a' posts) :
    Displays a' (d ++ shown (.took msg :: posts.map .sent)) := by
  cases ht with
  | card hs account =>
    simp only [Displays, hs, hw, if_true] at h
    exact ⟨0, by rw [h]; rfl⟩
  | digit hs digit hp =>
    simp only [Displays, hs] at h ⊢
    obtain ⟨n, rfl⟩ := h
    exact ⟨n, List.append_nil _⟩
  | lastDigit hs digit hp =>
    simp only [Displays, hs] at h
    obtain ⟨n, rfl⟩ := h
    exact ⟨n, List.append_nil _⟩
  | clear hs =>
    simp only [Displays, hs] at h ⊢
    obtain ⟨n, rfl⟩ := h
    exact ⟨n, List.append_nil _⟩
  | cancel hs =>
    obtain ⟨w, hword⟩ := word_cancel h hw hs
    exact ⟨w, by rw [← hword]; simp [shown]⟩
  | verified hs =>
    simp only [Displays, hs] at h
    obtain ⟨n, rfl⟩ := h
    exact ⟨n, [], by simp [menus, shown, ATM.interface]⟩
  | incorrect hs =>
    simp only [Displays, hs] at h
    obtain ⟨n, rfl⟩ := h
    exact ⟨n + 1, opening_succ n⟩
  | withdraw hs amount =>
    simp only [Displays, hs, hw, if_true] at h
    obtain ⟨n, amounts, rfl⟩ := h
    exact ⟨n, amounts, List.append_nil _⟩
  | getBalance hs =>
    simp only [Displays, hs, hw, if_true] at h
    obtain ⟨n, amounts, rfl⟩ := h
    exact ⟨n, amounts, List.append_nil _⟩
  | ok hs =>
    simp only [Displays, hs] at h
    obtain ⟨n, amounts, rfl⟩ := h
    exact ⟨_, word_menus n amounts (some (.issued a.withdrawalAmount))⟩
  | denied hs =>
    simp only [Displays, hs] at h
    obtain ⟨n, amounts, rfl⟩ := h
    exact ⟨_, word_menus n amounts (some .insufficient)⟩
  | cancelWithdrawal hs =>
    simp only [Displays, hs] at h
    obtain ⟨n, amounts, rfl⟩ := h
    exact ⟨_, word_menus n amounts (some .cancelled)⟩
  | balance hs amount =>
    simp only [Displays, hs] at h
    obtain ⟨n, amounts, rfl⟩ := h
    exact ⟨n, amounts ++ [amount], by rw [← menus_succ]; simp [shown, ATM.interface]⟩

theorem Dealt.take {a a' : ATM} {e : List Event} (h : Dealt a e) {msg : Msg} {posts : List Post}
    (ht : a.Takes msg a' posts) :
    Dealt a' (e ++ (Event.took msg :: posts.map .sent).filter Event.isMoney) := by
  cases ht with
  | card hs account => rw [dealt_nothing h (by simp [hs]) (by simp [hs])]; rfl
  | digit hs digit hp =>
    rw [dealt_nothing h (by simp [hs]) (by simp [hs])]
    simp [Dealt, hs, Event.isMoney]
  | lastDigit hs digit hp => rw [dealt_nothing h (by simp [hs]) (by simp [hs])]; rfl
  | clear hs => rw [dealt_nothing h (by simp [hs]) (by simp [hs])]; simp [Dealt, hs, Event.isMoney]
  | cancel hs =>
    rw [dealt_nothing h (by intro hc; simp [hc] at hs) (by intro hc; simp [hc] at hs)]
    exact .none
  | verified hs => rw [dealt_nothing h (by simp [hs]) (by simp [hs])]; rfl
  | incorrect hs => rw [dealt_nothing h (by simp [hs]) (by simp [hs])]; rfl
  | withdraw hs amount => rw [dealt_nothing h (by simp [hs]) (by simp [hs])]; rfl
  | getBalance hs => rw [dealt_nothing h (by simp [hs]) (by simp [hs])]; rfl
  | ok hs =>
    simp only [Dealt, hs] at h
    rw [h]; exact .issued a.account a.withdrawalAmount
  | denied hs =>
    simp only [Dealt, hs] at h
    rw [h]; exact .asked a.account a.withdrawalAmount
  | cancelWithdrawal hs =>
    simp only [Dealt, hs] at h
    rw [h]; exact .cancelled a.account a.withdrawalAmount
  | balance hs amount => rw [dealt_nothing h (by simp [hs]) (by simp [hs])]; rfl

/-- A message that is taken. -/
theorem Stage.take {a a' : ATM} {e : List Event} (h : Stage a e) (hw : a.waiting = true) {msg : Msg}
    {posts : List Post} (ht : a.Takes msg a' posts) :
    Stage a' (e ++ .took msg :: posts.map .sent) where
  displays := by rw [shown_append]; exact h.displays.take hw ht
  dealt := by rw [List.filter_append]; exact h.dealt.take ht

/-- A state function up to its wait. -/
theorem Stage.enter {a : ATM} {e : List Event} (h : Stage a e) (hw : a.waiting = false)
    (hs : a.state ≠ .doneProcessing) : Stage a.enter.1 (e ++ a.enter.2.map .sent) := by
  obtain ⟨hd, hm⟩ := h
  obtain ⟨state, hst⟩ : ∃ state, a.state = state := ⟨_, rfl⟩
  have hmoney : (a.enter.2.map Event.sent).filter Event.isMoney = [] := by
    cases state <;> simp [ATM.enter, hst, Event.isMoney]
  refine ⟨?_, ?_⟩
  · rw [shown_append]
    cases state with
    | waitForCard =>
      simp only [Displays, hst, hw, Bool.false_eq_true, if_false] at hd
      rw [hd, ATM.enter, hst]; rfl
    | waitForAction =>
      simp only [Displays, hst, hw, Bool.false_eq_true, if_false] at hd
      obtain ⟨n, amounts, hd⟩ := hd
      rw [hd, List.append_nil, ATM.enter, hst]
      exact ⟨n, amounts, rfl⟩
    | doneProcessing => exact absurd hst hs
    | _ =>
      simp only [Displays, hst] at hd
      simp only [ATM.enter, hst, Displays, List.map_nil, shown, List.filterMap_nil, List.append_nil]
      exact hd
  · rw [List.filter_append, hmoney, List.append_nil]
    cases state with
    | doneProcessing => exact absurd hst hs
    | _ =>
      simp only [Dealt, hst] at hm
      simp only [ATM.enter, hst, Dealt]
      exact hm

/-- A whole session. -/
structure Session (e : List Event) : Prop where
  word : ∃ w : Shape, shown e = w.word
  regular : Regular e

/-- `doneProcessing` completes the session. -/
theorem Stage.eject {a : ATM} {e : List Event} (h : Stage a e) (hs : a.state = .doneProcessing) :
    Session (e ++ [.sent (ATM.interface, .ejectCard)]) := by
  obtain ⟨hd, hm⟩ := h
  simp only [Displays, Dealt, hs] at hd hm
  obtain ⟨w, hw⟩ := hd
  refine ⟨⟨w, by rw [shown_append]; exact hw⟩, .of_money ?_⟩
  rw [List.filter_append]
  exact (List.append_nil (e.filter Event.isMoney)).symm ▸ hm.regular

/-! ## Whole runs -/

/-- The log is a list of whole sessions and the beginning of one more. -/
def Logged (w : AtmLog) : Prop :=
  ∃ (closed : List (List Event)) (current : List Event),
    w.log = closed.flatten ++ current ∧ (∀ e ∈ closed, Session e) ∧ Stage w.atm current

theorem ATM.Takes.waiting {a a' : ATM} {msg : Msg} {posts : List Post} (h : a.Takes msg a' posts) :
    a'.waiting = false := by
  cases h <;> rfl

theorem logged_inductive : atmAlone.Inductive Logged where
  init := by
    intro w hw
    subst hw
    exact ⟨[], [], rfl, by simp, ⟨rfl, rfl⟩⟩
  step := by
    intro w cue w' h hs
    obtain ⟨closed, current, hlog, hclosed, hstage⟩ := h
    have hs : w.step cue = some w' := hs
    cases cue with
    | enter =>
      simp only [AtmLog.step] at hs
      split at hs
      · cases hs
      · rename_i hc
        have hw : w.atm.waiting = false := by simp at hc; exact hc.2
        cases hs
        by_cases hst : w.atm.state = .doneProcessing
        · -- the session is whole, and the next one has not begun
          refine ⟨closed ++ [current ++ [.sent (ATM.interface, .ejectCard)]], [], ?_, ?_, ?_⟩
          · simp [hlog, ATM.enter, hst]
          · intro e he
            rcases List.mem_append.mp he with he | he
            · exact hclosed e he
            · rw [List.mem_singleton.mp he]; exact hstage.eject hst
          · constructor
            · simp [Displays, ATM.enter, hst, hw, shown]
            · simp [Dealt, ATM.enter, hst]
        · exact ⟨closed, _, by rw [hlog, List.append_assoc], hclosed, hstage.enter hw hst⟩
    | deliver msg =>
      simp only [AtmLog.step] at hs
      split at hs
      · cases hs
      · rename_i hc
        have hw : w.atm.waiting = true := by simp at hc; exact hc.2
        cases hs
        rcases w.atm.pop_spec msg with ht | ⟨-, hp⟩ | ⟨hp, -⟩
        · have htook : w.atm.took msg = [.took msg] := by rw [ATM.took, ht.waiting]; rfl
          exact ⟨closed, _, by rw [hlog, htook]; simp, hclosed, hstage.take hw ht⟩
        · have htook : w.atm.took msg = [] := by rw [ATM.took, hp]; simp [hw]
          refine ⟨closed, current, by rw [hlog, htook, hp]; simp, hclosed, ?_⟩
          rw [hp]; exact ⟨hstage.displays, hstage.dealt⟩
        · have htook : w.atm.took msg = [] := by rw [ATM.took, hp]; simp [hw]
          refine ⟨closed, current, by rw [hlog, htook, hp]; simp, hclosed, ?_⟩
          rw [hp]; exact hstage

theorem words_of_sessions : ∀ closed : List (List Event), (∀ e ∈ closed, Session e) →
    ∃ shapes : List Shape, shown closed.flatten = shapes.flatMap Shape.word
  | [], _ => ⟨[], rfl⟩
  | e :: closed, h => by
    obtain ⟨w, hw⟩ := (h e List.mem_cons_self).word
    obtain ⟨ws, hws⟩ := words_of_sessions closed fun e he => h e (List.mem_cons_of_mem _ he)
    exact ⟨w :: ws, by rw [List.flatten_cons, shown_append, hw, hws, List.flatMap_cons]⟩

/-- The interface is shown the words of whole sessions and the beginning of one more. -/
theorem Logged.words {w : AtmLog} (h : Logged w) :
    ∃ shapes : List Shape, shown w.log <+: shapes.flatMap Shape.word := by
  obtain ⟨closed, current, hlog, hclosed, hstage⟩ := h
  obtain ⟨shape, hshape⟩ := hstage.displays.begins
  obtain ⟨shapes, hshapes⟩ := words_of_sessions closed hclosed
  refine ⟨shapes ++ [shape], ?_⟩
  rw [hlog, shown_append, hshapes, List.flatMap_append]
  apply (List.prefix_append_right_inj _).mpr
  simpa using hshape

/-- **The interface protocol.** Whatever is delivered, the log is a list of
whole sessions and the beginning of one more, the interface is shown the
words of whole sessions and the beginning of one more, and what each session
does about money is regular. -/
theorem protocol (w : AtmLog) (h : atmAlone.Reachable w) :
    ∃ (closed : List (List Event)) (current : List Event), w.log = closed.flatten ++ current ∧
      (∀ e ∈ closed, ∃ shape : Shape, shown e = shape.word) ∧
      (∃ shape : Shape, shown current <+: shape.word) ∧
      (∃ shapes : List Shape, shown w.log <+: shapes.flatMap Shape.word) ∧
      ∀ e ∈ closed ++ [current], Regular e := by
  have hlogged := logged_inductive.reachable w h
  have hwords := hlogged.words
  obtain ⟨closed, current, hlog, hclosed, hstage⟩ := hlogged
  refine ⟨closed, current, hlog, fun e he => (hclosed e he).word, hstage.displays.begins, hwords,
    ?_⟩
  intro e he
  rcases List.mem_append.mp he with he | he
  · exact (hclosed e he).regular
  · rw [List.mem_singleton.mp he]; exact hstage.regular

/-- A `pin_verified` before the card, and another one before the PIN is asked for. -/
def strayCues : List Cue :=
  [.enter, .deliver .pinVerified, .deliver (.cardInserted "A".toList), .enter,
    .deliver .pinVerified] ++
    ("0000".toList.flatMap fun c => [.deliver (.digitPressed c), .enter]) ++
    [.deliver .pinVerified, .enter, .deliver (.withdrawPressed 50), .enter, .deliver .withdrawOk,
    .enter, .enter]

theorem protocol_stray : ∃ w, atmAlone.Reachable w ∧
    shown w.log = [.displayEnterCard, .displayEnterPin, .displayPinCorrectMessage,
      .displayWithdrawalOptions,
      .issueMoney 50, .ejectCard, .displayEnterCard] ∧
    ∃ shapes : List Shape, shown w.log <+: shapes.flatMap Shape.word := by
  have hrun : ∃ w, LTS.exec AtmLog.step ⟨.new, []⟩ strayCues = some w ∧
      shown w.log = [.displayEnterCard, .displayEnterPin, .displayPinCorrectMessage,
        .displayWithdrawalOptions,
        .issueMoney 50, .ejectCard, .displayEnterCard] := ⟨_, rfl, rfl⟩
  obtain ⟨w, he, hshown⟩ := hrun
  have hr : atmAlone.Reachable w := LTS.reachable_of_exec rfl he
  obtain ⟨_, _, _, _, _, hshapes, _⟩ := protocol w hr
  exact ⟨w, hr, hshown, hshapes⟩

/-! ## The ATM among the other machines -/

/-- What a handler of the ATM sends to the interface, and nothing else, is displayed. -/
theorem fromAtm_displays (posts : List Post) : ∀ s : System, (s.fromAtm posts).atm = s.atm ∧
    (s.fromAtm posts).displays = s.displays ++ shown (posts.map .sent) := by
  induction posts with
  | nil => intro s; exact ⟨rfl, (List.append_nil _).symm⟩
  | cons post posts ih =>
    intro s
    obtain ⟨q, msg⟩ := post
    simp only [System.fromAtm]
    generalize (if q = some QueueId.bank then s.serial + 1 else s.serial) = n
    obtain ⟨h1, h2⟩ := ih (({ s with serial := n }).send q ⟨msg, .atm ⟨s.session, n⟩⟩)
    rcases q with - | - | - | -
    · exact ⟨h1, h2⟩
    · exact ⟨h1, h2⟩
    · exact ⟨h1, h2⟩
    · exact ⟨h1, h2.trans (by simp [System.send, shown])⟩

/-- The log of an ATM and the displays of the system it is part of. -/
def Seen (s : System) (w : AtmLog) : Prop := w.atm = s.atm ∧ shown w.log = s.displays

theorem Seen.step {s s' : System} {w : AtmLog} (h : Seen s w) (hs : s.stepAtm = some s') :
    ∃ cue w', w.step cue = some w' ∧ Seen s' w' := by
  obtain ⟨a, log⟩ := w
  obtain ⟨rfl, hd⟩ := h
  obtain ⟨he, ⟨hw, rfl⟩ | ⟨l, rest, hw, -, rfl⟩⟩ := stepAtm_eq_some hs
  · obtain ⟨h1, h2⟩ := fromAtm_displays s.atm.enter.2 { s with atm := s.atm.enter.1 }
    refine ⟨.enter, ⟨_, _⟩, by simp only [AtmLog.step, he, hw]; rfl, h1.symm, ?_⟩
    rw [h2, shown_append, hd]
  · obtain ⟨h1, h2⟩ := fromAtm_displays (s.atm.pop l.msg).2 { s with
      atm := (s.atm.pop l.msg).1
      atmQueue := rest
      session := if s.atm.state = AtmState.waitForCard ∧
        (s.atm.pop l.msg).1.state = AtmState.gettingPin then
        s.session + 1 else s.session }
    have htook : shown (s.atm.took l.msg) = [] := by unfold ATM.took; split <;> rfl
    refine ⟨.deliver l.msg, ⟨_, _⟩, by simp only [AtmLog.step, he, hw]; rfl, h1.symm, ?_⟩
    rw [h2, shown_append, shown_append, htook, List.append_nil, hd]

theorem system_simulation : system.Simulation atmAlone fun s w => Sound s ∧ Seen s w where
  init := by
    intro s hs
    subst hs
    exact ⟨_, rfl, system_sound.init _ rfl, rfl, rfl⟩
  step := by
    intro s l s' w h hs
    obtain ⟨hsound, hseen⟩ := h
    have hsound' := system_sound.step s l s' hsound hs
    have hs : s.step l = some s' := hs
    by_cases hl : l = .atm
    · subst hl
      obtain ⟨cue, w', hw, hseen'⟩ := hseen.step hs
      exact ⟨[cue], w', LTS.run_step hw, hsound', hseen'⟩
    · obtain ⟨h1, h2⟩ := step_others hsound hs hl
      exact ⟨[], w, .nil w, hsound', hseen.1.trans h1.symm, hseen.2.trans h2.symm⟩

/-- The three machines together keep the interface protocol. -/
theorem system_displays {s : System} (h : system.Reachable s) :
    ∃ shapes : List Shape, s.displays <+: shapes.flatMap Shape.word := by
  obtain ⟨w, hw, -, -, hd⟩ := system_simulation.reachable h
  rw [← hd]
  exact (logged_inductive.reachable w hw).words

end Cxx.Atm
