import Cxx.Atm.Sessions
import Mathlib.Data.List.DropRight

/-!
# The entry of the PIN

`pin_` against the history of `atmAlone`. `typed` replays the keys that
`gettingPin` has taken since the digits were last entered anew, which is when
`waitForCard` accepts a card and when `verifyingPin` is told of a wrong PIN.

* `Entered`: `pin_` is what has been typed, and how long it is in each state.
* `pin_assembly`: each `verify_pin` has the account of the last card, and the
  four characters typed.
-/
namespace Cxx.Atm

/-! ## What the history says -/

def Event.card? : Event → Option (List Char)
  | .took (.cardInserted account) => some account
  | _ => none

/-- The account of the last card that has been accepted. -/
def lastCard (e : List Event) : Option (List Char) := (e.filterMap Event.card?).getLast?

def Event.isReset : Event → Bool
  | .took (.cardInserted _) | .took .pinIncorrect => true
  | _ => false

/-- The events since the last card or the last wrong PIN, whichever is later. -/
def sinceReset (e : List Event) : List Event := e.rtakeWhile fun x => !x.isReset

def press (pin : List Char) : Event → List Char
  | .took (.digitPressed digit) => pin ++ [digit]
  | .took .clearLastPressed => pin.dropLast
  | _ => pin

def typed (e : List Event) : List Char := (sinceReset e).foldl press []

/-- The state whose handler takes a message that bears on the PIN. -/
def Msg.takenIn : Msg → Option AtmState
  | .cardInserted _ => some .waitForCard
  | .digitPressed _ | .clearLastPressed => some .gettingPin
  | .pinIncorrect => some .verifyingPin
  | _ => none

/-- Each `verify_pin` has the account of the last card before it, and what has been typed. -/
def Assembled (e : List Event) : Prop :=
  ∀ pre post sender account pin q, e = pre ++ .sent (sender, .verifyPin account pin q) :: post →
    lastCard pre = some account ∧ pin.length = 4 ∧ pin = typed pre

def Event.verifies : Event → Bool
  | .sent (_, .verifyPin _ _ _) => true
  | _ => false

theorem typed_concat (e : List Event) (x : Event) :
    typed (e ++ [x]) = if x.isReset then [] else press (typed e) x := by
  unfold typed sinceReset
  by_cases hx : x.isReset = true
  · rw [if_pos hx, List.rtakeWhile_concat_neg _ _ _ (by rw [hx]; exact Bool.false_ne_true)]
    rfl
  · rw [if_neg hx, List.rtakeWhile_concat_pos _ _ _ (by rw [Bool.not_eq_true] at hx; rw [hx]; rfl),
      List.foldl_concat]

theorem lastCard_concat (e : List Event) (x : Event) :
    lastCard (e ++ [x]) = x.card?.or (lastCard e) := by
  unfold lastCard
  rw [List.filterMap_append, List.getLast?_append]
  cases hx : x.card? <;> simp [hx]

/-- Nothing that is sent changes what has been typed, or the last card. -/
theorem typed_sent (posts : List Post) (e : List Event) :
    typed (e ++ posts.map .sent) = typed e ∧ lastCard (e ++ posts.map .sent) = lastCard e := by
  induction posts generalizing e with
  | nil => rw [List.map_nil, List.append_nil]; exact ⟨rfl, rfl⟩
  | cons post posts ih =>
    rw [List.map_cons, List.append_cons]
    obtain ⟨htyped, hcard⟩ := ih (e ++ [.sent post])
    exact ⟨htyped.trans (typed_concat e _), hcard.trans (lastCard_concat e _)⟩

theorem Assembled.concat {e : List Event} {x : Event} (h : Assembled e)
    (hx : ∀ sender account pin q, x = .sent (sender, .verifyPin account pin q) →
      lastCard e = some account ∧ pin.length = 4 ∧ pin = typed e) : Assembled (e ++ [x]) := by
  intro pre post sender account pin q he
  rcases List.eq_nil_or_concat post with rfl | ⟨front, y, rfl⟩
  · obtain ⟨rfl, hlast⟩ := List.append_inj' he rfl
    exact hx sender account pin q (List.singleton_inj.mp hlast)
  · rw [List.concat_eq_append, ← List.cons_append, ← List.append_assoc] at he
    exact h pre front sender account pin q (List.append_inj' he rfl).1

theorem Assembled.took {e : List Event} (msg : Msg) (h : Assembled e) :
    Assembled (e ++ [.took msg]) := h.concat fun _ _ _ _ hx => nomatch hx

theorem Assembled.append {e : List Event} (es : List Event) (h : Assembled e)
    (hes : ∀ x ∈ es, x.verifies = false) : Assembled (e ++ es) := by
  induction es generalizing e with
  | nil => rw [List.append_nil]; exact h
  | cons x es ih =>
    rw [List.append_cons]
    apply ih _ fun y hy => hes y (List.mem_cons_of_mem x hy)
    apply h.concat
    intro sender account pin q hx
    have hno := hes x List.mem_cons_self
    rw [hx] at hno
    cases hno

/-! ## What one step does to it -/

/-- How long `pin_` is in a state. -/
def PinLength (pin : List Char) : AtmState → Prop
  | .gettingPin => pin.length < 4
  | .verifyingPin | .waitForAction | .processingWithdrawal | .processBalance => pin.length = 4
  | .waitForCard | .doneProcessing => True

structure Entered (a : ATM) (e : List Event) : Prop where
  pin : a.pin = typed e
  card : a.state ≠ .waitForCard → lastCard e = some a.account
  length : PinLength a.pin a.state
  assembled : Assembled e

theorem Entered.enter {a : ATM} {e : List Event} (h : Entered a e) :
    Entered a.enter.1 (e ++ a.enter.2.map .sent) := by
  obtain ⟨htyped, hcard⟩ := typed_sent a.enter.2 e
  have hquiet : ∀ x ∈ a.enter.2.map Event.sent, x.verifies = false := by
    intro x hx
    unfold ATM.enter at hx
    split at hx <;> simp at hx <;> subst hx <;> rfl
  rcases a.enter_cases with ha | ⟨-, ha⟩
  · refine ⟨?_, ?_, ?_, h.assembled.append _ hquiet⟩
    · rw [htyped, ha]; exact h.pin
    · rw [hcard, ha]; exact h.card
    · rw [ha]; exact h.length
  · refine ⟨?_, ?_, ?_, h.assembled.append _ hquiet⟩
    · rw [htyped, ha]; exact h.pin
    · rw [ha]; exact fun hno => absurd rfl hno
    · rw [ha]; trivial

/-- A message that is taken, where nothing that is sent is a `verify_pin`. -/
theorem Entered.took {a a' : ATM} {e : List Event} {msg : Msg} {posts : List Post}
    (h : Entered a e)
    (hpin : a'.pin = if (Event.took msg).isReset then [] else press a.pin (.took msg))
    (hcard : (Event.took msg).card?.or (lastCard e) = some a'.account)
    (hl : PinLength a'.pin a'.state) (hq : ∀ x ∈ posts, (Event.sent x).verifies = false) :
    Entered a' (e ++ .took msg :: posts.map .sent) := by
  rw [List.append_cons]
  obtain ⟨htyped, hlast⟩ := typed_sent posts (e ++ [.took msg])
  refine ⟨?_, fun _ => ?_, hl, ?_⟩
  · rw [htyped, typed_concat, ← h.pin, hpin]
  · rw [hlast, lastCard_concat, hcard]
  · apply Assembled.append _ (h.assembled.took _)
    intro x hx
    obtain ⟨post, hpost, rfl⟩ := List.mem_map.mp hx
    exact hq post hpost

/-- The fourth digit is taken, and what has been typed is sent. -/
theorem Entered.lastDigit {a a' : ATM} {e : List Event} {digit : Char} (h : Entered a e)
    (hs : a.state = .gettingPin) (hp : (a.pin ++ [digit]).length = 4)
    (hpin : a'.pin = a.pin ++ [digit]) (haccount : a'.account = a.account)
    (hs' : a'.state = .verifyingPin) :
    Entered a' (e ++ [.took (.digitPressed digit),
      .sent (ATM.bank, .verifyPin a.account (a.pin ++ [digit]) ATM.sender)]) := by
  have htyped : a.pin ++ [digit] = typed (e ++ [.took (.digitPressed digit)]) := by
    rw [typed_concat, ← h.pin]; rfl
  have hcard : lastCard (e ++ [.took (.digitPressed digit)]) = some a.account := by
    rw [lastCard_concat]
    exact h.card (by rw [hs]; nofun)
  rw [List.append_cons e]
  refine ⟨?_, fun _ => ?_, ?_, ?_⟩
  · rw [hpin]
    exact htyped.trans (typed_sent [_] _).1.symm
  · rw [haccount]
    exact (typed_sent [_] _).2.trans hcard
  · rw [hpin, hs']
    exact hp
  · apply (h.assembled.took _).concat
    intro sender account pin q hx
    cases hx
    exact ⟨hcard, hp, htyped⟩

theorem Entered.take {a a' : ATM} {e : List Event} {msg : Msg} {posts : List Post}
    (h : Entered a e) (ht : a.Takes msg a' posts) :
    Entered a' (e ++ .took msg :: posts.map .sent) := by
  have hl := h.length
  have hone : ∀ {post : Post}, (Event.sent post).verifies = false →
      ∀ x ∈ [post], (Event.sent x).verifies = false := fun hpost =>
    List.forall_mem_singleton.mpr hpost
  cases ht with
  | card hs account => exact h.took rfl rfl (Nat.zero_lt_succ 3) (hone rfl)
  | digit hs digit hp =>
    rw [hs] at hl
    refine h.took rfl (h.card (by rw [hs]; nofun)) ?_ nofun
    change PinLength (a.pin ++ [digit]) a.state
    rw [hs]
    rw [List.length_append, List.length_singleton] at hp
    have hl : a.pin.length < 4 := hl
    change (a.pin ++ [digit]).length < 4
    rw [List.length_append, List.length_singleton]
    omega
  | lastDigit hs digit hp => exact h.lastDigit hs hp rfl rfl rfl
  | clear hs =>
    rw [hs] at hl
    refine h.took rfl (h.card (by rw [hs]; nofun)) ?_ nofun
    change PinLength a.pin.dropLast a.state
    rw [hs]
    have hl : a.pin.length < 4 := hl
    change a.pin.dropLast.length < 4
    rw [List.length_dropLast]
    omega
  | cancel hs =>
    have hne : a.state ≠ .waitForCard := by
      rcases hs with hs | hs | hs | hs <;> rw [hs] <;> nofun
    exact h.took rfl (h.card hne) trivial nofun
  | incorrect hs =>
    exact h.took rfl (h.card (by rw [hs]; nofun)) (Nat.zero_lt_succ 3) (hone rfl)
  | verified hs | withdraw hs amount | getBalance hs | balance hs amount =>
    rw [hs] at hl
    exact h.took rfl (h.card (by rw [hs]; nofun)) hl (hone rfl)
  | ok hs | denied hs =>
    exact h.took rfl (h.card (by rw [hs]; nofun)) trivial (hone rfl)
  | cancelWithdrawal hs =>
    exact h.took rfl (h.card (by rw [hs]; nofun)) trivial
      (List.forall_mem_cons.mpr ⟨rfl, hone rfl⟩)

/-! ## Whole runs -/

theorem entered_inductive : atmAlone.Inductive fun w => Entered w.atm w.log where
  init := by
    intro w hw
    subst hw
    exact ⟨rfl, fun hno => absurd rfl hno, trivial, fun _ _ _ _ _ _ he => by simp at he⟩
  step := by
    intro w cue w' h hs
    have hs : w.step cue = some w' := hs
    cases cue with
    | enter =>
      obtain ⟨-, hs⟩ := Option.ite_none_left_eq_some.mp hs
      cases hs
      exact h.enter
    | deliver msg =>
      obtain ⟨hc, hs⟩ := Option.ite_none_left_eq_some.mp hs
      cases hs
      have hw : w.atm.waiting = true := by simp at hc; exact hc.2
      rcases w.atm.pop_spec msg with ht | ⟨-, hp⟩ | ⟨hp, -⟩
      · have htook : w.atm.took msg = [.took msg] := by rw [ATM.took, ht.waiting]; rfl
        rw [htook, List.append_assoc]
        exact h.take ht
      · have htook : w.atm.took msg = [] := by rw [ATM.took, hp]; simp [hw]
        rw [htook, hp, List.append_nil, List.map_nil, List.append_nil]
        exact ⟨h.pin, h.card, h.length, h.assembled⟩
      · have htook : w.atm.took msg = [] := by rw [ATM.took, hp]; simp [hw]
        rw [htook, hp, List.append_nil, List.map_nil, List.append_nil]
        exact h

/-- The messages that bear on the PIN are taken by one state each. -/
theorem ATM.Takes.takenIn {a a' : ATM} {msg : Msg} {posts : List Post} {state : AtmState}
    (h : a.Takes msg a' posts) (hm : msg.takenIn = some state) : a.state = state := by
  cases h with
  | card hs | digit hs | lastDigit hs | clear hs | incorrect hs => cases hm; exact hs
  | _ => cases hm

theorem took_in {a : ATM} {msg : Msg} {state : AtmState} (hw : a.waiting = true)
    (ht : .took msg ∈ a.took msg) (hm : msg.takenIn = some state) : a.state = state := by
  rcases a.pop_spec msg with htakes | ⟨-, hp⟩ | ⟨hp, -⟩
  · exact htakes.takenIn hm
  · rw [ATM.took, hp] at ht
    simp [hw] at ht
  · rw [ATM.took, hp] at ht
    simp [hw] at ht

/-- **The PIN that is sent is the one that was entered.** Whatever is delivered to the
ATM, each `verify_pin` has the account of the last card accepted, and the four
characters left by the keys that `gettingPin` has taken since that card or, if it is
later, the last wrong PIN. `pin_` is shorter than that in `gettingPin`, and complete
in the states after it. -/
theorem pin_assembly (w : AtmLog) (h : atmAlone.Reachable w) :
    (∀ pre post sender account pin q,
      w.log = pre ++ .sent (sender, .verifyPin account pin q) :: post →
        lastCard pre = some account ∧ pin.length = 4 ∧ pin = typed pre) ∧
    (∀ msg state, w.atm.waiting = true → .took msg ∈ w.atm.took msg →
      msg.takenIn = some state → w.atm.state = state) ∧
    (w.atm.state = .gettingPin → w.atm.pin.length < 4) ∧
    (w.atm.state = .verifyingPin ∨ w.atm.state = .waitForAction ∨
      w.atm.state = .processingWithdrawal ∨ w.atm.state = .processBalance →
        w.atm.pin.length = 4) := by
  have hentered := entered_inductive.reachable w h
  have hl := hentered.length
  refine ⟨hentered.assembled, fun _ _ hw ht hm => took_in hw ht hm, fun hs => ?_, fun hs => ?_⟩
  · rw [hs] at hl
    exact hl
  · rcases hs with hs | hs | hs | hs <;> rw [hs] at hl <;> exact hl

/-- A digit is taken back, keys are pressed in the wrong state, and the first PIN is wrong. -/
def entryCues : List Cue :=
  [.enter, .deliver (.digitPressed '9'), .deliver (.cardInserted "A".toList), .enter,
    .deliver (.digitPressed '7'), .enter, .deliver .clearLastPressed, .enter] ++
    ("1234".toList.flatMap fun c => [.deliver (.digitPressed c), .enter]) ++
    [.deliver (.digitPressed '8'), .deliver .pinIncorrect, .enter] ++
    ("0000".toList.flatMap fun c => [.deliver (.digitPressed c), .enter])

theorem pin_assembly_retried : ∃ w pre, atmAlone.Reachable w ∧
    w.log = pre ++ [.sent (ATM.bank, .verifyPin "A".toList "0000".toList ATM.sender)] ∧
      w.atm.state = .verifyingPin ∧ typed pre = "0000".toList ∧ w.atm.pin.length = 4 := by
  have hrun : ∃ w, LTS.exec AtmLog.step ⟨.new, []⟩ entryCues = some w ∧
      w.log = w.log.dropLast ++
        [.sent (ATM.bank, .verifyPin "A".toList "0000".toList ATM.sender)] ∧
      w.atm.state = .verifyingPin := ⟨_, rfl, rfl, rfl⟩
  obtain ⟨w, he, hlog, hs⟩ := hrun
  have hr : atmAlone.Reachable w := LTS.reachable_of_exec rfl he
  obtain ⟨hsent, -, -, hlength⟩ := pin_assembly w hr
  exact ⟨w, _, hr, hlog, hs, (hsent _ _ _ _ _ _ hlog).2.2.symm, hlength (.inl hs)⟩

end Cxx.Atm
