import Cxx.Atm.Message

/-!
# `ATM`, `BankMachine` and `InterfaceMachine`

Model of include/atm/ATM.hpp, BankMachine.hpp and InterfaceMachine.hpp. Each
`run` is a loop over waits; what a machine does with one popped message is
one function here, from its fields to its fields and the messages it sends.

The ATM calls `state_()` in a loop: `ATM.enter` is the part of a state
function before its wait, `ATM.chain` is the wait, and `waiting` says that
the machine is inside it. `doneProcessing` has no wait. Handlers that do not
set `state_` leave it, so the same state function is entered again.
-/
namespace Cxx.Atm

/-! ## ATM -/

inductive AtmState where
  | waitForCard | gettingPin | verifyingPin | waitForAction | processingWithdrawal | processBalance
  | doneProcessing
  deriving DecidableEq, Repr

structure ATM where
  withdrawalAmount : UInt32
  account : List Char
  pin : List Char
  state : AtmState
  waiting : Bool
  /-- `run` has returned. -/
  ended : Bool
  deriving DecidableEq, Repr

/-- At the start of `run`. `withdrawal_amount_` is written before it is read,
so its first content is immaterial.
mirrors include/atm/ATM.hpp:14-15 -/
def ATM.new : ATM where
  withdrawalAmount := 0
  account := []
  pin := []
  state := .waitForCard
  waiting := false
  ended := false

/-- `bank_`, `interface_` and `getSender()`. -/
def ATM.bank : Sender := some .bank
def ATM.interface : Sender := some .interface
def ATM.sender : Sender := some .atm

/-- mirrors include/atm/ATM.hpp:37-42 -/
def ATM.waitForCard (a : ATM) : Chain ATM :=
  .handle .wait fun
    | .cardInserted account =>
      some ({ a with account, pin := [], state := .gettingPin }, [(interface, .displayEnterPin)])
    | _ => none

/-- mirrors include/atm/ATM.hpp:45-58 -/
def ATM.gettingPin (a : ATM) : Chain ATM :=
  .handle (.handle (.handle .wait fun
    | .digitPressed digit =>
      let pin := a.pin ++ [digit]
      if pin.length = 4 then
        some ({ a with pin, state := .verifyingPin }, [(bank, .verifyPin a.account pin sender)])
      else some ({ a with pin }, [])
    | _ => none) fun
    | .clearLastPressed => some ({ a with pin := a.pin.dropLast }, [])
    | _ => none) fun
    | .cancelPressed => some ({ a with state := .doneProcessing }, [])
    | _ => none

/-- mirrors include/atm/ATM.hpp:61-72 -/
def ATM.verifyingPin (a : ATM) : Chain ATM :=
  .handle (.handle (.handle .wait fun
    | .pinVerified =>
      some ({ a with state := .waitForAction }, [(interface, .displayPinCorrectMessage)])
    | _ => none) fun
    | .pinIncorrect =>
      some ({ a with pin := [], state := .gettingPin }, [(interface, .displayPinIncorrectMessage)])
    | _ => none) fun
    | .cancelPressed => some ({ a with state := .doneProcessing }, [])
    | _ => none

/-- mirrors include/atm/ATM.hpp:76-87 -/
def ATM.waitForAction (a : ATM) : Chain ATM :=
  .handle (.handle (.handle .wait fun
    | .withdrawPressed amount =>
      some ({ a with withdrawalAmount := amount, state := .processingWithdrawal },
        [(bank, .withdraw a.account amount sender)])
    | _ => none) fun
    | .balancePressed =>
      some ({ a with state := .processBalance }, [(bank, .getBalance a.account sender)])
    | _ => none) fun
    | .cancelPressed => some ({ a with state := .doneProcessing }, [])
    | _ => none

/-- mirrors include/atm/ATM.hpp:90-102 -/
def ATM.processingWithdrawal (a : ATM) : Chain ATM :=
  .handle (.handle (.handle .wait fun
    | .withdrawOk =>
      some ({ a with state := .doneProcessing }, [(interface, .issueMoney a.withdrawalAmount)])
    | _ => none) fun
    | .withdrawDenied =>
      some ({ a with state := .doneProcessing }, [(interface, .displayInsufficientFunds)])
    | _ => none) fun
    | .cancelPressed =>
      some ({ a with state := .doneProcessing },
        [(bank, .cancelWithdrawal a.account a.withdrawalAmount),
          (interface, .displayWithdrawalCancelled)])
    | _ => none

/-- mirrors include/atm/ATM.hpp:105-111 -/
def ATM.processBalance (a : ATM) : Chain ATM :=
  .handle (.handle .wait fun
    | .balance amount =>
      some ({ a with state := .waitForAction }, [(interface, .displayBalance amount)])
    | _ => none) fun
    | .cancelPressed => some ({ a with state := .doneProcessing }, [])
    | _ => none

/-- The call of `state_()` up to its wait.
mirrors include/atm/ATM.hpp:35-36, 74-75, 113-116 -/
def ATM.enter (a : ATM) : ATM × List Post :=
  match a.state with
  | .waitForCard => ({ a with waiting := true }, [(interface, .displayEnterCard)])
  | .waitForAction => ({ a with waiting := true }, [(interface, .displayWithdrawalOptions)])
  | .doneProcessing => ({ a with state := .waitForCard }, [(interface, .ejectCard)])
  | _ => ({ a with waiting := true }, [])

/-- What becomes of the ATM itself: it waits, or goes on to the next customer. -/
theorem ATM.enter_cases (a : ATM) : a.enter.1 = { a with waiting := true } ∨
    a.state = .doneProcessing ∧ a.enter.1 = { a with state := .waitForCard } := by
  unfold ATM.enter
  split
  · exact .inl rfl
  · exact .inl rfl
  · exact .inr ⟨‹_›, rfl⟩
  · exact .inl rfl

def ATM.chain (a : ATM) : Chain ATM :=
  match a.state with
  | .waitForCard => a.waitForCard
  | .gettingPin => a.gettingPin
  | .verifyingPin => a.verifyingPin
  | .waitForAction => a.waitForAction
  | .processingWithdrawal => a.processingWithdrawal
  | .processBalance => a.processBalance
  | .doneProcessing => .wait

/-- A message popped by the wait. `CloseQueue` ends `run`.
mirrors include/atm/ATM.hpp:16-21, include/atm/Dispatcher.hpp:39-45 -/
def ATM.pop (a : ATM) (msg : Msg) : ATM × List Post :=
  match a.chain.dispatch Msg.isClose msg with
  | .handled (a', posts) => ({ a' with waiting := false }, posts)
  | .closed => ({ a with ended := true }, [])
  | .discarded => (a, [])

/-! What a popped message does in each state, the chain worked off. -/

theorem ATM.pop_waitForCard {a : ATM} (h : a.state = .waitForCard) (msg : Msg) : a.pop msg =
    match msg with
    | .cardInserted account =>
      ({ a with account, pin := [], state := .gettingPin, waiting := false },
        [(interface, .displayEnterPin)])
    | .closeQueue => ({ a with ended := true }, [])
    | _ => (a, []) := by
  obtain ⟨w, account, pin, state, waiting, ended⟩ := a
  subst h
  cases msg <;> rfl

theorem ATM.pop_gettingPin {a : ATM} (h : a.state = .gettingPin) (msg : Msg) : a.pop msg =
    match msg with
    | .digitPressed digit =>
      if (a.pin ++ [digit]).length = 4 then
        ({ a with pin := a.pin ++ [digit], state := .verifyingPin, waiting := false },
          [(bank, .verifyPin a.account (a.pin ++ [digit]) sender)])
      else ({ a with pin := a.pin ++ [digit], waiting := false }, [])
    | .clearLastPressed => ({ a with pin := a.pin.dropLast, waiting := false }, [])
    | .cancelPressed => ({ a with state := .doneProcessing, waiting := false }, [])
    | .closeQueue => ({ a with ended := true }, [])
    | _ => (a, []) := by
  obtain ⟨w, account, pin, state, waiting, ended⟩ := a
  subst h
  cases msg with
  | digitPressed digit =>
    by_cases hp : (pin ++ [digit]).length = 4
    · simp only [pop, chain, gettingPin, Dispatcher.dispatch, if_pos hp]
    · simp only [pop, chain, gettingPin, Dispatcher.dispatch, if_neg hp]
  | _ => rfl

theorem ATM.pop_verifyingPin {a : ATM} (h : a.state = .verifyingPin) (msg : Msg) : a.pop msg =
    match msg with
    | .pinVerified =>
      ({ a with state := .waitForAction, waiting := false },
        [(interface, .displayPinCorrectMessage)])
    | .pinIncorrect =>
      ({ a with pin := [], state := .gettingPin, waiting := false },
        [(interface, .displayPinIncorrectMessage)])
    | .cancelPressed => ({ a with state := .doneProcessing, waiting := false }, [])
    | .closeQueue => ({ a with ended := true }, [])
    | _ => (a, []) := by
  obtain ⟨w, account, pin, state, waiting, ended⟩ := a
  subst h
  cases msg <;> rfl

theorem ATM.pop_waitForAction {a : ATM} (h : a.state = .waitForAction) (msg : Msg) : a.pop msg =
    match msg with
    | .withdrawPressed amount =>
      ({ a with withdrawalAmount := amount, state := .processingWithdrawal, waiting := false },
        [(bank, .withdraw a.account amount sender)])
    | .balancePressed =>
      ({ a with state := .processBalance, waiting := false },
        [(bank, .getBalance a.account sender)])
    | .cancelPressed => ({ a with state := .doneProcessing, waiting := false }, [])
    | .closeQueue => ({ a with ended := true }, [])
    | _ => (a, []) := by
  obtain ⟨w, account, pin, state, waiting, ended⟩ := a
  subst h
  cases msg <;> rfl

theorem ATM.pop_processingWithdrawal {a : ATM} (h : a.state = .processingWithdrawal) (msg : Msg) :
    a.pop msg =
    match msg with
    | .withdrawOk =>
      ({ a with state := .doneProcessing, waiting := false },
        [(interface, .issueMoney a.withdrawalAmount)])
    | .withdrawDenied =>
      ({ a with state := .doneProcessing, waiting := false },
        [(interface, .displayInsufficientFunds)])
    | .cancelPressed =>
      ({ a with state := .doneProcessing, waiting := false },
        [(bank, .cancelWithdrawal a.account a.withdrawalAmount),
          (interface, .displayWithdrawalCancelled)])
    | .closeQueue => ({ a with ended := true }, [])
    | _ => (a, []) := by
  obtain ⟨w, account, pin, state, waiting, ended⟩ := a
  subst h
  cases msg <;> rfl

theorem ATM.pop_processBalance {a : ATM} (h : a.state = .processBalance) (msg : Msg) : a.pop msg =
    match msg with
    | .balance amount =>
      ({ a with state := .waitForAction, waiting := false }, [(interface, .displayBalance amount)])
    | .cancelPressed => ({ a with state := .doneProcessing, waiting := false }, [])
    | .closeQueue => ({ a with ended := true }, [])
    | _ => (a, []) := by
  obtain ⟨w, account, pin, state, waiting, ended⟩ := a
  subst h
  cases msg <;> rfl

theorem ATM.pop_doneProcessing {a : ATM} (h : a.state = .doneProcessing) (msg : Msg) : a.pop msg =
    match msg with
    | .closeQueue => ({ a with ended := true }, [])
    | _ => (a, []) := by
  obtain ⟨w, account, pin, state, waiting, ended⟩ := a
  subst h
  cases msg <;> rfl

/-- The kind of reply a state waits for. -/
def AtmState.awaits : AtmState → Option Kind
  | .verifyingPin => some .pin
  | .processingWithdrawal => some .withdrawal
  | .processBalance => some .balance
  | _ => none

/-- The messages a state takes, and what they do: everything the waits of the
ATM can do with a message other than discard it or end. -/
inductive ATM.Takes (a : ATM) : Msg → ATM → List Post → Prop
  | card (h : a.state = .waitForCard) (account : List Char) :
      Takes a (.cardInserted account)
        { a with account, pin := [], state := .gettingPin, waiting := false }
        [(interface, .displayEnterPin)]
  | digit (h : a.state = .gettingPin) (digit : Char) (hp : (a.pin ++ [digit]).length ≠ 4) :
      Takes a (.digitPressed digit) { a with pin := a.pin ++ [digit], waiting := false } []
  | lastDigit (h : a.state = .gettingPin) (digit : Char) (hp : (a.pin ++ [digit]).length = 4) :
      Takes a (.digitPressed digit)
        { a with pin := a.pin ++ [digit], state := .verifyingPin, waiting := false }
        [(bank, .verifyPin a.account (a.pin ++ [digit]) sender)]
  | clear (h : a.state = .gettingPin) :
      Takes a .clearLastPressed { a with pin := a.pin.dropLast, waiting := false } []
  | cancel (h : a.state = .gettingPin ∨ a.state = .verifyingPin ∨ a.state = .waitForAction ∨
      a.state = .processBalance) :
      Takes a .cancelPressed { a with state := .doneProcessing, waiting := false } []
  | verified (h : a.state = .verifyingPin) :
      Takes a .pinVerified { a with state := .waitForAction, waiting := false }
        [(interface, .displayPinCorrectMessage)]
  | incorrect (h : a.state = .verifyingPin) :
      Takes a .pinIncorrect { a with pin := [], state := .gettingPin, waiting := false }
        [(interface, .displayPinIncorrectMessage)]
  | withdraw (h : a.state = .waitForAction) (amount : UInt32) :
      Takes a (.withdrawPressed amount)
        { a with withdrawalAmount := amount, state := .processingWithdrawal, waiting := false }
        [(bank, .withdraw a.account amount sender)]
  | getBalance (h : a.state = .waitForAction) :
      Takes a .balancePressed { a with state := .processBalance, waiting := false }
        [(bank, .getBalance a.account sender)]
  | ok (h : a.state = .processingWithdrawal) :
      Takes a .withdrawOk { a with state := .doneProcessing, waiting := false }
        [(interface, .issueMoney a.withdrawalAmount)]
  | denied (h : a.state = .processingWithdrawal) :
      Takes a .withdrawDenied { a with state := .doneProcessing, waiting := false }
        [(interface, .displayInsufficientFunds)]
  | cancelWithdrawal (h : a.state = .processingWithdrawal) :
      Takes a .cancelPressed { a with state := .doneProcessing, waiting := false }
        [(bank, .cancelWithdrawal a.account a.withdrawalAmount),
          (interface, .displayWithdrawalCancelled)]
  | balance (h : a.state = .processBalance) (amount : UInt32) :
      Takes a (.balance amount) { a with state := .waitForAction, waiting := false }
        [(interface, .displayBalance amount)]

/-- A state takes the replies it waits for. -/
theorem ATM.takes_awaited {a : ATM} {msg : Msg} {k : Kind} (hs : a.state.awaits = some k)
    (hm : msg.replyKind = some k) : ∃ a' posts, a.Takes msg a' posts := by
  obtain ⟨state, h⟩ : ∃ state, a.state = state := ⟨_, rfl⟩
  rw [h] at hs
  cases state with
  | verifyingPin =>
    cases hs
    cases msg with
    | pinVerified => exact ⟨_, _, .verified h⟩
    | pinIncorrect => exact ⟨_, _, .incorrect h⟩
    | _ => simp [Msg.replyKind] at hm
  | processingWithdrawal =>
    cases hs
    cases msg with
    | withdrawOk => exact ⟨_, _, .ok h⟩
    | withdrawDenied => exact ⟨_, _, .denied h⟩
    | _ => simp [Msg.replyKind] at hm
  | processBalance =>
    cases hs
    cases msg with
    | balance amount => exact ⟨_, _, .balance h amount⟩
    | _ => simp [Msg.replyKind] at hm
  | _ => cases hs

/-- **What a popped message can do.** It is taken; or it ends `run`; or it
is discarded, and then the state does not take it. -/
theorem ATM.pop_spec (a : ATM) (msg : Msg) :
    a.Takes msg (a.pop msg).1 (a.pop msg).2 ∨
    (msg = .closeQueue ∧ a.pop msg = ({ a with ended := true }, [])) ∨
    (a.pop msg = (a, []) ∧ msg ≠ .closeQueue ∧ ∀ a' posts, ¬ a.Takes msg a' posts) := by
  obtain ⟨state, h⟩ : ∃ state, a.state = state := ⟨_, rfl⟩
  cases state with
  | waitForCard =>
    rw [pop_waitForCard h]
    cases msg with
    | cardInserted account => exact .inl (.card h account)
    | closeQueue => exact .inr (.inl ⟨rfl, rfl⟩)
    | _ => exact .inr (.inr ⟨rfl, by simp, by intro a' posts ht; cases ht <;> simp_all⟩)
  | gettingPin =>
    rw [pop_gettingPin h]
    cases msg with
    | digitPressed digit =>
      by_cases hp : (a.pin ++ [digit]).length = 4
      · simp only [if_pos hp]; exact .inl (.lastDigit h digit hp)
      · simp only [if_neg hp]; exact .inl (.digit h digit hp)
    | clearLastPressed => exact .inl (.clear h)
    | cancelPressed => exact .inl (.cancel (.inl h))
    | closeQueue => exact .inr (.inl ⟨rfl, rfl⟩)
    | _ => exact .inr (.inr ⟨rfl, by simp, by intro a' posts ht; cases ht <;> simp_all⟩)
  | verifyingPin =>
    rw [pop_verifyingPin h]
    cases msg with
    | pinVerified => exact .inl (.verified h)
    | pinIncorrect => exact .inl (.incorrect h)
    | cancelPressed => exact .inl (.cancel (.inr (.inl h)))
    | closeQueue => exact .inr (.inl ⟨rfl, rfl⟩)
    | _ => exact .inr (.inr ⟨rfl, by simp, by intro a' posts ht; cases ht <;> simp_all⟩)
  | waitForAction =>
    rw [pop_waitForAction h]
    cases msg with
    | withdrawPressed amount => exact .inl (.withdraw h amount)
    | balancePressed => exact .inl (.getBalance h)
    | cancelPressed => exact .inl (.cancel (.inr (.inr (.inl h))))
    | closeQueue => exact .inr (.inl ⟨rfl, rfl⟩)
    | _ => exact .inr (.inr ⟨rfl, by simp, by intro a' posts ht; cases ht <;> simp_all⟩)
  | processingWithdrawal =>
    rw [pop_processingWithdrawal h]
    cases msg with
    | withdrawOk => exact .inl (.ok h)
    | withdrawDenied => exact .inl (.denied h)
    | cancelPressed => exact .inl (.cancelWithdrawal h)
    | closeQueue => exact .inr (.inl ⟨rfl, rfl⟩)
    | _ => exact .inr (.inr ⟨rfl, by simp, by intro a' posts ht; cases ht <;> simp_all⟩)
  | processBalance =>
    rw [pop_processBalance h]
    cases msg with
    | balance amount => exact .inl (.balance h amount)
    | cancelPressed => exact .inl (.cancel (.inr (.inr (.inr h))))
    | closeQueue => exact .inr (.inl ⟨rfl, rfl⟩)
    | _ => exact .inr (.inr ⟨rfl, by simp, by intro a' posts ht; cases ht <;> simp_all⟩)
  | doneProcessing =>
    rw [pop_doneProcessing h]
    cases msg with
    | closeQueue => exact .inr (.inl ⟨rfl, rfl⟩)
    | _ => exact .inr (.inr ⟨rfl, by simp, by intro a' posts ht; cases ht <;> simp_all⟩)

/-! ## BankMachine -/

structure BankMachine where
  balance : UInt32
  /-- `run` has been left by an exception. -/
  ended : Bool
  deriving DecidableEq, Repr

/-- mirrors include/atm/BankMachine.hpp:10 -/
def BankMachine.new : BankMachine := ⟨199, false⟩

/-- mirrors include/atm/BankMachine.hpp:14-38 -/
def BankMachine.chain (b : BankMachine) : Chain BankMachine :=
  .handle (.handle (.handle (.handle (.handle .wait fun
    | .verifyPin _ pin atmQueue =>
      if pin = "0000".toList then some (b, [(atmQueue, .pinVerified)])
      else some (b, [(atmQueue, .pinIncorrect)])
    | _ => none) fun
    | .withdraw _ amount atmQueue =>
      if amount ≤ b.balance then
        some ({ b with balance := b.balance - amount }, [(atmQueue, .withdrawOk)])
      else some (b, [(atmQueue, .withdrawDenied)])
    | _ => none) fun
    | .getBalance _ atmQueue => some (b, [(atmQueue, .balance b.balance)])
    | _ => none) fun
    | .withdrawalProcessed _ _ => some (b, [])
    | _ => none) fun
    | .cancelWithdrawal _ amount => some ({ b with balance := b.balance + amount }, [])
    | _ => none

/-- A message popped by `run`, which does not catch `CloseQueue`. -/
def BankMachine.pop (b : BankMachine) (msg : Msg) : BankMachine × List Post :=
  match b.chain.dispatch Msg.isClose msg with
  | .handled r => r
  | .closed => ({ b with ended := true }, [])
  | .discarded => (b, [])

theorem BankMachine.pop_eq (b : BankMachine) (msg : Msg) : b.pop msg =
    match msg with
    | .verifyPin _ pin q => (b, [(q, if pin = "0000".toList then .pinVerified else .pinIncorrect)])
    | .withdraw _ amount q =>
      if amount ≤ b.balance then ({ b with balance := b.balance - amount }, [(q, .withdrawOk)])
      else (b, [(q, .withdrawDenied)])
    | .getBalance _ q => (b, [(q, .balance b.balance)])
    | .cancelWithdrawal _ amount => ({ b with balance := b.balance + amount }, [])
    | .closeQueue => ({ b with ended := true }, [])
    | _ => (b, []) := by
  cases msg with
  | verifyPin account pin q =>
    by_cases hp : pin = "0000".toList
    · simp only [pop, chain, Dispatcher.dispatch, if_pos hp]
    · simp only [pop, chain, Dispatcher.dispatch, if_neg hp]
  | withdraw account amount q =>
    by_cases ha : amount ≤ b.balance
    · simp only [pop, chain, Dispatcher.dispatch, if_pos ha]
    · simp only [pop, chain, Dispatcher.dispatch, if_neg ha]
  | _ => rfl

/-! ## InterfaceMachine -/

structure InterfaceMachine where
  /-- The lines that it has written to `std::cout`. -/
  printed : List String
  /-- `run` has been left by an exception. -/
  ended : Bool
  deriving DecidableEq, Repr

def InterfaceMachine.new : InterfaceMachine := ⟨[], false⟩

def InterfaceMachine.print (i : InterfaceMachine) (lines : List String) :
    InterfaceMachine × List Post :=
  ({ i with printed := i.printed ++ lines }, [])

/-- mirrors include/atm/InterfaceMachine.hpp:12-58 -/
def InterfaceMachine.chain (i : InterfaceMachine) : Chain InterfaceMachine :=
  .handle (.handle (.handle (.handle (.handle (.handle (.handle (.handle (.handle (.handle .wait fun
    | .issueMoney amount => some (i.print ["Issuing " ++ toString amount])
    | _ => none) fun
    | .displayInsufficientFunds => some (i.print ["Insufficient funds"])
    | _ => none) fun
    | .displayEnterCard => some (i.print ["Please enter your card (I)"])
    | _ => none) fun
    | .displayEnterPin => some (i.print ["Please enter your PIN (0-9)"])
    | _ => none) fun
    | .displayBalance amount =>
      some (i.print ["The balance of your account is " ++ toString amount])
    | _ => none) fun
    | .displayWithdrawalOptions =>
      some (i.print ["Withdraw 50? (w)", "Display Balance? (b)", "Cancel? (c)"])
    | _ => none) fun
    | .displayWithdrawalCancelled => some (i.print ["Withdrawal cancelled"])
    | _ => none) fun
    | .displayPinIncorrectMessage => some (i.print ["PIN incorrect"])
    | _ => none) fun
    | .displayPinCorrectMessage => some (i.print ["PIN verified"])
    | _ => none) fun
    | .ejectCard => some (i.print ["Ejecting card"])
    | _ => none

/-- A message popped by `run`, which does not catch `CloseQueue`. -/
def InterfaceMachine.pop (i : InterfaceMachine) (msg : Msg) : InterfaceMachine × List Post :=
  match i.chain.dispatch Msg.isClose msg with
  | .handled r => r
  | .closed => ({ i with ended := true }, [])
  | .discarded => (i, [])

end Cxx.Atm
