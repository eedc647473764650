import Cxx.Atm.Dispatcher

/-!
# The messages of the ATM system

Model of include/atm/WithdrawMsg.hpp: one constructor for each struct, with
the struct's fields, and one for `messaging::CloseQueue`. A `Sender` is a
pointer to a queue, which may be null.
-/
namespace Cxx.Atm

inductive QueueId where
  | atm | bank | interface
  deriving DecidableEq, Repr

abbrev Sender := Option QueueId

inductive Msg where
  | withdraw (account : List Char) (amount : UInt32) (atmQueue : Sender)
  | withdrawOk
  | withdrawDenied
  | cancelWithdrawal (account : List Char) (amount : UInt32)
  | withdrawalProcessed (account : List Char) (amount : UInt32)
  | cardInserted (account : List Char)
  | digitPressed (digit : Char)
  | clearLastPressed
  | ejectCard
  | withdrawPressed (amount : UInt32)
  | cancelPressed
  | issueMoney (amount : UInt32)
  | verifyPin (account pin : List Char) (atmQueue : Sender)
  | pinVerified
  | pinIncorrect
  | displayEnterPin
  | displayEnterCard
  | displayInsufficientFunds
  | displayWithdrawalCancelled
  | displayPinIncorrectMessage
  | displayPinCorrectMessage
  | displayWithdrawalOptions
  | getBalance (account : List Char) (atmQueue : Sender)
  | balance (amount : UInt32)
  | displayBalance (amount : UInt32)
  | balancePressed
  | closeQueue
  deriving DecidableEq, Repr

def Msg.isClose : Msg → Bool
  | .closeQueue => true
  | _ => false

/-- A call of `send` on a sender. -/
abbrev Post := Sender × Msg

/-- What a wait of a machine with fields `S` can do with a message. -/
abbrev Chain (S : Type) := Dispatcher Msg (S × List Post)

/-- The three kinds of requests, and their replies. -/
inductive Kind where
  | pin | withdrawal | balance
  deriving DecidableEq, Repr

def Msg.requestKind : Msg → Option Kind
  | .verifyPin _ _ _ => some .pin
  | .withdraw _ _ _ => some .withdrawal
  | .getBalance _ _ => some .balance
  | _ => none

def Msg.replyKind : Msg → Option Kind
  | .pinVerified | .pinIncorrect => some .pin
  | .withdrawOk | .withdrawDenied => some .withdrawal
  | .balance _ => some .balance
  | _ => none

end Cxx.Atm
