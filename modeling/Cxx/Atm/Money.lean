import Cxx.Atm.Replies

/-!
# Where the money is

`drained` is the account as it will be when the bank has served what is in
its queue. It changes only when the ATM sends something, which is why the
balance can be accounted for at any time and not only when the queue is
empty.

* `conservation`: balance and issued money make up the initial 199, and a
  cancellation gives back what its withdrawal took, in every run that, in
  `processingWithdrawal`, takes `cancel_pressed` or `withdraw_ok` only for a
  withdrawal that the bank grants, and `withdraw_denied` only for one from
  which it takes nothing.
* `refund_unfounded`: a run that takes `cancel_pressed` for a withdrawal that
  is denied.
-/
namespace Cxx.Atm

def Msg.issued : Msg → Nat
  | .issueMoney amount => amount.toNat
  | _ => 0

/-- The sum of the amounts of all `issue_money`. -/
def issued : List Msg → Nat
  | [] => 0
  | msg :: displays => msg.issued + issued displays

theorem issued_append (d₁ d₂ : List Msg) : issued (d₁ ++ d₂) = issued d₁ + issued d₂ := by
  induction d₁ with
  | nil => exact (Nat.zero_add _).symm
  | cons msg d₁ ih => rw [List.cons_append, issued, issued, ih, Nat.add_assoc]

/-- The account when the bank has served a list of letters. -/
def Ledger.drain (g : Ledger) (q : List Letter) : Ledger := q.foldl (fun g l => g.serve l.msg) g

@[simp] theorem drain_cons (g : Ledger) (l : Letter) (q : List Letter) :
    g.drain (l :: q) = (g.serve l.msg).drain q := rfl

theorem drain_concat (g : Ledger) (q : List Letter) (l : Letter) :
    g.drain (q ++ [l]) = (g.drain q).serve l.msg := by
  simp [Ledger.drain]

def System.drained (s : System) : Ledger := s.ledger.drain s.bankQueue

/-- What the bank takes for the last withdrawal it has been sent. -/
def Ledger.taken (g : Ledger) : Nat := (g.lastServed.map Prod.snd).getD 0

/-! ## What the bank does to the account -/

theorem serve_verifyPin (g : Ledger) (account pin : List Char) (q : Sender) :
    g.serve (.verifyPin account pin q) = g := by
  simp [Ledger.serve, BankMachine.pop_eq]

theorem serve_getBalance (g : Ledger) (account : List Char) (q : Sender) :
    g.serve (.getBalance account q) = g := by
  simp [Ledger.serve, BankMachine.pop_eq]

theorem serve_cancelWithdrawal (g : Ledger) (account : List Char) (amount : UInt32) :
    (g.serve (.cancelWithdrawal account amount)).bank.balance = g.bank.balance + amount ∧
      (g.serve (.cancelWithdrawal account amount)).lastServed = g.lastServed := by
  simp [Ledger.serve, BankMachine.pop_eq]

/-- What is taken for a withdrawal is what the balance goes down by. -/
theorem serve_withdraw (g : Ledger) (account : List Char) (amount : UInt32) (q : Sender) :
    (g.serve (.withdraw account amount q)).bank.balance.toNat +
      (g.serve (.withdraw account amount q)).taken =
      g.bank.balance.toNat ∧
    (g.serve (.withdraw account amount q)).lastServed =
      some (amount, (g.serve (.withdraw account amount q)).taken) := by
  simp only [Ledger.serve, BankMachine.pop_eq, Ledger.taken, Option.map_some, Option.getD_some,
    and_true]
  split
  · rename_i ha
    have hle : amount.toNat ≤ g.bank.balance.toNat := ha
    have : (g.bank.balance - amount).toNat = g.bank.balance.toNat - amount.toNat :=
      UInt32.toNat_sub_of_le _ _ ha
    simp only [this]
    omega
  · simp

/-- Every cancellation in the queue will find that the last withdrawal served
took the amount that it gives back. -/
def Matched (g : Ledger) : List Letter → Prop
  | [] => True
  | l :: q => (∀ account amount, l.msg = .cancelWithdrawal account amount →
      g.lastServed = some (amount, amount.toNat)) ∧ Matched (g.serve l.msg) q

theorem matched_concat {g : Ledger} {q : List Letter} {l : Letter} (h : Matched g q)
    (hl : ∀ account amount, l.msg = .cancelWithdrawal account amount →
      (g.drain q).lastServed = some (amount, amount.toNat)) : Matched g (q ++ [l]) := by
  induction q generalizing g with
  | nil => exact ⟨hl, trivial⟩
  | cons x q ih => exact ⟨h.1, ih h.2 hl⟩

/-! ## The books of a run -/

/-- In `processingWithdrawal`, `cancel_pressed` and `withdraw_ok` are taken
only if the bank takes the amount of the withdrawal in progress, now or when
it gets to it, and `withdraw_denied` only if it takes nothing. -/
def System.Settles (s : System) : Prop :=
  match s.atmQueue.head?.map Letter.msg with
  | some .cancelPressed | some .withdrawOk => s.drained.taken = s.atm.withdrawalAmount.toNat
  | some .withdrawDenied => s.drained.taken = 0
  | _ => True

def SettledStep (s : System) (l : Label) (_ : System) : Prop :=
  l = .atm → s.atm.state = .processingWithdrawal → s.atm.waiting = true → s.Settles

/-- What the bank has or will have, the money issued, and what is taken for a
withdrawal that is still in progress. -/
def System.Balanced (s : System) : Prop :=
  s.drained.bank.balance.toNat + issued s.displays +
    (if s.atm.state = .processingWithdrawal then s.drained.taken else 0) = 199

theorem balanced_idle {s : System} (hs : s.atm.state ≠ .processingWithdrawal) :
    s.Balanced ↔ s.drained.bank.balance.toNat + issued s.displays = 199 := by
  rw [System.Balanced, if_neg hs, Nat.add_zero]

theorem balanced_pending {s : System} (hs : s.atm.state = .processingWithdrawal) :
    s.Balanced ↔ s.drained.bank.balance.toNat + issued s.displays + s.drained.taken = 199 := by
  rw [System.Balanced, if_pos hs]

/-- A withdrawal ends with the books balanced just when it settles. -/
theorem balanced_take {s : System} (hst : s.atm.state = .processingWithdrawal) (hb : s.Balanced)
    {l : Letter}
    {rest : List Letter} (hq : s.atmQueue = l :: rest) {a : ATM} {posts : List Post}
    (ht : s.atm.Takes l.msg a posts) (n : Nat) :
    (({ s with atm := a, atmQueue := rest, session := n }).fromAtm posts).Balanced ↔ s.Settles := by
  rw [balanced_pending hst] at hb
  rw [System.Settles, hq]
  obtain ⟨msg, origin⟩ := l
  cases ht with
  | ok hs =>
    rw [balanced_idle (by simp)]
    have hi : issued [.issueMoney s.atm.withdrawalAmount] = s.atm.withdrawalAmount.toNat := by
      simp [issued, Msg.issued]
    change s.drained.bank.balance.toNat +
      issued (s.displays ++ [.issueMoney s.atm.withdrawalAmount]) = 199 ↔
      s.drained.taken = s.atm.withdrawalAmount.toNat
    rw [issued_append, hi]; omega
  | denied hs =>
    rw [balanced_idle (by simp)]
    have hi : issued [.displayInsufficientFunds] = 0 := rfl
    change s.drained.bank.balance.toNat + issued (s.displays ++ [.displayInsufficientFunds]) = 199 ↔
      s.drained.taken = 0
    rw [issued_append, hi]; omega
  | cancelWithdrawal hs =>
    rw [balanced_idle (by simp), fromAtm_bank_interface]
    have hi : issued [.displayWithdrawalCancelled] = 0 := rfl
    have hserve := (serve_cancelWithdrawal s.drained s.atm.account s.atm.withdrawalAmount).1
    have hd : (s.ledger.drain (s.bankQueue ++
        [⟨.cancelWithdrawal s.atm.account s.atm.withdrawalAmount,
          .atm ⟨n, s.serial + 1⟩⟩])).bank.balance =
        s.drained.bank.balance + s.atm.withdrawalAmount := by rw [drain_concat]; exact hserve
    change (s.ledger.drain (s.bankQueue ++
        [⟨.cancelWithdrawal s.atm.account s.atm.withdrawalAmount,
          .atm ⟨n, s.serial + 1⟩⟩])).bank.balance.toNat +
      issued (s.displays ++ [.displayWithdrawalCancelled]) = 199 ↔
        s.drained.taken = s.atm.withdrawalAmount.toNat
    -- both amounts are below 2 ^ 32, so wrapping cannot hide a difference
    have hlt := s.atm.withdrawalAmount.toNat_lt
    rw [hd, UInt32.toNat_add, issued_append, hi]; omega
  | cancel hs => simp [hst] at hs
  | card hs | digit hs | lastDigit hs | clear hs | verified hs | incorrect hs | withdraw hs
  | getBalance hs | balance hs => rw [hst] at hs; cases hs

structure Conserved (s : System) : Prop where
  balanced : s.Balanced
  current : s.atm.state = .processingWithdrawal →
    s.drained.lastServed = some (s.atm.withdrawalAmount, s.drained.taken)
  matched : Matched s.ledger s.bankQueue

/-- The ATM does nothing to the money. -/
theorem Conserved.of_same {s t : System} (h : Conserved s) (ha : t.atm.state = s.atm.state)
    (hw : t.atm.withdrawalAmount = s.atm.withdrawalAmount) (hd : t.drained = s.drained)
    (hi : issued t.displays = issued s.displays) (hm : Matched t.ledger t.bankQueue) :
    Conserved t where
  balanced := by rw [System.Balanced, hd, hi, ha]; exact h.balanced
  current := by rw [ha, hd, hw]; exact h.current
  matched := hm

/-- No withdrawal is in progress any more. -/
theorem Conserved.of_balanced {t : System} (ht : t.atm.state ≠ .processingWithdrawal)
    (hb : t.Balanced)
    (hm : Matched t.ledger t.bankQueue) : Conserved t where
  balanced := hb
  current := fun hc => absurd hc ht
  matched := hm

/-- The ATM goes from one state without a withdrawal to another, and what it
sends to the bank, if anything, leaves the account alone. -/
theorem Conserved.of_idle {s t : System} (h : Conserved s)
    (hs : s.atm.state ≠ .processingWithdrawal)
    (ht : t.atm.state ≠ .processingWithdrawal) (hd : t.drained = s.drained)
    (hi : issued t.displays = issued s.displays) (hm : Matched t.ledger t.bankQueue) :
    Conserved t := by
  refine .of_balanced ht ?_ hm
  rw [balanced_idle ht, hd, hi, ← balanced_idle hs]
  exact h.balanced

theorem Conserved.bank {s s' : System} (hsound : Sound s) (h : Conserved s)
    (hs : s.stepBank = some s') :
    Conserved s' := by
  obtain ⟨l, rest, stamp, hq, -, -, -, hcases⟩ := step_bank hsound hs
  have hd : s.drained = (s.ledger.serve l.msg).drain rest := by rw [System.drained, hq, drain_cons]
  have hm := h.matched
  rw [hq] at hm
  rcases hcases with ⟨-, rfl⟩ | ⟨-, reply, -, rfl⟩
  · exact h.of_same rfl rfl hd.symm rfl hm.2
  · exact h.of_same rfl rfl hd.symm rfl hm.2

theorem issued_enter (a : ATM) : issued (a.enter.2.map Prod.snd) = 0 := by
  obtain ⟨state, h⟩ : ∃ state, a.state = state := ⟨_, rfl⟩
  cases state <;> simp [ATM.enter, h, issued, Msg.issued]

theorem enter_state (a : ATM) : a.enter.1.withdrawalAmount = a.withdrawalAmount ∧
    (a.enter.1.state = .processingWithdrawal ↔ a.state = .processingWithdrawal) := by
  obtain ⟨state, h⟩ : ∃ state, a.state = state := ⟨_, rfl⟩
  cases state <;> simp [ATM.enter, h]

theorem Conserved.enter {s : System} (h : Conserved s) :
    Conserved (({ s with atm := s.atm.enter.1 }).fromAtm s.atm.enter.2) := by
  obtain ⟨a, d, ds, he, rfl, rfl⟩ := enter_spec s
  obtain ⟨hw, hstate⟩ := enter_state s.atm
  rw [he]
  have hi := issued_enter s.atm
  refine ⟨?_, fun hc => ?_, h.matched⟩
  · have hb := h.balanced
    simp only [System.Balanced, issued_append, hi, hstate, Nat.add_zero] at hb ⊢
    exact hb
  · have := h.current (hstate.mp hc)
    simp only [hw]
    exact this

theorem Conserved.take {s : System} (h : Conserved s) {l : Letter} {rest : List Letter}
    (hq : s.atmQueue = l :: rest) (hset : s.atm.state = .processingWithdrawal → s.Settles) {a : ATM}
    {posts : List Post} (ht : s.atm.Takes l.msg a posts) (n : Nat) :
    Conserved (({ s with atm := a, atmQueue := rest, session := n }).fromAtm posts) := by
  by_cases hst : s.atm.state = .processingWithdrawal
  · have hb := (balanced_take hst h.balanced hq ht n).mpr (hset hst)
    have hcur := h.current hst
    have hset := hset hst
    rw [System.Settles, hq] at hset
    obtain ⟨msg, origin⟩ := l
    cases ht with
    | ok hs => exact .of_balanced (by simp) hb h.matched
    | denied hs => exact .of_balanced (by simp) hb h.matched
    | cancelWithdrawal hs =>
      have hset : s.drained.taken = s.atm.withdrawalAmount.toNat := hset
      rw [hset] at hcur
      exact .of_balanced (by simp) hb
        (matched_concat h.matched fun account amount hm => by cases hm; exact hcur)
    | cancel hs => simp [hst] at hs
    | card hs | digit hs | lastDigit hs | clear hs | verified hs | incorrect hs | withdraw hs
    | getBalance hs | balance hs => rw [hst] at hs; cases hs
  clear hset
  obtain ⟨msg, origin⟩ := l
  cases ht with
  | card hs account => exact h.of_idle hst (by simp) rfl (issued_append _ _) h.matched
  | digit hs d hp => exact h.of_idle hst hst rfl rfl h.matched
  | lastDigit hs d hp =>
    refine h.of_idle hst (by simp) ?_ rfl (matched_concat h.matched fun _ _ hm => by cases hm)
    exact (drain_concat _ _ _).trans (serve_verifyPin _ _ _ _)
  | clear hs => exact h.of_idle hst hst rfl rfl h.matched
  | cancel hs => exact h.of_idle hst (by simp) rfl rfl h.matched
  | verified hs => exact h.of_idle hst (by simp) rfl (issued_append _ _) h.matched
  | incorrect hs => exact h.of_idle hst (by simp) rfl (issued_append _ _) h.matched
  | withdraw hs amount =>
    -- what the bank takes moves from the balance to the withdrawal in progress
    obtain ⟨h1, h2⟩ := serve_withdraw s.drained s.atm.account amount ATM.sender
    have hb := (balanced_idle hst).mp h.balanced
    rw [fromAtm_bank]
    refine ⟨(balanced_pending (by rfl)).mpr ?_, fun _ => ?_,
      matched_concat h.matched fun _ _ hm => by cases hm⟩
    · simp only [System.drained, System.ledger, drain_concat] at h1 hb ⊢
      omega
    · simp only [System.drained, System.ledger, drain_concat]
      exact h2
  | getBalance hs =>
    refine h.of_idle hst (by simp) ?_ rfl (matched_concat h.matched fun _ _ hm => by cases hm)
    exact (drain_concat _ _ _).trans (serve_getBalance _ _ _)
  | ok hs | denied hs | cancelWithdrawal hs => exact absurd hs hst
  | balance hs amount => exact h.of_idle hst (by simp) rfl (issued_append _ _) h.matched

/-- The books are kept by every step of a run whose steps settle. -/
theorem conserved_inductive :
    (system.restrict SettledStep).Inductive fun s => Sound s ∧ Conserved s := by
  refine (system_sound.restrict SettledStep).assuming ?_ ?_
  · intro s hs
    subst hs
    exact ⟨rfl, fun hc => by simp [System.new, ATM.new] at hc, trivial⟩
  · intro s l s' hsound h hst
    obtain ⟨hs, hset⟩ := hst
    have hs : s.step l = some s' := hs
    cases l with
    | user msg =>
      obtain ⟨-, rfl⟩ := step_user hs
      exact h.of_same rfl rfl rfl rfl h.matched
    | atm =>
      cases hsound.atm_step hs with
      | enter hw => exact h.enter
      | discard hw hq hn => exact h.of_same rfl rfl rfl rfl h.matched
      | take hw hq ht => exact h.take hq (fun hst => hset rfl hst hw) ht _
    | bank => exact h.bank hsound hs
    | interface =>
      obtain ⟨i, rest, rfl⟩ := step_interface hs
      exact h.of_same rfl rfl rfl rfl h.matched

/-- A step that does not settle loses or makes money. -/
theorem unsettled_breaks {s s' : System} {l : Label} (hsound : Sound s) (h : s.Balanced)
    (hs : s.step l = some s') (hn : ¬ SettledStep s l s') : ¬ s'.Balanced := by
  simp only [SettledStep, Classical.not_imp] at hn
  obtain ⟨rfl, hst, hw, hset⟩ := hn
  cases hsound.atm_step hs with
  | enter hw' => rw [hw] at hw'; cases hw'
  | take hw hq ht => exact fun hb => hset ((balanced_take hst h hq ht _).mp hb)
  | @discard l rest hw hq hn =>
    -- the messages that could go wrong are not discarded
    exfalso
    rw [System.Settles, hq, List.head?_cons, Option.map_some] at hset
    obtain ⟨msg, origin⟩ := l
    cases msg with
    | withdrawOk => exact hn _ _ (.ok hst)
    | withdrawDenied => exact hn _ _ (.denied hst)
    | cancelPressed => exact hn _ _ (.cancelWithdrawal hst)
    | _ => exact hset trivial

/-- The runs whose steps settle are those that keep the books balanced. -/
theorem balanced_iff (ls : List Label) (s : System) :
    (system.restrict SettledStep).Run .new ls s ↔
    (system.restrict fun _ _ s' => s'.Balanced).Run .new ls s := by
  refine LTS.run_restrict_congr conserved_inductive
    (fun s l s' hi hs => ⟨fun hset => ?_, fun hb => ?_⟩)
    (conserved_inductive.init _ rfl)
  · exact (conserved_inductive.step s l s' hi ⟨hs, hset⟩).2.balanced
  · by_contra hn
    exact unsettled_breaks hi.1 hi.2.balanced hs hn hb

/-- **Conservation of money.** In a run whose steps settle, whenever the
bank's queue is empty and no withdrawal is in progress, the balance and the
money issued make up 199; and a cancellation that the bank is about to serve
gives back what the withdrawal served last took. -/
theorem conservation (ls : List Label) (s : System)
    (h : (system.restrict SettledStep).Run .new ls s) :
    (s.bankQueue = [] → s.atm.state ≠ .processingWithdrawal →
      s.bank.balance.toNat + issued s.displays = 199) ∧
    ∀ letter rest account amount, s.bankQueue = letter :: rest →
      letter.msg = .cancelWithdrawal account amount →
      s.lastServed = some (amount, amount.toNat) := by
  obtain ⟨-, hc⟩ := conserved_inductive.run h (conserved_inductive.init _ rfl)
  refine ⟨fun hq hst => ?_, fun letter rest account amount hq hm => ?_⟩
  · have hb := (balanced_idle hst).mp hc.balanced
    rw [System.drained, hq] at hb
    exact hb
  · have := hc.matched
    rw [hq] at this
    exact this.1 account amount hm

/-- The right PIN is entered and verified, and `amount` asked for. -/
def askFor (amount : UInt32) : List Label :=
  .atm :: insertCard "A" ++ keys "0000" ++
    [.bank, .atm, .atm, .user (.withdrawPressed amount), .atm, .atm]

instance (s : System) : Decidable s.Settles := by
  unfold System.Settles
  split <;> infer_instance

instance (s : System) (l : Label) (s' : System) : Decidable (SettledStep s l s') := by
  unfold SettledStep
  infer_instance

/-- 50 are granted and issued. -/
theorem conservation_granted :
    ∃ s, (system.restrict SettledStep).Run .new (askFor 50 ++ [.bank, .atm, .atm]) s ∧
    s.displays.getLast? = some .ejectCard ∧ s.bank.balance.toNat + issued s.displays = 199 := by
  have hrun : ∃ s, LTS.exec (fun s l => (System.step s l).filter fun s' =>
    decide (SettledStep s l s')) .new
      (askFor 50 ++ [.bank, .atm, .atm]) = some s ∧ s.displays.getLast? = some .ejectCard ∧
        s.bankQueue = [] ∧
      s.atm.state = .waitForCard := ⟨_, rfl, rfl, rfl, rfl⟩
  obtain ⟨s, he, hd, hq, hst⟩ := hrun
  have hr : (system.restrict SettledStep).Run .new _ s := LTS.run_restrict_of_exec he
  exact ⟨s, hr, hd, (conservation _ _ hr).1 hq (by rw [hst]; decide)⟩

/-- The bank denies 200 and then gives them back. -/
theorem refund_unfounded : ∃ s,
    system.Run .new (askFor 200 ++ [.user .cancelPressed, .atm, .bank, .bank, .atm]) s ∧
    s.bankQueue = [] ∧ s.atm.state = .waitForCard ∧ s.bank.balance = 399 ∧
    s.bank.balance.toNat + issued s.displays ≠ 199 := by
  have hrun : ∃ s, LTS.exec System.step .new
    (askFor 200 ++ [.user .cancelPressed, .atm, .bank, .bank, .atm]) = some s ∧
      s.bankQueue = [] ∧ s.atm.state = .waitForCard ∧ s.bank.balance = 399 :=
        ⟨_, rfl, rfl, rfl, rfl⟩
  obtain ⟨s, he, hq, hst, hb⟩ := hrun
  refine ⟨s, LTS.run_of_exec he, hq, hst, hb, ?_⟩
  rw [hb]
  exact fun h => absurd (Nat.le.intro h) (by decide)

end Cxx.Atm
