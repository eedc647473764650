import Cxx.Atm.Replies

/-!
# Which balance is shown

A `balance` says what was on the account when the bank served the request. Until
the ATM asks the bank for something else, that is what is on it.

* `Numbered`: the messages to the bank that have not been popped, or whose replies
  have not, are in the order of their numbers; and the reply to the last one has the
  account's balance.
* `balance_shown`: the runs in which every balance shown is the account's, and the
  answer to the session's own request, are exactly those that never take a `balance`
  with another balance reply or request behind it.
* `stale_balance_shown`: a run that does.
-/
namespace Cxx.Atm

/-! ## The reply to the last message -/

/-- The numbers of the messages to the bank, whose replies the ATM has not popped. -/
def System.numbers (s : System) : List Nat :=
  (s.atmQueue.filterMap Letter.answered).map (fun p => p.2.serial) ++
    s.bankQueue.map fun l => l.origin.stamp.serial

structure Numbered (s : System) : Prop where
  ordered : s.numbers.Pairwise (· < ·)
  bounded : ∀ n ∈ s.numbers, n ≤ s.serial
  latest : ∀ x ∈ s.atmQueue, ∀ request stamp before after,
    x.origin = .bank request stamp before after → stamp.serial = s.serial →
      after = s.bank.balance

section
variable {s s' : System} {l : Letter} {rest : List Letter}

theorem mem_numbers {x : Letter} {request : Msg} {stamp : Stamp} {before after : UInt32}
    (hx : x ∈ s.atmQueue) (ho : x.origin = .bank request stamp before after) :
    stamp.serial ∈ (s.atmQueue.filterMap Letter.answered).map fun p => p.2.serial := by
  refine List.mem_map.mpr ⟨(request, stamp), List.mem_filterMap.mpr ⟨x, hx, ?_⟩, rfl⟩
  rw [Letter.answered, ho]

theorem numbers_pop (hq : s.atmQueue = l :: rest) :
    ({ s with atmQueue := rest } : System).numbers.Sublist s.numbers := by
  refine List.Sublist.append_right (List.Sublist.map _ ?_) _
  rw [hq]
  exact (List.sublist_cons_self l rest).filterMap _

/-- The ATM pops a message. -/
theorem Numbered.pop (h : Numbered s) (hq : s.atmQueue = l :: rest) (a : ATM) (n : Nat)
    (i : List Letter) (d : List Msg) :
    Numbered { s with
      atm := a
      atmQueue := rest
      session := n
      interfaceQueue := i
      displays := d } where
  ordered := h.ordered.sublist (numbers_pop hq)
  bounded := fun n hn => h.bounded n ((numbers_pop hq).subset hn)
  latest := fun x hx => h.latest x (by rw [hq]; exact List.mem_cons_of_mem _ hx)

/-- The ATM pops a message and sends one to the bank. -/
theorem Numbered.send (h : Numbered s) (hq : s.atmQueue = l :: rest) (a : ATM) (m : Msg)
    (i : List Letter) (d : List Msg) :
    Numbered { s with
      atm := a
      atmQueue := rest
      bankQueue := s.bankQueue ++ [⟨m, .atm ⟨s.session, s.serial + 1⟩⟩]
      serial := s.serial + 1
      interfaceQueue := i
      displays := d } := by
  have hpop := h.pop hq a s.session i d
  have hnumbers : ∀ t : System, t.atmQueue = rest →
      t.bankQueue = s.bankQueue ++ [⟨m, .atm ⟨s.session, s.serial + 1⟩⟩] →
      t.numbers = ({ s with atmQueue := rest } : System).numbers ++ [s.serial + 1] := by
    intro t h1 h2
    simp [System.numbers, h1, h2, Origin.stamp]
  refine ⟨?_, fun n hn => ?_, fun x hx request stamp before after ho hlast => ?_⟩
  · rw [hnumbers _ rfl rfl, List.pairwise_append]
    refine ⟨hpop.ordered, List.pairwise_singleton _ _, fun n hn k hk => ?_⟩
    rw [List.mem_singleton.mp hk]
    exact Nat.lt_succ_of_le (hpop.bounded n hn)
  · rw [hnumbers _ rfl rfl] at hn
    rcases List.mem_append.mp hn with hn | hn
    · exact Nat.le_succ_of_le (hpop.bounded n hn)
    · exact Nat.le_of_eq (List.mem_singleton.mp hn)
  · -- no reply has the new number yet
    have hle := hpop.bounded _ (List.mem_append_left _ (mem_numbers hx ho))
    have hlast : stamp.serial = s.serial + 1 := hlast
    have hle : stamp.serial ≤ s.serial := hle
    omega

theorem Numbered.take (h : Numbered s) (hq : s.atmQueue = l :: rest) {a : ATM}
    {posts : List Post} (ht : s.atm.Takes l.msg a posts) :
    Numbered (({ s with
      atm := a
      atmQueue := rest
      session := if s.atm.state = AtmState.waitForCard ∧ a.state = AtmState.gettingPin then
        s.session + 1
        else s.session }).fromAtm posts) := by
  generalize l.msg = m at ht
  cases ht with
  | card hs account => rw [fromAtm_interface]; exact h.pop hq _ _ _ _
  | digit hs digit hp | clear hs | cancel hs => exact h.pop hq _ _ _ _
  | verified hs | incorrect hs | ok hs | denied hs | balance hs =>
    rw [fromAtm_interface]; exact h.pop hq _ _ _ _
  | lastDigit hs digit hp | withdraw hs amount | getBalance hs =>
    rw [if_neg (by simp [hs]), fromAtm_bank]
    exact h.send hq _ _ _ _
  | cancelWithdrawal hs =>
    rw [if_neg (by simp [hs]), fromAtm_bank_interface]
    exact h.send hq _ _ _ _

/-- While the bank has something to serve, no reply to the last message is there. -/
theorem Numbered.earlier (h : Numbered s) (hq : s.bankQueue = l :: rest) {x : Letter}
    {request : Msg} {stamp : Stamp} {before after : UInt32} (hx : x ∈ s.atmQueue)
    (ho : x.origin = .bank request stamp before after) : stamp.serial < s.serial := by
  have hl : l.origin.stamp.serial ∈ s.bankQueue.map fun l => l.origin.stamp.serial := by
    rw [hq]; exact List.mem_cons_self
  exact Nat.lt_of_lt_of_le ((List.pairwise_append.mp h.ordered).2.2 _ (mem_numbers hx ho) _ hl)
    (h.bounded _ (List.mem_append_right _ hl))

theorem Numbered.bank (h : Numbered s) (hsound : Sound s) (hs : s.stepBank = some s') :
    Numbered s' := by
  obtain ⟨l, rest, stamp, hq, ho, -, -, ⟨-, rfl⟩ | ⟨-, reply, -, rfl⟩⟩ := step_bank hsound hs
  · have hsub : ({ s with bankQueue := rest } : System).numbers.Sublist s.numbers := by
      refine List.Sublist.append_left (List.Sublist.map _ ?_) _
      rw [hq]
      exact List.sublist_cons_self l rest
    refine ⟨h.ordered.sublist hsub, fun n hn => h.bounded n (hsub.subset hn), ?_⟩
    intro x hx request st before after hxo hlast
    have := h.earlier hq hx hxo
    exact absurd hlast (Nat.ne_of_lt this)
  · have hnumbers : ∀ t : System, t.bankQueue = rest →
        t.atmQueue = s.atmQueue ++ [⟨reply, .bank l.msg stamp s.bank.balance
          (s.ledger.serve l.msg).bank.balance⟩] → t.numbers = s.numbers := by
      intro t h1 h2
      simp [System.numbers, h1, h2, hq, ho, Letter.answered, Origin.stamp,
        List.filterMap_append]
    refine ⟨?_, ?_, ?_⟩
    · rw [hnumbers _ rfl rfl]; exact h.ordered
    · rw [hnumbers _ rfl rfl]; exact h.bounded
    · intro x hx request st before after hxo hlast
      rcases List.mem_append.mp hx with hx | hx
      · exact absurd hlast (Nat.ne_of_lt (h.earlier hq hx hxo))
      · rw [List.mem_singleton] at hx
        subst hx
        cases hxo
        rfl

end

theorem numbered_inductive : system.Inductive fun s => Sound s ∧ Numbered s := by
  apply system_sound.assuming
  · intro s hs
    subst hs
    exact ⟨List.Pairwise.nil, by simp [System.numbers, System.new], by simp [System.new]⟩
  · intro s l s' hsound h hs
    have hs : s.step l = some s' := hs
    cases l with
    | user msg =>
      obtain ⟨-, rfl⟩ := step_user hs
      have hnumbers : (s.send ATM.sender ⟨msg, .user⟩).numbers = s.numbers := by
        simp [System.numbers, System.send, ATM.sender, Letter.answered, List.filterMap_append]
      refine ⟨hnumbers ▸ h.ordered, hnumbers ▸ h.bounded, ?_⟩
      intro x hx request stamp before after ho
      rcases List.mem_append.mp hx with hx | hx
      · exact h.latest x hx request stamp before after ho
      · rw [List.mem_singleton] at hx
        subst hx
        cases ho
    | atm =>
      cases hsound.atm_step hs with
      | enter hw =>
        obtain ⟨a, d, ds, he, -⟩ := enter_spec s
        rw [he]
        exact ⟨h.ordered, h.bounded, h.latest⟩
      | discard hw hq hn => exact h.pop hq s.atm s.session s.interfaceQueue s.displays
      | take hw hq ht => exact h.take hq ht
    | bank => exact h.bank hsound hs
    | interface =>
      obtain ⟨i, rest, rfl⟩ := step_interface hs
      exact ⟨h.ordered, h.bounded, h.latest⟩

/-! ## Showing the balance -/

/-- A step that shows a balance takes the bank's answer to the request that this session
sent last, and shows what is on the account. -/
def BalanceShown (s : System) (_ : Label) (s' : System) : Prop :=
  ∀ amount, s'.displays = s.displays ++ [.displayBalance amount] →
    amount = s.bank.balance ∧ ∃ letter rest, s.atmQueue = letter :: rest ∧
      letter.msg = .balance amount ∧
      letter.origin = .bank (.getBalance s.atm.account ATM.sender)
        ⟨s.session, s.serial⟩ amount amount

/-- When `balance` is taken, no other balance reply is in the ATM's queue and no
`get_balance` in the bank's. -/
def NoStaleBalance (s : System) (l : Label) (_ : System) : Prop :=
  l = .atm → s.atm.state = .processBalance → s.atm.waiting = true →
    s.atmQueue.head?.bind (fun x => x.msg.replyKind) = some .balance → NoneBehind s .balance

theorem balance_of_kind {m : Msg} (h : m.replyKind = some .balance) :
    ∃ amount, m = .balance amount := by
  cases m with
  | balance amount => exact ⟨amount, rfl⟩
  | _ => cases h

theorem answered_balance {account : List Char} {amount before after : UInt32}
    (h : Answers (.getBalance account ATM.sender) before (.balance amount) after) :
    before = amount ∧ after = amount := by
  rw [Answers, BankMachine.pop_eq] at h
  obtain ⟨hb, ha⟩ : before = after ∧ before = amount := by simpa using h
  exact ⟨ha, hb ▸ ha⟩

/-- Only one kind of step shows a balance. -/
theorem shows_only {s s' : System} {l : Label} (h : Sound s) (hs : s.step l = some s')
    {amount : UInt32} (hd : s'.displays = s.displays ++ [.displayBalance amount]) :
    l = .atm ∧ s.atm.state = .processBalance ∧ s.atm.waiting = true ∧
      ∃ letter rest, s.atmQueue = letter :: rest ∧ letter.msg = .balance amount := by
  have hsame : s'.displays ≠ s.displays := by rw [hd]; simp
  obtain rfl : l = .atm := by
    by_contra hl
    exact hsame (step_others h hs hl).2
  cases h.atm_step hs with
  | enter hw =>
    obtain ⟨b, i, ds, he, -, rfl⟩ := enter_spec s
    rw [he] at hd
    have hd : s.atm.enter.2.map Prod.snd = [.displayBalance amount] := List.append_cancel_left hd
    obtain ⟨state, hst⟩ : ∃ state, s.atm.state = state := ⟨_, rfl⟩
    cases state <;> simp [ATM.enter, hst] at hd
  | discard => exact absurd rfl hsame
  | @take l rest b posts hw hq ht =>
    obtain ⟨msg, origin⟩ := l
    cases ht with
    | balance hst shown =>
      rw [fromAtm_interface] at hd
      have hd : [Msg.displayBalance shown] = [.displayBalance amount] :=
        List.append_cancel_left hd
      cases hd
      exact ⟨rfl, hst, hw, _, rest, hq, rfl⟩
    | _ => simp at hd

theorem shown_iff {s s' : System} {l : Label} (h : Sound s) (hn : Numbered s)
    (hs : s.step l = some s') : BalanceShown s l s' ↔ NoStaleBalance s l s' := by
  by_cases hl : l = .atm ∧ s.atm.state = .processBalance ∧ s.atm.waiting = true ∧
      s.atmQueue.head?.bind (fun x => x.msg.replyKind) = some .balance
  swap
  · refine iff_of_true (fun amount hd => ?_) fun h1 h2 h3 h4 => absurd ⟨h1, h2, h3, h4⟩ hl
    obtain ⟨h1, h2, h3, letter, rest, hq, hmsg⟩ := shows_only h hs hd
    exact absurd ⟨h1, h2, h3, by rw [hq]; simp [hmsg, Msg.replyKind]⟩ hl
  obtain ⟨rfl, hst, hw, hhead⟩ := hl
  obtain ⟨letter, rest, hq⟩ : ∃ letter rest, s.atmQueue = letter :: rest := by
    cases hq : s.atmQueue with
    | nil => rw [hq] at hhead; cases hhead
    | cons letter rest => exact ⟨letter, rest, rfl⟩
  have hkind : letter.msg.replyKind = some .balance := by rw [hq] at hhead; simpa using hhead
  obtain ⟨amount, hmsg⟩ := balance_of_kind hkind
  have hk : s.atm.state.awaits = some .balance := by rw [hst]; rfl
  have hm : s.atm.request = some (.getBalance s.atm.account ATM.sender) := by
    rw [ATM.request, hst]
  have hmem : letter ∈ s.atmQueue := by rw [hq]; exact List.mem_cons_self
  obtain ⟨req, stamp, before, after, ho, -, ha, -⟩ := (h.incoming letter hmem).reply hkind
  have hiff := answers_current h hm hk hq ho
  rw [hmsg] at ha
  constructor
  · intro hshown _ _ _ _
    have hdisplay : s'.displays = s.displays ++ [.displayBalance amount] := by
      have hpop := ATM.pop_processBalance hst (.balance amount)
      have hs : s.stepAtm = some s' := hs
      simp only [System.stepAtm, h.alive, hw, hq, hmsg, hpop, Bool.false_eq_true, if_false,
        Bool.not_true, fromAtm_interface, Option.some.injEq] at hs
      rw [← hs]
    obtain ⟨-, letter', rest', hq', -, ho'⟩ := hshown _ hdisplay
    obtain ⟨rfl, -⟩ := List.cons.inj (hq.symm.trans hq')
    cases ho.symm.trans ho'
    exact hiff.mp ⟨rfl, rfl⟩
  · intro hno amount' hd
    obtain ⟨rfl, rfl⟩ := hiff.mpr (hno rfl hst hw hhead)
    obtain ⟨-, -, -, letter', rest', hq', hmsg'⟩ := shows_only h hs hd
    obtain ⟨rfl, -⟩ := List.cons.inj (hq.symm.trans hq')
    obtain rfl : amount = amount' := Msg.balance.inj (hmsg.symm.trans hmsg')
    obtain ⟨rfl, rfl⟩ := answered_balance ha
    exact ⟨hn.latest letter hmem _ _ _ _ ho rfl, letter, rest, hq, hmsg, ho⟩

/-- **The balance.** The runs in which every balance shown is the account's, and the
answer to the session's own request, are exactly those that never take a `balance`
with another balance reply or request behind it. -/
theorem balance_shown (ls : List Label) (s : System) :
    (system.restrict BalanceShown).Run .new ls s ↔
      (system.restrict NoStaleBalance).Run .new ls s :=
  LTS.run_restrict_congr (numbered_inductive.restrict _)
    (fun _ _ _ h hs => shown_iff h.1 h.2 hs) (numbered_inductive.init _ rfl)

/-- Two customers cancel while their PINs are being verified. Each later one is let
through by a reply to an earlier one: the third asks for the balance and cancels, the
fourth for 50 and cancels, the fifth for the balance. The bank gets to the first
request for the balance, and to the withdrawal. -/
def staleBalanceRun : List Label :=
  .atm :: insertCard "A" ++ keys "0000" ++ cancelled ++
    insertCard "A" ++ keys "0000" ++ cancelled ++
    insertCard "B" ++ keys "0000" ++ [.bank, .atm, .atm, .user .balancePressed, .atm, .atm] ++
      cancelled ++
    insertCard "C" ++ keys "0000" ++ [.bank, .atm, .atm, .user (.withdrawPressed 50), .atm, .atm] ++
      cancelled ++
    insertCard "D" ++ keys "0000" ++
      [.bank, .atm, .atm, .user .balancePressed, .atm, .atm, .bank, .bank, .bank]

set_option maxRecDepth 2000 in
theorem stale_balance_shown : ∃ s s', LTS.exec System.step .new staleBalanceRun = some s ∧
    s.step .atm = some s' ∧ s'.displays = s.displays ++ [.displayBalance 199] ∧
      s'.bank.balance = 149 ∧ ¬ BalanceShown s .atm s' := by
  have hrun : ∃ s s', LTS.exec System.step .new staleBalanceRun = some s ∧
      s.step .atm = some s' ∧ s'.displays = s.displays ++ [.displayBalance 199] ∧
      s.bank.balance = 149 ∧ s'.bank.balance = 149 := ⟨_, _, rfl, rfl, rfl, rfl, rfl⟩
  obtain ⟨s, s', he, hs, hd, hb, hb'⟩ := hrun
  refine ⟨s, s', he, hs, hd, hb', fun h => ?_⟩
  have hbalance := (h 199 hd).1
  rw [hb] at hbalance
  exact absurd hbalance (by decide)

end Cxx.Atm
