import Cxx.Atm.System

/-!
# Which reply lets a session through, and which one issues money

Replies carry no session. A cancelled session leaves its reply in flight,
and a later one that waits for the same kind takes it for its own.

* `answers_current`: the reply at the front of the queue answers the request
  in progress exactly when no other reply or request of its kind is behind it.
* `authentication`, `dispensing`: so the runs in which every PIN is verified
  by the reply to it, and every issue of money is caused by the grant of the
  same withdrawal, are exactly those that never take a reply with another of
  its kind behind it.
* `stale_pin_accepted`, `stale_grant_issues`: two runs that do.
-/
namespace Cxx.Atm

theorem Incoming.user_kind {l : Letter} (h : l.msg.isUser = true) : l.msg.replyKind = none := by
  obtain ⟨msg, origin⟩ := l
  cases msg <;> first | rfl | cases h

/-- A reply in the queue is the bank's answer to a request of its kind. -/
theorem Incoming.reply {l : Letter} (h : Incoming l) {k : Kind} (hk : l.msg.replyKind = some k) :
    ∃ request stamp before after, l.origin = .bank request stamp before after ∧ FromAtm request ∧
      Answers request before l.msg after ∧ request.requestKind = some k := by
  rcases h with ⟨hu, -⟩ | ⟨req, st, before, after, ho, hf, ha⟩
  · rw [Incoming.user_kind hu] at hk; cases hk
  · exact ⟨req, st, before, after, ho, hf, ha, (ha.kind hf).1.symm.trans hk⟩

/-- Nothing of this kind is behind the front of the ATM's queue. -/
def NoneBehind (s : System) (k : Kind) : Prop :=
  (∀ x ∈ s.atmQueue.tail, x.msg.replyKind ≠ some k) ∧ ∀ x ∈ s.bankQueue, x.msg.requestKind ≠ some k

theorem answers_current {s : System} (h : Sound s) {m : Msg} (hm : s.atm.request = some m)
    {k : Kind} (hk : s.atm.state.awaits = some k) {l : Letter} {rest : List Letter}
    (hq : s.atmQueue = l :: rest) {request : Msg} {stamp : Stamp} {before after : UInt32}
    (ho : l.origin = .bank request stamp before after) :
    (request = m ∧ stamp = ⟨s.session, s.serial⟩) ↔ NoneBehind s k := by
  have hmk : m.requestKind = some k := (s.atm.request_kind hm).1.trans hk
  have hord := h.ordered
  have hbound := h.bounded
  have hlast := h.awaiting m hm
  have hl : l.answered = some (request, stamp) := by rw [Letter.answered, ho]
  rw [pipeline_cons hq, hl, Option.toList_some, List.singleton_append] at hord hbound hlast
  rw [List.pairwise_cons] at hord
  rw [NoneBehind, hq, List.tail_cons]
  constructor
  · -- later requests have larger numbers, and none is larger than the current one's
    intro hcur
    obtain ⟨rfl, rfl⟩ := hcur
    have hnone : ∀ p, p ∉ rest.filterMap Letter.answered ++ s.bankQueue.filterMap Letter.asked := by
      intro p hp
      have h1 := hord.1 p hp
      have h2 := hbound p (List.mem_cons_of_mem _ hp)
      exact absurd h1 (Nat.not_lt.mpr h2)
    refine ⟨fun x hx hxk => ?_, fun x hx hxk => ?_⟩
    · obtain ⟨req, st, b, a, hxo, -⟩ :=
        (h.incoming x (by rw [hq]; exact List.mem_cons_of_mem _ hx)).reply hxk
      refine hnone (req, st) (List.mem_append_left _ (List.mem_filterMap.mpr ⟨x, hx, ?_⟩))
      rw [Letter.answered, hxo]
    · refine hnone (x.msg, x.origin.stamp)
        (List.mem_append_right _ (List.mem_filterMap.mpr ⟨x, hx, ?_⟩))
      rw [Letter.asked, hxk]; rfl
  · -- the request in progress is pending, and it is nowhere behind
    intro hnone
    obtain ⟨hrest, hbank⟩ := hnone
    have hmem := List.mem_of_getLast? hlast
    rcases List.mem_cons.mp hmem with he | hmem
    · obtain ⟨rfl, rfl⟩ := Prod.mk.inj he
      exact ⟨rfl, rfl⟩
    rcases List.mem_append.mp hmem with hmem | hmem
    · obtain ⟨x, hx, hxa⟩ := List.mem_filterMap.mp hmem
      rcases h.incoming x (by rw [hq]; exact List.mem_cons_of_mem _ hx) with ⟨-, hu⟩ |
        ⟨req, st, b, a, hxo, hf, ha⟩
      · rw [Letter.answered, hu] at hxa; cases hxa
      · rw [Letter.answered, hxo] at hxa
        obtain ⟨rfl, -⟩ := Prod.mk.inj (Option.some.inj hxa)
        exact absurd ((ha.kind hf).1.trans hmk) (hrest x hx)
    · obtain ⟨x, hx, hxa⟩ := List.mem_filterMap.mp hmem
      obtain ⟨k', hk'⟩ : ∃ k', x.msg.requestKind = some k' := by
        cases hxk : x.msg.requestKind with
        | none => rw [Letter.asked, hxk] at hxa; cases hxa
        | some k' => exact ⟨k', rfl⟩
      rw [Letter.asked, hk'] at hxa
      obtain ⟨rfl, -⟩ := Prod.mk.inj (Option.some.inj hxa)
      exact absurd hmk (hbank x hx)

/-! ## Verifying the PIN -/

/-- A step that lets a session through takes the bank's answer to the PIN
request that this session sent last, for the account and PIN it has; and the
PIN is right. -/
def Authenticated (s : System) (l : Label) (s' : System) : Prop :=
  l = .atm → s.atm.state = .verifyingPin → s'.atm.state = .waitForAction →
    ∃ letter rest before after, s.atmQueue = letter :: rest ∧
      letter.origin = .bank (.verifyPin s.atm.account s.atm.pin ATM.sender)
        ⟨s.session, s.serial⟩ before after ∧
      s.atm.pin = "0000".toList

/-- When `pin_verified` is taken, no other PIN reply is in the ATM's queue and
no PIN request in the bank's. -/
def NoStalePin (s : System) (l : Label) (_ : System) : Prop :=
  l = .atm → s.atm.state = .verifyingPin → s.atm.waiting = true →
    s.atmQueue.head?.map Letter.msg = some .pinVerified → NoneBehind s .pin

theorem verified_pin {account pin : List Char} {before after : UInt32}
    (h : Answers (.verifyPin account pin ATM.sender) before .pinVerified after) :
    pin = "0000".toList := by
  rw [Answers, BankMachine.pop_eq] at h
  have : before = after ∧ pin = "0000".toList := by simpa using h
  exact this.2

theorem authenticated_iff {s s' : System} {l : Label} (h : Sound s) (hs : s.step l = some s') :
    Authenticated s l s' ↔ NoStalePin s l s' := by
  by_cases hl : l = .atm
  swap
  · exact iff_of_true (fun ha => absurd ha hl) fun ha => absurd ha hl
  subst hl
  by_cases hv : s.atm.state = .verifyingPin
  swap
  · exact iff_of_true (fun _ ha => absurd ha hv) fun _ ha => absurd ha hv
  have hk : s.atm.state.awaits = some .pin := by rw [hv]; rfl
  have hm : s.atm.request = some (.verifyPin s.atm.account s.atm.pin ATM.sender) := by
    rw [ATM.request, hv]
  cases h.atm_step hs with
  | enter hw =>
    refine iff_of_true (fun _ _ hnext => ?_) fun _ _ hw' => by rw [hw] at hw'; cases hw'
    simp [ATM.enter, hv] at hnext
  | @discard l rest hw hq hn =>
    refine iff_of_true (fun _ _ hnext => ?_) fun _ _ _ hhead => ?_
    · cases hv.symm.trans hnext
    · rw [hq] at hhead
      obtain ⟨a, posts, ht⟩ := ATM.takes_awaited hk (congrArg Msg.replyKind (Option.some.inj hhead))
      exact absurd ht (hn a posts)
  | @take l rest a posts hw hq ht =>
    obtain ⟨msg, origin⟩ := l
    cases ht with
    | verified hv' =>
      obtain ⟨req, st, before, after, ho, -, ha, -⟩ :=
        (h.incoming ⟨.pinVerified, origin⟩ (by rw [hq]; exact List.mem_cons_self)).reply
          (k := .pin) rfl
      have hiff := answers_current h hm hk hq ho
      constructor
      · intro hauth _ _ _ _
        obtain ⟨letter, rest', b, c, hq', ho', -⟩ := hauth rfl hv rfl
        obtain ⟨rfl, -⟩ := List.cons.inj (hq.symm.trans hq')
        refine hiff.mp ?_
        have := ho.symm.trans ho'
        cases this
        exact ⟨rfl, rfl⟩
      · intro hno _ _ _
        obtain ⟨rfl, rfl⟩ := hiff.mpr (hno rfl hv hw (by rw [hq]; rfl))
        exact ⟨_, rest, before, after, hq, ho, verified_pin ha⟩
    | incorrect hv' | cancel hv' =>
      exact iff_of_true (fun _ _ hnext => by simp at hnext)
        fun _ _ _ hhead => by rw [hq] at hhead; simp at hhead
    | card hs' | digit hs' | lastDigit hs' | clear hs' | withdraw hs' | getBalance hs' | ok hs'
    | denied hs' | cancelWithdrawal hs' | balance hs' => rw [hv] at hs'; cases hs'

/-- **Authentication.** The runs in which every session is let through by the
answer to its own request are exactly those that never take a `pin_verified`
with another PIN reply or request behind it. -/
theorem authentication (ls : List Label) (s : System) :
    (system.restrict Authenticated).Run .new ls s ↔ (system.restrict NoStalePin).Run .new ls s :=
  LTS.run_restrict_congr (system_sound.restrict _) (fun _ _ _ h hs => authenticated_iff h hs)
    (system_sound.init _ rfl)

/-- A card is inserted and accepted. -/
def insertCard (account : String) : List Label := [.user (.cardInserted account.toList), .atm, .atm]

/-- Digits are pressed and taken. -/
def keys (pin : String) : List Label :=
  pin.toList.flatMap fun c => [.user (.digitPressed c), .atm, .atm]

/-- Cancel is pressed and taken, the card ejected, the next one asked for. -/
def cancelled : List Label := [.user .cancelPressed, .atm, .atm, .atm]

/-- A first customer enters the right PIN and cancels; a second one enters a
wrong one, and the bank gets to the first request. -/
def stalePinRun : List Label :=
  .atm :: insertCard "A" ++ keys "0000" ++ cancelled ++ insertCard "B" ++ keys "1111" ++ [.bank]

theorem stale_pin_accepted : ∃ s s', LTS.exec System.step .new stalePinRun = some s ∧
    s.step .atm = some s' ∧ s.atm.pin = "1111".toList ∧ s'.atm.state = .waitForAction ∧
    ¬ Authenticated s .atm s' := by
  have hrun : ∃ s s', LTS.exec System.step .new stalePinRun = some s ∧ s.step .atm = some s' ∧
      s.atm.pin = "1111".toList ∧ s'.atm.state = .waitForAction ∧ s.atm.state = .verifyingPin :=
    ⟨_, _, rfl, rfl, rfl, rfl, rfl⟩
  obtain ⟨s, s', he, hs, hp, hnext, hv⟩ := hrun
  refine ⟨s, s', he, hs, hp, hnext, fun h => ?_⟩
  obtain ⟨_, _, _, _, _, _, hpin⟩ := h rfl hv hnext
  rw [hp] at hpin
  exact absurd hpin (by decide)

/-! ## Issuing money -/

/-- A step that issues `a` takes a `withdraw_ok` that the bank produced for
the withdrawal of `a` that this session sent last, and for which it took `a`
from a balance of at least `a`. -/
def Granted (s : System) (_ : Label) (s' : System) : Prop :=
  ∀ a, s'.displays = s.displays ++ [.issueMoney a] →
    ∃ letter rest before after, s.atmQueue = letter :: rest ∧ letter.msg = .withdrawOk ∧
      letter.origin = .bank (.withdraw s.atm.account a ATM.sender)
        ⟨s.session, s.serial⟩ before after ∧
      a ≤ before ∧ after = before - a

/-- When `withdraw_ok` is taken, no other withdrawal reply is in the ATM's
queue and no `withdraw` in the bank's. -/
def NoStaleGrant (s : System) (l : Label) (_ : System) : Prop :=
  l = .atm → s.atm.state = .processingWithdrawal → s.atm.waiting = true →
    s.atmQueue.head?.map Letter.msg = some .withdrawOk → NoneBehind s .withdrawal

theorem granted_withdrawal {account : List Char} {amount before after : UInt32}
    (h : Answers (.withdraw account amount ATM.sender) before .withdrawOk after) :
    amount ≤ before ∧ after = before - amount := by
  rw [Answers, BankMachine.pop_eq] at h
  by_cases ha : amount ≤ before
  · have : before - amount = after := by simpa [ha] using h
    exact ⟨ha, this.symm⟩
  · simp [ha] at h

/-- Only one kind of step issues money. -/
theorem issues_only {s s' : System} {l : Label} (h : Sound s) (hs : s.step l = some s') {a : UInt32}
    (hd : s'.displays = s.displays ++ [.issueMoney a]) :
    l = .atm ∧ s.atm.state = .processingWithdrawal ∧ s.atm.waiting = true ∧
      a = s.atm.withdrawalAmount ∧
      s.atmQueue.head?.map Letter.msg = some .withdrawOk := by
  have hsame : s'.displays ≠ s.displays := by rw [hd]; simp
  obtain rfl : l = .atm := by
    by_contra hl
    exact hsame (step_others h hs hl).2
  cases h.atm_step hs with
  | enter hw =>
    obtain ⟨b, i, ds, he, -, rfl⟩ := enter_spec s
    rw [he] at hd
    have hd : s.atm.enter.2.map Prod.snd = [.issueMoney a] := List.append_cancel_left hd
    obtain ⟨state, hst⟩ : ∃ state, s.atm.state = state := ⟨_, rfl⟩
    cases state <;> simp [ATM.enter, hst] at hd
  | discard => exact absurd rfl hsame
  | @take l rest b posts hw hq ht =>
    obtain ⟨msg, origin⟩ := l
    cases ht with
    | ok hst =>
      rw [fromAtm_interface] at hd
      have hd : [Msg.issueMoney s.atm.withdrawalAmount] = [.issueMoney a] :=
        List.append_cancel_left hd
      cases hd
      exact ⟨rfl, hst, hw, rfl, by rw [hq]; rfl⟩
    | _ => simp at hd

theorem granted_iff {s s' : System} {l : Label} (h : Sound s) (hs : s.step l = some s') :
    Granted s l s' ↔ NoStaleGrant s l s' := by
  by_cases hl : l = .atm ∧ s.atm.state = .processingWithdrawal ∧ s.atm.waiting = true ∧
      s.atmQueue.head?.map Letter.msg = some .withdrawOk
  swap
  · refine iff_of_true (fun a hd => ?_) fun h1 h2 h3 h4 => absurd ⟨h1, h2, h3, h4⟩ hl
    obtain ⟨h1, h2, h3, -, h4⟩ := issues_only h hs hd
    exact absurd ⟨h1, h2, h3, h4⟩ hl
  obtain ⟨rfl, hst, hw, hhead⟩ := hl
  obtain ⟨letter, rest, hq⟩ : ∃ letter rest, s.atmQueue = letter :: rest := by
    cases hq : s.atmQueue with
    | nil => rw [hq] at hhead; cases hhead
    | cons letter rest => exact ⟨letter, rest, rfl⟩
  have hmsg : letter.msg = .withdrawOk := by rw [hq] at hhead; simpa using hhead
  have hk : s.atm.state.awaits = some .withdrawal := by rw [hst]; rfl
  have hm : s.atm.request = some (.withdraw s.atm.account s.atm.withdrawalAmount ATM.sender) := by
    rw [ATM.request, hst]
  obtain ⟨req, stamp, before, after, ho, -, ha, -⟩ :=
    (h.incoming letter (by rw [hq]; exact List.mem_cons_self)).reply (k := .withdrawal)
    (by rw [hmsg]; rfl)
  have hiff := answers_current h hm hk hq ho
  constructor
  · intro hg _ _ _ _
    have hissue : s'.displays = s.displays ++ [.issueMoney s.atm.withdrawalAmount] := by
      have hpop := ATM.pop_processingWithdrawal hst .withdrawOk
      have hs : s.stepAtm = some s' := hs
      simp only [System.stepAtm, h.alive, hw, hq, hmsg, hpop, Bool.false_eq_true, if_false,
        Bool.not_true,
        fromAtm_interface, Option.some.injEq] at hs
      rw [← hs]
    obtain ⟨letter', rest', b, c, hq', -, ho', -⟩ := hg _ hissue
    obtain ⟨rfl, -⟩ := List.cons.inj (hq.symm.trans hq')
    have := ho.symm.trans ho'
    cases this
    exact hiff.mp ⟨rfl, rfl⟩
  · intro hno a hd
    obtain ⟨-, -, -, rfl, -⟩ := issues_only h hs hd
    obtain ⟨rfl, rfl⟩ := hiff.mpr (hno rfl hst hw hhead)
    rw [hmsg] at ha
    obtain ⟨h1, h2⟩ := granted_withdrawal ha
    exact ⟨letter, rest, before, after, hq, hmsg, ho, h1, h2⟩

/-- **Dispensing.** The runs in which all money is issued for the grant of
the session's own withdrawal are exactly those that never take a
`withdraw_ok` with another withdrawal reply or request behind it. -/
theorem dispensing (ls : List Label) (s : System) :
    (system.restrict Granted).Run .new ls s ↔ (system.restrict NoStaleGrant).Run .new ls s :=
  LTS.run_restrict_congr (system_sound.restrict _) (fun _ _ _ h hs => granted_iff h hs)
    (system_sound.init _ rfl)

/-- A first customer cancels while the PIN is being verified, so that each
later one is let through by the reply to the one before. The second asks for
50 and cancels, the third for 500: the bank gets to the request for 50. -/
def staleGrantRun : List Label :=
  .atm :: insertCard "A" ++ keys "0000" ++ cancelled ++
    insertCard "B" ++ keys "0000" ++ [.bank, .atm, .atm, .user (.withdrawPressed 50), .atm, .atm] ++
      cancelled ++
    insertCard "C" ++ keys "0000" ++
      [.bank, .atm, .atm, .user (.withdrawPressed 500), .atm, .atm, .bank]

theorem stale_grant_issues : ∃ s s', LTS.exec System.step .new staleGrantRun = some s ∧
    s.step .atm = some s' ∧ s'.displays = s.displays ++ [.issueMoney 500] ∧
      ¬ Granted s .atm s' := by
  have hrun : ∃ s s', LTS.exec System.step .new staleGrantRun = some s ∧ s.step .atm = some s' ∧
      s'.displays = s.displays ++ [.issueMoney 500] ∧
      s.atmQueue.head?.map Letter.origin =
        some (.bank (.withdraw "B".toList 50 ATM.sender) ⟨2, 3⟩ 199 149) :=
    ⟨_, _, rfl, rfl, rfl, rfl⟩
  obtain ⟨s, s', he, hs, hd, ho⟩ := hrun
  refine ⟨s, s', he, hs, hd, fun h => ?_⟩
  obtain ⟨letter, rest, _, _, hq, -, horigin, -⟩ := h 500 hd
  rw [hq, List.head?_cons, Option.map_some, horigin] at ho
  simp at ho

end Cxx.Atm
