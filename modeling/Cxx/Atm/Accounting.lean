import Cxx.Atm.Replies

/-!
# Request and reply accounting

`books` is the system with two records of the ATM's steps: the messages it
has sent to the bank, and those it has popped. For each kind of request,
what has been sent is still in the bank's queue, or its reply is in the
ATM's queue, or its reply has been popped.

* `accounting`: the counts balance, and the ATM never waits for a reply that
  cannot come, in every state of every run.
-/
namespace Cxx.Atm

/-- The messages to the bank among the sends of a handler. -/
def toBank (posts : List Post) : List Msg :=
  posts.filterMap fun p => if p.1 = ATM.bank then some p.2 else none

/-- What the ATM sends in its next step. -/
def System.atmPosts (s : System) : List Post :=
  if s.atm.waiting then
    match s.atmQueue with
    | [] => []
    | l :: _ => (s.atm.pop l.msg).2
  else s.atm.enter.2

/-- What the ATM pops in its next step. -/
def System.atmPops (s : System) : List Msg :=
  if s.atm.waiting then (s.atmQueue.take 1).map Letter.msg else []

structure Books where
  sys : System
  /-- The ATM's messages to the bank. -/
  sent : List Msg
  /-- The messages the ATM has handled or discarded. -/
  popped : List Msg
  deriving DecidableEq, Repr

def Books.new : Books := ⟨.new, [], []⟩

def Books.step (b : Books) (l : Label) : Option Books :=
  (b.sys.step l).map fun sys =>
    if l = .atm then
      { sys, sent := b.sent ++ toBank b.sys.atmPosts, popped := b.popped ++ b.sys.atmPops }
    else { b with sys }

def books : LTS Books Label := LTS.ofFn (· = Books.new) Books.step

def requests (k : Kind) (ms : List Msg) : Nat := ms.countP fun m => m.requestKind = some k

def replies (k : Kind) (ms : List Msg) : Nat := ms.countP fun m => m.replyKind = some k

def Books.bankQueue (b : Books) : List Msg := b.sys.bankQueue.map Letter.msg

def Books.atmQueue (b : Books) : List Msg := b.sys.atmQueue.map Letter.msg

def Books.Balanced (b : Books) : Prop :=
  ∀ k, requests k b.sent = requests k b.bankQueue + replies k b.atmQueue + replies k b.popped

theorem requests_append (k : Kind) (ms ns : List Msg) :
    requests k (ms ++ ns) = requests k ms + requests k ns := List.countP_append

theorem replies_append (k : Kind) (ms ns : List Msg) :
    replies k (ms ++ ns) = replies k ms + replies k ns := List.countP_append

theorem requests_cons (k : Kind) (m : Msg) (ms : List Msg) :
    requests k (m :: ms) = requests k ms + if m.requestKind = some k then 1 else 0 := by
  unfold requests
  simp only [List.countP_cons, decide_eq_true_eq]

theorem replies_singleton (k : Kind) (m : Msg) :
    replies k [m] = if m.replyKind = some k then 1 else 0 := by
  unfold replies
  simp only [List.countP_cons, List.countP_nil, decide_eq_true_eq, Nat.zero_add]

/-! ## What a step does to the queues -/

/-- No handler of the ATM sends to the ATM. -/
theorem ATM.Takes.away {a a' : ATM} {msg : Msg} {posts : List Post} (h : a.Takes msg a' posts) :
    ∀ p ∈ posts, p.1 ≠ ATM.sender := by
  cases h <;> simp [ATM.bank, ATM.interface, ATM.sender]

theorem ATM.enter_away (a : ATM) : ∀ p ∈ a.enter.2, p.1 ≠ ATM.sender := by
  unfold ATM.enter
  cases a.state <;> simp [ATM.interface, ATM.sender]

theorem ATM.pop_away (a : ATM) (msg : Msg) : ∀ p ∈ (a.pop msg).2, p.1 ≠ ATM.sender := by
  rcases a.pop_spec msg with ht | ⟨-, hp⟩ | ⟨hp, -⟩
  · exact ht.away
  · rw [hp]; intro p hm; cases hm
  · rw [hp]; intro p hm; cases hm

theorem fromAtm_queues (posts : List Post) : ∀ s : System, (∀ p ∈ posts, p.1 ≠ ATM.sender) →
    (s.fromAtm posts).atmQueue = s.atmQueue ∧
      (s.fromAtm posts).bankQueue.map Letter.msg = s.bankQueue.map Letter.msg ++ toBank posts := by
  induction posts with
  | nil => intro s _; exact ⟨rfl, (List.append_nil _).symm⟩
  | cons p posts ih =>
    intro s h
    obtain ⟨q, msg⟩ := p
    have hq : q ≠ ATM.sender := h (q, msg) List.mem_cons_self
    have hrest : ∀ p ∈ posts, p.1 ≠ ATM.sender := fun p hp => h p (List.mem_cons_of_mem _ hp)
    unfold System.fromAtm
    rw [(ih _ hrest).1, (ih _ hrest).2]
    cases q with
    | none => exact ⟨rfl, rfl⟩
    | some id =>
      cases id with
      | atm => exact absurd rfl hq
      | bank =>
        refine ⟨rfl, ?_⟩
        simp [System.send, toBank, ATM.bank]
      | interface => exact ⟨rfl, rfl⟩

/-- A step of the ATM moves what it pops out of its queue, and what it sends
into the bank's. -/
theorem step_atm_queues {s s' : System} (h : s.stepAtm = some s') :
    s.atmQueue.map Letter.msg = s.atmPops ++ s'.atmQueue.map Letter.msg ∧
      s'.bankQueue.map Letter.msg = s.bankQueue.map Letter.msg ++ toBank s.atmPosts := by
  obtain ⟨-, ⟨hw, rfl⟩ | ⟨l, rest, hw, hq, rfl⟩⟩ := stepAtm_eq_some h
  · obtain ⟨h1, h2⟩ := fromAtm_queues _ { s with atm := s.atm.enter.1 } s.atm.enter_away
    rw [h1, h2]
    simp [System.atmPops, System.atmPosts, hw]
  · rw [(fromAtm_queues _ _ (s.atm.pop_away l.msg)).1,
      (fromAtm_queues _ _ (s.atm.pop_away l.msg)).2]
    simp [System.atmPops, System.atmPosts, hw, hq]

/-- What the bank serves is alive after it. -/
theorem FromAtm.alive {m : Msg} (h : FromAtm m) {b : BankMachine} (hb : b.ended = false) :
    (b.pop m).1.ended = false := by
  cases h with
  | verifyPin account pin => rw [BankMachine.pop_eq]; exact hb
  | withdraw account amount =>
    rw [BankMachine.pop_eq]
    by_cases ha : amount ≤ b.balance
    · simp only [if_pos ha]; exact hb
    · simp only [if_neg ha]; exact hb
  | getBalance account => rw [BankMachine.pop_eq]; exact hb
  | cancelWithdrawal account amount => rw [BankMachine.pop_eq]; exact hb

/-- The bank is running: nobody sends it a `CloseQueue`. -/
theorem system_bank_alive : system.Inductive fun s => Sound s ∧ s.bank.ended = false := by
  apply system_sound.assuming
  · intro s hs
    subst hs
    rfl
  · intro s l s' h hb hs
    have hs : s.step l = some s' := hs
    cases l with
    | user msg =>
      obtain ⟨-, rfl⟩ := step_user hs
      exact hb
    | atm =>
      cases h.atm_step hs with
      | enter hw =>
        obtain ⟨a, d, ds, he, -⟩ := enter_spec s
        rw [he]; exact hb
      | discard hw hq hn => exact hb
      | @take l rest a posts hw hq ht =>
        generalize l.msg = m at ht
        cases ht <;> exact hb
    | bank =>
      obtain ⟨l, rest, stamp, -, -, hf, -, ⟨-, rfl⟩ | ⟨-, reply, -, rfl⟩⟩ := step_bank h hs
      · exact hf.alive hb
      · exact hf.alive hb
    | interface =>
      obtain ⟨i, rest, rfl⟩ := step_interface hs
      exact hb

/-! ## The counts -/

theorem Books.Balanced.atm {b : Books} {s' : System} (h : b.Balanced)
    (hs : b.sys.stepAtm = some s') :
    Books.Balanced ⟨s', b.sent ++ toBank b.sys.atmPosts, b.popped ++ b.sys.atmPops⟩ := by
  intro k
  obtain ⟨hpop, hsend⟩ := step_atm_queues hs
  have hk := h k
  unfold Books.bankQueue Books.atmQueue at hk ⊢
  rw [hpop, replies_append] at hk
  simp only [hsend, requests_append, replies_append]
  omega

theorem Books.Balanced.bank {b : Books} {s' : System} (h : b.Balanced) (hsound : Sound b.sys)
    (hs : b.sys.stepBank = some s') : Books.Balanced { b with sys := s' } := by
  intro k
  obtain ⟨l, rest, stamp, hq, -, hf, -, hl⟩ := step_bank hsound hs
  have hk := h k
  unfold Books.bankQueue Books.atmQueue at hk ⊢
  rw [hq, List.map_cons, requests_cons] at hk
  rcases hl with ⟨hnone, rfl⟩ | ⟨-, reply, ha, rfl⟩
  · -- a cancellation, which no reply answers
    rw [hnone, if_neg (by simp)] at hk
    exact hk
  · have hr : replies k [reply] = if l.msg.requestKind = some k then 1 else 0 := by
      rw [replies_singleton, (ha.kind hf).1]
    simp only [List.map_append, List.map_cons, List.map_nil, replies_append, hr]
    omega

theorem Books.Balanced.user {b : Books} (h : b.Balanced) {msg : Msg} (hu : msg.isUser = true) :
    Books.Balanced { b with sys := b.sys.send ATM.sender ⟨msg, .user⟩ } := by
  intro k
  have hr : replies k [msg] = 0 := by
    rw [replies_singleton, Incoming.user_kind (l := ⟨msg, .user⟩) hu, if_neg (by simp)]
  have hk := h k
  unfold Books.bankQueue Books.atmQueue at hk ⊢
  simp only [System.send, ATM.sender, List.map_append, List.map_cons, List.map_nil, replies_append,
    hr]
  exact hk

/-- The records do not touch the system. -/
theorem step_books {b b' : Books} {l : Label} (h : b.step l = some b') :
    b.sys.step l = some b'.sys ∧
      b' = if l = .atm then
        ⟨b'.sys, b.sent ++ toBank b.sys.atmPosts, b.popped ++ b.sys.atmPops⟩
      else { b with sys := b'.sys } := by
  unfold Books.step at h
  obtain ⟨sys, hs, rfl⟩ := Option.map_eq_some_iff.mp h
  split <;> exact ⟨hs, rfl⟩

theorem books_balanced :
    books.Inductive fun b => (Sound b.sys ∧ b.sys.bank.ended = false) ∧ b.Balanced where
  init := by
    intro b hb
    subst hb
    exact ⟨system_bank_alive.init _ rfl, fun k => by cases k <;> rfl⟩
  step := by
    intro b l b' h hst
    obtain ⟨halive, hbal⟩ := h
    obtain ⟨hs, hb⟩ := step_books hst
    refine ⟨system_bank_alive.step _ l _ halive hs, ?_⟩
    rw [hb]
    cases l with
    | user msg =>
      obtain ⟨hu, he⟩ := step_user hs
      rw [if_neg (by simp), he]
      exact hbal.user hu
    | atm =>
      rw [if_pos rfl]
      exact hbal.atm hs
    | bank =>
      rw [if_neg (by simp)]
      exact hbal.bank halive.1 hs
    | interface =>
      obtain ⟨i, rest, he⟩ := step_interface hs
      rw [if_neg (by simp), he]
      exact hbal

/-! ## What the ATM waits for -/

theorem ATM.request_of_awaits {a : ATM} {k : Kind} (h : a.state.awaits = some k) :
    ∃ m, a.request = some m ∧ m.requestKind = some k := by
  obtain ⟨state, hs⟩ : ∃ state, a.state = state := ⟨_, rfl⟩
  rw [hs] at h
  cases state <;> cases h
  all_goals
    unfold ATM.request
    rw [hs]
    exact ⟨_, rfl, rfl⟩

/-- The request is in the bank's queue, or its reply in the ATM's. -/
theorem Sound.pending {s : System} (h : Sound s) {k : Kind} (hk : s.atm.state.awaits = some k) :
    (∃ l ∈ s.bankQueue, l.msg.requestKind = some k) ∨
      ∃ l ∈ s.atmQueue, l.msg.replyKind = some k := by
  obtain ⟨m, hm, hmk⟩ := ATM.request_of_awaits hk
  have hlast : (m, ⟨s.session, s.serial⟩) ∈ s.pipeline := List.mem_of_getLast? (h.awaiting m hm)
  rcases List.mem_append.mp hlast with ha | hb
  · right
    obtain ⟨l, hl, hans⟩ := List.mem_filterMap.mp ha
    refine ⟨l, hl, ?_⟩
    rcases h.incoming l hl with ⟨-, ho⟩ | ⟨req, st, before, after, ho, hf, hr⟩
    · rw [Letter.answered, ho] at hans; cases hans
    · rw [Letter.answered, ho] at hans
      cases hans
      exact (hr.kind hf).1.trans hmk
  · left
    obtain ⟨l, hl, hask⟩ := List.mem_filterMap.mp hb
    refine ⟨l, hl, ?_⟩
    unfold Letter.asked at hask
    obtain ⟨k', hk', he⟩ := Option.map_eq_some_iff.mp hask
    rw [(Prod.mk.inj he).1]
    exact hmk

/-- A running bank gets to every request in its queue. -/
theorem Sound.served {k : Kind} {l : Letter} {post : List Letter} (hk : l.msg.requestKind = some k)
    (pre : List Letter) :
    ∀ {s : System}, Sound s → s.bank.ended = false → s.bankQueue = pre ++ l :: post →
      ∃ n t, system.Run s (List.replicate n .bank) t ∧
        ∃ l' ∈ t.atmQueue, l'.msg.replyKind = some k := by
  induction pre with
  | nil =>
    intro s h hb hq
    obtain ⟨s', hs⟩ : ∃ s', s.step .bank = some s' := by
      simp only [System.step, System.stepBank, hb, hq, List.nil_append]
      exact ⟨_, rfl⟩
    obtain ⟨l₁, rest, stamp, hq', -, hf, -, hl⟩ := step_bank h hs
    rw [hq, List.nil_append] at hq'
    cases hq'
    refine ⟨1, s', LTS.run_step hs, ?_⟩
    rcases hl with ⟨hnone, -⟩ | ⟨-, reply, ha, rfl⟩
    · rw [hk] at hnone; cases hnone
    · exact ⟨_, List.mem_append_right _ List.mem_cons_self, (ha.kind hf).1.trans hk⟩
  | cons x pre ih =>
    intro s h hb hq
    obtain ⟨s', hs⟩ : ∃ s', s.step .bank = some s' := by
      simp only [System.step, System.stepBank, hb, hq, List.cons_append]
      exact ⟨_, rfl⟩
    have hnext := system_bank_alive.step s .bank s' ⟨h, hb⟩ hs
    have hrest : s'.bankQueue = pre ++ l :: post := by
      obtain ⟨l₁, rest, stamp, hq', -, -, -, ⟨-, rfl⟩ | ⟨-, reply, -, rfl⟩⟩ := step_bank h hs
      · rw [hq] at hq'; cases hq'; rfl
      · rw [hq] at hq'; cases hq'; rfl
    obtain ⟨n, t, hr, hl⟩ := ih hnext.1 hnext.2 hrest
    exact ⟨n + 1, t, .cons hs hr, hl⟩

/-- **Requests and replies are accounted for.** In every state, of each kind
of request as many have been sent as are in the bank's queue, in the ATM's
queue as replies, or popped by the ATM; a state that waits for a reply has
its request or the reply in one of the queues, and steps of the bank alone
bring the reply. -/
theorem accounting (b : Books) (h : books.Reachable b) :
    (∀ k, requests k b.sent = requests k b.bankQueue + replies k b.atmQueue + replies k b.popped) ∧
    ∀ k, b.sys.atm.state.awaits = some k →
      ((∃ m ∈ b.bankQueue, m.requestKind = some k) ∨ ∃ m ∈ b.atmQueue, m.replyKind = some k) ∧
      ∃ n t, system.Run b.sys (List.replicate n .bank) t ∧
        ∃ l ∈ t.atmQueue, l.msg.replyKind = some k := by
  obtain ⟨⟨hs, hb⟩, hbal⟩ := books_balanced.reachable b h
  refine ⟨hbal, ?_⟩
  intro k hk
  rcases hs.pending hk with ⟨l, hl, hlk⟩ | ⟨l, hl, hlk⟩
  · refine ⟨.inl ⟨l.msg, List.mem_map_of_mem hl, hlk⟩, ?_⟩
    obtain ⟨pre, post, hq⟩ := List.append_of_mem hl
    exact Sound.served hlk pre hs hb hq
  · exact ⟨.inr ⟨l.msg, List.mem_map_of_mem hl, hlk⟩, 0, b.sys, .nil _, l, hl, hlk⟩

/-- A stale reply is popped while the second customer's request waits for the bank. -/
theorem accounting_stale : ∃ b, books.Reachable b ∧ b.sys.atm.state = .verifyingPin ∧
    requests .pin b.sent = 2 ∧ replies .pin b.popped = 1 ∧
    requests .pin b.sent =
      requests .pin b.bankQueue + replies .pin b.atmQueue + replies .pin b.popped := by
  have hrun : ∃ b, LTS.exec Books.step .new
      (.atm :: insertCard "A" ++ keys "0000" ++ cancelled ++ [.bank, .atm] ++ insertCard "B" ++
        keys "1111") = some b ∧ b.sys.atm.state = .verifyingPin ∧ requests .pin b.sent = 2 ∧
      replies .pin b.popped = 1 := ⟨_, rfl, rfl, rfl, rfl⟩
  obtain ⟨b, he, hv, hsent, hpopped⟩ := hrun
  have hr : books.Reachable b := LTS.reachable_of_exec rfl he
  exact ⟨b, hr, hv, hsent, hpopped, (accounting b hr).1 .pin⟩

end Cxx.Atm
