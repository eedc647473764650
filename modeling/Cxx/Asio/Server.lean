import Cxx.Asio.Receiver
import Cxx.Asio.WritePump

/-!
# The server: accepts, registered sessions, outstanding operations

Model of include/asio/CServer.cpp over `CSession`. One `io_context` thread
runs one handler at a time, so a handler call is one step; which completion
comes next is free. Sessions are numbered in the order of their
construction; the last one is the one the pending `async_accept` will hand
out.

**Outside the code.** `uuid` gives the identifier drawn for each session. A
successful read brings 1..MAX_LENGTH bytes. A run ends where a handler
faults. `readFailed`, `writeFailed` and `tooLong` record which error paths
have run; no handler reads them.

**Results.**
* `server_inv`: the invariant of a session, for every session at once.
* `registry`: a session is registered exactly from its acceptance to its
  first error, has exactly one read outstanding while it is, its reads
  finish, and its write handler never finds the queue empty.
-/
namespace Cxx.Asio

structure Conn where
  session : CSession
  /-- `async_read_some` calls started and not completed. -/
  pendingReads : Nat
  /-- `async_write` calls started and not completed. -/
  pendingWrites : Nat
  accepted : Bool
  readFailed : Bool
  writeFailed : Bool
  tooLong : Bool
  deriving DecidableEq, Repr

def Conn.new : Conn := ⟨.new, 0, 0, false, false, false, false⟩

structure CServer where
  conns : List Conn
  /-- `_sessions`, as pairs of a key and a session. -/
  sessions : List (String × Nat)
  deriving DecidableEq, Repr

inductive ServerLabel where
  | accept (error : Bool)
  | read (i : Nat) (chunk : Bytes)
  | readError (i : Nat)
  | write (i : Nat) (error : Bool)
  deriving DecidableEq, Repr

/-- `std::map::insert` keeps an entry that is there. -/
def insertSession (sessions : List (String × Nat)) (key : String) (i : Nat) : List (String × Nat) :=
  if sessions.any (·.1 == key) then sessions else sessions ++ [(key, i)]

/-- mirrors include/asio/CServer.cpp:27-29 -/
def clearSession (sessions : List (String × Nat)) (key : String) : List (String × Nat) :=
  sessions.filter (·.1 != key)

/-- mirrors include/asio/CServer.cpp:22-25 -/
def CServer.startAccept (v : CServer) : CServer := { v with conns := v.conns ++ [Conn.new] }

/-- mirrors include/asio/CServer.cpp:3-8 -/
def CServer.new : CServer := CServer.startAccept ⟨[], []⟩

def Act.tooLong : Act → Bool
  | .header len => MAX_LENGTH < len
  | _ => false

/-- A session after a handler that left it as `s`. -/
def Conn.after (c : Conn) (s : CSession) (log : List Act) : Conn := { c with
  session := s
  pendingReads := c.pendingReads + reads log
  pendingWrites := c.pendingWrites + (writes log).length
  tooLong := c.tooLong || log.any Act.tooLong }

section
variable (uuid : Nat → String)

/-- The effects of a handler of session `i` that has come to its end. -/
def CServer.perform (v : CServer) (i : Nat) (c : Conn) (r : Proc CSession) : Option CServer :=
  match r.out with
  | .error _ => none
  | .ok s => some {
      conns := v.conns.set i (c.after s r.log)
      sessions := if .clearSession ∈ r.log then clearSession v.sessions (uuid i) else v.sessions }

def CServer.step (v : CServer) : ServerLabel → Option CServer
  | .accept error =>
    let i := v.conns.length - 1
    match v.conns[i]? with
    | none => none
    | some c =>
      -- mirrors include/asio/CServer.cpp:10-20
      if !error then
        (v.perform uuid i { c with accepted := true } c.session.start).map fun v =>
          { v with sessions := insertSession v.sessions (uuid i) i }.startAccept
      else some v.startAccept
  | .read i chunk =>
    match v.conns[i]? with
    | none => none
    | some c =>
      if 0 < c.pendingReads ∧ 0 < chunk.length ∧ (chunk.length : Int) ≤ MAX_LENGTH then
        (readChunk c.session chunk).bind fun r =>
          v.perform uuid i { c with pendingReads := c.pendingReads - 1 } r
      else none
  | .readError i =>
    match v.conns[i]? with
    | none => none
    | some c =>
      if 0 < c.pendingReads then
        (handleRead c.session true 0).bind fun r =>
          v.perform uuid i { c with pendingReads := c.pendingReads - 1, readFailed := true } r
      else none
  | .write i error =>
    match v.conns[i]? with
    | none => none
    | some c =>
      if 0 < c.pendingWrites then
        v.perform uuid i
          { c with pendingWrites := c.pendingWrites - 1, writeFailed := c.writeFailed || error }
          (handleWrite c.session error)
      else none

def server : LTS CServer ServerLabel := LTS.ofFn (· = CServer.new) (CServer.step uuid)

end

/-! ## One session -/

/-- What holds of a session at any time; `registered` says that it is in
`_sessions`. -/
structure ConnInv (c : Conn) (registered : Prop) : Prop where
  fresh : c.accepted = false → c = Conn.new
  reads : c.accepted = true → c.pendingReads = if c.readFailed || c.tooLong then 0 else 1
  rel : c.pendingReads ≠ 0 → ∃ q, Rel c.session q
  writes : c.pendingWrites = if c.writeFailed || c.session.sendQue.isEmpty then 0 else 1
  stopped : c.writeFailed = true → c.session.sendQue ≠ []
  member : registered ↔ c.accepted = true ∧ c.readFailed = false ∧ c.writeFailed = false ∧
    c.tooLong = false

theorem connInv_new : ConnInv Conn.new False :=
  ⟨fun _ => rfl, fun h => by simp [Conn.new] at h, fun h => by simp [Conn.new] at h, rfl,
    fun h => by simp [Conn.new] at h, by simp [Conn.new]⟩

theorem Pump.nonempty {q q' : List Bytes} {l : List Act} (h : Pump q l q') (hq : q ≠ []) :
    q' ≠ [] := by
  induction h with
  | done q => exact hq
  | other _ _ _ ih => exact ih hq
  | full _ _ ih => exact ih hq
  | queued _ _ _ ih => exact ih (by simp)
  | started => exact absurd rfl hq

/-- A handler starts a write exactly when it makes an empty queue non-empty. -/
theorem Pump.pending {q q' : List Bytes} {l : List Act} (h : Pump q l q') :
    (writes l).length = if q = [] ∧ q' ≠ [] then 1 else 0 := by
  induction h with
  | done q => rw [if_neg (fun h => h.2 h.1)]; rfl
  | @other q q' a l ha hw _ ih =>
    have : writes (a :: l) = writes l := by
      cases a with
      | asyncWrite b => exact absurd rfl (hw b)
      | _ => rfl
    rw [this, ih]
  | full hq _ ih => exact ih
  | @queued q q' l m n h0 hq _ ih =>
    rw [if_neg (by intro h; simp at h)] at ih
    rw [if_neg (by intro he; obtain ⟨rfl, -⟩ := he; simp at h0)]
    exact ih
  | @started q' l m n hp ih =>
    rw [if_neg (by intro h; simp at h)] at ih
    rw [if_pos ⟨rfl, hp.nonempty (by simp)⟩]
    exact congrArg (· + 1) ih

theorem ConnInv.pump {c : Conn} {reg : Prop} (h : ConnInv c reg) {s : CSession} {l : List Act}
    (hp : Pump (queued c.session) l (queued s)) :
    c.pendingWrites + (Asio.writes l).length =
      (if c.writeFailed || s.sendQue.isEmpty then 0 else 1) ∧
      (c.writeFailed = true → s.sendQue ≠ []) := by
  have hq : ∀ t : CSession, queued t = [] ↔ t.sendQue = [] := fun t => by simp [queued]
  have hne := hp.nonempty
  have hw := h.writes
  have hs := h.stopped
  rw [hp.pending]
  simp only [ne_eq, hq] at hne ⊢
  cases hf : c.writeFailed with
  | true =>
    have hs := hs hf
    rw [hf] at hw
    simp [hw, hs, hne hs]
  | false =>
    rw [hf] at hw
    rw [hw]
    cases hc : c.session.sendQue <;> cases hs' : s.sendQue <;> simp_all

theorem ConnInv.busy {c : Conn} {reg : Prop} (h : ConnInv c reg) (hp : 0 < c.pendingReads) :
    c.accepted = true ∧ c.readFailed = false ∧ c.tooLong = false ∧ c.pendingReads = 1 := by
  have ha : c.accepted = true := by
    cases ha : c.accepted with
    | true => rfl
    | false => rw [h.fresh ha] at hp; exact absurd hp (by decide)
  have hr := h.reads ha
  cases hf : c.readFailed <;> cases ht : c.tooLong <;> simp_all

theorem tooLong_iff {l : List Act} {evs : List Event} (h : events l = evs) :
    l.any Act.tooLong = true ↔ ∃ o ∈ evs, o.Above := by
  rw [List.any_eq_true]
  constructor
  · intro hex
    obtain ⟨a, ha, ht⟩ := hex
    cases a with
    | header len => exact ⟨.header len, by rw [← h]; exact List.mem_filterMap.mpr ⟨_, ha, rfl⟩,
        show MAX_LENGTH < len from of_decide_eq_true ht⟩
    | _ => cases ht
  · intro hex
    obtain ⟨o, ho, hb⟩ := hex
    cases o with
    | header len => exact ⟨.header len, header_mem_log (h ▸ ho), decide_eq_true hb⟩
    | sent msg len => exact hb.elim

/-- A successful read that its handler survives. -/
theorem ConnInv.read {c : Conn} {reg : Prop} (h : ConnInv c reg) (hp : 0 < c.pendingReads)
    {chunk : Bytes} (hc : Completion.Ok (.read chunk)) {r : Proc CSession}
    (hr : readChunk c.session chunk = some r) {s : CSession} (ho : r.out = .ok s) :
    ConnInv (Conn.after { c with pendingReads := c.pendingReads - 1 } s r.log)
      (if .clearSession ∈ r.log then False else reg) := by
  obtain ⟨ha, hrf, htl, hone⟩ := h.busy hp
  obtain ⟨q, hrel⟩ := h.rel (by omega)
  have hmax := hc.2
  obtain ⟨r', hr', hout⟩ := readChunk_spec hrel hc.1 (by unfold MAX_LENGTH at hmax; omega)
  obtain rfl : r' = r := Option.some.inj (hr'.symm.trans hr)
  have hq : ¬ q = .rejected := by intro he; subst he; exact hrel
  have habove := rejected_trap.run_iff chunk hq
  obtain ⟨l, out⟩ := r'
  generalize parser.run q chunk = p at hout habove
  obtain ⟨sit, evs⟩ := p
  -- the reader goes on: one read is started, and nothing is cleared
  have goes_on : ∀ {s₁ : CSession},
    out = .ok s₁ → Tidy chunk.length (queued c.session) l evs 1 0 (queued s₁) →
      Rel s₁ sit → ConnInv (Conn.after { c with pendingReads := c.pendingReads - 1 } s l)
        (if .clearSession ∈ l then False else reg) := by
    intro s₁ he ht hrel'
    subst he
    obtain rfl : s₁ = s := by cases ho; rfl
    have hlong : l.any Act.tooLong = false := by
      rw [← Bool.not_eq_true, tooLong_iff ht.events, ← habove]
      intro he; subst he; exact hrel'
    obtain ⟨hw1, hw2⟩ := h.pump ht.pump
    rw [if_neg (not_mem_of_clears ht.clears)]
    exact ⟨fun hf => by simp [Conn.after, ha] at hf,
      fun _ => by simp [Conn.after, hone, ht.reads, hrf, htl, hlong],
      fun _ => ⟨sit, hrel'⟩, hw1, hw2, by simpa [Conn.after, hlong] using h.member⟩
  cases sit with
  | head got => obtain ⟨s₁, he, ht, hrel'⟩ := hout; exact goes_on he ht hrel'
  | body len got => obtain ⟨s₁, he, ht, hrel'⟩ := hout; exact goes_on he ht hrel'
  | rejected =>
    obtain ⟨s₁, he, ht⟩ := hout
    obtain rfl : s₁ = s := by cases ho; cases he; rfl
    have hlong : l.any Act.tooLong = true := (tooLong_iff ht.events).mpr (habove.mp rfl)
    have hmem : Act.clearSession ∈ l := List.count_pos_iff.mp (by rw [← clears, ht.clears]; decide)
    obtain ⟨hw1, hw2⟩ := h.pump ht.pump
    rw [if_pos hmem]
    exact ⟨fun hf => by simp [Conn.after, ha] at hf,
      fun _ => by simp [Conn.after, hone, ht.reads, hlong],
      fun hne => by simp [Conn.after, hone, ht.reads] at hne, hw1, hw2, by simp [Conn.after, hlong]⟩
  | failed =>
    obtain ⟨he, -⟩ := hout
    cases ho
    rcases he with he | he <;> cases he

/-- A failed read. -/
theorem ConnInv.readError {c : Conn} {reg : Prop} (h : ConnInv c reg) (hp : 0 < c.pendingReads) :
    ConnInv (Conn.after { c with pendingReads := c.pendingReads - 1, readFailed := true }
      { c.session with bClose := true } [.close, .clearSession]) False := by
  obtain ⟨ha, -, -, hone⟩ := h.busy hp
  exact ⟨fun hf => by simp [Conn.after, ha] at hf,
    fun _ => by simp [Conn.after, hone, Asio.reads],
    fun hne => by simp [Conn.after, hone, Asio.reads] at hne,
    h.writes, h.stopped, by simp [Conn.after]⟩

theorem ConnInv.sending {c : Conn} {reg : Prop} (h : ConnInv c reg) (hp : 0 < c.pendingWrites) :
    c.accepted = true ∧ c.writeFailed = false ∧ c.session.sendQue ≠ [] ∧ c.pendingWrites = 1 := by
  have ha : c.accepted = true := by
    cases ha : c.accepted with
    | true => rfl
    | false => rw [h.fresh ha] at hp; exact absurd hp (by decide)
  have hw := h.writes
  cases hf : c.writeFailed <;> cases hq : c.session.sendQue <;> simp_all

/-- A completed write: its handler does not find the queue empty. -/
theorem ConnInv.write {c : Conn} {reg : Prop} (h : ConnInv c reg) (hp : 0 < c.pendingWrites)
    (error : Bool) :
    ∃ l s, handleWrite c.session error = ⟨l, .ok s⟩ ∧
      ConnInv
        (Conn.after
          { c with pendingWrites := c.pendingWrites - 1, writeFailed := c.writeFailed || error } s l)
        (if .clearSession ∈ l then False else reg) := by
  obtain ⟨ha, hf, hne, hone⟩ := h.sending hp
  have hmem := h.member
  have hreads := h.reads
  cases error with
  | true =>
    refine ⟨_, _, handleWrite_failed _,
      fun hc => by simp [Conn.after, ha] at hc, ?_, h.rel, ?_, fun _ => hne, ?_⟩
    · simpa [Conn.after, Asio.reads, Act.tooLong] using hreads
    · simp [Conn.after, hone, Asio.writes, Act.write?]
    · simp [Conn.after]
  | false =>
    obtain ⟨m, q, hq⟩ := List.exists_cons_of_ne_nil hne
    cases q with
    | nil =>
      refine ⟨_, _, handleWrite_last hq,
        fun hc => by simp [Conn.after, ha] at hc, ?_, fun hr => ?_, ?_,
        fun hc => by simp [Conn.after, hf] at hc, ?_⟩
      · simpa [Conn.after, Asio.reads] using hreads
      · obtain ⟨p, hrel⟩ := h.rel hr
        exact ⟨p, rel_sendQue hrel [] c.session.bClose⟩
      · simp [Conn.after, hone, Asio.writes]
      · simpa [Conn.after, hf] using hmem
    | cons m' q =>
      refine ⟨_, _, handleWrite_next hq,
        fun hc => by simp [Conn.after, ha] at hc, ?_, fun hr => ?_, ?_,
        fun hc => by simp [Conn.after, hf] at hc, ?_⟩
      · simpa [Conn.after, Asio.reads, Act.tooLong] using hreads
      · obtain ⟨p, hrel⟩ := h.rel hr
        exact ⟨p, rel_sendQue hrel (m' :: q) c.session.bClose⟩
      · simp [Conn.after, hone, hf, Asio.writes, Act.write?]
      · simpa [Conn.after, hf, Act.tooLong] using hmem

/-- An accepted session, started and registered. -/
theorem connInv_start : ConnInv (Conn.after { Conn.new with accepted := true }
    { CSession.new with data := List.replicate MAX_LENGTH.toNat 0 } [.asyncRead]) True :=
  ⟨fun h => by simp [Conn.after] at h, fun _ => rfl, fun _ => ⟨_, rel_cleared rel_new⟩, rfl,
    fun h => by simp [Conn.after, Conn.new] at h, by simp [Conn.after, Conn.new, Act.tooLong]⟩

/-! ## All sessions -/

structure ServerInv (uuid : Nat → String) (v : CServer) : Prop where
  conn : ∀ i c, v.conns[i]? = some c → ConnInv c ((uuid i, i) ∈ v.sessions)
  key : ∀ p ∈ v.sessions, p.1 = uuid p.2 ∧ p.2 < v.conns.length
  pending : v.conns[v.conns.length - 1]? = some Conn.new

section
variable {uuid : Nat → String}

theorem mem_clearSession (hinj : Function.Injective uuid) {l : List (String × Nat)} {i j : Nat} :
    (uuid j, j) ∈ clearSession l (uuid i) ↔ (uuid j, j) ∈ l ∧ j ≠ i := by
  simp only [clearSession, List.mem_filter, bne_iff_ne, ne_eq, hinj.eq_iff]

theorem ServerInv.length_pos {v : CServer} (h : ServerInv uuid v) : 0 < v.conns.length := by
  have hp := h.pending
  cases hc : v.conns with
  | nil => rw [hc] at hp; simp at hp
  | cons c cs => simp

/-- The handler of an accepted session. -/
theorem ServerInv.perform (hinj : Function.Injective uuid) {v v' : CServer} (h : ServerInv uuid v)
    {i : Nat}
    {c c₀ : Conn} (hi : v.conns[i]? = some c) (ha : c.accepted = true) {r : Proc CSession}
    (hc : ∀ s, r.out = .ok s → ConnInv (c₀.after s r.log)
      (if .clearSession ∈ r.log then False else (uuid i, i) ∈ v.sessions))
    (hs : v.perform uuid i c₀ r = some v') : ServerInv uuid v' := by
  cases hout : r.out with
  | error e => simp only [CServer.perform, hout] at hs; cases hs
  | ok s =>
    simp only [CServer.perform, hout, Option.some.injEq] at hs
    subst hs
    have hc := hc s hout
    obtain ⟨hlt, -⟩ := List.getElem?_eq_some_iff.mp hi
    refine ⟨fun j d hj => ?_, fun p hp => ?_, ?_⟩
    · by_cases hij : j = i
      · subst hij
        rw [List.getElem?_set_self hlt] at hj
        cases hj
        split
        · rename_i hmem
          rw [if_pos hmem] at hc
          simpa [mem_clearSession hinj] using hc
        · rename_i hmem
          rwa [if_neg hmem] at hc
      · rw [List.getElem?_set_ne (Ne.symm hij)] at hj
        have hold := h.conn j d hj
        split
        · simpa [mem_clearSession hinj, hij] using hold
        · exact hold
    · rw [List.length_set]
      refine h.key p ?_
      split at hp
      · exact List.mem_of_mem_filter hp
      · exact hp
    · rw [List.length_set, List.getElem?_set_ne, h.pending]
      intro he
      subst he
      rw [h.pending] at hi
      cases hi
      cases ha

theorem ServerInv.startAccept {v : CServer}
    (h : ∀ i c, v.conns[i]? = some c → ConnInv c ((uuid i, i) ∈ v.sessions))
    (hk : ∀ p ∈ v.sessions, p.1 = uuid p.2 ∧ p.2 < v.conns.length) :
    ServerInv uuid v.startAccept := by
  refine ⟨fun i c hi => ?_, fun p hp => ?_, ?_⟩
  · simp only [CServer.startAccept] at hi ⊢
    by_cases hlt : i < v.conns.length
    · rw [List.getElem?_append_left hlt] at hi
      exact h i c hi
    · have hlen : i = v.conns.length := by
        have := (List.getElem?_eq_some_iff.mp hi).1
        simp only [List.length_append, List.length_singleton] at this
        omega
      subst hlen
      rw [List.getElem?_concat_length] at hi
      cases hi
      have hno : ¬ (uuid v.conns.length, v.conns.length) ∈ v.sessions := fun hmem =>
        absurd (hk _ hmem).2 (Nat.lt_irrefl _)
      simpa [hno] using connInv_new
  · obtain ⟨h1, h2⟩ := hk p hp
    refine ⟨h1, ?_⟩
    simp only [CServer.startAccept, List.length_append]
    omega
  · simp [CServer.startAccept]

/-- A new session enters `_sessions` under a key that is not there. -/
theorem ServerInv.insert (hinj : Function.Injective uuid) {v : CServer} (h : ServerInv uuid v) :
    insertSession v.sessions (uuid (v.conns.length - 1)) (v.conns.length - 1) =
      v.sessions ++ [(uuid (v.conns.length - 1), v.conns.length - 1)] := by
  refine if_neg fun hany => ?_
  obtain ⟨p, hp, he⟩ := List.any_eq_true.mp hany
  obtain ⟨k, j⟩ := p
  have hk : k = uuid j := (h.key _ hp).1
  subst hk
  have hj : j = v.conns.length - 1 := hinj (by simpa using he)
  subst hj
  simpa [Conn.new] using (h.conn _ _ h.pending).member.mp hp

theorem ServerInv.accept (hinj : Function.Injective uuid) {v v' : CServer} (h : ServerInv uuid v)
    {error : Bool}
    (hs : v.step uuid (.accept error) = some v') : ServerInv uuid v' := by
  have hpos := h.length_pos
  obtain ⟨p, hp⟩ : ∃ p, v.conns.length - 1 = p := ⟨_, rfl⟩
  have hpend := h.pending
  have hins := h.insert hinj
  rw [hp] at hpend hins
  cases error with
  | true =>
    simp only [CServer.step, hp, hpend, Bool.not_true, Bool.false_eq_true, if_false,
      Option.some.injEq] at hs
    subst hs
    exact .startAccept h.conn h.key
  | false =>
    simp only [CServer.step, hp, hpend, Bool.not_false, if_true] at hs
    have hperf : v.perform uuid p { Conn.new with accepted := true } Conn.new.session.start =
        some ⟨v.conns.set p (Conn.after { Conn.new with accepted := true }
          { CSession.new with data := List.replicate MAX_LENGTH.toNat 0 } [.asyncRead]),
            v.sessions⟩ := rfl
    rw [hperf, Option.map_some, Option.some.injEq] at hs
    subst hs
    rw [hins]
    refine .startAccept (fun i c hi => ?_) fun e he => ?_
    · simp only at hi ⊢
      by_cases hip : i = p
      · subst hip
        rw [List.getElem?_set_self (by omega)] at hi
        cases hi
        simpa using connInv_start
      · rw [List.getElem?_set_ne (Ne.symm hip)] at hi
        simpa [hip] using h.conn i c hi
    · rw [List.length_set]
      rcases List.mem_append.mp he with he | he
      · exact h.key e he
      · rw [List.mem_singleton] at he
        subst he
        exact ⟨rfl, by show p < v.conns.length; omega⟩

/-- **Invariant of the server.** -/
theorem server_inv (hinj : Function.Injective uuid) : (server uuid).Inductive (ServerInv uuid) where
  init := by
    intro v hv
    subst hv
    exact .startAccept (fun i c hi => by simp at hi) fun p hp => by simp at hp
  step := by
    intro v l v' h hs
    have hs : v.step uuid l = some v' := hs
    cases l with
    | accept error => exact h.accept hinj hs
    | read i chunk =>
      cases hi : v.conns[i]? with
      | none => simp only [CServer.step, hi] at hs; cases hs
      | some c =>
        simp only [CServer.step, hi] at hs
        split at hs
        · rename_i hg
          obtain ⟨r, hr, hp⟩ := Option.bind_eq_some_iff.mp hs
          have hc := h.conn i c hi
          exact h.perform hinj hi (hc.busy hg.1).1 (fun s ho => hc.read hg.1 hg.2 hr ho) hp
        · cases hs
    | readError i =>
      cases hi : v.conns[i]? with
      | none => simp only [CServer.step, hi] at hs; cases hs
      | some c =>
        simp only [CServer.step, hi, handleRead_failed, Option.bind_some] at hs
        split at hs
        · rename_i hg
          have hc := h.conn i c hi
          exact h.perform hinj hi (hc.busy hg).1
            (fun s ho => by cases ho; simpa using hc.readError hg) hs
        · cases hs
    | write i error =>
      cases hi : v.conns[i]? with
      | none => simp only [CServer.step, hi] at hs; cases hs
      | some c =>
        simp only [CServer.step, hi] at hs
        split at hs
        · rename_i hg
          have hc := h.conn i c hi
          obtain ⟨l, s, hw, hinv⟩ := hc.write hg error
          exact h.perform hinj hi (hc.sending hg).1
            (fun s' ho => by rw [hw] at ho ⊢; cases ho; exact hinv) hs
        · cases hs

/-- **Registry and liveness.** Distinct uuids; any order of completions; up
to the first handler that faults. -/
theorem registry (hinj : Function.Injective uuid) (v : CServer) (h : (server uuid).Reachable v) :
    (∀ p ∈ v.sessions, p.1 = uuid p.2 ∧ p.2 < v.conns.length) ∧
    ∀ i c, v.conns[i]? = some c →
      ((uuid i, i) ∈ v.sessions ↔
        c.accepted = true ∧ c.readFailed = false ∧ c.writeFailed = false ∧ c.tooLong = false) ∧
      ((uuid i, i) ∈ v.sessions → c.pendingReads = 1) ∧
      (0 < c.pendingReads → ∀ error chunk, Completion.Ok (.read chunk) →
        (handleRead (c.session.received chunk) error chunk.length).isSome) ∧
      (0 < c.pendingWrites → ∀ error, ∃ l s, handleWrite c.session error = ⟨l, .ok s⟩) := by
  have hi := (server_inv hinj).reachable v h
  refine ⟨hi.key, fun i c hc => ?_⟩
  have hinv := hi.conn i c hc
  refine ⟨hinv.member, fun hmem => ?_, fun hp error chunk hok => ?_, fun hp error => ?_⟩
  · obtain ⟨h1, h2, -, h4⟩ := hinv.member.mp hmem
    rw [hinv.reads h1, h2, h4]; rfl
  · cases error with
    | true => rfl
    | false =>
      obtain ⟨q, hrel⟩ := hinv.rel (by omega)
      have hmax := hok.2
      obtain ⟨r, hr, -⟩ := readChunk_spec hrel hok.1 (by unfold MAX_LENGTH at hmax; omega)
      exact Option.isSome_iff_exists.mpr ⟨r, hr⟩
  · obtain ⟨l, s, hw, -⟩ := hinv.write hp error
    exact ⟨l, s, hw⟩

end

theorem replicate_injective : Function.Injective fun n => String.ofList (List.replicate n 'x') := by
  intro m n h
  have h : List.replicate m 'x' = List.replicate n 'x' := String.ofList_injective h
  simpa using congrArg List.length h

/-- Three accepts, of which the second fails, and a failed read of the first session. -/
theorem registry_run : ∃ v, LTS.exec
    (CServer.step fun n => String.ofList (List.replicate n 'x')) .new
    [.accept false, .accept true, .accept false, .readError 0] = some v ∧ v.sessions = [("xx", 2)] ∧
    ∀ c, v.conns[2]? = some c → ("xx", 2) ∈ v.sessions → c.pendingReads = 1 := by
  have hrun : ∃ v, LTS.exec (CServer.step fun n => String.ofList (List.replicate n 'x')) .new
      [.accept false, .accept true, .accept false, .readError 0] = some v ∧
        v.sessions = [("xx", 2)] :=
    ⟨_, rfl, by decide⟩
  obtain ⟨v, he, hs⟩ := hrun
  exact ⟨v, he, hs, fun c hc => ((registry replicate_injective v
    (LTS.reachable_of_exec rfl he)).2 2 c hc).2.1⟩

end Cxx.Asio
