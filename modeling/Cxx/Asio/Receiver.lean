import Cxx.Asio.ReadLoop

/-!
# A session served by its completion handlers

`serve` runs the handler of one completion; `Receiver` is what is left of
the session for the next one. Reads carry chunks of the peer's stream,
writes may complete in between.

* `serve_simulates`: the receiver simulates the byte parser, so its `Send`
  calls and its final situation are those of the stream.
* `send_round_trip`: the frames the sending constructor builds come back as
  the payloads they were built from, however they are cut.
* `cut_independent`: two cuts of any stream give the same `Send` calls and
  the same final situation.
* `safe_iff`: no call touches memory it must not, and every header is
  checked, exactly on the streams whose headers announce no negative length.
-/
namespace Cxx.Asio

/-- A completed operation: `async_read_some` with the bytes it read, or
`async_write`. -/
inductive Completion where
  | read (chunk : Bytes)
  | write (error : Bool)
  deriving DecidableEq, Repr

def Completion.content : Completion → Bytes
  | .read chunk => chunk
  | .write _ => []

/-- A read brings 1..MAX_LENGTH bytes. -/
def Completion.Ok : Completion → Prop
  | .read chunk => 0 < chunk.length ∧ (chunk.length : Int) ≤ MAX_LENGTH
  | .write _ => True

/-- What a handler call leaves: a session that goes on reading, one that was
cleared by its reader, or one whose handler faulted or has not finished. -/
inductive Receiver where
  | reading (s : CSession)
  | rejected
  | failed (e : Fault)
  | stuck
  deriving DecidableEq, Repr

/-- One handler call: the bytes it was given, and what it did. -/
structure Call where
  bytesTransferred : Nat
  log : List Act
  deriving DecidableEq, Repr

/-- The state of a receiver after `HandleRead`. -/
def verdict (r : Proc CSession) : Receiver :=
  match r.out with
  | .error e => .failed e
  | .ok s => if .clearSession ∈ r.log then .rejected else .reading s

/-- The handler of a completion. A write completes only while a node is in
the queue; a receiver that is not reading gets no more reads. -/
def serve : Receiver → Completion → Receiver × List Call
  | .reading s, .read chunk =>
    match readChunk s chunk with
    | none => (.stuck, [])
    | some r => (verdict r, [⟨chunk.length, r.log⟩])
  | .reading s, .write error =>
    if s.sendQue = [] then (.reading s, [])
    else
      let r := handleWrite s error
      match r.out with
      | .error e => (.failed e, [⟨0, r.log⟩])
      | .ok s => (.reading s, [⟨0, r.log⟩])
  | t, _ => (t, [])

/-- A fresh session served until it stops or the completions end. -/
def session (cs : List Completion) : Receiver × List Call := Mealy.feed serve (.reading .new) cs

def Act.sent? : Act → Option (Bytes × Int)
  | .send msg n _ => some (msg.take n.toNat, n)
  | _ => none

/-- The arguments of the calls of `Send`. -/
def sends (calls : List Call) : List (Bytes × Int) := (calls.flatMap Call.log).filterMap Act.sent?

/-- The pending data of a receiver, without the bookkeeping around it. -/
def Receiver.situation : Receiver → Option Situation
  | .reading s =>
    if !s.bHeadParse then some (.head (s.recvHeadNode.data.take s.recvHeadNode.curLen.toNat))
    else s.recvMsgNode.map fun m => .body m.totalLen (m.data.take m.curLen.toNat)
  | .rejected => some .rejected
  | .failed _ => some .failed
  | .stuck => none

/-! ## The simulation -/

def Situated : Receiver → Situation → Prop
  | .reading s, q => Rel s q
  | .rejected, q => q = .rejected
  | .failed e, q => q = .failed ∧ (e = .badNewLength ∨ e = .outOfBounds)
  | .stuck, _ => False

theorem Holds.taken {m : MsgNode} {len : Int} {got : Bytes} (h : Holds m len got) :
    m.data.take m.curLen.toNat = got := by
  rw [h.cur, Int.toNat_natCast]; exact h.filled

theorem Situated.situation {t : Receiver} {q : Situation} (h : Situated t q) :
    t.situation = some q := by
  match t, q, h with
  | .reading s, .head got, ⟨_, hb, _, hold⟩ =>
    simp only [Receiver.situation, hb, Bool.not_false, if_true, hold.taken]
  | .reading s, .body len got, ⟨_, hb, _, m, hm, hold, _⟩ =>
    simp [Receiver.situation, hb, hm, hold.total, hold.taken]
  | .reading s, .rejected, h => exact h.elim
  | .reading s, .failed, h => exact h.elim
  | .rejected, _, h => rw [h]; rfl
  | .failed e, _, h => rw [h.1]; rfl

theorem not_mem_of_clears {l : List Act} (h : clears l = 0) : .clearSession ∉ l :=
  List.count_eq_zero.mp h

theorem situated_verdict {N : Nat} {q : List Bytes} {p : Situation × List Event} {r : Proc CSession}
    (h : Outcome N q p r) : Situated (verdict r) p.1 ∧ events r.log = p.2 := by
  obtain ⟨l, out⟩ := r
  obtain ⟨sit, evs⟩ := p
  have reads_on : ∀ {s'}, Tidy N q l evs 1 0 (queued s') → Rel s' sit →
      Situated (verdict ⟨l, .ok s'⟩) sit ∧ events l = evs := by
    intro s' ht hr
    simp only [verdict, if_neg (not_mem_of_clears ht.clears)]
    exact ⟨hr, ht.events⟩
  cases sit with
  | head got => obtain ⟨s', rfl, ht, hr⟩ := h; exact reads_on ht hr
  | body len got => obtain ⟨s', rfl, ht, hr⟩ := h; exact reads_on ht hr
  | rejected =>
    obtain ⟨s', rfl, ht⟩ := h
    have hmem : Act.clearSession ∈ l := List.count_pos_iff.mp (by rw [← clears, ht.clears]; decide)
    simp only [verdict, if_pos hmem]
    exact ⟨rfl, ht.events⟩
  | failed =>
    obtain ⟨he, hev, -, -⟩ := h
    rcases he with rfl | rfl
    · exact ⟨⟨rfl, .inl rfl⟩, hev⟩
    · exact ⟨⟨rfl, .inr rfl⟩, hev⟩

theorem serve_read {s : CSession} {q : Situation} (h : Rel s q) {chunk : Bytes}
    (hc : Completion.Ok (.read chunk)) :
    ∃ r, serve (.reading s) (.read chunk) = (verdict r, [⟨chunk.length, r.log⟩]) ∧
      Outcome chunk.length (queued s) (parser.run q chunk) r := by
  have hmax := hc.2
  obtain ⟨r, hr, ho⟩ := readChunk_spec h hc.1 (by unfold MAX_LENGTH at hmax; omega)
  exact ⟨r, by simp only [serve, hr], ho⟩

/-- A completed write touches only the send queue and `_b_close`. -/
theorem serve_write (s : CSession) (error : Bool) :
    ∃ q b calls, serve (.reading s) (.write error) =
      (.reading { s with sendQue := q, bClose := b }, calls) ∧
      ∀ c ∈ calls, events c.log = [] ∧ c.bytesTransferred = 0 ∧ ∀ a ∈ c.log, a.Safe 0 := by
  cases hq : s.sendQue with
  | nil => exact ⟨s.sendQue, s.bClose, [], by simp only [serve, if_pos hq], by simp⟩
  | cons m q =>
    have hne : ¬ s.sendQue = [] := by simp [hq]
    cases error with
    | true =>
      refine ⟨m :: q, true, [⟨0, [.close, .clearSession]⟩], ?_, ?_⟩
      · simp only [serve, if_neg hne, handleWrite_failed, ← hq]
      · simp [events, Act.event?, Act.Safe]
    | false =>
      cases q with
      | nil =>
        refine ⟨[], s.bClose, [⟨0, []⟩], ?_, by simp [events]⟩
        simp only [serve, if_neg hne, handleWrite_last hq]
      | cons m' q =>
        refine ⟨m' :: q, s.bClose, [⟨0, [.asyncWrite m'.frame]⟩], ?_, ?_⟩
        · simp only [serve, if_neg hne, handleWrite_next hq]
        · simp [events, Act.event?, Act.Safe]

theorem rel_sendQue {s : CSession} {q : Situation} (h : Rel s q) (l : List MsgNode) (b : Bool) :
    Rel { s with sendQue := l, bClose := b } q := by
  cases q <;> exact h

/-- **Simulation.** -/
theorem serve_simulates :
    parser.Simulates Completion.content (fun c => events c.log) Completion.Ok serve Situated := by
  intro t q c hok hR
  match t, c, hR with
  | .reading s, .read chunk, hR =>
    obtain ⟨r, hs, ho⟩ := serve_read hR hok
    obtain ⟨h1, h2⟩ := situated_verdict ho
    rw [hs]
    exact ⟨h1, by simpa [Completion.content] using h2⟩
  | .reading s, .write error, hR =>
    obtain ⟨l, b, calls, hs, hc⟩ := serve_write s error
    rw [hs]
    exact ⟨rel_sendQue hR l b, List.flatMap_eq_nil_iff.mpr fun c h => (hc c h).1⟩
  | .rejected, c, rfl =>
    exact ⟨by simp [serve, Situated, parse_rejected], by simp [serve, parse_rejected]⟩
  | .failed e, c, ⟨rfl, he⟩ =>
    exact ⟨by simp [serve, Situated, parse_failed, he], by simp [serve, parse_failed]⟩

theorem situated_new : Situated (.reading .new) (.head []) := rel_new

/-! ## What a session makes of a stream -/

theorem sends_eq (calls : List Call) :
    sends calls = (calls.flatMap fun c => events c.log).filterMap Event.sent? := by
  have h : ∀ l, (events l).filterMap Event.sent? = l.filterMap Act.sent? := by
    intro l
    rw [events, List.filterMap_filterMap]
    congr 1
    funext a
    cases a <;> rfl
  rw [sends, List.filterMap_flatMap, List.filterMap_flatMap]
  simp only [h]

/-- The headers, the calls of `Send` and the final situation are the parser's. -/
theorem session_spec (cs : List Completion) (hc : ∀ c ∈ cs, c.Ok) :
    (session cs).1.situation = some (parser.run (.head []) (cs.flatMap Completion.content)).1 ∧
      ((session cs).2.flatMap fun c => events c.log) =
        (parser.run (.head []) (cs.flatMap Completion.content)).2 := by
  obtain ⟨h1, h2⟩ := serve_simulates.feed_spec situated_new cs hc
  exact ⟨h1.situation, h2⟩

theorem header_mem_events {calls : List Call} {c : Call} (hc : c ∈ calls) {len : Int}
    (h : .header len ∈ c.log) : .header len ∈ calls.flatMap fun c => events c.log :=
  List.mem_flatMap.mpr ⟨c, hc, List.mem_filterMap.mpr ⟨_, h, rfl⟩⟩

theorem header_mem_log {l : List Act} {len : Int} (h : .header len ∈ events l) :
    .header len ∈ l := by
  obtain ⟨a, ha, he⟩ := List.mem_filterMap.mp h
  cases a with
  | header n => cases he; exact ha
  | _ => cases he

/-- The nodes the sending constructor builds for a list of payloads. -/
theorem ofMsg_nodes (ps : List Bytes) (hp : ∀ p ∈ ps, (p.length : Int) ≤ MAX_LENGTH) :
    ∃ nodes : List MsgNode, (ps.map fun p => (MsgNode.ofMsg p p.length).out) = nodes.map .ok ∧
      nodes.map MsgNode.frame = ps.map fun p => lengthBytes p.length ++ p := by
  induction ps with
  | nil => exact ⟨[], rfl, rfl⟩
  | cons p ps ih =>
    have hp1 := hp p (by simp)
    have h1 : p.length ≤ 32765 := by unfold MAX_LENGTH at hp1; omega
    obtain ⟨m, hm, -, -, -, hf⟩ := MsgNode.ofMsg_frame (Nat.le_refl p.length) h1
    obtain ⟨nodes, hn, hfs⟩ := ih fun q hq => hp q (by simp [hq])
    rw [List.take_length] at hf
    refine ⟨m :: nodes, ?_, ?_⟩
    · rw [List.map_cons, hm, hn]; rfl
    · rw [List.map_cons, List.map_cons, hf, hfs]

/-- **Framing round trip.** Payloads of 0..MAX_LENGTH bytes, framed by the
sending constructor and cut in any way, come back as the arguments of `Send`;
nothing is rejected and the session waits for a header again. -/
theorem send_round_trip (ps : List Bytes) (hp : ∀ p ∈ ps, (p.length : Int) ≤ MAX_LENGTH) :
    ∃ nodes : List MsgNode, (ps.map fun p => (MsgNode.ofMsg p p.length).out) = nodes.map .ok ∧
      ∀ cs : List Completion, (∀ c ∈ cs, c.Ok) →
        cs.flatMap Completion.content = nodes.flatMap MsgNode.frame →
          sends (session cs).2 = (ps.map fun p => (p, (p.length : Int))) ∧
            (∀ c ∈ (session cs).2, ∀ len, .header len ∈ c.log → 0 ≤ len ∧ len ≤ MAX_LENGTH) ∧
            (session cs).1.situation = some (.head []) := by
  obtain ⟨nodes, hn, hf⟩ := ofMsg_nodes ps hp
  refine ⟨nodes, hn, fun cs hc hcut => ?_⟩
  obtain ⟨hsit, hev⟩ := session_spec cs hc
  rw [hcut, List.flatMap_def (f := MsgNode.frame), hf, parse_frames ps hp] at hsit hev
  refine ⟨?_, ?_, hsit⟩
  · rw [sends_eq, hev]; exact payloads_sent ps
  · intro c hmem len hlen
    have := header_mem_events hmem hlen
    rw [hev] at this
    obtain ⟨l, hl, hin⟩ := List.mem_flatten.mp this
    obtain ⟨p, hps, rfl⟩ := List.mem_map.mp hl
    have hle := hp p hps
    simp only [List.mem_cons, List.not_mem_nil, or_false, Event.header.injEq, reduceCtorEq] at hin
    omega

def threePayloads : List Bytes := [[0x2A], [], [0x2B, 0x2C]]

/-- Their frames, in pieces that cut two of the lengths. -/
def threePieces : List Completion :=
  [.read [0x00], .read [0x01, 0x2A, 0x00], .read [0x00, 0x00, 0x02, 0x2B, 0x2C]]

theorem send_round_trip_three :
    ∃ nodes : List MsgNode, (threePayloads.map fun p => (MsgNode.ofMsg p p.length).out) =
      nodes.map .ok ∧ threePieces.flatMap Completion.content = nodes.flatMap MsgNode.frame ∧
      sends (session threePieces).2 = [([0x2A], 1), ([], 0), ([0x2B, 0x2C], 2)] ∧
      (session threePieces).1.situation = some (.head []) := by
  have hp : ∀ p ∈ threePayloads, (p.length : Int) ≤ MAX_LENGTH := by decide
  obtain ⟨nodes, hn, hall⟩ := send_round_trip threePayloads hp
  obtain ⟨nodes', hn', hframes⟩ := ofMsg_nodes threePayloads hp
  have hsame : nodes = nodes' :=
    List.map_injective_iff.mpr (fun _ _ h => Except.ok.inj h) (hn.symm.trans hn')
  have hcut : threePieces.flatMap Completion.content = nodes.flatMap MsgNode.frame := by
    rw [hsame, List.flatMap_def (f := MsgNode.frame), hframes]
    decide
  obtain ⟨hsends, -, hsit⟩ := hall threePieces (by simp [threePieces, Completion.Ok, MAX_LENGTH])
    hcut
  exact ⟨nodes, hn, hcut, hsends, hsit⟩

/-- **Cuts do not matter**, for well-formed and malformed streams alike. -/
theorem cut_independent (cs ds : List Completion) (hc : ∀ c ∈ cs, c.Ok) (hd : ∀ d ∈ ds, d.Ok)
    (h : cs.flatMap Completion.content = ds.flatMap Completion.content) :
    sends (session cs).2 = sends (session ds).2 ∧
      ∃ q, (session cs).1.situation = some q ∧ (session ds).1.situation = some q := by
  obtain ⟨hev, q, hcs, hds⟩ := serve_simulates.cut_free situated_new hc hd h
  refine ⟨?_, q, hcs.situation, hds.situation⟩
  rw [sends_eq, sends_eq]
  exact congrArg _ hev

/-- A truncated frame, cut inside its length and not cut at all. -/
theorem cut_independent_truncated :
    sends (session [.read [0x00], .read [0x02, 0x2A]]).2 =
      sends (session [.read [0x00, 0x02, 0x2A]]).2 ∧
      ∃ q, (session [.read [0x00], .read [0x02, 0x2A]]).1.situation = some q ∧
        (session [.read [0x00, 0x02, 0x2A]]).1.situation = some q :=
  cut_independent _ _ (by simp [Completion.Ok, MAX_LENGTH])
    (by simp [Completion.Ok, MAX_LENGTH]) rfl

/-! ## Which streams are safe -/

/-- What the copies, allocations and length checks of one handler call should be. -/
structure SafeCall (c : Call) : Prop where
  /-- A completed header leads to `ClearSession` or announces 0..MAX_LENGTH bytes. -/
  headers : ∀ l₁ len l₂, c.log = l₁ ++ .header len :: l₂ →
    0 ≤ len ∧ len ≤ MAX_LENGTH ∨ l₂.head? = some .clearSession
  allocs : ∀ size, .alloc size ∈ c.log → 0 ≤ size
  /-- A copy stays inside the node and inside the bytes just received. -/
  copies : ∀ (off : Int) (len : Nat) (cap srcOff : Int), .copy off len cap srcOff ∈ c.log →
    0 ≤ off ∧ off + len ≤ cap ∧ 0 ≤ srcOff ∧ srcOff + len ≤ c.bytesTransferred

theorem safeCall_of_tidy {n rd cl : Nat} {q q' : List Bytes} {l : List Act} {evs : List Event}
    (h : Tidy n q l evs rd cl q') (hpos : ∀ len, .header len ∈ evs → 0 ≤ len) :
    SafeCall ⟨n, l⟩ where
  headers := by
    intro l₁ len l₂ (hl : l = _)
    subst hl
    have hmem : Event.header len ∈ evs := by rw [← h.events]; simp [events, Act.event?]
    by_cases hlarge : MAX_LENGTH < len
    · exact .inr (h.answered.spec hlarge)
    · exact .inl ⟨hpos len hmem, by omega⟩
  allocs := fun size hs => h.safe _ hs
  copies := fun off len cap srcOff hs => h.safe _ hs

/-- A read is safe exactly when it completes no negative header. -/
theorem outcome_safe_iff {N : Nat} {q : List Bytes} {p : Situation × List Event} {r : Proc CSession}
    (h : Outcome N q p r) (hp : p.1.Negative ↔ ∃ o ∈ p.2, o.Below) :
    SafeCall ⟨N, r.log⟩ ↔ ¬ ∃ o ∈ p.2, o.Below := by
  obtain ⟨sit, evs⟩ := p
  constructor
  · intro hsafe hex
    obtain ⟨o, ho, hbelow⟩ := hex
    have hbad : sit.Negative := hp.mpr ⟨o, ho, hbelow⟩
    -- neither way of going wrong calls `ClearSession`
    have hlog : events r.log = evs ∧ clears r.log = 0 := by
      match sit, h with
      | .failed, h => exact ⟨h.2.1, h.2.2.2⟩
      | .body len got, ⟨s', _, ht, _⟩ => exact ⟨ht.events, ht.clears⟩
      | .head got, _ => exact hbad.elim
      | .rejected, _ => exact hbad.elim
    cases o with
    | sent msg n => exact hbelow
    | header n =>
      have hbelow : n < 0 := hbelow
      obtain ⟨l₁, l₂, hl⟩ := List.append_of_mem (header_mem_log (hlog.1 ▸ ho))
      rcases hsafe.headers l₁ n l₂ hl with hin | hclear
      · omega
      · refine not_mem_of_clears hlog.2 ?_
        rw [hl]
        exact List.mem_append_right _ (List.mem_cons_of_mem _ (List.mem_of_mem_head? hclear))
  · intro hno
    have hpos : ∀ len, .header len ∈ evs → 0 ≤ len := fun len hmem =>
      Int.not_lt.mp fun hlt => hno ⟨_, hmem, hlt⟩
    match sit, h with
    | .failed, _ => exact absurd (hp.mp trivial) hno
    | .body len got, ⟨s', _, ht, _⟩ => exact safeCall_of_tidy ht hpos
    | .head got, ⟨s', _, ht, _⟩ => exact safeCall_of_tidy ht hpos
    | .rejected, ⟨s', _, ht⟩ => exact safeCall_of_tidy ht hpos

theorem serve_safe {t : Receiver} {q : Situation} (h : Situated t q) (hq : ¬ q.Negative)
    {c : Completion} (hc : c.Ok) : (∀ p ∈ (serve t c).2, SafeCall p) ↔
      ¬ ∃ o ∈ (parser.run q c.content).2, o.Below := by
  match t, c, h with
  | .reading s, .read chunk, h =>
    obtain ⟨r, hs, ho⟩ := serve_read h hc
    rw [hs, List.forall_mem_singleton, outcome_safe_iff ho (negative_trap.run_iff chunk hq)]
    rfl
  | .reading s, .write error, h =>
    obtain ⟨l, b, calls, hs, hcalls⟩ := serve_write s error
    rw [hs]
    refine iff_of_true (fun p hp => ?_) (by simp [Completion.content])
    obtain ⟨hev, hn, hsafe⟩ := hcalls p hp
    refine ⟨fun l₁ len l₂ he => ?_, fun size ha => hsafe _ ha, fun off len cap srcOff ha => ?_⟩
    · rw [he] at hev; simp [events, Act.event?] at hev
    · rw [hn]; exact hsafe _ ha
  | .rejected, c, rfl => simp [serve, parse_rejected]
  | .failed e, c, ⟨rfl, _⟩ => exact absurd trivial hq

theorem feed_safe {cs : List Completion} : ∀ {t : Receiver} {q : Situation}, Situated t q →
    ¬ q.Negative → (∀ c ∈ cs, c.Ok) → ((∀ p ∈ (Mealy.feed serve t cs).2, SafeCall p) ↔
      ¬ ∃ o ∈ (parser.run q (cs.flatMap Completion.content)).2, o.Below) := by
  induction cs with
  | nil => intro t q _ _ _; simp [Mealy.feed]
  | cons c cs ih =>
    intro t q h hq hok
    have h1 := serve_safe h hq (hok c (by simp))
    have hnext := (serve_simulates t q c (hok c (by simp)) h).1
    have hiff := negative_trap.run_iff c.content hq
    rw [Mealy.feed_cons, List.forall_mem_append, List.flatMap_cons, Mealy.run_append, h1]
    simp only [List.mem_append, or_and_right, exists_or, not_or]
    exact and_congr_right fun hno => ih hnext (fun hbad => hno (hiff.mp hbad)) fun d hd =>
      hok d (by simp [hd])

theorem below_iff (s : Bytes) :
    (¬ ∃ o ∈ (parser.run (.head []) s).2, o.Below) ↔ ∀ n ∈ headers s, 0 ≤ n := by
  rw [← parse_headers]
  constructor
  · intro hno n hn
    obtain ⟨e, he, hh⟩ := List.mem_filterMap.mp hn
    cases e with
    | header len => cases hh; exact Int.not_lt.mp fun hlt => hno ⟨_, he, hlt⟩
    | sent msg len => cases hh
  · intro h hex
    obtain ⟨o, ho, hb⟩ := hex
    cases o with
    | header len =>
      have := h len (List.mem_filterMap.mpr ⟨_, ho, rfl⟩)
      have hb : len < 0 := hb
      omega
    | sent msg len => exact hb

/-- **Memory safety**, exactly: a session checks every header and stays
inside its buffers on the streams that announce no negative length. -/
theorem safe_iff (cs : List Completion) (hc : ∀ c ∈ cs, c.Ok) :
    (∀ c ∈ (session cs).2, SafeCall c) ↔
      ∀ n ∈ headers (cs.flatMap Completion.content), 0 ≤ n := by
  rw [session, feed_safe situated_new (fun h => h) hc, below_iff]

/-- A header of two `FF` bytes announces the length -1: it passes the check,
an array of 0 bytes is allocated for it, and the next byte is copied there. -/
theorem negative_length_unsafe :
    (¬ ∀ c ∈ (session [.read [0xFF, 0xFF, 0x00]]).2, SafeCall c) ∧
      (session [.read [0xFF, 0xFF, 0x00]]).1.situation = some .failed := by
  have ha : announced [0xFF, 0xFF] = -1 := by rw [announced_pair]; decide
  have hok : ∀ c ∈ [Completion.read [0xFF, 0xFF, 0x00]], c.Ok := by
    simp [Completion.Ok, MAX_LENGTH]
  have hrun : parser.run (.head []) [0xFF, 0xFF, 0x00] = (.failed, [.header (-1)]) := by
    rw [parse_two, ha, afterHeader_body (by decide) (by decide) (by decide),
      parse_negative (by decide)]
    rfl
  have hrun : parser.run (.head [])
    ([Completion.read [0xFF, 0xFF, 0x00]].flatMap Completion.content) = _ := hrun
  refine ⟨fun h => ?_, ?_⟩
  · refine (feed_safe situated_new (fun h => h) hok).mp h ?_
    rw [hrun]
    exact ⟨.header (-1), by simp, show (-1 : Int) < 0 by decide⟩
  · rw [(session_spec _ hok).1, hrun]

/-- The same stream with a first byte of 0 is safe. -/
theorem safe_iff_in_range :
    (∀ c ∈ [Completion.read [0x00, 0x01, 0x2A]], c.Ok) ∧
      ((∀ c ∈ (session [.read [0x00, 0x01, 0x2A]]).2, SafeCall c) ↔
        ∀ n ∈ headers ([Completion.read [0x00, 0x01, 0x2A]].flatMap Completion.content), 0 ≤ n) :=
  have hok : ∀ c ∈ [Completion.read [0x00, 0x01, 0x2A]], c.Ok := by simp [Completion.Ok, MAX_LENGTH]
  ⟨hok, safe_iff _ hok⟩

end Cxx.Asio
