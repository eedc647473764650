import Cxx.Asio.Receiver
import Cxx.Asio.WritePump

/-!
# What a session writes back

Reads and successful writes in any order. Every complete frame of the input
is offered to `Send`; `echo` says which of them are written.

* `Pump.flow`: a handler neither loses nor adds a node between what `Send`
  takes, what is started and what waits.
* `serve_flow`: and while the queue is not empty one write more has been
  started than has completed.
* `drain`: the writes that complete work the queue off.
* `echo`: what has been started, then what waits, are the offered frames
  that found at most MAX_SENDQUE nodes in the queue, verbatim and in order;
  and all are written in the end.
-/
namespace Cxx.Asio

def Act.offer? : Act → Option (Bytes × Int)
  | .send msg n sendQueSize => some (lengthBytes n ++ msg.take n.toNat, sendQueSize)
  | _ => none

/-- The calls of `Send`: the frame of the arguments, and the number of nodes
in the queue at the time. -/
def offers (l : List Act) : List (Bytes × Int) := l.filterMap Act.offer?

@[simp] theorem offers_append (l₁ l₂ : List Act) : offers (l₁ ++ l₂) = offers l₁ ++ offers l₂ :=
  List.filterMap_append

/-- The offers that did not find the queue over full. -/
def taken (o : List (Bytes × Int)) : List Bytes :=
  (o.filter fun p => p.2 ≤ MAX_SENDQUE).map Prod.fst

@[simp] theorem taken_append (o₁ o₂ : List (Bytes × Int)) :
    taken (o₁ ++ o₂) = taken o₁ ++ taken o₂ := by
  simp [taken]

theorem taken_cons (f : Bytes) (k : Int) (o : List (Bytes × Int)) :
    taken ((f, k) :: o) = if k ≤ MAX_SENDQUE then f :: taken o else taken o := by
  unfold taken
  by_cases h : k ≤ MAX_SENDQUE
  · rw [if_pos h, List.filter_cons_of_pos (by simpa using h)]; rfl
  · rw [if_neg h, List.filter_cons_of_neg (by simpa using h)]

theorem offers_send (msg : Bytes) (n k : Int) (l : List Act) :
    offers (.send msg n k :: l) = (lengthBytes n ++ msg.take n.toNat, k) :: offers l := rfl

theorem writes_send (msg : Bytes) (n k : Int) (l : List Act) :
    writes (.send msg n k :: l) = writes l := rfl

/-- What waits behind the write in flight, and what is taken, is started or
waits afterwards. -/
theorem Pump.flow {q q' : List Bytes} {l : List Act} (h : Pump q l q') :
    q.tail ++ taken (offers l) = writes l ++ q'.tail := by
  induction h with
  | done q => simp [offers, taken, writes]
  | @other q q' a l ha hw _ ih =>
    have h1 : offers (a :: l) = offers l := by
      cases a with
      | send m n k => exact absurd rfl (ha m n k)
      | _ => rfl
    have h2 : writes (a :: l) = writes l := by
      cases a with
      | asyncWrite b => exact absurd rfl (hw b)
      | _ => rfl
    rw [h1, h2, ih]
  | full hq _ ih => rw [offers_send, writes_send, taken_cons, if_neg (by omega), ih]
  | @queued q q' l m n h0 hq _ ih =>
    obtain ⟨x, t, rfl⟩ : ∃ x t, q = x :: t := List.exists_cons_of_length_pos (by omega)
    rw [offers_send, writes_send, taken_cons, if_pos hq]
    have ih : (t ++ [lengthBytes n ++ m.take n.toNat]) ++ taken (offers l) = writes l ++ q'.tail :=
      ih
    rw [List.append_assoc] at ih
    exact ih
  | @started q' l m n _ ih =>
    rw [offers_send, writes_send, taken_cons, if_pos (by decide)]
    exact congrArg (_ :: ·) ih

/-- The writes in flight, when this is in the queue. -/
def inFlight (q : List Bytes) : Nat := if q = [] then 0 else 1

/-- A handler that calls `Send` starts a write when there is none in flight. -/
theorem Pump.inFlight {q q' : List Bytes} {l : List Act} (h : Pump q l q') :
    Asio.inFlight q + (writes l).length = Asio.inFlight q' := by
  induction h with
  | done q => rfl
  | @other q q' a l _ hw _ ih =>
    have h2 : writes (a :: l) = writes l := by
      cases a with
      | asyncWrite b => exact absurd rfl (hw b)
      | _ => rfl
    rw [h2, ih]
  | full _ _ ih => rw [writes_send, ih]
  | @queued q q' l m n h0 _ _ ih =>
    have hq : q ≠ [] := List.ne_nil_of_length_pos h0
    have hq' : q ++ [lengthBytes n ++ m.take n.toNat] ≠ [] := by simp
    rw [Asio.inFlight, if_neg hq'] at ih
    rw [writes_send, Asio.inFlight, if_neg hq]
    exact ih
  | @started q' l m n _ ih =>
    rw [Asio.inFlight, if_neg (List.cons_ne_nil _ _)] at ih
    rw [writes_send, Asio.inFlight, if_pos rfl, ← ih]
    change 0 + ((lengthBytes n ++ m.take n.toNat) :: writes l).length = _
    rw [List.length_cons]
    omega

/-- The calls of `HandleWrite` among the handlers: those that are given no bytes. -/
def completed (calls : List Call) : Nat := calls.countP fun c => c.bytesTransferred = 0

/-! ## Streams whose lengths are in range -/

/-- A situation that goes on reading. -/
def Situation.Live : Situation → Prop
  | .head _ => True
  | .body len _ => 0 ≤ len
  | .rejected => False
  | .failed => False

def InRange (evs : List Event) : Prop := ∀ n, .header n ∈ evs → 0 ≤ n ∧ n ≤ MAX_LENGTH

theorem not_live {q : Situation} (h : ¬ q.Live) : q.Negative ∨ q = .rejected := by
  cases q with
  | head got => exact absurd trivial h
  | body len got => exact .inl (Int.not_le.mp h)
  | rejected => exact .inr rfl
  | failed => exact .inl trivial

theorem live_run {q : Situation} (bs : Bytes) (h : q.Live) (hin : InRange (parser.run q bs).2) :
    (parser.run q bs).1.Live := by
  have hneg : ¬ q.Negative := by
    cases q with
    | body len got => exact Int.not_lt.mpr h
    | head got => exact fun h => h
    | rejected => exact h.elim
    | failed => exact h.elim
  have hrej : ¬ q = .rejected := by intro he; subst he; exact h
  by_contra hdead
  rcases not_live hdead with hd | hd
  · obtain ⟨o, ho, hb⟩ := (negative_trap.run_iff bs hneg).mp hd
    cases o with
    | header n =>
      have hb : n < 0 := hb
      have := hin n ho
      omega
    | sent msg n => exact hb
  · obtain ⟨o, ho, hb⟩ := (rejected_trap.run_iff bs hrej).mp hd
    cases o with
    | header n =>
      have hb : MAX_LENGTH < n := hb
      have := hin n ho
      omega
    | sent msg n => exact hb

theorem Situated.reading {t : Receiver} {q : Situation} (h : Situated t q) (hq : q.Live) :
    ∃ s, t = .reading s ∧ Rel s q := by
  match t, q, h with
  | .reading s, q, h => exact ⟨s, rfl, h⟩
  | .rejected, _, rfl => exact hq.elim
  | .failed e, _, ⟨rfl, _⟩ => exact hq.elim

/-! ## The flow of frames -/

/-- A read that the session goes on after leaves the queue to its calls of `Send`. -/
theorem serve_pump {s s' : CSession} {q : Situation} (h : Rel s q) {chunk : Bytes}
    (hc : Completion.Ok (.read chunk)) {calls : List Call}
    (hs : serve (.reading s) (.read chunk) = (.reading s', calls)) :
    Pump (queued s) (calls.flatMap Call.log) (queued s') ∧ completed calls = 0 := by
  obtain ⟨r, hr, ho⟩ := serve_read h hc
  rw [hr, Prod.mk.injEq] at hs
  obtain ⟨hv, rfl⟩ := hs
  have hpump : Pump (queued s) r.log (queued s') := by
    obtain ⟨l, out⟩ := r
    generalize parser.run q chunk = p at ho
    obtain ⟨sit, evs⟩ := p
    have hok : ∀ {s₁ : CSession} {rd cl : Nat},
      out = .ok s₁ → Tidy chunk.length (queued s) l evs rd cl (queued s₁) →
        Pump (queued s) l (queued s') := by
      intro s₁ rd cl he ht
      subst he
      simp only [verdict] at hv
      split at hv
      · cases hv
      · cases hv; exact ht.pump
    cases sit with
    | head got => obtain ⟨s₁, ho, ht, _⟩ := ho; exact hok ho ht
    | body len got => obtain ⟨s₁, ho, ht, _⟩ := ho; exact hok ho ht
    | rejected => obtain ⟨s₁, ho, ht⟩ := ho; exact hok ho ht
    | failed => obtain ⟨ho, _⟩ := ho; rcases ho with rfl | rfl <;> cases hv
  have hne : chunk.length ≠ 0 := Nat.ne_of_gt hc.1
  exact ⟨by simpa using hpump, by simp [completed, hne]⟩

/-- A write that completes takes the front node, and starts the write of the next. -/
theorem serve_written {s : CSession} {m : MsgNode} {q : List MsgNode} (hq : s.sendQue = m :: q) :
    ∃ l, serve (.reading s) (.write false) = (.reading { s with sendQue := q }, [⟨0, l⟩]) ∧
      offers l = [] ∧ writes l = (q.take 1).map MsgNode.frame := by
  have hne : ¬ s.sendQue = [] := by simp [hq]
  cases q with
  | nil => exact ⟨[], by simp only [serve, if_neg hne, handleWrite_last hq], rfl, rfl⟩
  | cons m' q =>
    exact ⟨[.asyncWrite m'.frame], by simp only [serve, if_neg hne, handleWrite_next hq], rfl, rfl⟩

/-- What has come through the queue of a session when handlers have been called: the
nodes that `Send` has taken, in order, and a write for each that has got to the front. -/
structure Flows (s s' : CSession) (calls : List Call) : Prop where
  nodes : (queued s).tail ++ taken (offers (calls.flatMap Call.log)) =
    writes (calls.flatMap Call.log) ++ (queued s').tail
  inFlight : inFlight (queued s) + (writes (calls.flatMap Call.log)).length =
    completed calls + inFlight (queued s')

theorem Flows.refl (s : CSession) : Flows s s [] := ⟨by simp [offers, taken, writes], by
  simp [writes, completed]⟩

theorem Flows.trans {s s₁ s' : CSession} {calls calls' : List Call} (h : Flows s s₁ calls)
    (h' : Flows s₁ s' calls') : Flows s s' (calls ++ calls') where
  nodes := by
    simp only [List.flatMap_append, offers_append, taken_append, writes_append]
    rw [← List.append_assoc, h.nodes, List.append_assoc, h'.nodes, List.append_assoc]
  inFlight := by
    have h1 := h.inFlight
    have h2 := h'.inFlight
    simp only [List.flatMap_append, writes_append, List.length_append, completed,
      List.countP_append] at h1 h2 ⊢
    omega

/-- One completion: a read, or a write without an error. -/
theorem serve_flow {s s' : CSession} {q : Situation} (h : Rel s q) {c : Completion} (hc : c.Ok)
    (hw : c ≠ .write true) {calls : List Call} (hs : serve (.reading s) c = (.reading s', calls)) :
    Flows s s' calls := by
  cases c with
  | read chunk =>
    obtain ⟨hpump, hnone⟩ := serve_pump h hc hs
    exact ⟨hpump.flow, by rw [hnone, hpump.inFlight, Nat.zero_add]⟩
  | write error =>
    obtain rfl : error = false := by
      cases error with
      | false => rfl
      | true => exact absurd rfl hw
    cases hq : s.sendQue with
    | nil =>
      simp only [serve, hq, if_true, Prod.mk.injEq, Receiver.reading.injEq] at hs
      obtain ⟨rfl, rfl⟩ := hs
      exact .refl s
    | cons m rest =>
      obtain ⟨l, hl, ho, hwl⟩ := serve_written hq
      rw [hl, Prod.mk.injEq, Receiver.reading.injEq] at hs
      obtain ⟨rfl, rfl⟩ := hs
      constructor
      · cases rest <;> simp [queued, hq, ho, hwl, taken]
      · cases rest <;> simp [queued, hq, hwl, Asio.inFlight, completed]

theorem feed_flow (cs : List Completion) : ∀ {s : CSession} {q : Situation}, Rel s q → q.Live →
    (∀ c ∈ cs, c.Ok) → .write true ∉ cs →
    InRange (parser.run q (cs.flatMap Completion.content)).2 →
    ∃ s', (Mealy.feed serve (.reading s) cs).1 = .reading s' ∧
      Flows s s' (Mealy.feed serve (.reading s) cs).2 := by
  induction cs with
  | nil => intro s q _ _ _ _ _; exact ⟨s, rfl, .refl s⟩
  | cons c cs ih =>
    intro s q h hq hc hw hin
    rw [List.flatMap_cons, Mealy.run_append] at hin
    have hok := hc c (by simp)
    have hlive := live_run c.content hq fun n hn => hin n (List.mem_append_left _ hn)
    obtain ⟨s₁, hs₁, hrel⟩ := ((serve_simulates (.reading s) q c hok h).1).reading hlive
    obtain ⟨s', hs', hflow⟩ := ih hrel hlive (fun d hd => hc d (by simp [hd]))
      (fun hmem => hw (by simp [hmem])) fun n hn => hin n (List.mem_append_right _ hn)
    obtain ⟨calls, hcalls⟩ : ∃ calls, (serve (.reading s) c).2 = calls := ⟨_, rfl⟩
    have hone := serve_flow h hok (fun he => hw (by simp [he])) (Prod.ext hs₁ hcalls)
    rw [Mealy.feed_cons, hs₁, hcalls]
    exact ⟨s', hs', hone.trans hflow⟩

/-- As many writes complete as there are nodes in the queue: each starts the next. -/
theorem drain (q : List MsgNode) : ∀ {s : CSession}, s.sendQue = q → ∃ calls,
    Mealy.feed serve (.reading s) (List.replicate q.length (.write false)) =
      (.reading { s with sendQue := [] }, calls) ∧
    writes (calls.flatMap Call.log) = (queued s).tail := by
  induction q with
  | nil =>
    intro s hq
    refine ⟨[], ?_, by simp [queued, hq, writes]⟩
    change (Receiver.reading s, _) = _
    rw [← hq]
  | cons m q ih =>
    intro s hq
    obtain ⟨l, hl, -, hwl⟩ := serve_written hq
    obtain ⟨calls, hcalls, hw⟩ := ih (s := { s with sendQue := q }) rfl
    refine ⟨⟨0, l⟩ :: calls, ?_, ?_⟩
    · rw [List.length_cons, List.replicate_succ, Mealy.feed_cons, hl, hcalls]; rfl
    · rw [List.flatMap_cons, writes_append, hw, hwl]
      cases q <;> simp [queued, hq]

theorem reencode {a b : UInt8} {rest : Bytes} {len : Int} (hlen : announced [a, b] = len)
    (h0 : 0 ≤ len)
    (h : len.toNat ≤ rest.length) :
    lengthBytes (((a :: b :: rest.take len.toNat).length : Int) - 2) ++
      (a :: b :: rest.take len.toNat).drop 2 = a :: b :: rest.take len.toNat := by
  have hl : ((a :: b :: rest.take len.toNat).length : Int) - 2 = len := by
    simp only [List.length_cons, List.length_take]; omega
  rw [hl, ← hlen, lengthBytes_announced (p := [a, b]) rfl, hlen]
  simp

/-- The frame of the arguments of a `Send` is the frame that was read. -/
theorem frames_reencode (s : Bytes) :
    ∀ f ∈ frames s, lengthBytes ((f.length : Int) - 2) ++ f.drop 2 = f := by
  fun_induction frames s with
  | case1 a b rest len hc ih =>
    exact List.forall_mem_cons.mpr ⟨reencode rfl hc.1 hc.2.2, ih⟩
  | case2 => intro f hf; cases hf
  | case3 => intro f hf; cases hf

theorem prefix_frame {a b : UInt8} {rest f : Bytes} {k : Nat} (h : f <+: rest.drop k) :
    (a :: b :: rest.take k) ++ f <+: a :: b :: rest := by
  obtain ⟨t, ht⟩ := h
  exact ⟨t, by rw [List.append_assoc, ht]; simp⟩

/-- The complete frames are at the front of the stream. -/
theorem frames_prefix (s : Bytes) : (frames s).flatten <+: s := by
  fun_induction frames s with
  | case1 a b rest len hc ih => rw [List.flatten_cons]; exact prefix_frame ih
  | case2 => exact List.nil_prefix
  | case3 => exact List.nil_prefix

theorem offers_eq (calls : List Call) : (offers (calls.flatMap Call.log)).map Prod.fst =
    (sends calls).map fun p => lengthBytes p.2 ++ p.1 := by
  rw [sends, offers, List.map_filterMap, List.map_filterMap]
  congr 1
  funext a
  cases a <;> rfl

/-- **Echo.** For an input whose announced lengths are in 0..MAX_LENGTH, and
writes that succeed: the offers are the complete frames of the input, and
what is started, followed by what waits behind it, are the offers that found
at most MAX_SENDQUE nodes in the queue. Nothing waits exactly when as many
writes have completed as have been started, and when those for the nodes in
the queue have completed too, all of it has been written. -/
theorem echo (cs : List Completion) (hc : ∀ c ∈ cs, c.Ok) (hw : .write true ∉ cs)
    (hin : ∀ n ∈ headers (cs.flatMap Completion.content), 0 ≤ n ∧ n ≤ MAX_LENGTH) :
    ∃ s log input, (session cs).1 = .reading s ∧ log = (session cs).2.flatMap Call.log ∧
      input = cs.flatMap Completion.content ∧ (frames input).flatten <+: input ∧
      (offers log).map Prod.fst = frames input ∧
      writes log ++ (queued s).tail = taken (offers log) ∧
      (completed (session cs).2 = (writes log).length ↔ s.sendQue = []) ∧
      (∃ s' calls,
        session (cs ++ List.replicate s.sendQue.length (.write false)) = (.reading s', calls) ∧
          s'.sendQue = [] ∧ writes (calls.flatMap Call.log) = taken (offers log)) ∧
      ((∀ o ∈ offers log, o.2 ≤ MAX_SENDQUE) → completed (session cs).2 = (writes log).length →
        (writes log).flatten = (frames input).flatten) := by
  have hin' : InRange (parser.run (.head []) (cs.flatMap Completion.content)).2 := by
    intro n hn
    refine hin n ?_
    rw [← parse_headers]
    exact List.mem_filterMap.mpr ⟨_, hn, rfl⟩
  obtain ⟨s, hs, hflow⟩ := feed_flow cs rel_new trivial hc hw hin'
  have hoffers : (offers ((session cs).2.flatMap Call.log)).map Prod.fst =
      frames (cs.flatMap Completion.content) := by
    rw [offers_eq, sends_eq, (session_spec cs hc).2, parse_sent, List.map_map]
    exact (List.map_congr_left fun f hf => frames_reencode _ f hf).trans (List.map_id _)
  have hnodes : taken (offers ((session cs).2.flatMap Call.log)) =
      writes ((session cs).2.flatMap Call.log) ++ (queued s).tail := hflow.nodes
  have hcount : (writes ((session cs).2.flatMap Call.log)).length =
      completed (session cs).2 + inFlight (queued s) :=
    (Nat.zero_add _).symm.trans hflow.inFlight
  have hdone : completed (session cs).2 = (writes ((session cs).2.flatMap Call.log)).length ↔
      s.sendQue = [] := by
    rw [hcount]
    cases hq : s.sendQue <;> simp [queued, hq, inFlight]
  refine ⟨s, _, _, hs, rfl, rfl, frames_prefix _, hoffers, hnodes.symm, hdone, ?_,
    fun hall hall' => ?_⟩
  · obtain ⟨calls, hcalls, hwrites⟩ := drain s.sendQue (s := s) rfl
    refine ⟨{ s with sendQue := [] }, (session cs).2 ++ calls, ?_, rfl, ?_⟩
    · have hs : (Mealy.feed serve (.reading .new) cs).1 = .reading s := hs
      rw [session, Mealy.feed_append, hs, hcalls]; rfl
    · rw [List.flatMap_append, writes_append, hwrites, hnodes]
  · rw [taken, List.filter_eq_self.mpr (by simpa using hall), hoffers] at hnodes
    rw [hnodes]
    simp [queued, hdone.mp hall']

/-- Frames of one and of two bytes, the first cut inside its length, and their writes. -/
def twoFrames : List Completion :=
  [.read [0x00], .read [0x01, 0x2A, 0x00, 0x02, 0x2B, 0x2C], .write false, .write false]

theorem echo_two : ∃ s log, (session twoFrames).1 = .reading s ∧
    log = (session twoFrames).2.flatMap Call.log ∧ completed (session twoFrames).2 = 2 ∧
    offers log = [([0x00, 0x01, 0x2A], 0), ([0x00, 0x02, 0x2B, 0x2C], 1)] ∧
    writes log = [[0x00, 0x01, 0x2A], [0x00, 0x02, 0x2B, 0x2C]] ∧ s.sendQue = [] ∧
    (writes log).flatten = (frames [0x00, 0x01, 0x2A, 0x00, 0x02, 0x2B, 0x2C]).flatten := by
  have hrun : completed (session twoFrames).2 = 2 ∧
      offers ((session twoFrames).2.flatMap Call.log) =
        [([0x00, 0x01, 0x2A], 0), ([0x00, 0x02, 0x2B, 0x2C], 1)] ∧
      writes ((session twoFrames).2.flatMap Call.log) =
        [[0x00, 0x01, 0x2A], [0x00, 0x02, 0x2B, 0x2C]] := by
    decide +kernel
  obtain ⟨hcompleted, hoffers, hwrites⟩ := hrun
  have hinput : twoFrames.flatMap Completion.content =
      ([[0x2A], [0x2B, 0x2C]].map fun p : Bytes => lengthBytes p.length ++ p).flatten := by decide
  have hheaders : headers (twoFrames.flatMap Completion.content) = [1, 2] := by
    rw [← parse_headers, hinput, parse_frames _ (by decide)]
    rfl
  obtain ⟨s, log, input, hs, hlog, hin, -, -, -, hdone, -, hall⟩ := echo twoFrames
    (by unfold twoFrames; simp [Completion.Ok, MAX_LENGTH]) (by simp [twoFrames])
    (by simp [hheaders, MAX_LENGTH])
  rw [← hlog] at hoffers hwrites
  have hsame : completed (session twoFrames).2 = (writes log).length := by
    rw [hcompleted, hwrites]; rfl
  refine ⟨s, log, hs, hlog, hcompleted, hoffers, hwrites, hdone.mp hsame, ?_⟩
  rw [hall (by simp [hoffers, MAX_SENDQUE]) hsame, hin]
  rfl

end Cxx.Asio
