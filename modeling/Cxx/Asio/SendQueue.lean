import Cxx.Asio.Server

/-!
# The length of the send queue

One session under all that can happen to its `_send_que`: reads whose bytes
complete any number of frames, calls of `Send` by others, and completions of
writes. `HandleRead` takes a step for each turn of its loop, as `_send_lock`
is held for one `Send` only, so that the other two come in between.

* `turn_length`: a turn makes one call of `Send` when it completes a frame and
  none otherwise.
* `length_le_succ`: there is never more than one node above `MAX_SENDQUE`.
* `queue_within`: a run keeps the queue within `MAX_SENDQUE` exactly when none of
  its steps hands `Send` a message while the queue holds `MAX_SENDQUE` nodes.
-/
namespace Cxx.Asio

structure Traffic where
  conn : Conn
  /-- `copy_len` and `bytes_transferred` of the `HandleRead` under way. -/
  handler : Option (Int × Nat)
  deriving DecidableEq, Repr

/-- The session after its `Start`. -/
def Traffic.started : Traffic := ⟨{ Conn.new with accepted := true, pendingReads := 1 }, none⟩

inductive TrafficLabel where
  /-- A read completes and its handler starts. -/
  | read (chunk : Bytes)
  | readError
  /-- A turn of the loop of the handler, or its end. -/
  | turn
  /-- A call of `Send` from outside the session. -/
  | send (msg : Bytes) (maxLength : Int)
  | write (error : Bool)
  deriving DecidableEq, Repr

/-- A handler that faults takes no step. What `new` throws out of a call of
`Send` its caller gets, before anything is queued. -/
def Traffic.step (t : Traffic) : TrafficLabel → Option Traffic
  | .read chunk =>
    if t.handler = none ∧ 0 < t.conn.pendingReads ∧ 0 < chunk.length ∧
        (chunk.length : Int) ≤ MAX_LENGTH then
      some {
        conn := { t.conn with
          session := t.conn.session.received chunk
          pendingReads := t.conn.pendingReads - 1 }
        handler := some (0, chunk.length) }
    else none
  | .readError =>
    if t.handler = none ∧ 0 < t.conn.pendingReads then
      match handleRead t.conn.session true 0 with
      | some ⟨log, .ok s⟩ =>
        let conn := { t.conn with pendingReads := t.conn.pendingReads - 1, readFailed := true }
        some { t with conn := conn.after s log }
      | _ => none
    else none
  | .turn =>
    match t.handler with
    | none => none
    | some (copyLen, bytesTransferred) =>
      if bytesTransferred > 0 then
        let r := turn t.conn.session copyLen bytesTransferred
        match r.out with
        | .ok (.ret s) => some ⟨t.conn.after s r.log, none⟩
        | .ok (.cont s copyLen bytesTransferred) =>
          some ⟨t.conn.after s r.log, some (copyLen, bytesTransferred)⟩
        | .error _ => none
      else some { t with handler := none }
  | .send msg maxLength =>
    let r := send t.conn.session msg maxLength
    match r.out with
    | .ok s => some { t with conn := t.conn.after s r.log }
    | .error .badNewLength => some t
    | .error _ => none
  | .write error =>
    if 0 < t.conn.pendingWrites then
      let r := handleWrite t.conn.session error
      match r.out with
      | .ok s =>
        let conn := { t.conn with
          pendingWrites := t.conn.pendingWrites - 1
          writeFailed := t.conn.writeFailed || error }
        some { t with conn := conn.after s r.log }
      | .error _ => none
    else none

def traffic : LTS Traffic TrafficLabel := LTS.ofFn (· = .started) Traffic.step

/-! ## The condition -/

/-- A turn with `bytesTransferred` bytes left at `copyLen` has the rest of a frame. -/
def CSession.completes (s : CSession) (copyLen : Int) (bytesTransferred : Nat) : Bool :=
  if !s.bHeadParse then
    let head := s.recvHeadNode
    let headRemain := HEAD_LENGTH - head.curLen
    let header := blit head.data head.curLen.toNat
      ((s.data.drop copyLen.toNat).take (toSizeT headRemain))
    toSizeT HEAD_LENGTH ≤ toSizeT (bytesTransferred + head.curLen) ∧
      announced header ≤ MAX_LENGTH ∧
      toSizeT (announced header) ≤ toSizeT (bytesTransferred - headRemain)
  else
    match s.recvMsgNode with
    | none => false
    | some node => toSizeT (node.totalLen - node.curLen) ≤ bytesTransferred

/-- The size that the constructor of a node asks `new` for. -/
def nodeSize (maxLength : Int) : Int := toShort (toShort maxLength + HEAD_LENGTH) + 1

/-- The step hands `Send` a message that it can make a node of. -/
def Traffic.Offers (t : Traffic) : TrafficLabel → Prop
  | .turn => ∃ copyLen n, t.handler = some (copyLen, n) ∧ 0 < n ∧ t.conn.session.completes copyLen n
  | .send _ maxLength => 0 ≤ nodeSize maxLength
  | _ => False

def Traffic.queueLength (t : Traffic) : Nat := t.conn.session.sendQue.length

/-- No message is handed to `Send` while the queue holds `MAX_SENDQUE` nodes. -/
def Spaced (t : Traffic) (l : TrafficLabel) (_ : Traffic) : Prop :=
  ¬ ((t.queueLength : Int) = MAX_SENDQUE ∧ t.Offers l)

def Traffic.Within (t : Traffic) : Prop := (t.queueLength : Int) ≤ MAX_SENDQUE

/-! ## One call of `Send`, one turn -/

/-- The length of the queue after a call of `Send` that finds `k` nodes. -/
def afterSend (k : Nat) : Nat := if MAX_SENDQUE < (k : Int) then k else k + 1

theorem send_length {s s' : CSession} {msg : Bytes} {n : Int} (h : (send s msg n).out = .ok s') :
    s'.sendQue.length = afterSend s.sendQue.length := by
  unfold afterSend
  by_cases hfull : MAX_SENDQUE < (s.sendQue.length : Int)
  · rw [send_full hfull] at h
    cases h
    rw [if_pos hfull]
  · rw [send_out hfull] at h
    rw [if_neg hfull]
    cases hm : (MsgNode.ofMsg msg (toShort n)).out with
    | error e => rw [hm] at h; cases h
    | ok m =>
      rw [hm] at h
      cases h
      exact List.length_append

def Flow.session : Flow → CSession
  | .ret s => s
  | .cont s _ _ => s

theorem recvCopy_out {node : MsgNode} {src data : Bytes} {copyLen : Int} {n : Nat}
    (h : (recvCopy node src copyLen n).out = .ok data) :
    data = blit node.data node.curLen.toNat ((src.drop copyLen.toNat).take n) := by
  unfold recvCopy at h
  exact (memcpy_out h).2

theorem recvBody_length {s : CSession} {copyLen want : Int} {n : Nat} {node : MsgNode} {f : Flow}
    (h : (recvBody s copyLen n node want).out = .ok f) :
    f.session.sendQue.length =
      if toSizeT want ≤ n then afterSend s.sendQue.length else s.sendQue.length := by
  unfold recvBody at h
  by_cases hpart : n < toSizeT want
  · rw [if_pos hpart] at h
    rw [if_neg (by omega)]
    obtain ⟨data, -, h⟩ := Exec.out_bind h
    cases h
    rfl
  · rw [if_neg hpart] at h
    rw [if_pos (by omega)]
    obtain ⟨data, -, h⟩ := Exec.out_bind h
    obtain ⟨data, -, h⟩ := Exec.out_bind h
    obtain ⟨s', hs, h⟩ := Exec.out_bind h
    have hlen := send_length hs
    dsimp only at h
    split at h <;> cases h <;> exact hlen

/-- The part of a turn behind a complete header. -/
theorem header_length {s : CSession} {copyLen dataLen : Int} {n : Nat} {f : Flow}
    (h : (if dataLen > MAX_LENGTH then (do
        Exec.emit .clearSession
        return .ret s)
      else (do
        let node ← MsgNode.ofLen dataLen
        recvBody { s with recvMsgNode := some node } copyLen n node dataLen) : Proc Flow).out =
      .ok f) : f.session.sendQue.length =
        if dataLen ≤ MAX_LENGTH ∧ toSizeT dataLen ≤ n then afterSend s.sendQue.length
        else s.sendQue.length := by
  by_cases hlarge : dataLen > MAX_LENGTH
  · rw [if_pos hlarge, Exec.emit_bind_out] at h
    rw [if_neg (fun hc => absurd hc.1 (by omega))]
    cases h
    rfl
  · rw [if_neg hlarge] at h
    obtain ⟨node, -, h⟩ := Exec.out_bind h
    rw [recvBody_length h]
    exact if_congr ⟨fun hc => ⟨by omega, hc⟩, fun hc => hc.2⟩ rfl rfl

/-- **One turn.** It calls `Send` once, or not at all. -/
theorem turn_length {s : CSession} {copyLen : Int} {n : Nat} {f : Flow}
    (h : (turn s copyLen n).out = .ok f) : f.session.sendQue.length =
      if s.completes copyLen n then afterSend s.sendQue.length else s.sendQue.length := by
  unfold turn at h
  unfold CSession.completes
  by_cases hb : s.bHeadParse
  · simp only [hb, Bool.not_true, Bool.false_eq_true, if_false] at h ⊢
    cases hm : s.recvMsgNode with
    | none => rw [hm] at h; cases h
    | some node =>
      rw [hm] at h
      simpa using recvBody_length h
  · simp only [hb, Bool.not_false, if_true, decide_eq_true_eq] at h ⊢
    by_cases hshort : toSizeT (n + s.recvHeadNode.curLen) < toSizeT HEAD_LENGTH
    · rw [if_pos hshort] at h
      rw [if_neg (fun hc => absurd hc.1 (by omega))]
      obtain ⟨data, -, h⟩ := Exec.out_bind h
      cases h
      rfl
    · rw [if_neg hshort] at h
      obtain ⟨data, hdata, h⟩ := Exec.out_bind h
      obtain ⟨dataLen, hlen⟩ : ∃ dataLen, announced data = dataLen := ⟨_, rfl⟩
      simp only [hlen] at h
      rw [Exec.emit_bind_out] at h
      rw [← recvCopy_out hdata, hlen, header_length h]
      exact if_congr ⟨fun hc => ⟨by omega, hc⟩, fun hc => hc.2⟩ rfl rfl

/-! ## One step -/

theorem memcpy_error {dst src : Bytes} {off srcOff : Int} {n : Nat} {e : Fault}
    (h : (memcpy dst off src srcOff n).out = .error e) : e = .outOfBounds := by
  unfold memcpy at h
  split at h <;> cases h
  rfl

/-- The constructor throws exactly when the size it asks for is negative. -/
theorem nodeSize_of_ofMsg {msg : Bytes} {n : Int} {m : MsgNode}
    (h : (MsgNode.ofMsg msg (toShort n)).out = .ok m) : 0 ≤ nodeSize n := by
  unfold MsgNode.ofMsg at h
  obtain ⟨data, hnew, -⟩ := Exec.out_bind h
  by_contra hneg
  have hneg : nodeSize n < 0 := by omega
  rw [show toShort (toShort n + HEAD_LENGTH) + 1 = nodeSize n from rfl, newChar_neg hneg] at hnew
  cases hnew

theorem nodeSize_of_throws {msg : Bytes} {n : Int}
    (h : (MsgNode.ofMsg msg (toShort n)).out = .error .badNewLength) : ¬ 0 ≤ nodeSize n := by
  intro hsize
  unfold MsgNode.ofMsg at h
  rcases Exec.out_bind_error h with h | ⟨data, -, h⟩
  · rw [show toShort (toShort n + HEAD_LENGTH) + 1 = nodeSize n from rfl, newChar_ok hsize] at h
    cases h
  rcases Exec.out_bind_error h with h | ⟨data, -, h⟩
  · cases memcpy_error h
  rcases Exec.out_bind_error h with h | ⟨data, -, h⟩
  · cases memcpy_error h
  rcases Exec.out_bind_error h with h | ⟨data, -, h⟩
  · unfold store at h
    split at h <;> cases h
  · cases h

theorem send_step {t t' : Traffic} {msg : Bytes} {n : Int} (h : t.step (.send msg n) = some t') :
    (0 ≤ nodeSize n → t'.queueLength = afterSend t.queueLength) ∧
      (¬ 0 ≤ nodeSize n → t'.queueLength ≤ t.queueLength) := by
  simp only [Traffic.step] at h
  by_cases hfull : MAX_SENDQUE < (t.conn.session.sendQue.length : Int)
  · rw [send_full hfull] at h
    cases h
    exact ⟨fun _ => (if_pos hfull).symm, fun _ => Nat.le_refl _⟩
  · have hroom : afterSend t.queueLength = t.queueLength + 1 := if_neg hfull
    rw [hroom]
    rw [send_out hfull] at h
    cases hm : (MsgNode.ofMsg msg (toShort n)).out with
    | ok m =>
      rw [hm] at h
      cases h
      exact ⟨fun _ => List.length_append, fun hneg => absurd (nodeSize_of_ofMsg hm) hneg⟩
    | error e =>
      rw [hm] at h
      cases e with
      | badNewLength =>
        cases h
        exact ⟨fun hsize => absurd hsize (nodeSize_of_throws hm), fun _ => Nat.le_refl _⟩
      | outOfBounds => cases h
      | nullDeref => cases h

theorem turn_step {t t' : Traffic} (h : t.step .turn = some t') :
    (t.Offers .turn → t'.queueLength = afterSend t.queueLength) ∧
      (¬ t.Offers .turn → t'.queueLength ≤ t.queueLength) := by
  obtain ⟨conn, handler⟩ := t
  cases handler with
  | none => cases h
  | some p =>
    obtain ⟨copyLen, n⟩ := p
    have hoffers : Traffic.Offers ⟨conn, some (copyLen, n)⟩ .turn ↔
        0 < n ∧ conn.session.completes copyLen n := by
      constructor
      · intro h
        obtain ⟨_, _, he, hn⟩ := h
        cases he
        exact hn
      · exact fun h => ⟨copyLen, n, rfl, h⟩
    rw [hoffers]
    simp only [Traffic.step] at h
    by_cases hn : 0 < n
    · rw [if_pos hn] at h
      obtain ⟨l, o, hr⟩ : ∃ l o, turn conn.session copyLen n = ⟨l, o⟩ := ⟨_, _, rfl⟩
      rw [hr] at h
      cases o with
      | error e => cases h
      | ok f =>
        have hlen := turn_length (congrArg Exec.out hr)
        have hf : t'.queueLength = f.session.sendQue.length := by
          cases f <;> cases h <;> rfl
        rw [hf, hlen]
        exact ⟨fun hc => if_pos hc.2, fun hc => Nat.le_of_eq (if_neg fun h => hc ⟨hn, h⟩)⟩
    · rw [if_neg hn] at h
      cases h
      exact ⟨fun hc => absurd hc.1 hn, fun _ => Nat.le_refl _⟩

theorem write_step {t t' : Traffic} {error : Bool} (h : t.step (.write error) = some t') :
    t'.queueLength ≤ t.queueLength := by
  simp only [Traffic.step] at h
  split at h
  · cases error with
    | true => rw [handleWrite_failed] at h; cases h; exact Nat.le_refl _
    | false =>
      cases hq : t.conn.session.sendQue with
      | nil => simp only [handleWrite, hq, Bool.not_false, if_true] at h; cases h
      | cons m q =>
        have hlen : t.queueLength = q.length + 1 := congrArg List.length hq
        cases q with
        | nil => rw [handleWrite_last hq] at h; cases h; exact Nat.zero_le _
        | cons m' q =>
          rw [handleWrite_next hq] at h
          cases h
          rw [hlen]
          exact Nat.le_succ _
  · cases h

/-- **One step.** A message for `Send` is queued when there is room, and nothing
else makes the queue longer. -/
theorem step_length {t t' : Traffic} {l : TrafficLabel} (h : t.step l = some t') :
    (t.Offers l → t'.queueLength = afterSend t.queueLength) ∧
      (¬ t.Offers l → t'.queueLength ≤ t.queueLength) := by
  cases l with
  | read chunk =>
    simp only [Traffic.step] at h
    split at h <;> cases h
    exact ⟨False.elim, fun _ => Nat.le_refl _⟩
  | readError =>
    simp only [Traffic.step, handleRead_failed] at h
    split at h <;> cases h
    exact ⟨False.elim, fun _ => Nat.le_refl _⟩
  | turn => exact turn_step h
  | send msg n => exact send_step h
  | write error => exact ⟨False.elim, fun _ => write_step h⟩

/-! ## Whole runs -/

/-- The bound that the code keeps in every run. -/
theorem length_le_succ : traffic.Inductive fun t => (t.queueLength : Int) ≤ MAX_SENDQUE + 1 where
  init := fun t h => by
    have h : t = .started := h
    rw [h]
    decide
  step := fun t l t' hle h => by
    obtain ⟨hsend, hquiet⟩ := step_length h
    by_cases hc : t.Offers l
    · rw [hsend hc]
      unfold afterSend
      split <;> omega
    · have := hquiet hc
      omega

/-- A step out of a state within the limit leaves it within the limit, but for
a message that comes when the limit is reached. -/
theorem within_iff {t t' : Traffic} {l : TrafficLabel} (ht : t.Within) (h : t.step l = some t') :
    Spaced t l t' ↔ t'.Within := by
  obtain ⟨hsend, hquiet⟩ := step_length h
  unfold Traffic.Within at ht ⊢
  unfold Spaced
  by_cases hc : t.Offers l
  · rw [hsend hc, afterSend, if_neg (by omega)]
    constructor
    · intro hne
      have : (t.queueLength : Int) ≠ MAX_SENDQUE := fun he => hne ⟨he, hc⟩
      omega
    · intro hle hne
      have := hne.1
      omega
  · have := hquiet hc
    exact iff_of_true (fun hne => hc hne.2) (by omega)

theorem started_within : Traffic.started.Within := by
  unfold Traffic.Within
  decide

theorem within_inductive : (traffic.restrict Spaced).Inductive Traffic.Within where
  init := fun t h => by
    have h : t = .started := h
    rw [h]
    exact started_within
  step := fun _ _ _ ht h => (within_iff ht h.1).mp h.2

/-- **The bound of the send queue.** A run of a session keeps its queue within
`MAX_SENDQUE` nodes in every state if and only if none of its steps hands `Send`
a message while there are `MAX_SENDQUE` of them. -/
theorem queue_within (ls : List TrafficLabel) (t : Traffic) :
    (traffic.restrict Spaced).Run .started ls t ↔
      (traffic.restrict fun _ _ t' => t'.Within).Run .started ls t :=
  LTS.run_restrict_congr within_inductive (fun _ _ _ ht h => within_iff ht h) started_within

/-- An empty message can always be made a node of. -/
theorem send_empty {t : Traffic} (hq : ¬ MAX_SENDQUE < (t.queueLength : Int)) :
    ∃ t', t.step (.send [] 0) = some t' ∧ t'.queueLength = t.queueLength + 1 := by
  obtain ⟨m, hm, -⟩ := @MsgNode.ofMsg_frame [] 0 (Nat.zero_le _) (by decide)
  rw [show ((0 : Nat) : Int) = toShort 0 from rfl] at hm
  have hstep : ∃ t', t.step (.send [] 0) = some t' := by
    simp only [Traffic.step, send_out hq, hm, Except.map]
    exact ⟨_, rfl⟩
  obtain ⟨t', h⟩ := hstep
  refine ⟨t', h, ?_⟩
  rw [(send_step h).1 (by decide), afterSend, if_neg hq]

/-- More than a thousand calls of `Send` before the first write completes. -/
theorem queue_over_full : ¬ ∀ t, traffic.Reachable t → t.Within := by
  have fills : ∀ k : Nat, (k : Int) ≤ MAX_SENDQUE + 1 →
      ∃ t, traffic.Reachable t ∧ t.queueLength = k := by
    intro k
    induction k with
    | zero => exact fun _ => ⟨.started, ⟨_, [], rfl, .nil _⟩, rfl⟩
    | succ k ih =>
      intro hk
      obtain ⟨t, ⟨t₀, ls, h₀, r⟩, hlen⟩ := ih (by omega)
      obtain ⟨t', h, hlen'⟩ := send_empty (t := t) (by omega)
      exact ⟨t', ⟨t₀, ls ++ [.send [] 0], h₀, r.append (LTS.run_step h)⟩, by omega⟩
  intro h
  obtain ⟨t, hr, hlen⟩ := fills 1001 (by decide)
  have hle := h t hr
  unfold Traffic.Within at hle
  rw [hlen] at hle
  exact absurd hle (by decide)

end Cxx.Asio
