import Cxx.Asio.MsgNode

/-!
# `CSession`: the read loop and the write queue

Model of include/asio/CSession.cpp. `handleRead` is `CSession::HandleRead`
for one completed read: one turn of its `while` is `turn`, which returns
from the handler (`Flow.ret`) or goes round again (`Flow.cont`). The bytes
of the read are in `data`, as `async_read_some` leaves them there, and
`bytesTransferred` is their number.

`fuel` bounds the turns of the loop; `handleRead` allows one more than
there are bytes, and `none` would mean that this was not enough
(`loop_spec` shows that it always is).
-/
namespace Cxx.Asio

structure CSession where
  data : Bytes
  bClose : Bool
  sendQue : List MsgNode
  recvMsgNode : Option MsgNode
  bHeadParse : Bool
  recvHeadNode : MsgNode
  deriving DecidableEq, Repr

/-- The object after its constructor; `_data` is written before it is read,
so its first content is immaterial.
mirrors include/asio/CSession.cpp:5-10 -/
def CSession.new : CSession where
  data := List.replicate MAX_LENGTH.toNat 0
  bClose := false
  sendQue := []
  recvMsgNode := none
  bHeadParse := false
  recvHeadNode :=
    { curLen := 0, totalLen := HEAD_LENGTH, data := List.replicate (HEAD_LENGTH + 1).toNat 0 }

/-- `::memset(_data, 0, MAX_LENGTH)` and `async_read_some`, the two calls made
by `Start` and before each return of `HandleRead` that keeps reading.
mirrors include/asio/CSession.cpp:23-27 -/
def CSession.start (s : CSession) : Proc CSession := do
  Exec.emit .asyncRead
  return { s with data := List.replicate MAX_LENGTH.toNat 0 }

/-- mirrors include/asio/CSession.cpp:46-49 -/
def CSession.close (s : CSession) : Proc CSession := do
  Exec.emit .close
  return { s with bClose := true }

/-! ## The write side -/

/-- mirrors include/asio/CSession.cpp:29-44 -/
def send (s : CSession) (msg : Bytes) (maxLength : Int) : Proc CSession := do
  let sendQueSize : Int := s.sendQue.length
  Exec.emit (.send msg maxLength sendQueSize)
  if sendQueSize > MAX_SENDQUE then
    return s
  else
    let node ← MsgNode.ofMsg msg (toShort maxLength)
    let sendQue := s.sendQue ++ [node]
    if sendQueSize > 0 then
      return { s with sendQue }
    else
      match sendQue with
      | [] => Exec.fault .outOfBounds
      | msgnode :: _ =>
        Exec.emit (.asyncWrite msgnode.frame)
        return { s with sendQue }

/-- The handler of a completed write; `front` and `pop` of an empty queue are
out of bounds.
mirrors include/asio/CSession.cpp:55-72 -/
def handleWrite (s : CSession) (error : Bool) : Proc CSession :=
  if !error then
    match s.sendQue with
    | [] => Exec.fault .outOfBounds
    | _ :: sendQue => do
      match sendQue with
      | [] => return { s with sendQue }
      | msgnode :: _ =>
        Exec.emit (.asyncWrite msgnode.frame)
        return { s with sendQue }
  else do
    let s ← s.close
    Exec.emit .clearSession
    return s

theorem send_full {s : CSession} (h : MAX_SENDQUE < (s.sendQue.length : Int)) (msg : Bytes)
    (n : Int) :
    send s msg n = ⟨[.send msg n s.sendQue.length], .ok s⟩ := by
  simp only [send, gt_iff_lt, if_pos h, Exec.emit_bind, Exec.pure_eq]

theorem send_queued {s : CSession} (h0 : 0 < (s.sendQue.length : Int))
    (hq : ¬ MAX_SENDQUE < (s.sendQue.length : Int)) {msg : Bytes} {n : Int} {l : List Act}
    {m : MsgNode}
    (hm : MsgNode.ofMsg msg (toShort n) = ⟨l, .ok m⟩) :
    send s msg n = ⟨.send msg n s.sendQue.length :: l,
      .ok { s with sendQue := s.sendQue ++ [m] }⟩ := by
  simp only [send, gt_iff_lt, if_neg hq, Exec.emit_bind]
  rw [Exec.bind_of_ok hm]
  simp only [if_pos h0, Exec.pure_eq, List.append_nil]

theorem send_started {s : CSession} (h0 : s.sendQue = []) {msg : Bytes} {n : Int} {l : List Act}
    {m : MsgNode} (hm : MsgNode.ofMsg msg (toShort n) = ⟨l, .ok m⟩) :
    send s msg n =
      ⟨.send msg n 0 :: (l ++ [.asyncWrite m.frame]), .ok { s with sendQue := [m] }⟩ := by
  have hq : ¬ MAX_SENDQUE < (([] : List MsgNode).length : Int) := by decide
  have hl : ¬ 0 < (([] : List MsgNode).length : Int) := by decide
  simp only [send, h0, gt_iff_lt, if_neg hq, Exec.emit_bind]
  rw [Exec.bind_of_ok hm]
  simp only [if_neg hl, List.nil_append, Exec.pure_eq]
  rfl

theorem send_throws {s : CSession} (hq : ¬ MAX_SENDQUE < (s.sendQue.length : Int)) {msg : Bytes}
    {n : Int} {l : List Act} {e : Fault} (hm : MsgNode.ofMsg msg (toShort n) = ⟨l, .error e⟩) :
    send s msg n = ⟨.send msg n s.sendQue.length :: l, .error e⟩ := by
  simp only [send, gt_iff_lt, if_neg hq, Exec.emit_bind]
  rw [Exec.bind_of_error hm]

/-- A call that finds room ends as the constructor of its node does, and queues what that gives. -/
theorem send_out {s : CSession} (hq : ¬ MAX_SENDQUE < (s.sendQue.length : Int)) {msg : Bytes}
    {n : Int} : (send s msg n).out =
      (MsgNode.ofMsg msg (toShort n)).out.map fun m => { s with sendQue := s.sendQue ++ [m] } := by
  obtain ⟨l, o, hm⟩ : ∃ l o, MsgNode.ofMsg msg (toShort n) = ⟨l, o⟩ := ⟨_, _, rfl⟩
  cases o with
  | error e => rw [send_throws hq hm, hm]; rfl
  | ok m =>
    by_cases h0 : 0 < (s.sendQue.length : Int)
    · rw [send_queued h0 hq hm, hm]; rfl
    · have hnil : s.sendQue = [] := List.eq_nil_of_length_eq_zero (by omega)
      rw [send_started hnil hm, hm, hnil]; rfl

theorem handleWrite_last {s : CSession} {m : MsgNode} (h : s.sendQue = [m]) :
    handleWrite s false = ⟨[], .ok { s with sendQue := [] }⟩ := by
  simp only [handleWrite, h, Bool.not_false, if_true, Exec.pure_eq]

theorem handleWrite_next {s : CSession} {m m' : MsgNode} {q : List MsgNode}
    (h : s.sendQue = m :: m' :: q) :
    handleWrite s false = ⟨[.asyncWrite m'.frame], .ok { s with sendQue := m' :: q }⟩ := by
  simp only [handleWrite, h, Bool.not_false, if_true, Exec.emit_bind, Exec.pure_eq]

theorem handleWrite_failed (s : CSession) :
    handleWrite s true = ⟨[.close, .clearSession], .ok { s with bClose := true }⟩ := rfl

/-! ## The read side -/

inductive Flow where
  | ret (s : CSession)
  | cont (s : CSession) (copyLen : Int) (bytesTransferred : Nat)

/-- `memcpy` of received bytes behind what the node already holds. -/
def recvCopy (node : MsgNode) (data : Bytes) (copyLen : Int) (n : Nat) : Proc Bytes := do
  Exec.emit (.copy node.curLen n (node.totalLen + 1) copyLen)
  memcpy node.data node.curLen data copyLen n

/-- The part of a turn that fills the message node, which the source has
twice: behind a header that has just been read, with `want = data_len`, and
in a later read, with `want = remain_msg`. The first sets `_b_head_parse`
when the body is not complete; in the second it is set already.
mirrors include/asio/CSession.cpp:110-139, 142-170 -/
def recvBody (s : CSession) (copyLen : Int) (bytesTransferred : Nat) (node : MsgNode) (want : Int) :
    Proc Flow := do
  if bytesTransferred < toSizeT want then
    let data ← recvCopy node s.data copyLen bytesTransferred
    let node := { node with data, curLen := toShort (node.curLen + bytesTransferred) }
    let s ← CSession.start { s with recvMsgNode := some node, bHeadParse := true }
    return .ret s
  else
    let data ← recvCopy node s.data copyLen (toSizeT want)
    let copyLen := copyLen + want
    let bytesTransferred := toSizeT (bytesTransferred - want)
    let data ← store data node.totalLen 0
    let node := { node with data, curLen := toShort (node.curLen + want) }
    let s ← send { s with recvMsgNode := some node } node.data node.totalLen
    let s := { s with bHeadParse := false, recvHeadNode := s.recvHeadNode.clear }
    if bytesTransferred ≤ 0 then
      let s ← s.start
      return .ret s
    else
      return .cont s copyLen bytesTransferred

/-- One turn of the `while` of `HandleRead`.
mirrors include/asio/CSession.cpp:78-171 -/
def turn (s : CSession) (copyLen : Int) (bytesTransferred : Nat) : Proc Flow := do
  if !s.bHeadParse then
    let head := s.recvHeadNode
    if toSizeT (bytesTransferred + head.curLen) < toSizeT HEAD_LENGTH then
      let data ← recvCopy head s.data copyLen bytesTransferred
      let head := { head with data, curLen := toShort (head.curLen + bytesTransferred) }
      let s ← CSession.start { s with recvHeadNode := head }
      return .ret s
    else
      let headRemain := HEAD_LENGTH - head.curLen
      let data ← recvCopy head s.data copyLen (toSizeT headRemain)
      -- `_cur_len` of the header node is not advanced here
      let s := { s with recvHeadNode := { head with data } }
      let copyLen := copyLen + headRemain
      let bytesTransferred := toSizeT (bytesTransferred - headRemain)
      let dataLen := announced data
      Exec.emit (.header dataLen)
      if dataLen > MAX_LENGTH then
        Exec.emit .clearSession
        return .ret s
      else
        let node ← MsgNode.ofLen dataLen
        recvBody { s with recvMsgNode := some node } copyLen bytesTransferred node dataLen
  else
    match s.recvMsgNode with
    | none => Exec.fault .nullDeref
    | some node => recvBody s copyLen bytesTransferred node (node.totalLen - node.curLen)

/-- The `while` of `HandleRead`; falling through its condition returns. -/
def loop : Nat → CSession → Int → Nat → Option (Proc CSession)
  | 0, _, _, _ => none
  | fuel + 1, s, copyLen, bytesTransferred =>
    if bytesTransferred > 0 then
      let t := turn s copyLen bytesTransferred
      match t.out with
      | .error e => some ⟨t.log, .error e⟩
      | .ok (.ret s') => some ⟨t.log, .ok s'⟩
      | .ok (.cont s' copyLen' bytesTransferred') =>
        (loop fuel s' copyLen' bytesTransferred').map fun r => ⟨t.log ++ r.log, r.out⟩
    else some ⟨[], .ok s⟩

/-- mirrors include/asio/CSession.cpp:74-178 -/
def handleRead (s : CSession) (error : Bool) (bytesTransferred : Nat) : Option (Proc CSession) :=
  if !error then loop (bytesTransferred + 1) s 0 bytesTransferred
  else some do
    let s ← s.close
    Exec.emit .clearSession
    return s

theorem handleRead_failed (s : CSession) (n : Nat) :
    handleRead s true n = some ⟨[.close, .clearSession], .ok { s with bClose := true }⟩ := rfl

/-- `async_read_some` has put `chunk` at the front of `_data`. -/
def CSession.received (s : CSession) (chunk : Bytes) : CSession :=
  { s with data := blit s.data 0 chunk }

/-- A completed successful read of `chunk`. -/
def readChunk (s : CSession) (chunk : Bytes) : Option (Proc CSession) :=
  handleRead (s.received chunk) false chunk.length

end Cxx.Asio
