import Cxx.Asio.WritePump

/-!
# Lengths between `int` and `short`

The length of a message is an `int` for `Send`, a `short` for the constructor
of its node, a `short` again in `_total_len`, and two bytes on the way to the
reader, include/asio/CSession.h:18-25 and CSession.cpp:29-44, 96-100.

* `ofMsg_accepts`: the lengths that the constructor lets through.
* `length_survives`: of the lengths of an `int`, those up to 32765 reach the
  reader as they are, and no other does.
-/
namespace Cxx.Asio

/-- The greatest length whose node still counts its bytes in a `short`. -/
def maxBody : Int := 32767 - HEAD_LENGTH

/-- `node` carries the first `n` bytes of `msg`, and says so. -/
structure Carries (node : MsgNode) (msg : Bytes) (n : Int) : Prop where
  total : node.totalLen = n + HEAD_LENGTH
  room : n + HEAD_LENGTH ≤ node.data.length
  header : announced (node.data.take HEAD_LENGTH.toNat) = n
  body : n ≤ msg.length ∧ (node.data.drop HEAD_LENGTH.toNat).take n.toNat = msg.take n.toNat

theorem toShort_lt (n : Int) : -32768 ≤ toShort n ∧ toShort n < 32768 := by
  unfold toShort
  omega

theorem toShort_of_body {n : Int} (h0 : 0 ≤ n) (h : n ≤ maxBody) : toShort n = n := by
  unfold maxBody HEAD_LENGTH at h
  exact toShort_of_range (by omega) (by omega)

/-- The lengths of a `short` that the constructor lets through: those that leave
room for the header and for which the message has the bytes. -/
theorem ofMsg_accepts {msg : Bytes} {k : Int} (hlow : -32768 ≤ k) (hhigh : k < 32768) {m : MsgNode}
    (h : (MsgNode.ofMsg msg k).out = .ok m) : 0 ≤ k ∧ k ≤ maxBody ∧ k ≤ msg.length := by
  unfold MsgNode.ofMsg at h
  obtain ⟨data, hnew, h⟩ := Exec.out_bind h
  obtain ⟨hsize, hlen⟩ := newChar_out hnew
  obtain ⟨data', hhead, h⟩ := Exec.out_bind h
  obtain ⟨data'', hbody, -⟩ := Exec.out_bind h
  obtain ⟨⟨-, hfit, -, -⟩, -⟩ := memcpy_out hhead
  obtain ⟨⟨-, hfit', -, hsrc⟩, -⟩ := memcpy_out hbody
  rw [memcpy_length hhead, hlen] at hfit'
  rw [hlen, show toSizeT HEAD_LENGTH = 2 from rfl] at hfit
  have htotal := toShort_lt (k + HEAD_LENGTH)
  -- a negative length would be a huge one for the second copy
  have h0 : 0 ≤ k := by
    by_contra hneg
    have htwo : HEAD_LENGTH = 2 := rfl
    unfold toSizeT at hfit'
    omega
  rw [toSizeT_of_range h0 (by omega)] at hsrc
  refine ⟨h0, ?_, by omega⟩
  -- above the limit the sum of the two is a negative `short`
  by_contra hbig
  unfold maxBody at hbig
  have : toShort (k + HEAD_LENGTH) < 0 := by
    unfold HEAD_LENGTH at hbig ⊢
    unfold toShort
    omega
  omega

/-! ## The node that `Send` queues -/

/-- What a call that finds room queues is the node of the narrowed length. -/
theorem send_queues {s s' : CSession} {msg : Bytes} {n : Int}
    (hq : ¬ MAX_SENDQUE < (s.sendQue.length : Int)) : (send s msg n).out = .ok s' ↔
      ∃ m, (MsgNode.ofMsg msg (toShort n)).out = .ok m ∧
        s' = { s with sendQue := s.sendQue ++ [m] } := by
  rw [send_out hq]
  cases (MsgNode.ofMsg msg (toShort n)).out with
  | error e =>
    constructor
    · intro h; cases h
    · intro h
      obtain ⟨m, h, -⟩ := h
      cases h
  | ok m =>
    constructor
    · intro h
      exact ⟨m, rfl, (Except.ok.inj h).symm⟩
    · intro h
      obtain ⟨m', h, rfl⟩ := h
      cases h
      rfl

/-- The node of a length that the constructor lets through. -/
theorem carries_narrowed {msg : Bytes} {k : Int} {m : MsgNode} (h0 : 0 ≤ k) (hk : k ≤ maxBody)
    (hlen : k ≤ msg.length) (h : (MsgNode.ofMsg msg k).out = .ok m) : Carries m msg k := by
  obtain ⟨n, rfl⟩ := Int.eq_ofNat_of_zero_le h0
  have hn : n ≤ 32765 := by
    unfold maxBody HEAD_LENGTH at hk
    omega
  obtain ⟨m', hm', -, htotal, hsize, hframe⟩ := MsgNode.ofMsg_frame (Int.ofNat_le.mp hlen) hn
  rw [hm'] at h
  cases h
  have htwo : (lengthBytes n).length = 2 := rfl
  -- the frame is the length and the bytes, one behind the other
  unfold MsgNode.frame at hframe
  rw [htotal, show ((n : Int) + 2) = ((2 + n : Nat) : Int) by omega, toSizeT_natCast (by omega)]
    at hframe
  have hheader : m.data.take 2 = lengthBytes n := by
    have := congrArg (List.take 2) hframe
    rwa [List.take_take, Nat.min_eq_left (by omega), ← htwo, List.take_left] at this
  have hbody : (m.data.drop 2).take n = msg.take n := by
    have := congrArg (List.drop 2) hframe
    rwa [List.drop_take, Nat.add_sub_cancel_left, ← htwo, List.drop_left] at this
  refine ⟨htotal, ?_, ?_, hlen, hbody⟩
  · rw [hsize]
    unfold HEAD_LENGTH
    omega
  · rw [show HEAD_LENGTH.toNat = 2 from rfl, hheader, announced_lengthBytes, toShort_of_body h0 hk]

/-- `Send` queues a node when the narrowed length fits a frame and the message has the bytes. -/
theorem send_accepts_iff {s : CSession} {msg : Bytes} {n : Int}
    (hq : ¬ MAX_SENDQUE < (s.sendQue.length : Int)) : (∃ s', (send s msg n).out = .ok s') ↔
      0 ≤ toShort n ∧ toShort n ≤ maxBody ∧ toShort n ≤ msg.length := by
  constructor
  · intro h
    obtain ⟨s', h⟩ := h
    obtain ⟨m, hm, -⟩ := (send_queues hq).mp h
    exact ofMsg_accepts (toShort_lt n).1 (toShort_lt n).2 hm
  · intro h
    obtain ⟨h0, hk, hlen⟩ := h
    obtain ⟨k, he⟩ := Int.eq_ofNat_of_zero_le h0
    rw [he] at hk hlen
    have hk : k ≤ 32765 := by
      unfold maxBody HEAD_LENGTH at hk
      omega
    obtain ⟨m, hm, -⟩ := MsgNode.ofMsg_frame (Int.ofNat_le.mp hlen) hk
    exact ⟨_, (send_queues hq).mpr ⟨m, congrArg Exec.out (he ▸ hm), rfl⟩⟩

/-- The node of an accepted message carries it when its length was not changed
on the way from `int` to `short`, and only then. -/
theorem carries_iff {s s' : CSession} {msg : Bytes} {n : Int}
    (hq : ¬ MAX_SENDQUE < (s.sendQue.length : Int)) (h : (send s msg n).out = .ok s') :
    (∃ node, s'.sendQue = s.sendQue ++ [node] ∧ Carries node msg n) ↔ toShort n = n := by
  obtain ⟨m, hm, rfl⟩ := (send_queues hq).mp h
  obtain ⟨h0, hk, hlen⟩ := ofMsg_accepts (toShort_lt n).1 (toShort_lt n).2 hm
  have hcarries := carries_narrowed h0 hk hlen hm
  constructor
  · intro hnode
    obtain ⟨node, hnode, hc⟩ := hnode
    have he : m = node := (List.cons.inj (List.append_cancel_left hnode)).1
    have htotal := hcarries.total
    rw [he, hc.total] at htotal
    omega
  · intro hn
    rw [hn] at hcarries
    exact ⟨m, rfl, hcarries⟩

/-- **Message lengths.** `Send` takes every length up to `maxBody` of which the
message has the bytes. Of the lengths that it takes, exactly these reach the
queue as they are: in `_total_len`, in the buffer, in the header as the reader
decodes it, and in the body. -/
theorem length_survives (s : CSession) (msg : Bytes) (n : Int)
    (hq : ¬ MAX_SENDQUE < (s.sendQue.length : Int)) (h0 : 0 ≤ n) :
    (n ≤ maxBody → n ≤ msg.length → ∃ s', (send s msg n).out = .ok s') ∧
    ∀ s', (send s msg n).out = .ok s' →
      ((∃ node, s'.sendQue = s.sendQue ++ [node] ∧ Carries node msg n) ↔ n ≤ maxBody) := by
  constructor
  · intro hn hlen
    rw [send_accepts_iff hq, toShort_of_body h0 hn]
    exact ⟨h0, hn, hlen⟩
  · intro s' h
    rw [carries_iff hq h]
    constructor
    · intro he
      have hbody := ((send_accepts_iff hq).mp ⟨s', h⟩).2.1
      rwa [he] at hbody
    · exact toShort_of_body h0

theorem length_survives_three : ∃ s' node, (send .new [1, 2, 3, 4] 3).out = .ok s' ∧
    s'.sendQue = [node] ∧ Carries node [1, 2, 3, 4] 3 := by
  obtain ⟨haccepts, hcarries⟩ := length_survives .new [1, 2, 3, 4] 3 (by decide) (by decide)
  obtain ⟨s', h⟩ := haccepts (by decide) (by decide)
  obtain ⟨node, hqueue, hc⟩ := (hcarries s' h).mpr (by decide)
  exact ⟨s', node, h, hqueue, hc⟩

/-- A length of 65536 is 0 as a `short`: the node that is queued has no body. -/
theorem length_lost : ¬ ∀ s msg n s', ¬ MAX_SENDQUE < (s.sendQue.length : Int) → 0 ≤ n →
    n ≤ (msg.length : Int) → (send s msg n).out = .ok s' →
    ∃ node, s'.sendQue = s.sendQue ++ [node] ∧ Carries node msg n := by
  intro h
  have hq : ¬ MAX_SENDQUE < (CSession.new.sendQue.length : Int) := by decide
  have hlen : ((List.replicate 65536 (0 : UInt8)).length : Int) = 65536 := by
    rw [List.length_replicate]; rfl
  obtain ⟨s', hs⟩ := (@send_accepts_iff .new (List.replicate 65536 0) 65536 hq).mpr
    ⟨by decide, by decide, by rw [hlen]; decide⟩
  have hnode := h .new (List.replicate 65536 0) 65536 s' hq (by decide) (Int.le_of_eq hlen.symm) hs
  exact absurd ((carries_iff hq hs).mp hnode) (by decide)

end Cxx.Asio
