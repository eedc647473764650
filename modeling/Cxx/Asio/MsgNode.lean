import Cxx.Core.Buffer
import Cxx.Core.Exec

/-!
# `MsgNode`: the length-prefixed message buffer

Model of include/asio/CSession.h (`MsgNode`) and include/asio/const.h. A
`short` or an `int` is an `Int` and every narrowing is written out
(`toShort`, `toUShort`, `toSizeT`); an allocation is a byte list of exactly
the requested size, so `memcpy` and an indexed store can check their bounds.
What happens out of bounds, and after `new char[n]` with `n < 0`, is a
`Fault`: execution does not continue past it.

* `ofMsg_frame`: for a payload of 0..32765 bytes the sending constructor
  builds the two length bytes, most significant first, then the payload.
* `announced_lengthBytes`: the receiver's decoding undoes the constructor's
  encoding on every `short`; `lengthBytes_announced` is the other direction.
-/
namespace Cxx.Asio

abbrev Bytes := List UInt8

/-- mirrors include/asio/const.h:2-5 -/
def MAX_LENGTH : Int := 1024 * 2
def HEAD_LENGTH : Int := 2
def MAX_SENDQUE : Int := 1000

/-! ## Conversions between integer types -/

/-- Conversion to `short`. -/
def toShort (n : Int) : Int := if n % 65536 < 32768 then n % 65536 else n % 65536 - 65536

/-- Conversion to `unsigned short`. -/
def toUShort (n : Int) : Nat := (n % 65536).toNat

/-- Conversion to `size_t`. -/
def toSizeT (n : Int) : Nat := (n % 18446744073709551616).toNat

theorem toShort_of_range {n : Int} (h1 : -32768 ≤ n) (h2 : n < 32768) : toShort n = n := by
  unfold toShort; omega

theorem toSizeT_of_range {n : Int} (h1 : 0 ≤ n) (h2 : n < 18446744073709551616) :
    toSizeT n = n.toNat := by
  unfold toSizeT; omega

theorem toSizeT_natCast {n : Nat} (h : n < 18446744073709551616) : toSizeT n = n := by
  unfold toSizeT; omega

/-- A small negative length is larger than any chunk once it is a `size_t`. -/
theorem lt_toSizeT_of_neg {n : Int} (h1 : -65536 ≤ n) (h2 : n < 0) {k : Nat} (hk : k ≤ 2048) :
    k < toSizeT n := by
  unfold toSizeT; omega

/-! ## Byte order -/

/-- `socket_ops::host_to_network_short` on a little-endian host. -/
def hostToNetworkShort (n : Nat) : Nat := n % 256 * 256 + n / 256 % 256

/-- `socket_ops::network_to_host_short` on a little-endian host. -/
def networkToHostShort (n : Nat) : Nat := n % 256 * 256 + n / 256 % 256

/-- The object representation of the low 16 bits, little-endian. -/
def storeShort (n : Nat) : Bytes := [UInt8.ofNat (n % 256), UInt8.ofNat (n / 256 % 256)]

/-- `memcpy(&data_len, p, HEAD_LENGTH)` read back as an unsigned value. -/
def loadShort (p : Bytes) : Nat := (p.getD 0 0).toNat + 256 * (p.getD 1 0).toNat

/-- The two length bytes the sending constructor writes for `max_len`. -/
def lengthBytes (maxLen : Int) : Bytes := storeShort (hostToNetworkShort (toUShort maxLen))

/-- The length a receiver reads in two header bytes.
mirrors include/asio/CSession.cpp:97-100 -/
def announced (p : Bytes) : Int := toShort (networkToHostShort (loadShort p))

@[simp] theorem lengthBytes_length (n : Int) : (lengthBytes n).length = 2 := rfl

theorem announced_take (p : Bytes) : announced (p.take 2) = announced p := by
  match p with
  | [] => rw [List.take_nil]
  | [a] => rw [List.take_of_length_le (by simp)]
  | a :: b :: rest => unfold announced loadShort; rfl

/-- Both byte-order conversions exchange the two bytes. -/
theorem swap_pair {a b : Nat} (ha : a < 256) (hb : b < 256) :
    (a + 256 * b) % 256 * 256 + (a + 256 * b) / 256 % 256 = 256 * a + b := by
  have h1 : (a + 256 * b) % 256 = a := by rw [Nat.add_mul_mod_self_left]; omega
  have h2 : (a + 256 * b) / 256 = b := by rw [Nat.add_mul_div_left _ _ (by decide)]; omega
  rw [h1, h2]; omega

theorem announced_pair (a b : UInt8) : announced [a, b] = toShort (256 * a.toNat + b.toNat) := by
  have h : networkToHostShort (loadShort [a, b]) = 256 * a.toNat + b.toNat :=
    swap_pair a.toNat_lt b.toNat_lt
  rw [announced, h]
  exact congrArg toShort (by omega)

theorem toNat_ofNat_byte {n : Nat} (h : n < 256) : (UInt8.ofNat n).toNat = n := by
  rw [UInt8.toNat_ofNat']; omega

/-- The constructor's two bytes: high byte first. -/
theorem storeShort_swap {n : Nat} (h : n < 65536) :
    storeShort (hostToNetworkShort n) = [UInt8.ofNat (n / 256), UInt8.ofNat (n % 256)] := by
  have hd := Nat.div_add_mod n 256
  have hs := swap_pair (a := n % 256) (b := n / 256) (by omega) (by omega)
  have e : n % 256 + 256 * (n / 256) = n := by omega
  rw [e] at hs
  have h1 : (256 * (n % 256) + n / 256) % 256 = n / 256 := by
    rw [Nat.mul_add_mod]; omega
  have h2 : (256 * (n % 256) + n / 256) / 256 % 256 = n % 256 := by
    rw [Nat.mul_add_div (by decide)]; omega
  simp only [storeShort, hostToNetworkShort, hs, h1, h2]

theorem announced_lengthBytes (n : Int) : announced (lengthBytes n) = toShort n := by
  have h : toUShort n < 65536 := by unfold toUShort; omega
  have hu : (toUShort n : Int) = n % 65536 := by unfold toUShort; omega
  rw [lengthBytes, storeShort_swap h, announced_pair, toNat_ofNat_byte (by omega),
    toNat_ofNat_byte (by omega)]
  unfold toShort
  omega

/-- Two header bytes are the ones the constructor writes for the length they announce. -/
theorem lengthBytes_announced {p : Bytes} (hp : p.length = 2) : lengthBytes (announced p) = p := by
  obtain ⟨a, b, rfl⟩ : ∃ a b, p = [a, b] := List.length_eq_two.mp hp
  have ha := a.toNat_lt
  have hb := b.toNat_lt
  have hu : toUShort (announced [a, b]) = 256 * a.toNat + b.toNat := by
    rw [announced_pair]; unfold toUShort toShort; omega
  have h1 : (256 * a.toNat + b.toNat) / 256 = a.toNat := by
    rw [Nat.mul_add_div (by decide)]; omega
  have h2 : (256 * a.toNat + b.toNat) % 256 = b.toNat := by
    rw [Nat.mul_add_mod]; omega
  rw [lengthBytes, hu, storeShort_swap (by omega), h1, h2, UInt8.ofNat_toNat, UInt8.ofNat_toNat]

/-! ## Memory -/

inductive Fault where
  /-- `std::bad_array_new_length` -/
  | badNewLength
  | outOfBounds
  | nullDeref
  deriving DecidableEq, Repr

/-- What a handler does that can be seen outside the session object, and the
allocations and copies whose sizes come from the peer. `copy` records the
destination offset, the number of bytes, the size `_total_len + 1` of the
destination node and the source offset in `_data`; `send` records the
arguments of a `Send` call and the queue size it reads first. -/
inductive Act where
  | header (dataLen : Int)
  | alloc (size : Int)
  | copy (off : Int) (len : Nat) (cap : Int) (srcOff : Int)
  | send (msg : Bytes) (maxLength : Int) (sendQueSize : Int)
  | asyncRead
  | asyncWrite (buf : Bytes)
  | clearSession
  | close
  deriving DecidableEq, Repr

abbrev Proc := Exec Act Fault

/-- `new char[n]()` -/
def newChar (n : Int) : Proc Bytes := do
  Exec.emit (.alloc n)
  if n < 0 then Exec.fault .badNewLength else return List.replicate n.toNat 0

/-- `memcpy(dst + off, src + srcOff, n)` -/
def memcpy (dst : Bytes) (off : Int) (src : Bytes) (srcOff : Int) (n : Nat) : Proc Bytes :=
  if 0 ≤ off ∧ off + n ≤ dst.length ∧ 0 ≤ srcOff ∧ srcOff + n ≤ src.length then
    return blit dst off.toNat ((src.drop srcOff.toNat).take n)
  else Exec.fault .outOfBounds

/-- `p[i] = c` -/
def store (p : Bytes) (i : Int) (c : UInt8) : Proc Bytes :=
  if 0 ≤ i ∧ i < p.length then return p.set i.toNat c else Exec.fault .outOfBounds

theorem newChar_ok {n : Int} (h : 0 ≤ n) :
    newChar n = ⟨[.alloc n], .ok (List.replicate n.toNat 0)⟩ := by
  have : ¬ n < 0 := by omega
  simp [newChar, this]

theorem newChar_neg {n : Int} (h : n < 0) : newChar n = ⟨[.alloc n], .error .badNewLength⟩ := by
  simp [newChar, h, Exec.fault]

theorem memcpy_ok {dst src : Bytes} {off srcOff n : Nat} (h1 : off + n ≤ dst.length)
    (h2 : srcOff + n ≤ src.length) :
    memcpy dst off src srcOff n = ⟨[], .ok (blit dst off ((src.drop srcOff).take n))⟩ := by
  have hc : 0 ≤ (off : Int) ∧ (off : Int) + n ≤ dst.length ∧ 0 ≤ (srcOff : Int) ∧
      (srcOff : Int) + n ≤ src.length := by omega
  simp only [memcpy, if_pos hc, Int.toNat_natCast, Exec.pure_eq]

theorem newChar_out {n : Int} {data : Bytes} (h : (newChar n).out = .ok data) :
    0 ≤ n ∧ data.length = n.toNat := by
  by_cases hn : n < 0
  · rw [newChar_neg hn] at h; cases h
  · rw [newChar_ok (by omega)] at h
    cases h
    exact ⟨by omega, List.length_replicate⟩

/-- A copy that comes to its end stayed in bounds. -/
theorem memcpy_out {dst src data : Bytes} {off srcOff : Int} {n : Nat}
    (h : (memcpy dst off src srcOff n).out = .ok data) :
    (0 ≤ off ∧ off + n ≤ dst.length ∧ 0 ≤ srcOff ∧ srcOff + n ≤ src.length) ∧
      data = blit dst off.toNat ((src.drop srcOff.toNat).take n) := by
  unfold memcpy at h
  by_cases hc : 0 ≤ off ∧ off + n ≤ dst.length ∧ 0 ≤ srcOff ∧ srcOff + n ≤ src.length
  · rw [if_pos hc] at h
    cases h
    exact ⟨hc, rfl⟩
  · rw [if_neg hc] at h
    cases h

theorem memcpy_length {dst src data : Bytes} {off srcOff : Int} {n : Nat}
    (h : (memcpy dst off src srcOff n).out = .ok data) : data.length = dst.length := by
  obtain ⟨⟨hoff, hfit, hsrc, hread⟩, rfl⟩ := memcpy_out h
  have hlen : ((src.drop srcOff.toNat).take n).length = n := by
    rw [List.length_take, List.length_drop]
    omega
  exact blit_length (by omega)

theorem store_ok {p : Bytes} {i : Nat} {c : UInt8} (h : i < p.length) :
    store p i c = ⟨[], .ok (p.set i c)⟩ := by
  have hc : 0 ≤ (i : Int) ∧ (i : Int) < p.length := by omega
  simp only [store, if_pos hc, Int.toNat_natCast, Exec.pure_eq]

/-! ## `MsgNode` -/

structure MsgNode where
  curLen : Int
  totalLen : Int
  data : Bytes
  deriving DecidableEq, Repr

/-- `MsgNode(char * msg, short max_len)`
mirrors include/asio/CSession.h:18-25 -/
def MsgNode.ofMsg (msg : Bytes) (maxLen : Int) : Proc MsgNode := do
  let totalLen := toShort (maxLen + HEAD_LENGTH)
  let data ← newChar (totalLen + 1)
  let maxLenHost := hostToNetworkShort (toUShort maxLen)
  let data ← memcpy data 0 (storeShort maxLenHost) 0 (toSizeT HEAD_LENGTH)
  let data ← memcpy data HEAD_LENGTH msg 0 (toSizeT maxLen)
  let data ← store data totalLen 0
  return { curLen := 0, totalLen, data }

/-- `MsgNode(short max_len)`
mirrors include/asio/CSession.h:27-29 -/
def MsgNode.ofLen (maxLen : Int) : Proc MsgNode := do
  let data ← newChar (maxLen + 1)
  return { curLen := 0, totalLen := maxLen, data }

/-- mirrors include/asio/CSession.h:35-38 -/
def MsgNode.clear (m : MsgNode) : MsgNode :=
  { m with data := blit m.data 0 (List.replicate (toSizeT m.totalLen) 0), curLen := 0 }

/-- The bytes `boost::asio::buffer(_data, _total_len)` refers to. -/
def MsgNode.frame (m : MsgNode) : Bytes := m.data.take (toSizeT m.totalLen)

theorem newChar_log {n : Int} {a : Act} (h : a ∈ (newChar n).log) : a = .alloc n := by
  by_cases hn : n < 0
  · rw [newChar_neg hn] at h; exact List.mem_singleton.mp h
  · rw [newChar_ok (by omega)] at h; exact List.mem_singleton.mp h

theorem memcpy_log (dst : Bytes) (off : Int) (src : Bytes) (srcOff : Int) (n : Nat) :
    (memcpy dst off src srcOff n).log = [] := by
  unfold memcpy; split <;> rfl

theorem store_log (p : Bytes) (i : Int) (c : UInt8) : (store p i c).log = [] := by
  unfold store; split <;> rfl

/-- The sending constructor does nothing outside but allocate. -/
theorem MsgNode.ofMsg_log {msg : Bytes} {n : Int} {a : Act} (h : a ∈ (MsgNode.ofMsg msg n).log) :
    ∃ k, a = .alloc k := by
  simp only [ofMsg] at h
  rcases Exec.mem_log_bind h with h | ⟨_, -, h⟩
  · exact ⟨_, newChar_log h⟩
  rcases Exec.mem_log_bind h with h | ⟨_, -, h⟩
  · rw [memcpy_log] at h; cases h
  rcases Exec.mem_log_bind h with h | ⟨_, -, h⟩
  · rw [memcpy_log] at h; cases h
  rcases Exec.mem_log_bind h with h | ⟨_, -, h⟩
  · rw [store_log] at h; cases h
  · cases h

theorem MsgNode.ofLen_ok {n : Int} (h : 0 ≤ n + 1) :
    MsgNode.ofLen n = ⟨[.alloc (n + 1)], .ok ⟨0, n, List.replicate (n + 1).toNat 0⟩⟩ := by
  simp only [ofLen, newChar_ok h]; rfl

theorem MsgNode.ofLen_neg {n : Int} (h : n + 1 < 0) :
    MsgNode.ofLen n = ⟨[.alloc (n + 1)], .error .badNewLength⟩ := by
  simp only [ofLen, newChar_neg h]; rfl

/-- **The frame of a message.** `n` bytes of `msg` behind their length. -/
theorem MsgNode.ofMsg_frame {msg : Bytes} {n : Nat} (hn : n ≤ msg.length) (h : n ≤ 32765) :
    ∃ m, MsgNode.ofMsg msg n = ⟨[.alloc (n + 3)], .ok m⟩ ∧ m.curLen = 0 ∧ m.totalLen = n + 2 ∧
      m.data.length = n + 3 ∧ m.frame = lengthBytes n ++ msg.take n := by
  have ht : toShort ((n : Int) + HEAD_LENGTH) = ((n + 2 : Nat) : Int) := by
    unfold toShort HEAD_LENGTH; omega
  have h2 : toSizeT HEAD_LENGTH = 2 := rfl
  have hN : toSizeT (n : Int) = n := toSizeT_natCast (by omega)
  have ha : newChar (((n + 2 : Nat) : Int) + 1) =
    ⟨[.alloc (n + 3)], .ok (List.replicate (n + 3) 0)⟩ := by
    rw [newChar_ok (by omega)]
    have e1 : ((n + 2 : Nat) : Int) + 1 = (n : Int) + 3 := by omega
    have e2 : ((n : Int) + 3).toNat = n + 3 := by omega
    rw [e1, e2]
  -- the two copies tile the buffer up to the terminator
  let d₁ : Bytes := blit (List.replicate (n + 3) 0) 0 (lengthBytes n)
  have l₁ : d₁.length = n + 3 := by
    rw [blit_length] <;> simp
  have c₁ : memcpy (List.replicate (n + 3) 0) 0 (storeShort (hostToNetworkShort (toUShort n))) 0 2 =
      ⟨[], .ok d₁⟩ := @memcpy_ok _ (lengthBytes n) 0 0 2 (by simp) (by simp)
  let d₂ : Bytes := blit d₁ 2 (msg.take n)
  have lm : (msg.take n).length = n := by simp; omega
  have l₂ : d₂.length = n + 3 := by rw [blit_length (by omega), l₁]
  have c₂ : memcpy d₁ HEAD_LENGTH msg 0 n = ⟨[], .ok d₂⟩ :=
    @memcpy_ok d₁ msg 2 0 n (by omega) (by omega)
  have c₃ : store d₂ ((n + 2 : Nat) : Int) 0 = ⟨[], .ok (d₂.set (n + 2) 0)⟩ := store_ok (by omega)
  refine ⟨⟨0, (n + 2 : Nat), d₂.set (n + 2) 0⟩, ?_, rfl, by simp, by simp [l₂], ?_⟩
  · simp only [ofMsg, ht, h2, hN]
    rw [Exec.bind_of_ok ha, Exec.bind_of_ok c₁, Exec.bind_of_ok c₂, Exec.bind_of_ok c₃]
    rfl
  · have t₁ : d₁.take (0 + (lengthBytes n).length) = lengthBytes n := by
      rw [blit_take (by simp), List.take_zero, List.nil_append]
    have t₂ : d₂.take (2 + (msg.take n).length) = lengthBytes n ++ msg.take n := by
      rw [blit_take (by omega)]; exact congrArg (· ++ _) t₁
    rw [lm] at t₂
    simp only [frame]
    rw [toSizeT_natCast (by omega), List.take_set_of_le (by omega), Nat.add_comm n 2, t₂]

end Cxx.Asio
