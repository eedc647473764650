import Cxx.Core.Stream
import Cxx.Asio.MsgNode

/-!
# The echo protocol, one byte at a time

What `CSession::HandleRead` is for, stated without chunks: a stream is a
sequence of frames, each two length bytes and a body. `parser` reads it byte
by byte; its state (`Situation`) is what a receiver can be in between two
reads, and its outputs are the headers it completes and the messages it
hands to `Send`.

* `parse_head`, `parse_header`, `parse_part`, `parse_body`: what a run of
  bytes does in each state, for any number of bytes at once.
* `parse_frames`: a concatenation of frames is parsed back into the payloads.
* `headers`, `frames`: the lengths a stream announces and the complete
  frames at its front; `parse_headers` and `parse_sent` find them in the
  outputs of the parser on any stream, well-formed or not.
-/
namespace Cxx.Asio

/-- `head got`: a header is pending. `body len got`: a body of announced
length `len` is pending (`len = -1` is possible: `new char[0]` succeeds). -/
inductive Situation where
  | head (got : Bytes)
  | body (len : Int) (got : Bytes)
  | rejected
  | failed
  deriving DecidableEq, Repr

inductive Event where
  | header (len : Int)
  | sent (msg : Bytes) (len : Int)
  deriving DecidableEq, Repr

/-- What follows a complete header that announces `len`. -/
def afterHeader (len : Int) : Situation × List Event :=
  if MAX_LENGTH < len then (.rejected, [.header len])
  else if len + 1 < 0 then (.failed, [.header len])
  else if len = 0 then (.head [], [.header len, .sent [] 0])
  else (.body len [], [.header len])

def parseByte : Situation → UInt8 → Situation × List Event
  | .head got, b =>
    if (got.length : Int) + 1 < HEAD_LENGTH then (.head (got ++ [b]), [])
    else afterHeader (announced (got ++ [b]))
  | .body len got, b =>
    if len < 0 then (.failed, [])
    else if (got.length : Int) + 1 < len then (.body len (got ++ [b]), [])
    else (.head [], [.sent (got ++ [b]) len])
  | .rejected, _ => (.rejected, [])
  | .failed, _ => (.failed, [])

def parser : Mealy Situation UInt8 Event := ⟨parseByte⟩

theorem parser_step (s : Situation) (b : UInt8) : parser.step s b = parseByte s b := by
  unfold parser; rfl

theorem parse_rejected (bs : Bytes) : parser.run .rejected bs = (.rejected, []) :=
  parser.run_absorb (fun _ => rfl) bs

theorem parse_failed (bs : Bytes) : parser.run .failed bs = (.failed, []) :=
  parser.run_absorb (fun _ => rfl) bs

/-! ## One byte -/

theorem parser_head {got : Bytes} {b : UInt8} (h : (got.length : Int) + 1 < HEAD_LENGTH) :
    parser.step (.head got) b = (.head (got ++ [b]), []) := by
  rw [parser_step, parseByte, if_pos h]

theorem parser_header {got : Bytes} {b : UInt8} (h : ¬ (got.length : Int) + 1 < HEAD_LENGTH) :
    parser.step (.head got) b = afterHeader (announced (got ++ [b])) := by
  rw [parser_step, parseByte, if_neg h]

theorem parser_part {len : Int} {got : Bytes} {b : UInt8} (h0 : 0 ≤ len)
    (h : (got.length : Int) + 1 < len) :
    parser.step (.body len got) b = (.body len (got ++ [b]), []) := by
  rw [parser_step, parseByte, if_neg (by omega), if_pos h]

theorem parser_body {len : Int} {got : Bytes} {b : UInt8} (h0 : 0 ≤ len)
    (h : ¬ (got.length : Int) + 1 < len) :
    parser.step (.body len got) b = (.head [], [.sent (got ++ [b]) len]) := by
  rw [parser_step, parseByte, if_neg (by omega), if_neg h]

theorem parser_negative {len : Int} {got : Bytes} {b : UInt8} (h : len < 0) :
    parser.step (.body len got) b = (.failed, []) := by
  rw [parser_step, parseByte, if_pos h]

/-! ## Any number of bytes -/

/-- Too few bytes for a header are kept. -/
theorem parse_head (bs : Bytes) : ∀ got : Bytes, got.length + bs.length < 2 →
    parser.run (.head got) bs = (.head (got ++ bs), []) := by
  induction bs with
  | nil => intro got _; simp
  | cons b bs ih =>
    intro got h
    simp only [List.length_cons] at h
    have hlt : (got.length : Int) + 1 < HEAD_LENGTH := by unfold HEAD_LENGTH; omega
    rw [Mealy.run_cons, parser_head hlt, ih (got ++ [b]) (by simp; omega)]
    simp

/-- The bytes that complete a header. -/
theorem parse_header (bs : Bytes) : ∀ got : Bytes, got.length + bs.length = 2 → got.length < 2 →
    parser.run (.head got) bs = afterHeader (announced (got ++ bs)) := by
  induction bs with
  | nil => intro got h h2; simp at h; omega
  | cons b bs ih =>
    intro got h h2
    simp only [List.length_cons] at h
    by_cases hlt : (got.length : Int) + 1 < HEAD_LENGTH
    · rw [Mealy.run_cons, parser_head hlt]
      unfold HEAD_LENGTH at hlt
      have hlen : (got ++ [b]).length = got.length + 1 := List.length_append
      rw [ih (got ++ [b]) (by omega) (by omega), List.append_assoc,
        List.singleton_append, List.nil_append, Prod.eta]
    · obtain rfl : bs = [] := by
        apply List.eq_nil_of_length_eq_zero; unfold HEAD_LENGTH at hlt; omega
      rw [Mealy.run_singleton, parser_header hlt]

/-- Too few bytes for a body are kept. -/
theorem parse_part {len : Int} (h0 : 0 ≤ len) (bs : Bytes) : ∀ got : Bytes,
    (got.length : Int) + bs.length < len →
    parser.run (.body len got) bs = (.body len (got ++ bs), []) := by
  induction bs with
  | nil => intro got _; simp
  | cons b bs ih =>
    intro got h
    simp only [List.length_cons] at h
    rw [Mealy.run_cons, parser_part h0 (by omega), ih (got ++ [b]) (by simp; omega)]
    simp

/-- The bytes that complete a body. -/
theorem parse_body {len : Int} (h0 : 0 ≤ len) (bs : Bytes) : ∀ got : Bytes,
    (got.length : Int) + bs.length = len → (got.length : Int) < len →
    parser.run (.body len got) bs = (.head [], [.sent (got ++ bs) len]) := by
  induction bs with
  | nil => intro got h h2; simp at h; omega
  | cons b bs ih =>
    intro got h h2
    simp only [List.length_cons] at h
    by_cases hlt : (got.length : Int) + 1 < len
    · rw [Mealy.run_cons, parser_part h0 hlt, ih (got ++ [b]) (by simp; omega) (by simp; omega)]
      simp
    · obtain rfl : bs = [] := by
        apply List.eq_nil_of_length_eq_zero; omega
      rw [Mealy.run_singleton, parser_body h0 hlt]

/-- A pending body of negative length fails on the next byte. -/
theorem parse_negative {len : Int} (h : len < 0) (b : UInt8) (bs got : Bytes) :
    parser.run (.body len got) (b :: bs) = (.failed, []) := by
  rw [Mealy.run_cons, parser_negative h, parse_failed]
  rfl

theorem afterHeader_large {len : Int} (h : MAX_LENGTH < len) :
    afterHeader len = (.rejected, [.header len]) := by
  rw [afterHeader, if_pos h]

theorem afterHeader_unallocatable {len : Int} (h : len + 1 < 0) :
    afterHeader len = (.failed, [.header len]) := by
  rw [afterHeader, if_neg (by unfold MAX_LENGTH; omega), if_pos h]

theorem afterHeader_zero : afterHeader 0 = (.head [], [.header 0, .sent [] 0]) := rfl

theorem afterHeader_body {len : Int} (h0 : 0 ≤ len + 1) (h : len ≠ 0) (h1 : len ≤ MAX_LENGTH) :
    afterHeader len = (.body len [], [.header len]) := by
  rw [afterHeader, if_neg (by omega), if_neg (by omega), if_neg h]

theorem afterHeader_cases (len : Int) :
    (MAX_LENGTH < len ∧ afterHeader len = (.rejected, [.header len])) ∨
    (len < 0 ∧ (afterHeader len).1 ∈ [.failed, .body len []] ∧
      (afterHeader len).2 = [.header len]) ∨
    (len = 0 ∧ afterHeader len = (.head [], [.header len, .sent [] 0])) ∨
    (0 < len ∧ len ≤ MAX_LENGTH ∧ afterHeader len = (.body len [], [.header len])) := by
  by_cases h1 : MAX_LENGTH < len
  · exact .inl ⟨h1, afterHeader_large h1⟩
  by_cases h2 : len + 1 < 0
  · exact .inr (.inl ⟨by omega, by simp [afterHeader_unallocatable h2]⟩)
  by_cases h3 : len = 0
  · subst h3; exact .inr (.inr (.inl ⟨rfl, afterHeader_zero⟩))
  have h4 : afterHeader len = _ := afterHeader_body (by omega) h3 (by omega)
  by_cases h5 : len < 0
  · exact .inr (.inl ⟨h5, by simp [h4]⟩)
  · exact .inr (.inr (.inr ⟨by omega, by omega, h4⟩))

/-- From a complete header to the end of its body. -/
theorem parse_afterHeader {len : Int} (h0 : 0 ≤ len) (h1 : len ≤ MAX_LENGTH) (body : Bytes)
    (hb : (body.length : Int) = len) :
    ∃ t, parser.run (afterHeader len).1 body = (.head [], t) ∧
      (afterHeader len).2 ++ t = [.header len, .sent body len] := by
  by_cases hz : len = 0
  · subst hz
    obtain rfl : body = [] := List.eq_nil_of_length_eq_zero (by omega)
    exact ⟨[], by simp [afterHeader_zero], by simp [afterHeader_zero]⟩
  · rw [afterHeader_body (by omega) hz h1]
    exact ⟨_, parse_body h0 body [] (by simpa using hb) (by simp; omega), by simp⟩

/-- A negative announced length puts nothing out after its header. -/
theorem parse_after_negative {len : Int} (h : len < 0) (rest : Bytes) :
    (afterHeader len).2 ++ (parser.run (afterHeader len).1 rest).2 = [.header len] := by
  by_cases h1 : len + 1 < 0
  · rw [afterHeader_unallocatable h1, parse_failed]; rfl
  · rw [afterHeader_body (by omega) (by omega) (by unfold MAX_LENGTH; omega)]
    cases rest with
    | nil => rfl
    | cons b bs => rw [parse_negative h]; rfl

theorem parse_two (a b : UInt8) (rest : Bytes) :
    parser.run (.head []) (a :: b :: rest) =
      ((parser.run (afterHeader (announced [a, b])).1 rest).1,
        (afterHeader (announced [a, b])).2 ++
          (parser.run (afterHeader (announced [a, b])).1 rest).2) := by
  have h := parse_header [a, b] [] rfl (by decide)
  rw [List.nil_append] at h
  rw [show a :: b :: rest = [a, b] ++ rest from rfl, Mealy.run_append, h]

/-! ## Getting stuck -/

/-- A header with a negative length has been completed. -/
def Situation.Negative : Situation → Prop
  | .failed => True
  | .body len _ => len < 0
  | .head _ => False
  | .rejected => False

def Event.Below : Event → Prop
  | .header len => len < 0
  | .sent _ _ => False

def Event.Above : Event → Prop
  | .header len => MAX_LENGTH < len
  | .sent _ _ => False

theorem mem_singleton_header {len : Int} {P : Event → Prop} :
    (∃ o ∈ [Event.header len], P o) ↔ P (.header len) := by simp

theorem parser_cases (q : Situation) (b : UInt8) :
    (∃ got len, q = .head got ∧ parser.step q b = afterHeader len) ∨
    ((∀ n, .header n ∉ (parser.step q b).2) ∧ ((parser.step q b).1.Negative ↔ q.Negative) ∧
      ((parser.step q b).1 = .rejected ↔ q = .rejected)) := by
  cases q with
  | head got =>
    by_cases hlt : (got.length : Int) + 1 < HEAD_LENGTH
    · rw [parser_head hlt]; exact .inr (by simp [Situation.Negative])
    · exact .inl ⟨got, _, rfl, parser_header hlt⟩
  | body len got =>
    by_cases h0 : len < 0
    · rw [parser_negative h0]; exact .inr (by simp [Situation.Negative, h0])
    by_cases hlt : (got.length : Int) + 1 < len
    · rw [parser_part (by omega) hlt]; exact .inr (by simp [Situation.Negative])
    · rw [parser_body (by omega) hlt]; exact .inr (by simp [Situation.Negative]; omega)
  | rejected =>
    have h : parser.step .rejected b = (.rejected, []) := rfl
    rw [h]; exact .inr (by simp)
  | failed =>
    have h : parser.step .failed b = (.failed, []) := rfl
    rw [h]; exact .inr (by simp)

theorem not_marked {evs : List Event} (h : ∀ n, .header n ∉ evs) {P : Event → Prop}
    (hP : ∀ m n, ¬ P (.sent m n)) : ¬ ∃ o ∈ evs, P o := by
  intro hex
  obtain ⟨o, ho, hp⟩ := hex
  cases o with
  | header n => exact h n ho
  | sent m n => exact hP m n hp

/-- A negative length is the one way to a failure. -/
theorem negative_trap : parser.Trap Situation.Negative Event.Below where
  stays := by
    intro q b hq
    rcases parser_cases q b with ⟨got, len, rfl, -⟩ | ⟨-, hneg, -⟩
    · exact hq.elim
    · exact hneg.mpr hq
  enters := by
    intro q b hq
    rcases parser_cases q b with ⟨got, len, -, hs⟩ | ⟨hno, hneg, -⟩
    · rw [hs]
      rcases afterHeader_cases len with ⟨hlt, he⟩ | ⟨hlt, h1, h2⟩ | ⟨rfl, he⟩ | ⟨hlt, hle, he⟩
      · have : ¬ len < 0 := by unfold MAX_LENGTH at hlt; omega
        rw [he, mem_singleton_header]; exact ⟨fun h => h.elim, this⟩
      · rw [h2, mem_singleton_header]
        refine ⟨fun _ => hlt, fun _ => ?_⟩
        rcases List.mem_pair.mp h1 with h1 | h1
        · rw [h1]; trivial
        · rw [h1]; exact hlt
      · rw [he]; simp [Situation.Negative, Event.Below]
      · rw [he, mem_singleton_header]; exact Iff.rfl
    · exact iff_of_false (fun h => hq (hneg.mp h)) (not_marked hno fun _ _ h => h)

/-- A length above MAX_LENGTH is the one way to a rejection. -/
theorem rejected_trap : parser.Trap (· = .rejected) Event.Above where
  stays := by
    intro q b hq
    rcases parser_cases q b with ⟨got, len, rfl, -⟩ | ⟨-, -, hrej⟩
    · cases hq
    · exact hrej.mpr hq
  enters := by
    intro q b hq
    rcases parser_cases q b with ⟨got, len, -, hs⟩ | ⟨hno, -, hrej⟩
    · rw [hs]
      rcases afterHeader_cases len with ⟨hlt, he⟩ | ⟨hlt, h1, h2⟩ | ⟨rfl, he⟩ | ⟨hlt, hle, he⟩
      · rw [he, mem_singleton_header]; exact iff_of_true rfl hlt
      · rw [h2, mem_singleton_header]
        refine iff_of_false (fun h => ?_) fun h => ?_
        · rw [h] at h1; simp at h1
        · have h : MAX_LENGTH < len := h
          unfold MAX_LENGTH at h; omega
      · rw [he]; simp [Event.Above, MAX_LENGTH]
      · rw [he, mem_singleton_header]
        exact iff_of_false (by simp) (show ¬ MAX_LENGTH < len by omega)
    · exact iff_of_false (fun h => hq (hrej.mp h)) (not_marked hno fun _ _ h => h)

/-! ## Frames -/

/-- A frame whose header announces the length of its body. -/
theorem parse_frame {hd body : Bytes} (hh : hd.length = 2) (hb : announced hd = body.length)
    (h1 : announced hd ≤ MAX_LENGTH) (rest : Bytes) :
    parser.run (.head []) (hd ++ body ++ rest) =
      ((parser.run (.head []) rest).1,
        .header (announced hd) :: .sent body (announced hd) :: (parser.run (.head []) rest).2) := by
  obtain ⟨a, b, rfl⟩ : ∃ a b, hd = [a, b] := List.length_eq_two.mp hh
  obtain ⟨t, e2, e3⟩ := parse_afterHeader (by omega) h1 body hb.symm
  rw [show [a, b] ++ body ++ rest = a :: b :: (body ++ rest) from rfl, parse_two, Mealy.run_append,
    e2]
  simp only [← List.append_assoc, e3]
  rfl

@[simp] def Event.header? : Event → Option Int
  | .header len => some len
  | .sent _ _ => none

@[simp] def Event.sent? : Event → Option (Bytes × Int)
  | .header _ => none
  | .sent msg len => some (msg, len)

/-- **Frames parse back.** Payloads of up to MAX_LENGTH bytes, each behind the
length bytes the sender writes for it. -/
theorem parse_frames (ps : List Bytes) (hp : ∀ p ∈ ps, (p.length : Int) ≤ MAX_LENGTH) :
    parser.run (.head []) (ps.map fun p => lengthBytes p.length ++ p).flatten =
      (.head [], (ps.map fun p => [.header p.length, .sent p p.length]).flatten) := by
  induction ps with
  | nil => rfl
  | cons p ps ih =>
    have hp1 := hp p (by simp)
    have ha : announced (lengthBytes p.length) = p.length := by
      rw [announced_lengthBytes]
      exact toShort_of_range (by omega) (by unfold MAX_LENGTH at hp1; omega)
    have := parse_frame (lengthBytes_length p.length) ha (by omega)
      (ps.map fun p => lengthBytes p.length ++ p).flatten
    rw [List.map_cons, List.flatten_cons, this, ih fun q hq => hp q (by simp [hq]), ha]
    rfl

theorem payloads_sent (ps : List Bytes) :
    (ps.map fun p => [Event.header p.length, Event.sent p p.length]).flatten.filterMap Event.sent? =
      ps.map fun p => (p, (p.length : Int)) := by
  induction ps with
  | nil => rfl
  | cons p ps ih => simp only [List.map_cons, List.flatten_cons, List.filterMap_append, ih]; rfl

/-- The lengths a stream announces, in order, up to the first one outside
0..MAX_LENGTH (which is included). -/
def headers : Bytes → List Int
  | h :: l :: rest =>
    let len := announced [h, l]
    if 0 ≤ len ∧ len ≤ MAX_LENGTH then len :: headers (rest.drop len.toNat) else [len]
  | _ => []
termination_by s => s.length
decreasing_by simp only [List.length_cons, List.length_drop]; omega

/-- The complete frames at the front of a stream. -/
def frames : Bytes → List Bytes
  | h :: l :: rest =>
    let len := announced [h, l]
    if 0 ≤ len ∧ len ≤ MAX_LENGTH ∧ len.toNat ≤ rest.length then
      (h :: l :: rest.take len.toNat) :: frames (rest.drop len.toNat)
    else []
  | _ => []
termination_by s => s.length
decreasing_by simp only [List.length_cons, List.length_drop]; omega

/-! ## Any stream -/

section
variable {a b : UInt8} {rest : Bytes} {len : Int} (hlen : announced [a, b] = len)

include hlen

theorem parse_complete (h0 : 0 ≤ len) (h1 : len ≤ MAX_LENGTH) (h2 : len.toNat ≤ rest.length) :
    (parser.run (.head []) (a :: b :: rest)).2 = .header len :: .sent (rest.take len.toNat) len ::
      (parser.run (.head []) (rest.drop len.toNat)).2 := by
  have he : a :: b :: rest = [a, b] ++ rest.take len.toNat ++ rest.drop len.toNat := by simp
  rw [he, parse_frame rfl (by rw [hlen, List.length_take]; omega) (by omega), hlen]

theorem parse_incomplete (h1 : len ≤ MAX_LENGTH) (h2 : (rest.length : Int) < len) :
    (parser.run (.head []) (a :: b :: rest)).2 = [.header len] := by
  rw [parse_two, hlen, afterHeader_body (by omega) (by omega) h1,
    parse_part (by omega) rest [] (by simpa using h2)]
  rfl

theorem parse_outside (h : ¬ (0 ≤ len ∧ len ≤ MAX_LENGTH)) :
    (parser.run (.head []) (a :: b :: rest)).2 = [.header len] := by
  rw [parse_two, hlen]
  by_cases h0 : len < 0
  · exact parse_after_negative h0 rest
  · rw [afterHeader_large (by omega), parse_rejected]; rfl

/-- A header in range, and the rest of the stream behind its body. -/
theorem parse_inside (h0 : 0 ≤ len) (h1 : len ≤ MAX_LENGTH) :
    (parser.run (.head []) (a :: b :: rest)).2.filterMap Event.header? =
      len :: (parser.run (.head []) (rest.drop len.toNat)).2.filterMap Event.header? := by
  by_cases h2 : len.toNat ≤ rest.length
  · rw [parse_complete hlen h0 h1 h2]
    simp [List.filterMap_cons]
  · have hd : rest.drop len.toNat = [] := List.drop_eq_nil_of_le (by omega)
    rw [parse_incomplete hlen h1 (by omega), hd]
    simp

theorem parse_inside_sent (h0 : 0 ≤ len) (h1 : len ≤ MAX_LENGTH) (h2 : len.toNat ≤ rest.length) :
    (parser.run (.head []) (a :: b :: rest)).2.filterMap Event.sent? =
      ((a :: b :: rest.take len.toNat).drop 2,
        ((a :: b :: rest.take len.toNat).length : Int) - 2) ::
        (parser.run (.head []) (rest.drop len.toNat)).2.filterMap Event.sent? := by
  have hl : ((a :: b :: rest.take len.toNat).length : Int) - 2 = len := by
    simp only [List.length_cons, List.length_take]; omega
  rw [parse_complete hlen h0 h1 h2, hl]
  simp [List.filterMap_cons]

theorem parse_none_sent (h : ¬ (0 ≤ len ∧ len ≤ MAX_LENGTH ∧ len.toNat ≤ rest.length)) :
    (parser.run (.head []) (a :: b :: rest)).2.filterMap Event.sent? = [] := by
  by_cases hc : 0 ≤ len ∧ len ≤ MAX_LENGTH
  · rw [parse_incomplete hlen hc.2 (by omega)]; simp
  · rw [parse_outside hlen hc]; simp

end

theorem parse_short {s : Bytes} (h : ∀ a b rest, s = a :: b :: rest → False) :
    (parser.run (.head []) s).2 = [] := by
  match s, h with
  | [], _ => rfl
  | [a], _ => rw [parse_head [a] [] (by simp)]
  | a :: b :: rest, h => exact (h a b rest rfl).elim

/-- The headers the parser completes are the ones the stream announces. -/
theorem parse_headers (s : Bytes) :
    (parser.run (.head []) s).2.filterMap Event.header? = headers s := by
  fun_induction headers s with
  | case1 a b rest len hc ih => rw [parse_inside rfl hc.1 hc.2, ih]
  | case2 a b rest len hc => rw [parse_outside rfl hc]; simp [len]
  | case3 s hs => rw [parse_short hs]; rfl

/-- The messages the parser hands on are the bodies of the complete frames. -/
theorem parse_sent (s : Bytes) : (parser.run (.head []) s).2.filterMap Event.sent? =
    (frames s).map fun f => (f.drop 2, (f.length : Int) - 2) := by
  fun_induction frames s with
  | case1 a b rest len hc ih => rw [parse_inside_sent rfl hc.1 hc.2.1 hc.2.2, ih, List.map_cons]
  | case2 a b rest len hc => rw [parse_none_sent rfl hc]; rfl
  | case3 s hs => rw [parse_short hs]; rfl

end Cxx.Asio
