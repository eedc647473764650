import Cxx.Asio.Session
import Cxx.Asio.Parser

/-!
# `HandleRead` simulates the byte parser

`Rel s q` says that a session between two reads is in situation `q`: the
node being filled holds exactly the pending bytes. `_cur_len` of the header
node is not part of a pending body, and `_data` beyond the received bytes is
not part of anything, so neither can influence what follows.

* `turn_spec`: one turn of the loop, by what the parser does with the bytes
  it takes.
* `readChunk_spec`: one successful read of 1..MAX_LENGTH bytes. The call
  finishes; its `Send` calls and headers are the parser's; it leaves the
  session in the parser's situation with one read started, or has rejected
  it, or has faulted, as the parser says.
-/
namespace Cxx.Asio

/-! ## Observations of a log -/

def Act.event? : Act → Option Event
  | .header n => some (.header n)
  | .send msg n _ => some (.sent (msg.take n.toNat) n)
  | _ => none

/-- The headers completed and the messages passed to `Send`. -/
def events (l : List Act) : List Event := l.filterMap Act.event?

def reads (l : List Act) : Nat := l.count .asyncRead

def clears (l : List Act) : Nat := l.count .clearSession

@[simp] theorem events_append (l₁ l₂ : List Act) : events (l₁ ++ l₂) = events l₁ ++ events l₂ :=
  List.filterMap_append

@[simp] theorem reads_append (l₁ l₂ : List Act) : reads (l₁ ++ l₂) = reads l₁ + reads l₂ :=
  List.count_append

@[simp] theorem clears_append (l₁ l₂ : List Act) : clears (l₁ ++ l₂) = clears l₁ + clears l₂ :=
  List.count_append

/-- An allocation of non-negative size, or a copy inside the `cap` bytes of
the destination and inside the `n` bytes received. -/
def Act.Safe (n : Nat) : Act → Prop
  | .alloc size => 0 ≤ size
  | .copy off len cap srcOff => 0 ≤ off ∧ off + len ≤ cap ∧ 0 ≤ srcOff ∧ srcOff + len ≤ n
  | _ => True

/-- A header that announces more than MAX_LENGTH is followed at once by
`ClearSession`. -/
def Answered : List Act → Prop
  | [] => True
  | .header len :: l => (MAX_LENGTH < len → l.head? = some .clearSession) ∧ Answered l
  | _ :: l => Answered l

theorem Answered.append {l₁ l₂ : List Act} (h₁ : Answered l₁) (h₂ : Answered l₂) :
    Answered (l₁ ++ l₂) := by
  induction l₁ with
  | nil => exact h₂
  | cons a l ih =>
    cases a with
    | header len =>
      refine ⟨fun hlen => ?_, ih h₁.2⟩
      show (l ++ l₂).head? = _
      rw [List.head?_append, h₁.1 hlen]; rfl
    | _ => exact ih h₁

theorem answered_of_events {l : List Act} (h : ∀ a ∈ l, ∀ len, a ≠ .header len) : Answered l := by
  induction l with
  | nil => trivial
  | cons a l ih =>
    have ih := ih fun b hb => h b (by simp [hb])
    cases a with
    | header len => exact absurd rfl (h _ (by simp) len)
    | _ => exact ih

theorem Answered.spec {l₁ l₂ : List Act} {len : Int} (h : Answered (l₁ ++ .header len :: l₂))
    (hlen : MAX_LENGTH < len) : l₂.head? = some .clearSession := by
  induction l₁ with
  | nil => exact h.1 hlen
  | cons a l ih =>
    cases a with
    | header _ => exact ih h.2
    | _ => exact ih h

/-! ## Nodes -/

/-- A node of announced length `len` holding the bytes `got` so far. -/
structure Holds (m : MsgNode) (len : Int) (got : Bytes) : Prop where
  cur : m.curLen = got.length
  total : m.totalLen = len
  size : (m.data.length : Int) = len + 1
  filled : m.data.take got.length = got

theorem holds_ofLen {len : Int} (h : 0 ≤ len + 1) :
    Holds ⟨0, len, List.replicate (len + 1).toNat 0⟩ len [] :=
  ⟨rfl, rfl, by simp; omega, rfl⟩

theorem Holds.clear {m : MsgNode} {got : Bytes} (h : Holds m 2 got) : Holds m.clear 2 [] := by
  have h2 : (List.replicate (toSizeT m.totalLen) (0 : UInt8)).length = 2 := by
    rw [h.total, List.length_replicate]; rfl
  refine ⟨rfl, h.total, ?_, rfl⟩
  have hs := h.size
  simp only [MsgNode.clear]
  rw [blit_length (by omega)]
  exact hs

/-- Copying received bytes behind what the node holds. -/
theorem Holds.fill {m : MsgNode} {len : Int} {got data : Bytes} {cl k : Nat} (h : Holds m len got)
    (hk : (got.length : Int) + k ≤ len + 1) (hl : len ≤ MAX_LENGTH) (hd : cl + k ≤ data.length) :
    ∃ d, recvCopy m data cl k = ⟨[.copy got.length k (len + 1) cl], .ok d⟩ ∧
      Holds { m with data := d, curLen := toShort (m.curLen + k) } len
        (got ++ (data.drop cl).take k) := by
  have hs := h.size
  have hw : ((data.drop cl).take k).length = k := by
    simp only [List.length_take, List.length_drop]; omega
  have hfit : got.length + ((data.drop cl).take k).length ≤ m.data.length := by omega
  refine ⟨blit m.data got.length ((data.drop cl).take k), ?_, ?_, h.total, ?_,
    blit_take_append h.filled hfit⟩
  · simp only [recvCopy, h.cur, h.total, Exec.emit_bind]
    rw [memcpy_ok (by omega) hd]
  · simp only [h.cur, List.length_append, hw]
    rw [toShort_of_range (by omega) (by unfold MAX_LENGTH at hl; omega)]
    omega
  · simp only [blit_length hfit]; exact hs

/-- Storing the terminator behind the bytes the node holds. -/
theorem Holds.terminate {m : MsgNode} {len : Int} {got : Bytes} (h : Holds m len got)
    (hk : (got.length : Int) ≤ len) :
    ∃ d, store m.data m.totalLen 0 = ⟨[], .ok d⟩ ∧ Holds { m with data := d } len got := by
  have hs := h.size
  have hlen : ((len.toNat : Nat) : Int) = len := by omega
  refine ⟨m.data.set len.toNat 0, ?_, h.cur, h.total, by simpa using hs, ?_⟩
  · have hst : store m.data (len.toNat : Nat) 0 = _ := store_ok (by omega)
    rw [h.total]; rwa [hlen] at hst
  · simp only [List.take_set_of_le (show got.length ≤ len.toNat by omega)]
    exact h.filled

/-! ## `Send` as the reader calls it -/

/-- What a log does to the send queue, given as the frames of its nodes:
a `Send` sees the length of the queue, and either finds it over full, or
appends a frame, and starts a write exactly when the queue was empty. -/
inductive Pump : List Bytes → List Act → List Bytes → Prop
  | done (q : List Bytes) : Pump q [] q
  | other {q q' : List Bytes} {a : Act} {l : List Act} (ha : ∀ m n k, a ≠ .send m n k)
      (hw : ∀ b, a ≠ .asyncWrite b) (h : Pump q l q') : Pump q (a :: l) q'
  | full {q q' : List Bytes} {l : List Act} {m : Bytes} {n : Int} (hq : MAX_SENDQUE < q.length)
      (h : Pump q l q') : Pump q (.send m n q.length :: l) q'
  | queued {q q' : List Bytes} {l : List Act} {m : Bytes} {n : Int} (h0 : 0 < q.length)
      (hq : q.length ≤ MAX_SENDQUE) (h : Pump (q ++ [lengthBytes n ++ m.take n.toNat]) l q') :
      Pump q (.send m n q.length :: .alloc (n + 3) :: l) q'
  | started {q' : List Bytes} {l : List Act} {m : Bytes} {n : Int}
      (h : Pump [lengthBytes n ++ m.take n.toNat] l q') :
      Pump []
        (.send m n 0 :: .alloc (n + 3) :: .asyncWrite (lengthBytes n ++ m.take n.toNat) :: l) q'

theorem Pump.append {q q₁ q₂ : List Bytes} {l₁ l₂ : List Act} (h₁ : Pump q l₁ q₁)
    (h₂ : Pump q₁ l₂ q₂) : Pump q (l₁ ++ l₂) q₂ := by
  induction h₁ with
  | done => exact h₂
  | other ha hw _ ih => exact .other ha hw (ih h₂)
  | full hq _ ih => exact .full hq (ih h₂)
  | queued h0 hq _ ih => exact .queued h0 hq (ih h₂)
  | started _ ih => exact .started (ih h₂)

def queued (s : CSession) : List Bytes := s.sendQue.map MsgNode.frame

/-- An action of the reader that is not one of its own. -/
def Act.Quiet (a : Act) : Prop :=
  a.event? = none ∧ a ≠ .asyncRead ∧ a ≠ .clearSession ∧ ∀ k, a.Safe k

/-- `Send` of a message of at most MAX_LENGTH bytes neither throws nor
touches anything but the send queue. -/
theorem send_spec (s : CSession) {msg : Bytes} {n : Nat} (hn : n ≤ msg.length) (h : n ≤ 32765) :
    ∃ q more, send s msg n = ⟨.send msg n s.sendQue.length :: more, .ok { s with sendQue := q }⟩ ∧
      Pump (queued s) (.send msg n s.sendQue.length :: more) (q.map MsgNode.frame) ∧
      ∀ a ∈ more, a.Quiet := by
  have hlen : (s.sendQue.length : Int) = (queued s).length := by simp [queued]
  obtain ⟨m, hm, -, -, -, hf⟩ := MsgNode.ofMsg_frame hn h
  have ht : toShort n = n := toShort_of_range (by omega) (by omega)
  have hs : MsgNode.ofMsg msg (toShort n) = ⟨[.alloc (n + 3)], .ok m⟩ := by rw [ht]; exact hm
  have hframe : m.frame = lengthBytes n ++ msg.take (n : Int).toNat := by rw [Int.toNat_natCast, hf]
  have halloc : (Act.alloc (n + 3)).Quiet :=
    ⟨rfl, by simp, by simp, fun k => show (0 : Int) ≤ n + 3 by omega⟩
  by_cases hfull : MAX_SENDQUE < (s.sendQue.length : Int)
  · refine ⟨s.sendQue, [], send_full hfull msg n, ?_, by simp⟩
    rw [hlen] at hfull ⊢
    exact .full hfull (.done _)
  by_cases h0 : 0 < (s.sendQue.length : Int)
  · refine ⟨_, _, send_queued h0 hfull hs, ?_, by simpa using halloc⟩
    rw [hlen] at hfull h0 ⊢
    refine .queued (by omega) (by omega) ?_
    rw [List.map_append, List.map_singleton, hframe]
    exact .done _
  · have hnil : s.sendQue = [] := List.eq_nil_of_length_eq_zero (by omega)
    have hq : queued s = [] := by simp [queued, hnil]
    refine
      ⟨[m], [.alloc (n + 3), .asyncWrite m.frame], by rw [send_started hnil hs, hnil]; rfl, ?_, ?_⟩
    · rw [hq, hnil, hframe, List.map_singleton, hframe]
      exact .started (.done _)
    · intro a ha
      simp only [List.mem_cons, List.not_mem_nil, or_false] at ha
      rcases ha with rfl | rfl
      · exact halloc
      · exact ⟨rfl, by simp, by simp, fun _ => trivial⟩

/-! ## What a stretch of the log amounts to -/

structure Tidy (n : Nat) (q : List Bytes) (l : List Act) (evs : List Event) (rd cl : Nat)
    (q' : List Bytes) : Prop where
  events : events l = evs
  reads : reads l = rd
  clears : clears l = cl
  answered : Answered l
  safe : ∀ a ∈ l, a.Safe n
  pump : Pump q l q'

theorem Tidy.append {n : Nat} {q q₁ q₂ : List Bytes} {l₁ l₂ : List Act} {e₁ e₂ : List Event}
    {r₁ r₂ c₁ c₂ : Nat} (h₁ : Tidy n q l₁ e₁ r₁ c₁ q₁) (h₂ : Tidy n q₁ l₂ e₂ r₂ c₂ q₂) :
    Tidy n q (l₁ ++ l₂) (e₁ ++ e₂) (r₁ + r₂) (c₁ + c₂) q₂ where
  events := by rw [events_append, h₁.events, h₂.events]
  reads := by rw [reads_append, h₁.reads, h₂.reads]
  clears := by rw [clears_append, h₁.clears, h₂.clears]
  answered := h₁.answered.append h₂.answered
  safe := fun a ha => (List.mem_append.mp ha).elim (h₁.safe a) (h₂.safe a)
  pump := h₁.pump.append h₂.pump

theorem Tidy.copy {n off len srcOff : Nat} {cap : Int} (q : List Bytes)
    (h1 : (off : Int) + len ≤ cap)
    (h2 : srcOff + len ≤ n) : Tidy n q [.copy off len cap srcOff] [] 0 0 q where
  events := rfl
  reads := rfl
  clears := rfl
  answered := trivial
  safe := by
    intro a ha
    rw [List.mem_singleton] at ha
    subst ha; simp only [Act.Safe]; omega
  pump := .other (by simp) (by simp) (.done q)

theorem Tidy.asyncRead (n : Nat) (q : List Bytes) : Tidy n q [.asyncRead] [] 1 0 q :=
  ⟨rfl, rfl, rfl, trivial, by simp [Act.Safe], .other (by simp) (by simp) (.done q)⟩

theorem Tidy.header (n : Nat) (q : List Bytes) {len : Int} (h : len ≤ MAX_LENGTH) :
    Tidy n q [.header len] [.header len] 0 0 q :=
  ⟨rfl, rfl, rfl, ⟨fun hlt => absurd h (by omega), trivial⟩, by simp [Act.Safe],
    .other (by simp) (by simp) (.done q)⟩

theorem Tidy.reject (n : Nat) (q : List Bytes) (len : Int) :
    Tidy n q [.header len, .clearSession] [.header len] 0 1 q :=
  ⟨rfl, rfl, rfl, ⟨fun _ => rfl, trivial⟩, by simp [Act.Safe],
    .other (by simp) (by simp) (.other (by simp) (by simp) (.done q))⟩

theorem Tidy.alloc (n : Nat) (q : List Bytes) {k : Int} (h : 0 ≤ k) :
    Tidy n q [.alloc k] [] 0 0 q :=
  ⟨rfl, rfl, rfl, trivial, by simpa [Act.Safe] using h, .other (by simp) (by simp) (.done q)⟩

theorem Tidy.send {n : Nat} {q q' : List Bytes} {msg : Bytes} {k j : Int} {more : List Act}
    (hp : Pump q (.send msg k j :: more) q') (hm : ∀ a ∈ more, a.Quiet) :
    Tidy n q (.send msg k j :: more) [.sent (msg.take k.toNat) k] 0 0 q' where
  events := by
    have : Asio.events more = [] := List.filterMap_eq_nil_iff.mpr fun a ha => (hm a ha).1
    show _ :: Asio.events more = _
    rw [this]
  reads := by
    have : Asio.reads more = 0 := List.count_eq_zero.mpr fun h => (hm _ h).2.1 rfl
    simpa [Asio.reads] using this
  clears := by
    have : Asio.clears more = 0 := List.count_eq_zero.mpr fun h => (hm _ h).2.2.1 rfl
    simpa [Asio.clears] using this
  answered := answered_of_events (l := more) fun a ha len he => by
    have := (hm a ha).1
    rw [he] at this; cases this
  safe := by
    intro a ha
    rcases List.mem_cons.mp ha with rfl | ha
    · trivial
    · exact (hm a ha).2.2.2 n
  pump := hp

/-! ## The session and the situation -/

/-- The session, between two reads, is in a situation. -/
def Rel (s : CSession) : Situation → Prop
  | .head got => s.data.length = 2048 ∧ s.bHeadParse = false ∧ got.length < 2 ∧
      Holds s.recvHeadNode 2 got
  | .body len got => s.data.length = 2048 ∧ s.bHeadParse = true ∧ (∃ g, Holds s.recvHeadNode 2 g) ∧
      ∃ m, s.recvMsgNode = some m ∧ Holds m len got ∧ len ≤ MAX_LENGTH ∧
        (len = -1 ∧ got = [] ∨ (got.length : Int) < len)
  | .rejected => False
  | .failed => False

theorem cleared_length : (List.replicate MAX_LENGTH.toNat (0 : UInt8)).length = 2048 := by
  rw [List.length_replicate]; rfl

theorem rel_new : Rel CSession.new (.head []) :=
  ⟨cleared_length, rfl, by decide, rfl, rfl, rfl, rfl⟩

/-- The bytes of `_data` a turn has before it. -/
def window (s : CSession) (copyLen n : Nat) : Bytes := (s.data.drop copyLen).take n

theorem window_length (s : CSession) {cl n : Nat} (h : cl + n ≤ s.data.length) :
    (window s cl n).length = n := by
  simp only [window, List.length_take, List.length_drop]; omega

theorem window_split (s : CSession) (cl : Nat) {k n : Nat} (h : k ≤ n) :
    window s cl n = window s cl k ++ window s (cl + k) (n - k) := by
  have := take_drop_split s.data cl k (n - k)
  rwa [Nat.add_sub_cancel' h] at this

/-- A node ready for its body: `got` of its `len` bytes are in. -/
structure Ready (N : Nat) (s : CSession) (cl n : Nat) (m : MsgNode) (len : Int) (got : Bytes) :
    Prop where
  data : s.data.length = 2048
  fits : cl + n ≤ N
  small : N ≤ 2048
  head : ∃ g, Holds s.recvHeadNode 2 g
  node : Holds m len got
  max : len ≤ MAX_LENGTH

/-- The body does not end in this read. -/
theorem recvBody_part {N : Nat} {s : CSession} {cl n : Nat} {m : MsgNode} {len : Int} {got : Bytes}
    (h : Ready N s cl n m len got) (hn : (got.length : Int) + n < len) :
    ∃ l s', recvBody s cl n m (len - got.length) = ⟨l, .ok (.ret s')⟩ ∧
      Tidy N (queued s) l [] 1 0 (queued s') ∧ Rel s' (.body len (got ++ window s cl n)) := by
  have hfit := h.fits
  have hsmall := h.small
  have hdl := h.data
  have hw := window_length s (show cl + n ≤ s.data.length by omega)
  have hlt : n < toSizeT (len - got.length) := by
    rw [toSizeT_of_range (by omega) (by have := h.max; unfold MAX_LENGTH at this; omega)]; omega
  obtain ⟨d, hc, hd⟩ := h.node.fill (k := n) (by omega) h.max (show cl + n ≤ s.data.length by omega)
  refine ⟨[.copy got.length n (len + 1) cl, .asyncRead],
    { s with data := List.replicate MAX_LENGTH.toNat 0, bHeadParse := true,
             recvMsgNode := some { m with data := d, curLen := toShort (m.curLen + n) } }, ?_, ?_,
               ?_⟩
  · simp only [recvBody, if_pos hlt]
    rw [Exec.bind_of_ok hc]
    rfl
  · exact (Tidy.copy _ (by omega) (by omega)).append (Tidy.asyncRead N _)
  · refine ⟨cleared_length, rfl, h.head, _, rfl, hd, h.max, .inr ?_⟩
    rw [List.length_append, hw]; omega

/-- The body ends in this read: its message is sent, and the session waits
for a header, in `_data` if there are bytes left. -/
theorem recvBody_done {N : Nat} {s : CSession} {cl n k : Nat} {m : MsgNode} {len : Int}
    {got : Bytes}
    (h : Ready N s cl n m len got) (hk : (got.length : Int) + k = len) (hn : k ≤ n) :
    ∃ l s', recvBody s cl n m (len - got.length) =
        (if n = k then ⟨l ++ [.asyncRead],
          .ok (.ret { s' with data := List.replicate MAX_LENGTH.toNat 0 })⟩
         else ⟨l, .ok (.cont s' (cl + k : Nat) (n - k))⟩) ∧
      Tidy N (queued s) l [.sent (got ++ window s cl k) len] 0 0 (queued s') ∧
      Rel s' (.head []) ∧ s'.data = s.data := by
  obtain rfl : m.totalLen = len := h.node.total
  have hfit := h.fits
  have hsmall := h.small
  have hdl := h.data
  have hmax := h.max
  have hw := window_length s (show cl + k ≤ s.data.length by omega)
  have hwant : m.totalLen - (got.length : Int) = (k : Nat) := by omega
  have hkt : toSizeT (k : Nat) = k := toSizeT_natCast (by omega)
  have hge : ¬ n < k := by omega
  have hrest : toSizeT ((n : Int) - (k : Nat)) = n - k := by
    rw [toSizeT_of_range (by omega) (by omega)]; omega
  have hcl : (cl : Int) + (k : Nat) = ((cl + k : Nat) : Int) := by omega
  have hlt : ((m.totalLen.toNat : Nat) : Int) = m.totalLen := by omega
  have hgw : (got ++ window s cl k).length = m.totalLen.toNat := by
    rw [List.length_append, hw]; omega
  -- the node after the copy, and after the terminator is stored
  obtain ⟨d₁, hc, hd₁⟩ := h.node.fill (k := k) (by omega) h.max
    (show cl + k ≤ s.data.length by omega)
  obtain ⟨d, hst, hd⟩ := hd₁.terminate (by rw [← window, hgw]; omega)
  have hsz : (d.length : Int) = m.totalLen + 1 := hd.size
  have hmsg : d.take m.totalLen.toNat = got ++ window s cl k := by rw [← hgw]; exact hd.filled
  obtain ⟨q, more, hsend, hp, hquiet⟩ :=
    send_spec { s with recvMsgNode := some { m with data := d, curLen := toShort (m.curLen + k) } }
      (show m.totalLen.toNat ≤ d.length by omega) (by unfold MAX_LENGTH at hmax; omega)
  rw [hlt] at hsend hp
  obtain ⟨g, hg⟩ := h.head
  refine ⟨.copy got.length k (m.totalLen + 1) cl :: .send d m.totalLen s.sendQue.length :: more,
    { s with sendQue := q, bHeadParse := false, recvHeadNode := s.recvHeadNode.clear,
             recvMsgNode := some { m with data := d, curLen := toShort (m.curLen + k) } }, ?_, ?_,
               ?_, rfl⟩
  · simp only [recvBody, hwant, if_neg hge, hkt, hrest, hcl]
    rw [Exec.bind_of_ok hc, Exec.bind_of_ok hst, Exec.bind_of_ok hsend]
    by_cases heq : n = k
    · rw [if_pos heq, if_pos (show n - k ≤ 0 by omega)]
      simp [CSession.start]
    · rw [if_neg heq, if_neg (show ¬ n - k ≤ 0 by omega)]
      simp
  · have := (Tidy.copy (n := N) (queued s) (show (got.length : Int) + k ≤ m.totalLen + 1 by omega)
      (show cl + k ≤ N by omega)).append (Tidy.send hp hquiet)
    rw [hmsg] at this
    exact this
  · exact ⟨hdl, rfl, by decide, hg.clear⟩

/-- A node for the announced length `-1` holds no byte: copying none of them
is in bounds, copying any is not. -/
theorem recvBody_negative {N : Nat} {s : CSession} {cl : Nat} {m : MsgNode} {len : Int}
    {got : Bytes}
    (h : Ready N s cl 0 m len got) (hlen : len = -1) (hgot : got = []) :
    ∃ l s', recvBody s cl 0 m (len - got.length) = ⟨l, .ok (.ret s')⟩ ∧
      Tidy N (queued s) l [] 1 0 (queued s') ∧ Rel s' (.body len got) := by
  have hfit := h.fits
  have hsmall := h.small
  have hdl := h.data
  have hg : got.length = 0 := by rw [hgot]; rfl
  have hlt : 0 < toSizeT (len - got.length) := lt_toSizeT_of_neg (by omega) (by omega) (by omega)
  obtain ⟨d, hc, hd⟩ := h.node.fill (k := 0) (by omega) h.max (show cl + 0 ≤ s.data.length by omega)
  refine ⟨[.copy got.length 0 (len + 1) cl, .asyncRead],
    { s with data := List.replicate MAX_LENGTH.toNat 0, bHeadParse := true,
             recvMsgNode := some { m with data := d, curLen := toShort (m.curLen + (0 : Nat)) } },
               ?_, ?_, ?_⟩
  · simp only [recvBody, if_pos hlt]
    rw [Exec.bind_of_ok hc]
    rfl
  · exact (Tidy.copy _ (by omega) (by omega)).append (Tidy.asyncRead N _)
  · rw [List.take_zero, List.append_nil] at hd
    exact ⟨cleared_length, rfl, h.head, _, rfl, hd, h.max, .inl ⟨hlen, hgot⟩⟩

theorem recvBody_overrun {N : Nat} {s : CSession} {cl n : Nat} {m : MsgNode} {len : Int}
    {got : Bytes}
    (h : Ready N s cl n m len got) (hlen : len = -1) (hgot : got = []) (hn : 0 < n) :
    recvBody s cl n m (len - got.length) =
      ⟨[.copy got.length n (len + 1) cl], .error .outOfBounds⟩ := by
  have hfit := h.fits
  have hsmall := h.small
  have hs := h.node.size
  have hg : got.length = 0 := by rw [hgot]; rfl
  have hlt : n < toSizeT (len - got.length) := lt_toSizeT_of_neg (by omega) (by omega) (by omega)
  have hoob : ¬ (0 ≤ (got.length : Int) ∧ (got.length : Int) + n ≤ m.data.length ∧ 0 ≤ (cl : Int) ∧
      (cl : Int) + n ≤ s.data.length) := by omega
  have hc : recvCopy m s.data cl n = ⟨[.copy got.length n (len + 1) cl], .error .outOfBounds⟩ := by
    simp only [recvCopy, h.node.cur, h.node.total, Exec.emit_bind, memcpy, if_neg hoob, Exec.fault]
  simp only [recvBody, if_pos hlt]
  rw [Exec.bind_of_error hc]

/-! ## One turn -/

/-- The end of a call, by the situation the parser is in. -/
def Outcome (N : Nat) (q : List Bytes) (p : Situation × List Event) (r : Proc CSession) : Prop :=
  match p.1 with
  | .rejected => ∃ s', r.out = .ok s' ∧ Tidy N q r.log p.2 0 1 (queued s')
  | .failed => (r.out = .error .badNewLength ∨ r.out = .error .outOfBounds) ∧ events r.log = p.2 ∧
      reads r.log = 0 ∧ clears r.log = 0
  | sit => ∃ s', r.out = .ok s' ∧ Tidy N q r.log p.2 1 0 (queued s') ∧ Rel s' sit

theorem Outcome.of_rel {N : Nat} {q : List Bytes} {sit : Situation} {evs : List Event}
    {l : List Act} {s' : CSession} (ht : Tidy N q l evs 1 0 (queued s')) (hr : Rel s' sit) :
    Outcome N q (sit, evs) ⟨l, .ok s'⟩ := by
  cases sit with
  | head got => exact ⟨s', rfl, ht, hr⟩
  | body len got => exact ⟨s', rfl, ht, hr⟩
  | rejected => exact hr.elim
  | failed => exact hr.elim

/-- A stretch of log before the end of the call. -/
theorem Outcome.prepend {N : Nat} {q q₁ : List Bytes} {sit : Situation} {e₁ e₂ : List Event}
    {l₁ : List Act} {r : Proc CSession} (ht : Tidy N q l₁ e₁ 0 0 q₁)
    (h : Outcome N q₁ (sit, e₂) r) :
    Outcome N q (sit, e₁ ++ e₂) ⟨l₁ ++ r.log, r.out⟩ := by
  cases sit with
  | rejected =>
    obtain ⟨s', ho, h2⟩ := h
    exact ⟨s', ho, by simpa using ht.append h2⟩
  | failed =>
    obtain ⟨ho, h1, h2, h3⟩ := h
    refine ⟨ho, ?_, ?_, ?_⟩
    · rw [events_append, ht.events, h1]
    · rw [reads_append, ht.reads, h2]
    · rw [clears_append, ht.clears, h3]
  | head got =>
    obtain ⟨s', ho, h2, h3⟩ := h
    exact ⟨s', ho, by simpa using ht.append h2, h3⟩
  | body len got =>
    obtain ⟨s', ho, h2, h3⟩ := h
    exact ⟨s', ho, by simpa using ht.append h2, h3⟩

/-- What a turn that starts in situation `q`, with `n` bytes left at `cl`,
may come to. -/
inductive TurnSpec (N : Nat) (s : CSession) (q : Situation) (cl n : Nat) : Proc Flow → Prop
  | ret {l : List Act} {s' : CSession}
      (h : Outcome N (queued s) (parser.run q (window s cl n)) ⟨l, .ok s'⟩) :
      TurnSpec N s q cl n ⟨l, .ok (.ret s')⟩
  | fault {l : List Act} {e : Fault}
      (h : Outcome N (queued s) (parser.run q (window s cl n)) ⟨l, .error e⟩) :
      TurnSpec N s q cl n ⟨l, .error e⟩
  | cont {l : List Act} {s' : CSession} {k : Nat} {evs : List Event} (h0 : 0 < k) (hk : k < n)
      (hp : parser.run q (window s cl k) = (.head [], evs))
      (ht : Tidy N (queued s) l evs 0 0 (queued s')) (hr : Rel s' (.head []))
        (hd : s'.data = s.data) :
      TurnSpec N s q cl n ⟨l, .ok (.cont s' (cl + k : Nat) (n - k))⟩

theorem rel_cleared {s : CSession} {sit : Situation} (h : Rel s sit) :
    Rel { s with data := List.replicate MAX_LENGTH.toNat 0 } sit := by
  cases sit with
  | head got => exact ⟨cleared_length, h.2⟩
  | body len got => exact ⟨cleared_length, h.2⟩
  | rejected => exact h
  | failed => exact h

/-- A turn that goes on with a pending body. -/
theorem turn_body {N : Nat} {s : CSession} {cl n : Nat} {len : Int} {got : Bytes}
    (h : Rel s (.body len got)) (h0 : 0 < n) (hfit : cl + n ≤ N) (hN : N ≤ 2048) :
    TurnSpec N s (.body len got) cl n (turn s cl n) := by
  obtain ⟨hdl, hb, hhead, m, hm, hold, hmax, hlen⟩ := h
  have ready : Ready N s cl n m len got := ⟨hdl, hfit, hN, hhead, hold, hmax⟩
  have ht : turn s cl n = recvBody s cl n m (len - got.length) := by
    simp [turn, hb, hm, hold.total, hold.cur]
  rw [ht]
  have hw := window_length s (show cl + n ≤ s.data.length by omega)
  rcases hlen with ⟨hneg, hgot⟩ | hlt
  · rw [recvBody_overrun ready hneg hgot h0]
    obtain ⟨b, bs, hbs⟩ : ∃ b bs, window s cl n = b :: bs :=
      List.exists_cons_of_length_pos (by omega)
    refine .fault ?_
    rw [hbs, parse_negative (by omega)]
    exact ⟨.inr rfl, rfl, rfl, rfl⟩
  by_cases hpart : (got.length : Int) + n < len
  · obtain ⟨l, s', hr, htidy, hrel⟩ := recvBody_part ready hpart
    rw [hr]
    refine .ret ?_
    rw [parse_part (by omega) _ _ (by rw [hw]; exact hpart)]
    exact .of_rel htidy hrel
  · obtain ⟨k, hk⟩ : ∃ k : Nat, (got.length : Int) + k = len := ⟨(len - got.length).toNat, by omega⟩
    have hwk := window_length s (show cl + k ≤ s.data.length by omega)
    obtain ⟨l, s', hr, htidy, hrel, hd⟩ := recvBody_done ready hk (by omega)
    have hp := parse_body (by omega) (window s cl k) got (by rw [hwk]; exact hk) hlt
    rw [hr]
    by_cases heq : n = k
    · subst heq
      rw [if_pos rfl]
      have htidy := htidy.append (Tidy.asyncRead N (queued s'))
      rw [List.append_nil] at htidy
      refine .ret ?_
      rw [hp]
      exact .of_rel htidy (rel_cleared hrel)
    · rw [if_neg heq]
      exact .cont (by omega) (by omega) hp htidy hrel hd

/-- A turn whose bytes do not complete the header. -/
theorem turn_short {N : Nat} {s : CSession} {cl n : Nat} {got : Bytes} (h : Rel s (.head got))
    (hn : got.length + n < 2) (hfit : cl + n ≤ N) (hN : N ≤ 2048) :
    ∃ l s', turn s cl n = ⟨l, .ok (.ret s')⟩ ∧ Tidy N (queued s) l [] 1 0 (queued s') ∧
      Rel s' (.head (got ++ window s cl n)) := by
  obtain ⟨hdl, hb, -, hold⟩ := h
  have hw := window_length s (show cl + n ≤ s.data.length by omega)
  have hcur := hold.cur
  have hlt : toSizeT ((n : Int) + s.recvHeadNode.curLen) < toSizeT HEAD_LENGTH := by
    rw [toSizeT_of_range (by omega) (by omega), show toSizeT HEAD_LENGTH = 2 from rfl]; omega
  obtain ⟨d, hc, hd⟩ := hold.fill (k := n) (by omega) (by decide)
    (show cl + n ≤ s.data.length by omega)
  refine ⟨[.copy got.length n (2 + 1) cl, .asyncRead],
    { s with data := List.replicate MAX_LENGTH.toNat 0,
             recvHeadNode :=
               { s.recvHeadNode with data := d, curLen := toShort (s.recvHeadNode.curLen + n) } },
    ?_, ?_, ?_⟩
  · simp only [turn, hb, Bool.not_false, if_true, if_pos hlt]
    rw [Exec.bind_of_ok hc]
    rfl
  · exact (Tidy.copy _ (by omega) (by omega)).append (Tidy.asyncRead N _)
  · exact ⟨cleared_length, hb, by rw [List.length_append, hw]; omega, hd⟩

/-- A turn up to the header it completes. The rest of the turn is the check
of the announced length and, for a length that passes it, the body. -/
theorem turn_header {N : Nat} {s : CSession} {cl n k : Nat} {got : Bytes} {len : Int}
    (h : Rel s (.head got)) (hk : got.length + k = 2) (hn : k ≤ n) (hfit : cl + n ≤ N)
    (hN : N ≤ 2048)
    (hlen : announced (got ++ window s cl k) = len) :
    ∃ s', s'.data = s.data ∧ queued s' = queued s ∧ (∃ g, Holds s'.recvHeadNode 2 g) ∧
      turn s cl n = ((⟨[.copy got.length k (2 + 1) cl, .header len], .ok ()⟩ : Proc Unit) >>=
        fun _ =>
        if len > MAX_LENGTH then (do
          Exec.emit .clearSession
          return .ret s')
        else (do
          let node ← MsgNode.ofLen len
          recvBody { s' with recvMsgNode := some node } (cl + k : Nat) (n - k) node len)) := by
  obtain ⟨hdl, hb, hg, hold⟩ := h
  have hw := window_length s (show cl + k ≤ s.data.length by omega)
  have hcur := hold.cur
  have hge : ¬ toSizeT ((n : Int) + s.recvHeadNode.curLen) < toSizeT HEAD_LENGTH := by
    rw [toSizeT_of_range (by omega) (by omega), show toSizeT HEAD_LENGTH = 2 from rfl]; omega
  have hremain : HEAD_LENGTH - s.recvHeadNode.curLen = (k : Nat) := by unfold HEAD_LENGTH; omega
  have hkt : toSizeT (k : Nat) = k := toSizeT_natCast (by omega)
  have hrest : toSizeT ((n : Int) - (k : Nat)) = n - k := by
    rw [toSizeT_of_range (by omega) (by omega)]; omega
  have hcl : (cl : Int) + (k : Nat) = ((cl + k : Nat) : Int) := by omega
  obtain ⟨d, hc, hd⟩ := hold.fill (k := k) (by omega) (by decide)
    (show cl + k ≤ s.data.length by omega)
  have hgw : (got ++ window s cl k).length = 2 := by rw [List.length_append, hw]; omega
  have hd2 : d.take 2 = got ++ window s cl k := by rw [← hgw]; exact hd.filled
  have ha : announced d = len := by rw [← announced_take, hd2, hlen]
  refine ⟨{ s with recvHeadNode := { s.recvHeadNode with data := d } }, rfl, rfl, ⟨got, ?_⟩, ?_⟩
  · -- the node keeps the byte count it had before the header was complete
    refine ⟨hold.cur, hold.total, hd.size, ?_⟩
    have := congrArg (List.take got.length) hd2
    rwa [List.take_take, Nat.min_eq_left (by omega), List.take_left] at this
  · simp only [turn, hb, Bool.not_false, if_true, if_neg hge, hremain, hkt, hcl, hrest]
    rw [Exec.bind_of_ok hc, Exec.ok_bind]
    simp only [ha, Exec.emit_bind]
    rfl

/-- What the parser does with the bytes that complete a header and those behind it. -/
theorem parse_window {s : CSession} {cl n k : Nat} {got : Bytes} {len : Int} (hk : k ≤ n)
    (hg : got.length + (window s cl k).length = 2) (h2 : got.length < 2)
    (hlen : announced (got ++ window s cl k) = len) :
    parser.run (.head got) (window s cl n) =
      ((parser.run (afterHeader len).1 (window s (cl + k) (n - k))).1,
        (afterHeader len).2 ++ (parser.run (afterHeader len).1 (window s (cl + k) (n - k))).2) := by
  rw [window_split s cl hk, Mealy.run_append, parse_header _ got hg h2, hlen]

/-- The body behind a header that the same turn completed. `l₀` is the log
of the header, `k` bytes of the turn are behind it. -/
theorem turn_fresh {N : Nat} {s s₂ : CSession} {cl n k : Nat} {m : MsgNode} {len : Int}
    {got : Bytes}
    {l₀ : List Act} (ready : Ready N s₂ (cl + k) (n - k) m len []) (hd₂ : s₂.data = s.data)
    (hk0 : 0 < k)
    (hkn : k ≤ n) (hm : 0 ≤ len + 1) (hpre : Tidy N (queued s) l₀ [.header len] 0 0 (queued s₂))
    (hp : ∀ j, k ≤ j → parser.run (.head got) (window s cl j) =
      ((parser.run (afterHeader len).1 (window s (cl + k) (j - k))).1,
        (afterHeader len).2 ++ (parser.run (afterHeader len).1 (window s (cl + k) (j - k))).2)) :
    TurnSpec N s (.head got) cl n
      ⟨l₀ ++ (recvBody s₂ (cl + k : Nat) (n - k) m len).log,
        (recvBody s₂ (cl + k : Nat) (n - k) m len).out⟩ := by
  have hfit := ready.fits
  have hsmall := ready.small
  have hmax := ready.max
  have hdl := ready.data
  rw [hd₂] at hdl
  have hwin : ∀ j, window s₂ (cl + k) j = window s (cl + k) j := fun j => by simp only [window, hd₂]
  have hlen : ∀ j, j ≤ n - k → (window s (cl + k) j).length = j :=
    fun j hj => window_length s (by omega)
  have hwant : len - (([] : Bytes).length : Int) = len := by simp
  rcases Int.lt_or_le len 0 with hneg | hlen0
  · -- a node without a byte of body
    have hah : afterHeader len = _ := afterHeader_body hm (by omega) hmax
    by_cases hn : n - k = 0
    · rw [hn] at ready ⊢
      obtain ⟨l, s', hr, htidy, hrel⟩ := recvBody_negative ready (by omega) rfl
      rw [hwant] at hr
      rw [hr]
      refine .ret ?_
      rw [hp n hkn, hah, hn, show window s (cl + k) 0 = [] from List.take_zero]
      exact .of_rel (hpre.append htidy) hrel
    · have hr := recvBody_overrun ready (by omega) rfl (by omega)
      rw [hwant] at hr
      rw [hr]
      obtain ⟨b, bs, hbs⟩ : ∃ b bs, window s (cl + k) (n - k) = b :: bs :=
        List.exists_cons_of_length_pos (by rw [hlen _ Nat.le.refl]; omega)
      refine .fault ?_
      rw [hp n hkn, hah, hbs, parse_negative hneg]
      refine ⟨.inr rfl, ?_, ?_, ?_⟩
      · rw [events_append, hpre.events]; rfl
      · rw [reads_append, hpre.reads]; rfl
      · rw [clears_append, hpre.clears]; rfl
  by_cases hpart : ((n - k : Nat) : Int) < len
  · obtain ⟨l, s', hr, htidy, hrel⟩ := recvBody_part ready (by simpa using hpart)
    rw [hwant] at hr
    rw [hr]
    refine .ret ?_
    rw [hp n hkn, afterHeader_body hm (by omega) hmax,
      parse_part hlen0 _ [] (by rw [hlen _ Nat.le.refl]; simpa using hpart), ← hwin]
    exact .of_rel (hpre.append htidy) hrel
  · obtain ⟨j, hj⟩ : ∃ j : Nat, (j : Int) = len := ⟨len.toNat, by omega⟩
    have hjn : j ≤ n - k := by omega
    obtain ⟨l, s', hr, htidy, hrel, hd⟩ := recvBody_done ready (by simpa using hj) hjn
    obtain ⟨t, hrun, hout⟩ := parse_afterHeader hlen0 hmax (window s (cl + k) j)
      (by rw [hlen j hjn]; exact hj)
    have hpj := hp (k + j) (by omega)
    rw [Nat.add_sub_cancel_left, hrun] at hpj
    simp only [hout] at hpj
    rw [hwant] at hr
    rw [hwin] at htidy
    have hall := hpre.append htidy
    rw [hr]
    by_cases heq : n - k = j
    · rw [if_pos heq]
      have hall := hall.append (Tidy.asyncRead N (queued s'))
      rw [List.append_nil, List.append_assoc] at hall
      refine .ret ?_
      rw [show n = k + j by omega, hpj]
      exact .of_rel hall (rel_cleared hrel)
    · rw [if_neg heq, Nat.add_assoc, Nat.sub_sub]
      exact .cont (by omega) (by omega) hpj hall hrel (hd.trans hd₂)

/-- A turn that starts with a pending header. -/
theorem turn_head {N : Nat} {s : CSession} {cl n : Nat} {got : Bytes} (h : Rel s (.head got))
    (hfit : cl + n ≤ N) (hN : N ≤ 2048) :
    TurnSpec N s (.head got) cl n (turn s cl n) := by
  have hdl := h.1
  have hg := h.2.2.1
  by_cases hshort : got.length + n < 2
  · obtain ⟨l, s', hr, htidy, hrel⟩ := turn_short h hshort hfit hN
    have hw := window_length s (show cl + n ≤ s.data.length by omega)
    rw [hr]
    refine .ret ?_
    rw [parse_head _ _ (by rw [hw]; exact hshort)]
    exact .of_rel htidy hrel
  obtain ⟨k, hk⟩ : ∃ k, got.length + k = 2 := ⟨2 - got.length, by omega⟩
  have hkn : k ≤ n := by omega
  have hw := window_length s (show cl + k ≤ s.data.length by omega)
  obtain ⟨len, hlen⟩ : ∃ len, announced (got ++ window s cl k) = len := ⟨_, rfl⟩
  have hp : ∀ j, k ≤ j → _ := fun j hj => parse_window (n := j) hj (by rw [hw]; exact hk) hg hlen
  obtain ⟨s₁, hd₁, hq₁, hhead, hturn⟩ := turn_header h hk hkn hfit hN hlen
  have hcopy : Tidy N (queued s) [.copy got.length k (2 + 1) cl] [] 0 0 (queued s₁) :=
    hq₁ ▸ Tidy.copy _ (by omega) (by omega)
  rw [hturn, Exec.ok_bind]
  by_cases hlarge : MAX_LENGTH < len
  · rw [if_pos hlarge]
    refine .ret ?_
    rw [hp n hkn, afterHeader_large hlarge, parse_rejected]
    exact ⟨s₁, rfl, hcopy.append (Tidy.reject N _ len)⟩
  rw [if_neg hlarge]
  by_cases hneg : len + 1 < 0
  · rw [MsgNode.ofLen_neg hneg, Exec.error_bind]
    refine .fault ?_
    rw [hp n hkn, afterHeader_unallocatable hneg, parse_failed]
    exact ⟨.inl rfl, rfl, rfl, rfl⟩
  · rw [MsgNode.ofLen_ok (by omega), Exec.ok_bind]
    have hpre := (hcopy.append (Tidy.header N _ (show len ≤ MAX_LENGTH by omega))).append
      (Tidy.alloc N _ (show 0 ≤ len + 1 by omega))
    exact turn_fresh
      ⟨(congrArg List.length hd₁).trans hdl, by omega, hN, hhead, holds_ofLen (by omega), by omega⟩
      hd₁ (by omega) hkn (by omega) hpre hp

/-- **One turn** does what the parser does with the bytes it takes. -/
theorem turn_spec {N : Nat} {s : CSession} {q : Situation} {cl n : Nat} (h : Rel s q) (h0 : 0 < n)
    (hfit : cl + n ≤ N) (hN : N ≤ 2048) : TurnSpec N s q cl n (turn s cl n) := by
  cases q with
  | head got => exact turn_head h hfit hN
  | body len got => exact turn_body h h0 hfit hN
  | rejected => exact h.elim
  | failed => exact h.elim

/-! ## The loop -/

/-- Every turn that goes round takes a byte, so `n + 1` turns are enough. -/
theorem loop_spec {N : Nat} (hN : N ≤ 2048) : ∀ (fuel n cl : Nat) {s : CSession} {q : Situation},
    Rel s q → 0 < n → n < fuel → cl + n ≤ N →
    ∃ r, loop fuel s cl n = some r ∧ Outcome N (queued s) (parser.run q (window s cl n)) r
  | 0, n, cl, s, q, _, _, hf, _ => by omega
  | fuel + 1, n, cl, s, q, hrel, h0, hf, hfit => by
    have hpos : n > 0 := h0
    have ht := turn_spec hrel h0 hfit hN
    simp only [loop, if_pos hpos]
    generalize turn s cl n = t at ht ⊢
    cases ht with
    | ret h => exact ⟨_, rfl, h⟩
    | fault h => exact ⟨_, rfl, h⟩
    | @cont l s' k evs hk0 hk hp htidy hr hd =>
      obtain ⟨r, he, ho⟩ := loop_spec hN fuel (n - k) (cl + k) hr (by omega)
        (by omega) (by omega)
      refine ⟨⟨l ++ r.log, r.out⟩, by simp only [he, Option.map_some], ?_⟩
      have hw : window s' (cl + k) (n - k) = window s (cl + k) (n - k) := by simp only [window, hd]
      rw [hw] at ho
      rw [window_split s cl (Nat.le_of_lt hk), Mealy.run_append, hp]
      exact ho.prepend htidy

theorem rel_received {s : CSession} {q : Situation} (h : Rel s q) {chunk : Bytes}
    (hc : chunk.length ≤ 2048) : Rel (s.received chunk) q := by
  have hl : s.data.length = 2048 → (blit s.data 0 chunk).length = 2048 := fun hd =>
    (blit_length (by omega)).trans hd
  cases q with
  | head got => exact ⟨hl h.1, h.2⟩
  | body len got => exact ⟨hl h.1, h.2⟩
  | rejected => exact h
  | failed => exact h

theorem window_received (s : CSession) {chunk : Bytes} (hc : chunk.length ≤ s.data.length) :
    window (s.received chunk) 0 chunk.length = chunk := by
  have : (blit s.data 0 chunk).take (0 + chunk.length) = _ := blit_take (by omega)
  rw [Nat.zero_add, List.take_zero, List.nil_append] at this
  simpa only [window, CSession.received, List.drop_zero] using this

/-- **One read.** A completed read of 1..MAX_LENGTH bytes finishes, and does
what the parser does with these bytes. -/
theorem readChunk_spec {s : CSession} {q : Situation} (h : Rel s q) {chunk : Bytes}
    (h0 : 0 < chunk.length) (h1 : chunk.length ≤ 2048) :
    ∃ r, readChunk s chunk = some r ∧ Outcome chunk.length (queued s) (parser.run q chunk) r := by
  have hd : s.data.length = 2048 := by
    cases q with
    | head got => exact h.1
    | body len got => exact h.1
    | rejected => exact h.elim
    | failed => exact h.elim
  obtain ⟨r, hr, ho⟩ := loop_spec h1 _ _ 0 (rel_received h h1) h0 (Nat.lt_succ_self _)
    (show 0 + chunk.length ≤ chunk.length by omega)
  rw [window_received s (by omega)] at ho
  exact ⟨r, hr, ho⟩

end Cxx.Asio
