import Cxx.Core.LTS
import Cxx.Asio.Session

/-!
# The write pump of a session

`Send` starts a write when it finds the queue empty, `HandleWrite` starts the
next one when it leaves the queue non-empty. `pump` is the transition system
of the two: `_send_lock` makes each of them one step, and they may come in
any order. The ghost fields of `Pumped` record what was started, accepted,
completed; none of them is read by the code.

**Steps.** `send` is a call by anyone. An exception out of `new` leaves the
session as it was; a call that copies outside the caller's buffer has no
step, as the program has no defined next state. `complete i` is the
completion of the `i`-th write in flight: that there is never a second one
is a result, not an assumption. `other` is anything that leaves `_send_que`
alone.

**Results.**
* `pump_inv`: the queue is what was accepted and not yet written; the write
  in flight is that of its front node; after a failure nothing is in flight
  and the queue stays non-empty, which is what keeps `Send` from starting.
* `pump_spec`: at most one write, always of the front node, a prefix of the
  accepted messages written, nothing started after a failure.
-/
namespace Cxx.Asio

def Act.write? : Act → Option Bytes
  | .asyncWrite b => some b
  | _ => none

/-- The buffers handed to `async_write`. -/
def writes (l : List Act) : List Bytes := l.filterMap Act.write?

@[simp] theorem writes_append (l₁ l₂ : List Act) : writes (l₁ ++ l₂) = writes l₁ ++ writes l₂ :=
  List.filterMap_append

theorem writes_ofMsg {msg : Bytes} {n : Int} {l : List Act} {o : Except Fault MsgNode}
    (h : MsgNode.ofMsg msg n = ⟨l, o⟩) : writes l = [] := by
  refine List.filterMap_eq_nil_iff.mpr fun a ha => ?_
  have ha : a ∈ (MsgNode.ofMsg msg n).log := by rw [h]; exact ha
  obtain ⟨k, rfl⟩ := MsgNode.ofMsg_log ha
  rfl

/-- The three ways `Send` can end without a fault. -/
theorem send_cases {s s' : CSession} {msg : Bytes} {n : Int} {l : List Act}
    (h : send s msg n = ⟨l, .ok s'⟩) :
    (s' = s ∧ writes l = []) ∨
    (∃ m, s.sendQue ≠ [] ∧ s' = { s with sendQue := s.sendQue ++ [m] } ∧ writes l = []) ∨
    (∃ m, s.sendQue = [] ∧ s' = { s with sendQue := [m] } ∧ writes l = [m.frame]) := by
  by_cases hfull : MAX_SENDQUE < (s.sendQue.length : Int)
  · rw [send_full hfull] at h
    cases h
    exact .inl ⟨rfl, rfl⟩
  obtain ⟨l₀, o, hm⟩ : ∃ l₀ o, MsgNode.ofMsg msg (toShort n) = ⟨l₀, o⟩ := ⟨_, _, rfl⟩
  have hw := writes_ofMsg hm
  cases o with
  | error e => rw [send_throws hfull hm] at h; cases h
  | ok m =>
    by_cases h0 : 0 < (s.sendQue.length : Int)
    · rw [send_queued h0 hfull hm] at h
      cases h
      exact .inr (.inl ⟨m, by intro he; simp [he] at h0, rfl, hw⟩)
    · have hnil : s.sendQue = [] := List.eq_nil_of_length_eq_zero (by omega)
      rw [send_started hnil hm] at h
      cases h
      refine .inr (.inr ⟨m, hnil, rfl, ?_⟩)
      show writes (l₀ ++ [.asyncWrite m.frame]) = _
      rw [writes_append, hw]; rfl

/-! ## The system -/

structure Pumped where
  session : CSession
  /-- Buffers of the writes started and not completed. -/
  inFlight : List Bytes
  started : List Bytes
  /-- Nodes pushed by `Send`, in order. -/
  accepted : List MsgNode
  /-- Buffers of the writes that completed without an error, in order. -/
  completed : List Bytes
  failed : Bool

inductive PumpLabel where
  | send (msg : Bytes) (maxLength : Int)
  | complete (i : Nat) (error : Bool)
  | other (s : CSession)

def Pumped.step (w : Pumped) : PumpLabel → Option Pumped
  | .send msg maxLength =>
    let r := send w.session msg maxLength
    match r.out with
    | .ok s => some { w with
        session := s
        inFlight := w.inFlight ++ writes r.log
        started := w.started ++ writes r.log
        accepted := w.accepted ++ s.sendQue.drop w.session.sendQue.length }
    | .error .badNewLength => some w
    | .error _ => none
  | .complete i error =>
    match w.inFlight[i]? with
    | none => none
    | some b =>
      let r := handleWrite w.session error
      match r.out with
      | .ok s => some { w with
          session := s
          inFlight := w.inFlight.eraseIdx i ++ writes r.log
          started := w.started ++ writes r.log
          completed := if error then w.completed else w.completed ++ [b]
          failed := w.failed || error }
      | .error _ => none
  | .other s => if s.sendQue = w.session.sendQue then some { w with session := s } else none

/-- A session that has not sent anything yet. -/
def Pumped.Fresh (w : Pumped) : Prop :=
  w.session.sendQue = [] ∧ w.inFlight = [] ∧ w.started = [] ∧ w.accepted = [] ∧ w.completed = [] ∧
    w.failed = false

def pump : LTS Pumped PumpLabel := LTS.ofFn Pumped.Fresh Pumped.step

structure PumpInv (w : Pumped) : Prop where
  queue : w.session.sendQue = w.accepted.drop w.completed.length
  written : w.completed = (w.accepted.take w.completed.length).map MsgNode.frame
  busy : w.failed = false → w.inFlight = (w.session.sendQue.take 1).map MsgNode.frame
  stopped : w.failed = true → w.inFlight = [] ∧ w.session.sendQue ≠ []

theorem PumpInv.completed_le {w : Pumped} (h : PumpInv w) :
    w.completed.length ≤ w.accepted.length := by
  have := congrArg List.length h.written
  simp only [List.length_map, List.length_take] at this
  omega

/-- Accepting a node behind those already queued. -/
theorem PumpInv.push {w : Pumped} (h : PumpInv w) {s : CSession} {m : MsgNode} {ws : List Bytes}
    (hs : s = { w.session with sendQue := w.session.sendQue ++ [m] })
    (hw : ws = if w.session.sendQue = [] then [m.frame] else []) :
    PumpInv { w with session := s, inFlight := w.inFlight ++ ws, started := w.started ++ ws,
                     accepted := w.accepted ++ [m] } := by
  have hle := h.completed_le
  refine ⟨?_, ?_, fun hf => ?_, fun hf => ?_⟩
  · simp only [hs, List.drop_append_of_le_length hle, h.queue]
  · simp only [List.take_append_of_le_length hle]; exact h.written
  · have hb := h.busy hf
    cases hq : w.session.sendQue with
    | nil => simp [hs, hw, hb, hq]
    | cons m' q => simp [hs, hw, hb, hq]
  · obtain ⟨h1, h2⟩ := h.stopped hf
    simp [hs, hw, h1, h2]

theorem PumpInv.send {w w' : Pumped} (h : PumpInv w) {msg : Bytes} {n : Int}
    (hs : w.step (.send msg n) = some w') : PumpInv w' := by
  obtain ⟨l, o, hr⟩ : ∃ l o, Asio.send w.session msg n = ⟨l, o⟩ := ⟨_, _, rfl⟩
  simp only [Pumped.step, hr] at hs
  cases o with
  | error e =>
    cases e with
    | badNewLength => cases hs; exact h
    | outOfBounds => cases hs
    | nullDeref => cases hs
  | ok s =>
    cases hs
    rcases send_cases hr with ⟨rfl, hw⟩ | ⟨m, hne, rfl, hw⟩ | ⟨m, hnil, rfl, hw⟩
    · simpa [hw] using h
    · simpa [hw] using @PumpInv.push w h _ m [] rfl (by simp [hne])
    · simpa [hw, hnil] using @PumpInv.push w h _ m [m.frame] (by rw [hnil]; rfl) (by simp [hnil])

theorem take_drop_succ {α : Type} {l q : List α} {k : Nat} {m : α} (h : l.drop k = m :: q) :
    l.take (k + 1) = l.take k ++ [m] ∧ l.drop (k + 1) = q := by
  constructor
  · rw [List.take_add, h]; rfl
  · rw [← List.drop_drop, h]; rfl

/-- While a write is in flight it is the only one, and the front node's. -/
theorem PumpInv.front {w : Pumped} (h : PumpInv w) {i : Nat} {b : Bytes}
    (hb : w.inFlight[i]? = some b) :
    w.failed = false ∧ i = 0 ∧ ∃ m q,
      w.session.sendQue = m :: q ∧ b = m.frame ∧ w.inFlight = [m.frame] := by
  cases hf : w.failed with
  | true => rw [(h.stopped hf).1] at hb; simp at hb
  | false =>
    have hbusy := h.busy hf
    cases hq : w.session.sendQue with
    | nil => rw [hbusy, hq] at hb; simp at hb
    | cons m q =>
      rw [hq] at hbusy
      have hbusy : w.inFlight = [m.frame] := hbusy
      rw [hbusy] at hb
      cases i with
      | zero => exact ⟨rfl, rfl, m, q, rfl, (Option.some.inj hb).symm, hbusy⟩
      | succ i => simp at hb

theorem PumpInv.complete {w w' : Pumped} (h : PumpInv w) {i : Nat} {error : Bool}
    (hs : w.step (.complete i error) = some w') : PumpInv w' := by
  cases hb : w.inFlight[i]? with
  | none => simp only [Pumped.step, hb] at hs; cases hs
  | some b =>
    obtain ⟨hf, rfl, m, q, hq, rfl, hin⟩ := h.front hb
    have hdrop : w.accepted.drop w.completed.length = m :: q := by rw [← h.queue, hq]
    obtain ⟨htake, hrest⟩ := take_drop_succ hdrop
    cases error with
    | true =>
      simp only [Pumped.step, hb, handleWrite_failed, Option.some.injEq] at hs
      subst hs
      refine ⟨h.queue, h.written, fun hc => by simp at hc, fun _ => ⟨?_, ?_⟩⟩
      · simp [hin, writes, Act.write?]
      · simp [hq]
    | false =>
      -- the node whose write completed is the next one of the accepted
      have hwritten : w.completed ++ [m.frame] =
          (w.accepted.take (w.completed ++ [m.frame]).length).map MsgNode.frame := by
        rw [List.length_append, List.length_singleton, htake, List.map_append, ← h.written]; rfl
      cases q with
      | nil =>
        simp only [Pumped.step, hb, handleWrite_last hq, Option.some.injEq] at hs
        subst hs
        exact ⟨by simp [hrest], hwritten,
          fun _ => by simp [hin, writes], fun hc => by simp [hf] at hc⟩
      | cons m' q =>
        simp only [Pumped.step, hb, handleWrite_next hq, Option.some.injEq] at hs
        subst hs
        exact ⟨by simp [hrest], hwritten, fun _ => by simp [hin, writes, Act.write?],
          fun hc => by simp [hf] at hc⟩

/-- **Invariant of the pump.** -/
theorem pump_inv : pump.Inductive PumpInv where
  init := by
    intro w hw
    obtain ⟨h1, h2, h3, h4, h5, h6⟩ := hw
    exact
      ⟨by simp [h1, h4], by simp [h4, h5], fun _ => by simp [h1, h2], fun hf => by simp [h6] at hf⟩
  step := by
    intro w l w' h hs
    cases l with
    | send msg n => exact h.send hs
    | complete i error => exact h.complete hs
    | other s =>
      obtain ⟨hq, he⟩ : s.sendQue = w.session.sendQue ∧ { w with session := s } = w' := by
        simpa [pump, LTS.ofFn, Pumped.step] using hs
      subst he
      exact ⟨by simp [hq, h.queue], h.written, by simpa [hq] using h.busy,
        by simpa [hq] using h.stopped⟩

/-- No completion finds the queue empty. -/
theorem complete_enabled {w : Pumped} (h : PumpInv w) {i : Nat} (hi : i < w.inFlight.length)
    (error : Bool) : (w.step (.complete i error)).isSome := by
  obtain ⟨b, hb⟩ : ∃ b, w.inFlight[i]? = some b := ⟨_, List.getElem?_eq_getElem hi⟩
  obtain ⟨-, rfl, m, q, hq, -, -⟩ := h.front hb
  cases error with
  | true => simp [Pumped.step, hb, handleWrite_failed]
  | false =>
    cases q with
    | nil => simp [Pumped.step, hb, handleWrite_last hq]
    | cons m' q => simp [Pumped.step, hb, handleWrite_next hq]

/-- After a failure a step starts nothing and the failure stays. -/
theorem PumpInv.stays_failed {w w' : Pumped} (h : PumpInv w) (hf : w.failed = true) {l : PumpLabel}
    (hs : w.step l = some w') : w'.failed = true ∧ w'.started = w.started := by
  obtain ⟨hin, hne⟩ := h.stopped hf
  cases l with
  | send msg n =>
    obtain ⟨l, o, hr⟩ : ∃ l o, Asio.send w.session msg n = ⟨l, o⟩ := ⟨_, _, rfl⟩
    simp only [Pumped.step, hr] at hs
    cases o with
    | error e =>
      cases e with
      | badNewLength => cases hs; exact ⟨hf, rfl⟩
      | outOfBounds => cases hs
      | nullDeref => cases hs
    | ok s =>
      cases hs
      rcases send_cases hr with ⟨-, hw⟩ | ⟨m, -, -, hw⟩ | ⟨m, hnil, -, -⟩
      · exact ⟨hf, by simp [hw]⟩
      · exact ⟨hf, by simp [hw]⟩
      · exact absurd hnil hne
  | complete i error => simp [Pumped.step, hin] at hs
  | other s =>
    obtain ⟨-, he⟩ : s.sendQue = w.session.sendQue ∧ { w with session := s } = w' := by
      simpa [Pumped.step] using hs
    subst he
    exact ⟨hf, rfl⟩

theorem run_failed {w w' : Pumped} {ls : List PumpLabel} (r : pump.Run w ls w') (h : PumpInv w)
    (hf : w.failed = true) : w'.started = w.started := by
  induction r with
  | nil => rfl
  | cons hs _ ih =>
    obtain ⟨h1, h2⟩ := h.stays_failed hf hs
    exact (ih (pump_inv.step _ _ _ h hs) h1).trans h2

/-- **The write pump.** (a) At most one write in flight. (b) Until a failure
one is in flight exactly when the queue is non-empty, and it is that of the
front node, which is the next accepted message not yet written. (c) What has
been written is a prefix of what was accepted. (d) Nothing is started after a
failure. -/
theorem pump_spec (w : Pumped) (h : pump.Reachable w) :
    w.inFlight.length ≤ 1 ∧
    (w.failed = false → (w.inFlight ≠ [] ↔ w.session.sendQue ≠ []) ∧
      w.inFlight = (w.session.sendQue.take 1).map MsgNode.frame) ∧
    (w.session.sendQue = w.accepted.drop w.completed.length ∧
      w.completed <+: w.accepted.map MsgNode.frame) ∧
    (∀ i error, i < w.inFlight.length → (w.step (.complete i error)).isSome) ∧
    (w.failed = true → ∀ ls w', pump.Run w ls w' → w'.started = w.started) := by
  have hi := pump_inv.reachable w h
  refine ⟨?_, fun hf => ⟨?_, hi.busy hf⟩, ⟨hi.queue, ?_⟩,
    fun i error hlt => complete_enabled hi hlt error,
    fun hf ls w' r => run_failed r hi hf⟩
  · cases hf : w.failed with
    | true => simp [(hi.stopped hf).1]
    | false => rw [hi.busy hf, List.length_map, List.length_take]; omega
  · rw [hi.busy hf]; cases w.session.sendQue <;> simp
  · rw [hi.written, List.map_take]; exact List.take_prefix _ _

/-- Two messages, of which the first cannot be written: a third is queued
and nothing more is started. -/
theorem pump_spec_failure : ∃ w,
    LTS.exec Pumped.step ⟨.new, [], [], [], [], false⟩
      [.send [0x2A] 1, .send [0x2B] 1, .complete 0 true, .send [0x2C] 1] = some w ∧
    w.accepted.length = 3 ∧ w.started = [[0x00, 0x01, 0x2A]] ∧
    ∀ ls w', pump.Run w ls w' → w'.started = w.started := by
  have hrun : ∃ w, LTS.exec Pumped.step ⟨.new, [], [], [], [], false⟩
      [.send [0x2A] 1, .send [0x2B] 1, .complete 0 true, .send [0x2C] 1] = some w ∧
      w.accepted.length = 3 ∧ w.started = [[0x00, 0x01, 0x2A]] ∧ w.failed = true :=
    ⟨_, rfl, rfl, rfl, rfl⟩
  obtain ⟨w, he, ha, hs, hf⟩ := hrun
  have hreach : pump.Reachable w := LTS.reachable_of_exec ⟨rfl, rfl, rfl, rfl, rfl, rfl⟩ he
  exact ⟨w, he, ha, hs, (pump_spec w hreach).2.2.2.2 hf⟩

end Cxx.Asio
