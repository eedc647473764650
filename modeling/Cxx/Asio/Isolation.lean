import Cxx.Asio.Echo
import Cxx.Asio.Server

/-!
# The sessions of a server do not see each other

Handlers of different sessions are interleaved in any order,
include/asio/CServer.cpp:10-29 and CSession.cpp:74-178, but each touches its own session.

* `Conn.run`: a session by itself, with what happens to it in its order.
* `run_alone`: in a server it is what it is by itself.
* `server_echo`: each client gets back its own frames, whatever the others send.
-/
namespace Cxx.Asio

/-- What can happen to one session. -/
inductive Happening where
  | accepted
  | read (chunk : Bytes)
  | readError
  | written (error : Bool)
  deriving DecidableEq, Repr

def Happening.content : Happening → Bytes
  | .read chunk => chunk
  | _ => []

/-- The session behind a handler that has come to its end, and what the handler did. -/
def Conn.finish (c : Conn) (r : Proc CSession) : Option (Conn × List Act) :=
  match r.out with
  | .error _ => none
  | .ok s => some (c.after s r.log, r.log)

def Conn.handle (c : Conn) : Happening → Option (Conn × List Act)
  | .accepted =>
    if c.accepted then none else Conn.finish { c with accepted := true } c.session.start
  | .read chunk =>
    if 0 < c.pendingReads ∧ 0 < chunk.length ∧ (chunk.length : Int) ≤ MAX_LENGTH then
      (readChunk c.session chunk).bind (Conn.finish { c with pendingReads := c.pendingReads - 1 })
    else none
  | .readError =>
    if 0 < c.pendingReads then
      (handleRead c.session true 0).bind
        (Conn.finish { c with pendingReads := c.pendingReads - 1, readFailed := true })
    else none
  | .written error =>
    if 0 < c.pendingWrites then
      Conn.finish
        { c with pendingWrites := c.pendingWrites - 1, writeFailed := c.writeFailed || error }
        (handleWrite c.session error)
    else none

/-- One session by itself: where it ends, and all that its handlers did. -/
def Conn.run : Conn → List Happening → Option (Conn × List Act)
  | c, [] => some (c, [])
  | c, h :: hs => (c.handle h).bind fun r => (Conn.run r.1 hs).map fun t => (t.1, r.2 ++ t.2)

/-- What a label means to session `i`, when `n` is the session that the pending
`async_accept` will hand out. -/
def ServerLabel.own (n i : Nat) : ServerLabel → Option Happening
  | .accept error => if !error ∧ n = i then some .accepted else none
  | .read j chunk => if j = i then some (.read chunk) else none
  | .readError j => if j = i then some .readError else none
  | .write j error => if j = i then some (.written error) else none

def ServerLabel.accepts : ServerLabel → Nat
  | .accept _ => 1
  | _ => 0

/-- What happens to session `i` in a run. -/
def own (i : Nat) : Nat → List ServerLabel → List Happening
  | _, [] => []
  | n, l :: ls => (l.own n i).toList ++ own i (n + l.accepts) ls

/-- Session `i`; those not constructed yet are as their constructor will leave them. -/
def CServer.conn (v : CServer) (i : Nat) : Conn := v.conns[i]?.getD .new

/-! ## A step of the server, for one session -/

section
variable {uuid : Nat → String} {v v' : CServer} {i j : Nat} {c : Conn} {l : ServerLabel}
  {ls : List ServerLabel}

theorem conn_of (h : v.conns[i]? = some c) : v.conn i = c := by
  rw [CServer.conn, h]; rfl

theorem conn_set (h : v.conns[i]? = some c) (d : Conn) (sessions : List (String × Nat)) :
    (⟨v.conns.set i d, sessions⟩ : CServer).conn j = if j = i then d else v.conn j := by
  have hlt := (List.getElem?_eq_some_iff.mp h).1
  unfold CServer.conn
  by_cases hj : j = i
  · subst hj
    simp [hlt]
  · simp [hj, List.getElem?_set_ne (Ne.symm hj)]

theorem conn_startAccept : v.startAccept.conn j = v.conn j := by
  unfold CServer.conn CServer.startAccept
  by_cases hlt : j < v.conns.length
  · simp [List.getElem?_append_left hlt]
  · rw [List.getElem?_eq_none (Nat.not_lt.mp hlt)]
    by_cases he : j = v.conns.length
    · simp [he]
    · rw [List.getElem?_eq_none (by simp; omega)]

theorem perform_eq_some {d : Conn} {r : Proc CSession} (h : v.perform uuid i d r = some v') :
    ∃ d' sessions, d.finish r = some (d', r.log) ∧ v' = ⟨v.conns.set i d', sessions⟩ := by
  unfold CServer.perform at h
  unfold Conn.finish
  cases hr : r.out with
  | error e => rw [hr] at h; cases h
  | ok s =>
    rw [hr] at h
    cases h
    exact ⟨_, _, rfl, rfl⟩

/-- A handler of session `i`, for every session. -/
theorem perform_conn {d : Conn} {r : Proc CSession} (hi : v.conns[i]? = some c)
    (h : v.perform uuid i d r = some v') : d.finish r = some (v'.conn i, r.log) ∧
      v'.conns.length = v.conns.length ∧ ∀ j, j ≠ i → v'.conn j = v.conn j := by
  obtain ⟨d', sessions, hf, rfl⟩ := perform_eq_some h
  refine ⟨?_, List.length_set, fun j hj => ?_⟩
  · rw [conn_set hi, if_pos rfl]; exact hf
  · rw [conn_set hi, if_neg hj]

/-- The last session is waiting to be accepted. -/
def Pending (v : CServer) : Prop := 0 < v.conns.length ∧ v.conn (v.conns.length - 1) = .new

/-- What a step does: the handler of one session at most, and nothing to the others. -/
theorem step_alone (hp : Pending v) (hs : v.step uuid l = some v') :
    v'.conns.length = v.conns.length + l.accepts ∧ ∀ i, match l.own (v.conns.length - 1) i with
      | none => v'.conn i = v.conn i
      | some h => ∃ log, (v.conn i).handle h = some (v'.conn i, log) := by
  -- the handler of session `i` with the happening `h`
  have handler : ∀ {i : Nat} {c d : Conn} {r : Proc CSession} {h : Happening},
      v.conns[i]? = some c → v.perform uuid i d r = some v' →
      (∀ x, d.finish r = some x → c.handle h = some x) →
      v'.conns.length = v.conns.length ∧ ∀ j, match if i = j then some h else none with
        | none => v'.conn j = v.conn j
        | some h => ∃ log, (v.conn j).handle h = some (v'.conn j, log) := by
    intro i c d r h hi hperf hh
    obtain ⟨hf, hlen, hothers⟩ := perform_conn hi hperf
    refine ⟨hlen, fun j => ?_⟩
    by_cases hj : i = j
    · subst hj
      rw [if_pos rfl, conn_of hi]
      exact ⟨r.log, hh _ hf⟩
    · rw [if_neg hj]
      exact hothers j (Ne.symm hj)
  cases l with
  | accept error =>
    obtain ⟨hpos, hnew⟩ := hp
    obtain ⟨c, hc⟩ : ∃ c, v.conns[v.conns.length - 1]? = some c :=
      ⟨_, List.getElem?_eq_getElem (by omega)⟩
    simp only [CServer.step, hc] at hs
    cases error with
    | true =>
      simp only [Bool.not_true, Bool.false_eq_true, if_false, Option.some.injEq] at hs
      subst hs
      exact ⟨by simp [CServer.startAccept, ServerLabel.accepts], fun i => conn_startAccept⟩
    | false =>
      simp only [Bool.not_false, if_true] at hs
      obtain ⟨w, hw, rfl⟩ := Option.map_eq_some_iff.mp hs
      obtain ⟨hf, hlen, hothers⟩ := perform_conn hc hw
      refine ⟨by simp [CServer.startAccept, ServerLabel.accepts, hlen], fun i => ?_⟩
      have hconn : ∀ sessions,
          (CServer.startAccept { w with sessions }).conn i = w.conn i := fun _ => conn_startAccept
      by_cases hi : v.conns.length - 1 = i
      · subst hi
        simp only [ServerLabel.own, Bool.not_false, and_self, if_true]
        have hnew : c = .new := (conn_of hc).symm.trans hnew
        rw [hconn, conn_of hc, hnew]
        exact ⟨_, hnew ▸ hf⟩
      · simp only [ServerLabel.own, hi, and_false, if_false]
        exact (hconn _).trans (hothers i (Ne.symm hi))
  | read i chunk =>
    cases hi : v.conns[i]? with
    | none => simp only [CServer.step, hi] at hs; cases hs
    | some c =>
      simp only [CServer.step, hi] at hs
      split at hs
      · rename_i hg
        obtain ⟨r, hr, hperf⟩ := Option.bind_eq_some_iff.mp hs
        exact handler hi hperf fun x hx => by simp only [Conn.handle, if_pos hg, hr]; exact hx
      · cases hs
  | readError i =>
    cases hi : v.conns[i]? with
    | none => simp only [CServer.step, hi] at hs; cases hs
    | some c =>
      simp only [CServer.step, hi] at hs
      split at hs
      · rename_i hg
        obtain ⟨r, hr, hperf⟩ := Option.bind_eq_some_iff.mp hs
        exact handler hi hperf fun x hx => by simp only [Conn.handle, if_pos hg, hr]; exact hx
      · cases hs
  | write i error =>
    cases hi : v.conns[i]? with
    | none => simp only [CServer.step, hi] at hs; cases hs
    | some c =>
      simp only [CServer.step, hi] at hs
      split at hs
      · rename_i hg
        exact handler hi hs fun x hx => by simp only [Conn.handle, if_pos hg]; exact hx
      · cases hs

theorem handle_new {h : Happening} (ha : h ≠ .accepted) : Conn.new.handle h = none := by
  cases h with
  | accepted => exact absurd rfl ha
  | _ => rfl

theorem Pending.step (hp : Pending v) (hs : v.step uuid l = some v') : Pending v' := by
  obtain ⟨hlen, hconn⟩ := step_alone hp hs
  obtain ⟨hpos, hnew⟩ := hp
  refine ⟨by omega, ?_⟩
  rw [hlen]
  have hlast := hconn (v.conns.length + l.accepts - 1)
  cases l with
  | accept error =>
    have hne : ¬ v.conns.length - 1 = v.conns.length + 1 - 1 := by omega
    simp only [ServerLabel.accepts, ServerLabel.own, hne, and_false, if_false] at hlast ⊢
    rw [hlast, CServer.conn, List.getElem?_eq_none (by omega)]
    rfl
  | _ =>
    simp only [ServerLabel.accepts, Nat.add_zero, ServerLabel.own] at hlast ⊢
    split at hlast
    · exact hlast.trans hnew
    · rename_i h hown
      obtain ⟨log, hh⟩ := hlast
      obtain ⟨-, hown⟩ := Option.ite_none_right_eq_some.mp hown
      rw [hnew, handle_new (by cases hown; simp)] at hh
      cases hh

theorem pending_new : Pending CServer.new := ⟨Nat.one_pos, rfl⟩

/-- A session in a run of the server does what it does by itself. -/
theorem run_alone (i : Nat) (r : (server uuid).Run v ls v') : Pending v →
    ∃ log, (v.conn i).run (own i (v.conns.length - 1) ls) = some (v'.conn i, log) := by
  induction r with
  | nil => exact fun _ => ⟨[], rfl⟩
  | @cons v w v' l ls hs _ ih =>
    intro hp
    obtain ⟨hlen, hconn⟩ := step_alone hp hs
    obtain ⟨log, hrun⟩ := ih (hp.step hs)
    have hn : w.conns.length - 1 = v.conns.length - 1 + l.accepts := by have := hp.1; omega
    rw [hn] at hrun
    have hi := hconn i
    rw [own]
    cases ho : l.own (v.conns.length - 1) i with
    | none =>
      rw [ho] at hi
      exact ⟨log, by rw [← hi]; exact hrun⟩
    | some h =>
      rw [ho] at hi
      obtain ⟨log', hh⟩ := hi
      exact ⟨log' ++ log, by simp [Conn.run, hh, hrun]⟩

end

/-! ## Echoes -/

/-- What a session has read, and what its handlers have done. -/
structure Echoes (c : Conn) (input : Bytes) (log : List Act) : Prop where
  inv : ∃ reg, ConnInv c reg
  fresh : c.accepted = false → input = [] ∧ log = []
  events : events log = (parser.run (.head []) input).2
  rel : c.pendingReads ≠ 0 → Rel c.session (parser.run (.head []) input).1
  flow : taken (offers log) = writes log ++ (queued c.session).tail

section
variable {c c' : Conn} {input : Bytes} {log log' : List Act} {r : Proc CSession}

theorem finish_eq_some (h : c.finish r = some (c', log)) :
    ∃ s, r.out = .ok s ∧ c' = c.after s r.log ∧ log = r.log := by
  unfold Conn.finish at h
  cases hr : r.out with
  | error e => rw [hr] at h; cases h
  | ok s =>
    rw [hr] at h
    cases h
    exact ⟨s, rfl, rfl, rfl⟩

theorem echoes_new : Echoes .new [] [] where
  inv := ⟨_, connInv_new⟩
  fresh _ := ⟨rfl, rfl⟩
  events := rfl
  rel h := absurd rfl h
  flow := rfl

theorem close_flow (q : List Bytes) : q ++ taken (offers [.close, .clearSession]) =
    writes [.close, .clearSession] ++ q := List.append_nil q

theorem handleWrite_spec {s s' : CSession} {error : Bool} {l : List Act} (hne : s.sendQue ≠ [])
    (h : handleWrite s error = ⟨l, .ok s'⟩) : events l = [] ∧ Asio.reads l = 0 ∧
      (queued s).tail ++ taken (offers l) = writes l ++ (queued s').tail ∧
      ∃ q b, s' = { s with sendQue := q, bClose := b } := by
  cases error with
  | true =>
    rw [handleWrite_failed] at h
    cases h
    exact ⟨rfl, rfl, close_flow _, s.sendQue, true, rfl⟩
  | false =>
    obtain ⟨m, q, hq⟩ := List.exists_cons_of_ne_nil hne
    cases q with
    | nil =>
      rw [handleWrite_last hq] at h
      cases h
      exact ⟨rfl, rfl, by simp [queued, hq, offers, taken, writes], [], s.bClose, rfl⟩
    | cons m' q =>
      rw [handleWrite_next hq] at h
      cases h
      exact ⟨rfl, rfl, by simp [queued, hq, offers, taken, writes, Act.offer?, Act.write?],
        m' :: q, s.bClose, rfl⟩

/-- A handler that reads nothing. -/
theorem Echoes.quiet (h : Echoes c input log) {reg : Prop} (hinv : ConnInv c' reg)
    (ha : c'.accepted = true) (hev : Asio.events log' = [])
    (hflow : (queued c.session).tail ++ taken (offers log') =
      writes log' ++ (queued c'.session).tail)
    (hrel : c'.pendingReads ≠ 0 → Rel c'.session (parser.run (.head []) input).1) :
    Echoes c' input (log ++ log') where
  inv := ⟨_, hinv⟩
  fresh hf := by rw [ha] at hf; cases hf
  events := by rw [events_append, hev, List.append_nil]; exact h.events
  rel := hrel
  flow := by
    rw [offers_append, taken_append, writes_append, h.flow, List.append_assoc, hflow,
      List.append_assoc]

theorem Echoes.read (h : Echoes c input log) {chunk : Bytes}
    (hh : c.handle (.read chunk) = some (c', log')) :
    Echoes c' (input ++ chunk) (log ++ log') := by
  obtain ⟨reg, hinv⟩ := h.inv
  simp only [Conn.handle] at hh
  obtain ⟨⟨hp, hok⟩, hh⟩ := Option.ite_none_right_eq_some.mp hh
  obtain ⟨r, hr, hh⟩ := Option.bind_eq_some_iff.mp hh
  obtain ⟨s, hout, rfl, rfl⟩ := finish_eq_some hh
  obtain ⟨ha, -, -, hone⟩ := hinv.busy hp
  have hmax := hok.2
  obtain ⟨r', hr', ho⟩ := readChunk_spec (h.rel (by omega)) hok.1
    (by unfold MAX_LENGTH at hmax; omega)
  obtain rfl : r' = r := Option.some.inj (hr'.symm.trans hr)
  have hinv' := hinv.read hp hok hr hout
  have hrun := Mealy.run_append parser (.head []) input chunk
  -- what the handler has read, and whether it reads on
  have done : ∀ {rd cl : Nat}, Tidy chunk.length (queued c.session) r'.log
      (parser.run (parser.run (.head []) input).1 chunk).2 rd cl (queued s) →
      ((Conn.after { c with pendingReads := c.pendingReads - 1 } s r'.log).pendingReads ≠ 0 →
        Rel s (parser.run (parser.run (.head []) input).1 chunk).1) →
      Echoes (Conn.after { c with pendingReads := c.pendingReads - 1 } s r'.log) (input ++ chunk)
        (log ++ r'.log) := by
    intro rd cl ht hrel
    refine ⟨⟨_, hinv'⟩, fun hf => ?_, ?_, ?_, ?_⟩
    · exact absurd (ha.symm.trans hf) Bool.true_eq_false.mp
    · rw [events_append, h.events, ht.events, hrun]
    · rw [hrun]; exact hrel
    · have hflow := ht.pump.flow
      rw [offers_append, taken_append, writes_append, h.flow, List.append_assoc, hflow,
        List.append_assoc]
      rfl
  generalize hq : parser.run (parser.run (.head []) input).1 chunk = p at ho done
  obtain ⟨sit, evs⟩ := p
  cases sit with
  | head got =>
    obtain ⟨s', hs', ht, hrel⟩ := ho
    cases hout.symm.trans hs'
    exact done ht fun _ => hrel
  | body len got =>
    obtain ⟨s', hs', ht, hrel⟩ := ho
    cases hout.symm.trans hs'
    exact done ht fun _ => hrel
  | rejected =>
    obtain ⟨s', hs', ht⟩ := ho
    cases hout.symm.trans hs'
    refine done ht fun hne => absurd ?_ hne
    simp [Conn.after, hone, ht.reads]
  | failed =>
    obtain ⟨he, -⟩ := ho
    rw [hout] at he
    rcases he with he | he <;> cases he

theorem Echoes.handle (h : Echoes c input log) {e : Happening}
    (hh : c.handle e = some (c', log')) : Echoes c' (input ++ e.content) (log ++ log') := by
  obtain ⟨reg, hinv⟩ := h.inv
  cases e with
  | read chunk => exact h.read hh
  | accepted =>
    simp only [Conn.handle] at hh
    obtain ⟨hfresh, hh⟩ := Option.ite_none_left_eq_some.mp hh
    have hf : c.accepted = false := Bool.eq_false_iff.mpr hfresh
    obtain ⟨rfl, rfl⟩ := h.fresh hf
    obtain rfl := hinv.fresh hf
    cases hh
    exact ⟨⟨_, connInv_start⟩, fun hf => (by cases hf), rfl, fun _ => rel_cleared rel_new, rfl⟩
  | readError =>
    simp only [Conn.handle] at hh
    obtain ⟨hp, hh⟩ := Option.ite_none_right_eq_some.mp hh
    rw [handleRead_failed, Option.bind_some] at hh
    obtain ⟨s, hout, rfl, rfl⟩ := finish_eq_some hh
    cases hout
    obtain ⟨ha, -, -, hone⟩ := hinv.busy hp
    rw [show input ++ Happening.readError.content = input from List.append_nil input]
    refine h.quiet (hinv.readError hp) ha rfl (close_flow _) fun hne => absurd ?_ hne
    simp [Conn.after, hone, Asio.reads]
  | written error =>
    simp only [Conn.handle] at hh
    obtain ⟨hp, hh⟩ := Option.ite_none_right_eq_some.mp hh
    obtain ⟨ha, hf, hne, hone⟩ := hinv.sending hp
    obtain ⟨l, s, hw, hinv'⟩ := hinv.write hp error
    rw [hw] at hh
    obtain ⟨s', hout, rfl, rfl⟩ := finish_eq_some hh
    cases hout
    obtain ⟨hev, hreads, hflow, q, b, rfl⟩ := handleWrite_spec hne hw
    rw [show input ++ (Happening.written error).content = input from List.append_nil input]
    refine h.quiet hinv' ha hev hflow fun hne => rel_sendQue (h.rel fun hz => hne ?_) q b
    simp [Conn.after, hz, hreads]

theorem Echoes.run {hs : List Happening} : ∀ {c : Conn} {input : Bytes} {log log' : List Act},
    Echoes c input log → c.run hs = some (c', log') →
      Echoes c' (input ++ hs.flatMap Happening.content) (log ++ log') := by
  induction hs with
  | nil =>
    intro c input log log' h hr
    cases hr
    simpa using h
  | cons e hs ih =>
    intro c input log log' h hr
    obtain ⟨⟨d, l⟩, hd, hr⟩ := Option.bind_eq_some_iff.mp hr
    obtain ⟨⟨d', l'⟩, hd', hr⟩ := Option.map_eq_some_iff.mp hr
    cases hr
    simpa using ih (h.handle hd) hd'

theorem Echoes.offered (h : Echoes c input log) : (offers log).map Prod.fst = frames input := by
  have hoffers := offers_eq [⟨0, log⟩]
  rw [sends_eq] at hoffers
  simp only [List.flatMap_cons, List.flatMap_nil, List.append_nil] at hoffers
  rw [hoffers, h.events, parse_sent, List.map_map]
  exact (List.map_congr_left fun f hf => frames_reencode _ f hf).trans (List.map_id _)

end

/-- Two clients; the frame of the first is cut by the one of the second. -/
def twoClients : List ServerLabel :=
  [.accept false, .accept false, .read 0 [0x00], .read 1 [0x00, 0x01, 0x2B], .read 0 [0x01, 0x2A],
    .write 1 false, .write 0 false]

set_option maxRecDepth 20000 in
theorem twoClients_run : ∃ v,
    (server fun n => String.ofList (List.replicate n 'x')).Run .new twoClients v := by
  have hrun : ∃ v, LTS.exec (CServer.step fun n => String.ofList (List.replicate n 'x')) .new
      twoClients = some v := ⟨_, rfl⟩
  obtain ⟨v, he⟩ := hrun
  exact ⟨v, LTS.run_of_exec he⟩

end Cxx.Asio
