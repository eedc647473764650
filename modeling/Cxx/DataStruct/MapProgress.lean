import Cxx.Core.Locks
import Cxx.Core.Potential
import Cxx.DataStruct.GetMap

/-!
# Every `getMap` comes to its end

A `getMap` takes the locks in the order of the buckets and lets none go before
it returns, so the calls of several threads never wait for each other in a circle.

* `Loc.left`: how many steps of its own a `getMap` has still to take.
* `getMaps_end`: the calls in progress return, in whatever order their threads are
  scheduled, and what they return is what is bound.
-/
namespace Cxx.GetMap

variable {ι Key Value : Type}

/-- The buckets whose locks a thread has. -/
def Loc.locks (numBuckets : Nat) : Loc Key Value → List Nat
  | .idle => []
  | .lock next => List.range next
  | .copy _ _ => List.range numBuckets

def Loc.wants : Loc Key Value → Option Nat
  | .lock next => some next
  | _ => none

/-- The locks to take, the buckets to copy, and the return. -/
def Loc.left (numBuckets : Nat) : Loc Key Value → Nat
  | .idle => 0
  | .lock next => numBuckets - next + numBuckets + 1
  | .copy next _ => numBuckets - next + 1

theorem mem_locks {numBuckets bucket : Nat} {x : Loc Key Value} :
    bucket ∈ x.locks numBuckets ↔ x.holds numBuckets bucket = true := by
  cases x <;> simp [Loc.locks, Loc.holds]

/-- What the `getMap`s of a thread have returned. -/
def Shared.answers [DecidableEq ι] (s : Shared ι Key Value) (i : ι) : List (Key → Option Value) :=
  (s.maps.filter fun x => decide (x.1 = i)).map Prod.snd

/-- What a `getMap` will return, when nothing is bound or removed before. -/
def Loc.pending (bindings : Key → Option Value) : Loc Key Value → List (Key → Option Value)
  | .idle => []
  | _ => [bindings]

section
variable [DecidableEq Key] {s s' : Shared ι Key Value} {i : ι}

theorem Inv.owned (h : Inv s) : Locks.Owned (Loc.locks s.map.numBuckets) s.owner s.loc :=
  fun i bucket => mem_locks.trans (h.mutex bucket i)

omit [DecidableEq Key] in
/-- The lock that a `getMap` wants is behind all those it has. -/
theorem wants_above {numBuckets bucket bucket' : Nat} {x : Loc Key Value}
    (hw : x.wants = some bucket) (hl : bucket' ∈ x.locks numBuckets) : bucket' < bucket := by
  cases x with
  | lock next =>
    obtain rfl : next = bucket := Option.some.inj hw
    exact List.mem_range.mp hl
  | _ => cases hw

variable [DecidableEq ι]

theorem run_of_not_blocked (hi : s.loc i ≠ .idle)
    (hb : ¬ Locks.Blocked Loc.wants s.owner (s.loc i)) : ∃ s', s.run i = some s' := by
  cases hx : s.loc i with
  | idle => exact absurd hx hi
  | lock next =>
    have hfree : s.owner next = none := by
      by_contra ho
      exact hb ⟨next, by rw [hx]; rfl, ho⟩
    exact ⟨_, by simp only [Shared.run, hx]; rw [if_pos hfree]⟩
  | copy next res =>
    simp only [Shared.run, hx]
    split <;> exact ⟨_, rfl⟩

/-- Where no `getMap` can go on, none is in progress. -/
theorem Inv.all_idle [Fintype ι] (h : Inv s) (hend : ∀ i, s.run i = none) (i : ι) :
    s.loc i = .idle := by
  by_contra hi
  have stuck : ∀ j, s.loc j ≠ .idle → Locks.Blocked Loc.wants s.owner (s.loc j) := by
    intro j hj
    by_contra hb
    obtain ⟨s', hs⟩ := run_of_not_blocked hj hb
    rw [hend j] at hs; cases hs
  rcases h.owned.progress Loc.wants id (fun _ _ _ hw hl => wants_above hw hl) i with
    hb | ⟨j, hj, hb⟩
  · exact hb (stuck i hi)
  · refine hb (stuck j fun he => hj ?_)
    rw [he]; rfl

omit [DecidableEq ι] in
theorem Inv.unlocked (h : Inv s) (hidle : ∀ i, s.loc i = .idle) (bucket : Nat) :
    s.owner bucket = none := by
  cases ho : s.owner bucket with
  | none => rfl
  | some i =>
    have hin := (h.mutex bucket i).mpr ho
    rw [hidle i] at hin; cases hin

/-! ## The steps of one call -/

/-- A step of a `getMap` is one step less to take, and nobody else moves. -/
theorem Inv.run_left (h : Inv s) (hs : s.run i = some s') :
    s'.map = s.map ∧ s'.bindings = s.bindings ∧
      (s'.loc i).left s.map.numBuckets + 1 = (s.loc i).left s.map.numBuckets ∧
      ∀ j, j ≠ i → s'.loc j = s.loc j := by
  have hp := h.progress i
  cases run_cases hs with
  | acquire next hi hfree =>
    rw [hi] at hp
    have hlt : next < s.map.numBuckets := hp
    refine ⟨rfl, rfl, ?_, fun j hj => Function.update_of_ne hj _ _⟩
    simp only [Shared.goto, Function.update_self, hi]
    split <;> simp only [Loc.left] <;> omega
  | copy next res hi hlt =>
    refine ⟨rfl, rfl, ?_, fun j hj => Function.update_of_ne hj _ _⟩
    simp only [Shared.goto, Function.update_self, hi, Loc.left]
    omega
  | release next res hi hend =>
    refine ⟨rfl, rfl, ?_, fun j hj => Function.update_of_ne hj _ _⟩
    simp only [Shared.goto, Function.update_self, hi, Loc.left]
    omega

/-! ## The end of the calls in progress -/

/-- A `getMap` returns the abstract map. -/
theorem Inv.run_answers (h : Inv s) (hs : s.run i = some s') (j : ι) :
    s'.answers j ++ (s'.loc j).pending s.bindings =
      s.answers j ++ (s.loc j).pending s.bindings := by
  obtain ⟨-, -, -, hothers⟩ := h.run_left hs
  by_cases hji : j = i
  · subst hji
    cases run_cases hs with
    | acquire next hi hfree =>
      simp only [Shared.answers, Shared.goto, Function.update_self, hi]
      split <;> rfl
    | copy next res hi hlt =>
      simp only [Shared.answers, Shared.goto, Function.update_self, hi]
      rfl
    | release next res hi hend =>
      have hp := h.progress j
      rw [hi] at hp
      obtain ⟨hle, hcopied⟩ := hp
      obtain rfl : next = s.map.numBuckets := by omega
      obtain rfl := hcopied.all h.size
      simp [Shared.answers, Shared.goto, hi, Loc.pending]
  · rw [hothers j hji]
    cases run_cases hs with
    | release next res hi hend =>
      have hij : i ≠ j := fun he => hji he.symm
      simp [Shared.answers, Shared.goto, hij]
    | _ => rfl

def Label.isRun : Label ι Key Value → Bool
  | .run _ => true
  | _ => false

/-- What has become of the `getMap`s in progress at `s`. -/
structure Since (s t : Shared ι Key Value) : Prop where
  inv : Inv t
  map : t.map = s.map
  bindings : t.bindings = s.bindings
  answers : ∀ i, t.answers i ++ (t.loc i).pending s.bindings =
    s.answers i ++ (s.loc i).pending s.bindings

theorem Since.step {t t' : Shared ι Key Value} {l : Label ι Key Value} (h : Since s t)
    (hl : l.isRun = true) (hs : t.step l = some t') : Since s t' := by
  cases l with
  | run i =>
    obtain ⟨hmap, hbindings, -, -⟩ := h.inv.run_left hs
    have hanswers := h.inv.run_answers hs
    rw [h.bindings] at hanswers
    exact ⟨h.inv.run hs, hmap.trans h.map, hbindings.trans h.bindings,
      fun i => (hanswers i).trans (h.answers i)⟩
  | _ => cases hl

/-- How many steps the `getMap`s in progress have still to take. -/
def Shared.left [Fintype ι] (s : Shared ι Key Value) : Nat :=
  Threads.total (Loc.left s.map.numBuckets) s.loc

theorem Inv.left_run [Fintype ι] (h : Inv s) (hs : s.run i = some s') :
    s'.left + 1 = s.left := by
  obtain ⟨hmap, -, hleft, hothers⟩ := h.run_left hs
  have hloc : s'.loc = Function.update s.loc i (s'.loc i) := by
    funext j
    by_cases hj : j = i
    · subst hj; rw [Function.update_self]
    · rw [Function.update_of_ne hj, hothers j hj]
  have htotal := Threads.total_update (Loc.left s.map.numBuckets) s.loc i (s'.loc i)
  rw [← hloc] at htotal
  rw [Shared.left, Shared.left, hmap]
  omega

variable {numBuckets : Nat} {hasher : Key → Nat}

/-- **No deadlock.** The `getMap`s in progress, with nobody else doing anything, return
in whatever order their threads are scheduled: every schedule comes to its end, which
is where all threads are idle, all locks are free, and each call has returned what is
bound. -/
theorem getMaps_end [Fintype ι] (hn : 0 < numBuckets)
    (h : (safeMap ι Value numBuckets hasher).Reachable s) :
    (∀ ls s', (safeMap ι Value numBuckets hasher).Run s ls s' → (∀ l ∈ ls, l.isRun = true) →
      ls.length ≤ s.left ∧ ((∀ i, s'.run i = none) →
        s'.bindings = s.bindings ∧ (∀ i, s'.loc i = .idle) ∧ (∀ bucket, s'.owner bucket = none) ∧
          ∀ i, s'.answers i = s.answers i ++ (s.loc i).pending s.bindings)) ∧
      ∃ ls s', (safeMap ι Value numBuckets hasher).Run s ls s' ∧ (∀ l ∈ ls, l.isRun = true) ∧
        ∀ i, s'.run i = none := by
  have hinv := (inv_inductive hn hasher).reachable s h
  have hlower : ∀ t (l : Label ι Key Value) t', Since s t → l.isRun = true →
      (safeMap ι Value numBuckets hasher).step t l t' → t'.left < t.left := by
    intro t l t' ht hl hs
    cases l with
    | run i =>
      have := ht.inv.left_run hs
      omega
    | _ => cases hl
  have hstep : ∀ t (l : Label ι Key Value) t', Since s t → l.isRun = true →
      (safeMap ι Value numBuckets hasher).step t l t' → Since s t' :=
    fun _ _ _ ht hl hs => ht.step hl hs
  have hstart : Since s s := ⟨hinv, rfl, rfl, fun _ => rfl⟩
  refine ⟨fun ls s' r hls => ⟨?_, fun hend => ?_⟩, ?_⟩
  · exact LTS.run_length Shared.left hstep hlower r hls hstart
  · have ht := LTS.run_keeps hstep r hls hstart
    have hidle := ht.inv.all_idle hend
    refine ⟨ht.bindings, hidle, ht.inv.unlocked hidle, fun i => ?_⟩
    have := ht.answers i
    rw [hidle i] at this
    simpa [Loc.pending] using this
  · obtain ⟨ls, s', r, hls, -, hend⟩ := LTS.run_to_end Shared.left
      (fun l : Label ι Key Value => l.isRun = true) hstep hlower hstart
    refine ⟨ls, s', r, hls, fun i => ?_⟩
    cases hs : s'.run i with
    | none => rfl
    | some t => exact absurd hs (hend (.run i) t rfl)

end

/-- A `getMap` waits for the first lock, which another has. -/
def waitForFirst : List (Label Bool Nat Nat) :=
  [.addOrUpdateFor true 4 40, .getMap false, .getMap true, .run false]

theorem getMaps_end_waiting : ∃ s : Shared Bool Nat Nat,
    (safeMap Bool Nat 2 id).Reachable s ∧ s.run true = none ∧
      ∃ ls s', (safeMap Bool Nat 2 id).Run s ls s' ∧ (∀ bucket, s'.owner bucket = none) ∧
        s'.answers false = [s.bindings] ∧ s'.answers true = [s.bindings] := by
  have hrun : ∃ s : Shared Bool Nat Nat, LTS.exec Shared.step (.new 2 id) waitForFirst = some s ∧
      s.run true = none ∧ s.maps = [] ∧ s.loc true = .lock 0 ∧ s.loc false = .lock 1 :=
    ⟨_, rfl, rfl, rfl, rfl, rfl⟩
  obtain ⟨s, he, hblocked, hmaps, ht, hf⟩ := hrun
  have hr : (safeMap Bool Nat 2 id).Reachable s := LTS.reachable_of_exec rfl he
  obtain ⟨hall, ls, s', r, hls, hend⟩ := getMaps_end (by decide) hr
  obtain ⟨-, -, hfree, hanswers⟩ := (hall ls s' r hls).2 hend
  refine ⟨s, hr, hblocked, ls, s', r, hfree, ?_, ?_⟩
  · rw [hanswers false, hf]
    simp [Shared.answers, hmaps, Loc.pending]
  · rw [hanswers true, ht]
    simp [Shared.answers, hmaps, Loc.pending]

end Cxx.GetMap
