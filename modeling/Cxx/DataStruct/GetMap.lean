import Cxx.Core.LTS
import Cxx.Core.Threads
import Cxx.DataStruct.SafeMap

/-!
# Snapshots of a `SafeMap`

Model of include/data_struct/SafeMap.hpp:60-79 under any number of threads. An
operation on one bucket is a step, which needs the lock of its bucket. A
`getMap` takes the locks one by one, copies bucket by bucket and lets the locks
go when it returns.

* `valueFor_current`: a `valueFor` returns what is bound at its step.
* `getMap_snapshot`: a `getMap` returns the map as it was when it got its last
  lock.
-/
namespace Cxx.GetMap

variable {ι Key Value : Type}

/-- Where a thread is. -/
inductive Loc (Key Value : Type) where
  | idle
  /-- `getMap` has the locks before `next`, and is about to lock that. -/
  | lock (next : Nat)
  /-- `getMap` has all locks, and the buckets before `next` are in `res`. -/
  | copy (next : Nat) (res : Key → Option Value)

structure Shared (ι Key Value : Type) where
  map : SafeMap Key Value
  /-- The thread that has locked a bucket in `getMap`. -/
  owner : Nat → Option ι
  loc : ι → Loc Key Value
  /-- The abstract map, as the operations change it. -/
  bindings : Key → Option Value
  /-- What the `getMap`s and the `valueFor`s have returned. -/
  maps : List (ι × (Key → Option Value))
  values : List (ι × Value)

inductive Label (ι Key Value : Type) where
  | addOrUpdateFor (i : ι) (key : Key) (value : Value)
  | removeFor (i : ι) (key : Key)
  | valueFor (i : ι) (key : Key) (defaultValue : Value)
  | getMap (i : ι)
  /-- The next step of a `getMap`. -/
  | run (i : ι)
  deriving DecidableEq, Repr

def Shared.new (numBuckets : Nat) (hasher : Key → Nat) : Shared ι Key Value where
  map := .new numBuckets hasher
  owner := fun _ => none
  loc := fun _ => .idle
  bindings := fun _ => none
  maps := []
  values := []

section
variable [DecidableEq ι]

def Shared.goto (s : Shared ι Key Value) (i : ι) (x : Loc Key Value) : Shared ι Key Value :=
  { s with loc := Function.update s.loc i x }

/-- An operation of a thread on the bucket of `key`, under its lock. -/
def Shared.locked (s : Shared ι Key Value) (i : ι) (key : Key) (s' : Shared ι Key Value) :
    Option (Shared ι Key Value) :=
  match s.loc i with
  | .idle => if s.owner (s.map.getBucket key) = none then some s' else none
  | _ => none

variable [DecidableEq Key]

/-- mirrors include/data_struct/SafeMap.hpp:69-79 -/
def Shared.run (s : Shared ι Key Value) (i : ι) : Option (Shared ι Key Value) :=
  match s.loc i with
  | .idle => none
  | .lock next =>
    if s.owner next = none then
      some (Shared.goto { s with owner := Function.update s.owner next (some i) } i
        (if next + 1 < s.map.numBuckets then .lock (next + 1) else .copy 0 fun _ => none))
    else none
  | .copy next res =>
    if next < s.map.numBuckets then
      some (s.goto i (.copy (next + 1) (SafeMap.copyBucket res (s.map.buckets next))))
    else
      some (Shared.goto { s with
        owner := fun b => if s.owner b = some i then none else s.owner b
        maps := s.maps ++ [(i, res)] } i .idle)

def Shared.step (s : Shared ι Key Value) : Label ι Key Value → Option (Shared ι Key Value)
  | .addOrUpdateFor i key value =>
    s.locked i key { s with
      map := s.map.addOrUpdateFor key value
      bindings := Function.update s.bindings key (some value) }
  | .removeFor i key =>
    s.locked i key { s with
      map := s.map.removeFor key
      bindings := Function.update s.bindings key none }
  | .valueFor i key defaultValue =>
    s.locked i key { s with values := s.values ++ [(i, s.map.valueFor key defaultValue)] }
  | .getMap i =>
    match s.loc i with
    | .idle => some (s.goto i (.lock 0))
    | _ => none
  | .run i => s.run i

end

def safeMap (ι : Type) {Key : Type} (Value : Type) [DecidableEq ι] [DecidableEq Key]
    (numBuckets : Nat) (hasher : Key → Nat) : LTS (Shared ι Key Value) (Label ι Key Value) :=
  LTS.ofFn (· = .new numBuckets hasher) Shared.step

/-! ## What holds in every state -/

/-- Whether a thread has the lock of a bucket. -/
def Loc.holds (numBuckets bucket : Nat) : Loc Key Value → Bool
  | .idle => false
  | .lock next => decide (bucket < next)
  | .copy _ _ => decide (bucket < numBuckets)

def Loc.Progress (m : SafeMap Key Value) (bindings : Key → Option Value) : Loc Key Value → Prop
  | .idle => True
  | .lock next => next < m.numBuckets
  | .copy next res => next ≤ m.numBuckets ∧ m.Copied bindings res next

theorem holds_next {numBuckets next bucket : Nat} (hlt : next < numBuckets)
    {res : Key → Option Value} :
    (if next + 1 < numBuckets then Loc.lock (next + 1) else .copy 0 res).holds numBuckets bucket =
      decide (bucket < next + 1) := by
  by_cases hn : next + 1 < numBuckets
  · rw [if_pos hn]; rfl
  · have he : numBuckets = next + 1 := by omega
    rw [if_neg hn, he]; rfl

theorem locked_eq_some {s s' t : Shared ι Key Value} {i : ι} {key : Key}
    (h : s.locked i key t = some s') :
    s.loc i = .idle ∧ s.owner (s.map.getBucket key) = none ∧ s' = t := by
  unfold Shared.locked at h
  cases hi : s.loc i with
  | idle =>
    rw [hi] at h
    obtain ⟨hfree, h⟩ := Option.ite_none_right_eq_some.mp h
    exact ⟨rfl, hfree, (Option.some.inj h).symm⟩
  | _ => rw [hi] at h; cases h

section
variable [DecidableEq Key]

structure Inv (s : Shared ι Key Value) : Prop where
  size : 0 < s.map.numBuckets
  mutex : ∀ bucket, Threads.Exclusive (Loc.holds s.map.numBuckets bucket) (s.owner bucket) s.loc
  represents : s.map.Represents s.bindings
  progress : ∀ i, (s.loc i).Progress s.map s.bindings

variable {s s' : Shared ι Key Value} {i : ι} {key : Key}

/-- While a bucket is not locked nobody copies. -/
theorem Inv.not_copying (h : Inv s) (hfree : s.owner (s.map.getBucket key) = none) (next : Nat)
    (res : Key → Option Value) : s.loc i ≠ .copy next res := by
  intro hi
  have hlt : s.map.getBucket key < s.map.numBuckets := Nat.mod_lt _ h.size
  have hm := h.mutex (s.map.getBucket key) i
  rw [hfree, hi] at hm
  have hholds : Loc.holds s.map.numBuckets (s.map.getBucket key) (.copy next res) = true :=
    decide_eq_true hlt
  cases hm.mp hholds

/-- An operation on the bucket of `key`, while it is not locked. -/
theorem Inv.operate (h : Inv s) (hfree : s.owner (s.map.getBucket key) = none)
    {m : SafeMap Key Value} {bindings : Key → Option Value}
    (hsize : m.numBuckets = s.map.numBuckets) (hm : m.Represents bindings) :
    Inv { s with map := m, bindings } where
  size := by
    change 0 < m.numBuckets
    rw [hsize]; exact h.size
  mutex := by
    intro bucket
    change Threads.Exclusive (Loc.holds m.numBuckets bucket) _ _
    rw [hsize]; exact h.mutex bucket
  represents := hm
  progress := by
    intro i
    have hp := h.progress i
    change (s.loc i).Progress m bindings
    cases hi : s.loc i with
    | idle => trivial
    | lock next =>
      rw [hi] at hp
      change next < m.numBuckets
      rw [hsize]; exact hp
    | copy next res => exact absurd hi (h.not_copying hfree next res)

variable [DecidableEq ι]

theorem Inv.goto (h : Inv s) {x : Loc Key Value}
    (hh : ∀ bucket, x.holds s.map.numBuckets bucket = (s.loc i).holds s.map.numBuckets bucket)
    (hp : x.Progress s.map s.bindings) : Inv (s.goto i x) where
  size := h.size
  mutex := fun bucket => (h.mutex bucket).stay (hh bucket)
  represents := h.represents
  progress := Threads.forall_update (Q := fun _ y => Loc.Progress s.map s.bindings y) hp
    fun j _ => h.progress j

/-- A `getMap` takes the next lock. -/
theorem Inv.acquire (h : Inv s) {next : Nat} (hi : s.loc i = .lock next)
    (hfree : s.owner next = none) :
    Inv (Shared.goto { s with owner := Function.update s.owner next (some i) } i
      (if next + 1 < s.map.numBuckets then .lock (next + 1) else .copy 0 fun _ => none)) := by
  have hlt : next < s.map.numBuckets := by
    have hp := h.progress i
    rw [hi] at hp
    exact hp
  exact {
    size := h.size
    represents := h.represents
    mutex := by
      intro bucket
      change Threads.Exclusive _ (Function.update s.owner next (some i) bucket) _
      by_cases hb : bucket = next
      · subst hb
        rw [Function.update_self]
        have hm := h.mutex bucket
        rw [hfree] at hm
        exact hm.enter ((holds_next hlt).trans (decide_eq_true (by omega)))
      · rw [Function.update_of_ne hb]
        apply (h.mutex bucket).stay
        rw [hi]
        refine (holds_next hlt).trans (decide_eq_decide.mpr ?_)
        omega
    progress := by
      apply Threads.forall_update (Q := fun _ y => Loc.Progress s.map s.bindings y)
      · by_cases hn : next + 1 < s.map.numBuckets
        · rw [if_pos hn]; exact hn
        · rw [if_neg hn]
          exact ⟨Nat.zero_le _, fun k => (if_neg (Nat.not_lt_zero _)).symm⟩
      · exact fun j _ => h.progress j }

/-- A `getMap` returns, and lets its locks go. -/
theorem Inv.release (h : Inv s) (maps : List (ι × (Key → Option Value))) :
    Inv (Shared.goto { s with
      owner := fun b => if s.owner b = some i then none else s.owner b
      maps } i .idle) where
  size := h.size
  represents := h.represents
  mutex := by
    intro bucket
    have hm := h.mutex bucket
    change Threads.Exclusive _ (if s.owner bucket = some i then none else s.owner bucket) _
    by_cases ho : s.owner bucket = some i
    · rw [if_pos ho]
      exact hm.leave ((hm i).mpr ho) rfl
    · rw [if_neg ho]
      apply hm.stay
      cases hin : (s.loc i).holds s.map.numBuckets bucket with
      | false => rfl
      | true => exact absurd ((hm i).mp hin) ho
  progress := Threads.forall_update (Q := fun _ y => Loc.Progress s.map s.bindings y) trivial
    fun j _ => h.progress j

/-- What a step of a `getMap` can be. -/
inductive Runs (s : Shared ι Key Value) (i : ι) : Shared ι Key Value → Prop
  | acquire (next : Nat) (hi : s.loc i = .lock next) (hfree : s.owner next = none) :
      Runs s i (Shared.goto { s with owner := Function.update s.owner next (some i) } i
        (if next + 1 < s.map.numBuckets then .lock (next + 1) else .copy 0 fun _ => none))
  | copy (next : Nat) (res : Key → Option Value) (hi : s.loc i = .copy next res)
      (hlt : next < s.map.numBuckets) :
      Runs s i (s.goto i (.copy (next + 1) (SafeMap.copyBucket res (s.map.buckets next))))
  | release (next : Nat) (res : Key → Option Value) (hi : s.loc i = .copy next res)
      (hend : s.map.numBuckets ≤ next) :
      Runs s i (Shared.goto { s with
        owner := fun b => if s.owner b = some i then none else s.owner b
        maps := s.maps ++ [(i, res)] } i .idle)

theorem run_cases (hs : s.run i = some s') : Runs s i s' := by
  unfold Shared.run at hs
  cases hi : s.loc i with
  | idle => rw [hi] at hs; cases hs
  | lock next =>
    rw [hi] at hs
    obtain ⟨hfree, hs⟩ := Option.ite_none_right_eq_some.mp hs
    cases hs
    exact .acquire next hi hfree
  | copy next res =>
    simp only [hi] at hs
    by_cases hlt : next < s.map.numBuckets
    · rw [if_pos hlt] at hs
      cases hs
      exact .copy next res hi hlt
    · rw [if_neg hlt] at hs
      cases hs
      exact .release next res hi (by omega)

theorem Inv.run (h : Inv s) (hs : s.run i = some s') : Inv s' := by
  cases run_cases hs with
  | acquire next hi hfree => exact h.acquire hi hfree
  | copy next res hi hlt =>
    have hp := h.progress i
    rw [hi] at hp
    exact h.goto (fun _ => by rw [hi]; rfl) ⟨hlt, h.represents.copy hp.2⟩
  | release next res hi hend => exact h.release _

theorem Inv.step {l : Label ι Key Value} (h : Inv s) (hs : s.step l = some s') : Inv s' := by
  cases l with
  | addOrUpdateFor i key value =>
    obtain ⟨-, hfree, rfl⟩ := locked_eq_some hs
    exact h.operate hfree rfl h.represents.addOrUpdateFor
  | removeFor i key =>
    obtain ⟨-, hfree, rfl⟩ := locked_eq_some hs
    exact h.operate hfree rfl h.represents.removeFor
  | valueFor i key default =>
    obtain ⟨-, -, rfl⟩ := locked_eq_some hs
    exact ⟨h.size, h.mutex, h.represents, h.progress⟩
  | getMap i =>
    unfold Shared.step at hs
    cases hi : s.loc i with
    | idle =>
      simp only [hi, Option.some.injEq] at hs
      subst hs
      refine h.goto (fun bucket => ?_) h.size
      rw [hi]
      change decide (bucket < 0) = false
      exact decide_eq_false (Nat.not_lt_zero bucket)
    | _ => simp only [hi] at hs; cases hs
  | run i => exact h.run hs

theorem inv_inductive {numBuckets : Nat} (hn : 0 < numBuckets) (hasher : Key → Nat) :
    (safeMap ι Value numBuckets hasher).Inductive Inv where
  init := by
    intro s hs
    have hs : s = .new numBuckets hasher := hs
    subst hs
    exact {
      size := hn
      mutex := fun _ _ => iff_of_false (fun h => by cases h) (fun h => by cases h)
      represents := SafeMap.represents_new numBuckets hasher
      progress := fun _ => trivial }
  step := fun _ _ _ h hst => h.step hst

/-- Every `valueFor` returns what is bound at its step. -/
theorem valueFor_current {value : Value} (h : Inv s)
    (hs : s.step (.valueFor i key value) = some s') :
    s'.values = s.values ++ [(i, (s.bindings key).getD value)] := by
  obtain ⟨-, -, rfl⟩ := locked_eq_some hs
  change s.values ++ [(i, s.map.valueFor key value)] = _
  rw [h.represents.valueFor_eq]

/-! ## The moment of the snapshot -/

/-- The abstract map does not change while a `getMap` copies, which it does from
the moment at which it takes its last lock. -/
theorem Inv.copying {l : Label ι Key Value} {next : Nat} {res : Key → Option Value} (h : Inv s)
    (hs : s.step l = some s') (hc : s'.loc i = .copy next res) : s'.bindings = s.bindings ∧
      ((∃ next₀ res₀, s.loc i = .copy next₀ res₀) ∧ l ≠ .getMap i ∨
        l = .run i ∧ s.loc i = .lock (s.map.numBuckets - 1)) := by
  have moved : ∀ {j : ι} {x : Loc Key Value}, j ≠ i →
      Function.update s.loc j x i = .copy next res → s.loc i = .copy next res := by
    intro j x hj hx
    rw [Function.update_of_ne fun he => hj he.symm] at hx
    exact hx
  cases l with
  | addOrUpdateFor j key value =>
    obtain ⟨-, hfree, rfl⟩ := locked_eq_some hs
    exact absurd hc (h.not_copying hfree next res)
  | removeFor j key =>
    obtain ⟨-, hfree, rfl⟩ := locked_eq_some hs
    exact absurd hc (h.not_copying hfree next res)
  | valueFor j key default =>
    obtain ⟨-, -, rfl⟩ := locked_eq_some hs
    exact ⟨rfl, .inl ⟨⟨next, res, hc⟩, fun hl => by cases hl⟩⟩
  | getMap j =>
    unfold Shared.step at hs
    cases hj : s.loc j with
    | idle =>
      simp only [hj, Option.some.injEq] at hs
      subst hs
      by_cases hij : j = i
      · subst hij
        have hx : Function.update s.loc j (.lock 0) j = .copy next res := hc
        rw [Function.update_self] at hx
        cases hx
      · exact ⟨rfl, .inl ⟨⟨next, res, moved hij hc⟩, fun hl => hij (Label.getMap.inj hl)⟩⟩
    | _ => simp only [hj] at hs; cases hs
  | run j =>
    have stays : ∀ {next₀ : Nat} {res₀ : Key → Option Value} {x : Loc Key Value},
        s.loc j = .copy next₀ res₀ → Function.update s.loc j x i = .copy next res →
        ∃ next₀ res₀, s.loc i = .copy next₀ res₀ := by
      intro next₀ res₀ x hj hx
      by_cases hij : j = i
      · exact ⟨next₀, res₀, by rw [← hij]; exact hj⟩
      · exact ⟨next, res, moved hij hx⟩
    cases run_cases hs with
    | acquire last hj hfree =>
      refine ⟨rfl, ?_⟩
      by_cases hij : j = i
      · subst hij
        have hlt := h.progress j
        rw [hj] at hlt
        have hlt : last < s.map.numBuckets := hlt
        have hx : Function.update s.loc j (if last + 1 < s.map.numBuckets then .lock (last + 1)
          else .copy 0 fun _ => none) j = .copy next res := hc
        rw [Function.update_self] at hx
        by_cases hmore : last + 1 < s.map.numBuckets
        · rw [if_pos hmore] at hx; cases hx
        · have he : s.map.numBuckets - 1 = last := by omega
          rw [he]
          exact .inr ⟨rfl, hj⟩
      · exact .inl ⟨⟨next, res, moved hij hc⟩, fun hl => by cases hl⟩
    | copy next₀ res₀ hj hlt => exact ⟨rfl, .inl ⟨stays hj hc, fun hl => by cases hl⟩⟩
    | release next₀ res₀ hj hend => exact ⟨rfl, .inl ⟨stays hj hc, fun hl => by cases hl⟩⟩

/-- A `getMap` that copies has taken its last lock in the same call, and the
abstract map has not changed since. -/
theorem copying_run {numBuckets : Nat} {hasher : Key → Nat} {ls : List (Label ι Key Value)}
    {next : Nat} {res : Key → Option Value} (r : (safeMap ι Value numBuckets hasher).Run s ls s') :
    Inv s → s'.loc i = .copy next res →
      ((∃ next₀ res₀, s.loc i = .copy next₀ res₀) ∧ .getMap i ∉ ls ∧ s'.bindings = s.bindings) ∨
      ∃ ls₁ s₁ s₂ ls₂, ls = ls₁ ++ .run i :: ls₂ ∧
        (safeMap ι Value numBuckets hasher).Run s ls₁ s₁ ∧ s₁.step (.run i) = some s₂ ∧
        (safeMap ι Value numBuckets hasher).Run s₂ ls₂ s' ∧
        s₁.loc i = .lock (s₁.map.numBuckets - 1) ∧ .getMap i ∉ ls₂ ∧ s'.bindings = s₂.bindings := by
  induction r with
  | nil s => exact fun _ hc => .inl ⟨⟨next, res, hc⟩, List.not_mem_nil, rfl⟩
  | @cons s t s' l ls hst r ih =>
    intro h hc
    have hst : s.step l = some t := hst
    rcases ih (h.step hst) hc with ⟨hcopy, hnot, hb⟩ |
      ⟨ls₁, s₁, s₂, ls₂, rfl, r₁, hs, r₂, hl, hnot, hb⟩
    · obtain ⟨next₀, res₀, hcopy⟩ := hcopy
      obtain ⟨hb', ⟨hcopy', hne⟩ | ⟨rfl, hl⟩⟩ := h.copying hst hcopy
      · refine .inl ⟨hcopy', fun hm => ?_, hb.trans hb'⟩
        rcases List.mem_cons.mp hm with he | hm
        · exact hne he.symm
        · exact hnot hm
      · exact .inr ⟨[], s, t, ls, rfl, .nil s, hst, r, hl, hnot, hb⟩
    · exact .inr ⟨l :: ls₁, s₁, s₂, ls₂, rfl, .cons hst r₁, hs, r₂, hl, hnot, hb⟩

/-- What a `getMap` returns is the abstract map, which it keeps from changing. -/
theorem Inv.returned {res : Key → Option Value} (h : Inv s) (hs : s.run i = some s')
    (hres : s'.maps = s.maps ++ [(i, res)]) :
    (∃ next, s.loc i = .copy next res) ∧ res = s.bindings := by
  have longer : s.maps ≠ s.maps ++ [(i, res)] := by
    intro he
    have hlen := congrArg List.length he
    rw [List.length_append, List.length_singleton] at hlen
    omega
  cases run_cases hs with
  | acquire next hi hfree => exact absurd hres longer
  | copy next res₀ hi hlt => exact absurd hres longer
  | release next res₀ hi hend =>
    have hp := h.progress i
    rw [hi] at hp
    obtain ⟨hle, hcopied⟩ := hp
    have hlast : [(i, res₀)] = [(i, res)] := List.append_cancel_left hres
    obtain rfl : res₀ = res := (Prod.mk.inj (List.cons.inj hlast).1).2
    obtain rfl : next = s.map.numBuckets := by omega
    exact ⟨⟨_, hi⟩, hcopied.all h.size⟩

/-- **`getMap` is a snapshot.** In every run, what a `getMap` returns is the
abstract map as it was, within the same call, after the step that took the last
of the locks. -/
theorem getMap_snapshot (numBuckets : Nat) (hn : 0 < numBuckets) (hasher : Key → Nat)
    (ls : List (Label ι Key Value)) (s s' : Shared ι Key Value) (i : ι) (res : Key → Option Value)
    (r : (safeMap ι Value numBuckets hasher).Run (.new numBuckets hasher) ls s)
    (hs : s.step (.run i) = some s') (hres : s'.maps = s.maps ++ [(i, res)]) :
    ∃ ls₁ s₁ s₂ ls₂, ls = ls₁ ++ .run i :: ls₂ ∧
      (safeMap ι Value numBuckets hasher).Run (.new numBuckets hasher) ls₁ s₁ ∧
      s₁.step (.run i) = some s₂ ∧ (safeMap ι Value numBuckets hasher).Run s₂ ls₂ s ∧
      s₁.loc i = .lock (s₁.map.numBuckets - 1) ∧ .getMap i ∉ ls₂ ∧ res = s₂.bindings := by
  have h₀ := (inv_inductive hn hasher).init (.new numBuckets hasher : Shared ι Key Value) rfl
  have h := (inv_inductive hn hasher).run r h₀
  obtain ⟨⟨next, hcopy⟩, rfl⟩ := h.returned hs hres
  rcases copying_run r h₀ hcopy with ⟨⟨_, _, hcopy₀⟩, -⟩ |
    ⟨ls₁, s₁, s₂, ls₂, he, r₁, hst, r₂, hl, hnot, hb⟩
  · cases hcopy₀
  · exact ⟨ls₁, s₁, s₂, ls₂, he, r₁, hst, r₂, hl, hnot, hb⟩

end

/-- Another thread adds a key to the second bucket between the two locks of a `getMap`. -/
def addBetweenLocks : List (Label Bool Nat Nat) :=
  [.addOrUpdateFor true 4 40, .getMap false, .run false, .addOrUpdateFor true 5 50, .run false,
    .run false, .run false]

theorem getMap_snapshot_between : ∃ s s' : Shared Bool Nat Nat, ∃ res,
    (safeMap Bool Nat 2 id).Run (.new 2 id) addBetweenLocks s ∧ s.step (.run false) = some s' ∧
      s'.maps = s.maps ++ [(false, res)] ∧ res 4 = some 40 ∧ res 5 = some 50 ∧
      ∃ s₂ ls₂, (safeMap Bool Nat 2 id).Run s₂ ls₂ s ∧ res = s₂.bindings := by
  have hrun : ∃ s s' : Shared Bool Nat Nat, ∃ res,
      LTS.exec Shared.step (.new 2 id) addBetweenLocks = some s ∧ s.step (.run false) = some s' ∧
        s'.maps = s.maps ++ [(false, res)] ∧ res 4 = some 40 ∧ res 5 = some 50 :=
    ⟨_, _, _, rfl, rfl, rfl, rfl, rfl⟩
  obtain ⟨s, s', res, he, hs, hres, h4, h5⟩ := hrun
  have r : (safeMap Bool Nat 2 id).Run (.new 2 id) addBetweenLocks s := LTS.run_of_exec he
  obtain ⟨-, -, s₂, ls₂, -, -, -, r₂, -, -, hb⟩ :=
    getMap_snapshot 2 (by decide) id addBetweenLocks s s' false res r hs hres
  exact ⟨s, s', res, r, hs, hres, h4, h5, s₂, ls₂, r₂, hb⟩

end Cxx.GetMap
