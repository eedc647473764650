import Mathlib.Algebra.Ring.Nat
import Mathlib.Data.List.Nodup

/-!
# Unique ids

Model of `generateUniqueId`, include/chat/MyUtility.hpp:14-58. A reading of
`system_clock` is its milliseconds since 1970, and the readings that a call
may take are a list, so that a call that goes on waiting uses it up.

* `generateUniqueId_spec`: what a call that returns does to `sequence_` and
  `lastTimestamp_`.
* `unique_ids`: the ids are pairwise different exactly when the clock does not
  come back to a millisecond it has left.
-/
namespace Cxx.Chat

def epoch : Nat := 1609459200000
def maxDataCenterId : Nat := 31
def maxMachineId : Nat := 31
def sequenceMask : Nat := 4095
def timestampLeftShift : Nat := 22
def dataCenterIdShift : Nat := 17
def machineIdShift : Nat := 12

structure MyUtility where
  sequence : Nat
  lastTimestamp : Nat
  deriving DecidableEq, Repr

def MyUtility.init : MyUtility := ⟨0, 0⟩

/-- How a call ends. -/
inductive Outcome where
  | throws (what : String)
  /-- Waits for a reading that is not there. -/
  | waits
  | returns (id : String) (s : MyUtility) (readings : List Nat)
  deriving DecidableEq, Repr

/-- The arithmetic is that of `uint64_t`. -/
def uniqueId (timestamp dataCenterId machineId sequence : Nat) : Nat :=
  (((timestamp + 2 ^ 64 - epoch) % 2 ^ 64) <<< timestampLeftShift) % 2 ^ 64 |||
    dataCenterId <<< dataCenterIdShift ||| machineId <<< machineIdShift ||| sequence

/-- The loop that waits for the next millisecond. -/
def nextMillisecond (lastTimestamp : Nat) : Nat → List Nat → Option (Nat × List Nat)
  | timestamp, [] => if timestamp ≤ lastTimestamp then none else some (timestamp, [])
  | timestamp, t :: readings =>
    if timestamp ≤ lastTimestamp then nextMillisecond lastTimestamp t readings
    else some (timestamp, t :: readings)

/-- mirrors include/chat/MyUtility.hpp:14-41 -/
def MyUtility.generateUniqueId (s : MyUtility) (dataCenterId machineId : Nat) :
    List Nat → Outcome
  | [] =>
    if dataCenterId > maxDataCenterId ∨ machineId > maxMachineId then
      .throws "Invalid data center or machine ID"
    else .waits
  | timestamp :: readings =>
    if dataCenterId > maxDataCenterId ∨ machineId > maxMachineId then
      .throws "Invalid data center or machine ID"
    else
      let finish := fun sequence timestamp readings =>
        Outcome.returns (Nat.repr (uniqueId timestamp dataCenterId machineId sequence))
          ⟨sequence, timestamp⟩ readings
      if timestamp = s.lastTimestamp then
        let sequence := (s.sequence + 1) &&& sequenceMask
        if sequence = 0 then
          match nextMillisecond s.lastTimestamp timestamp readings with
          | none => .waits
          | some (timestamp, readings) => finish sequence timestamp readings
        else finish sequence timestamp readings
      else finish 0 timestamp readings

/-- The ids of successive calls, each with the readings that it takes. -/
def MyUtility.generateIds (dataCenterId machineId : Nat) :
    MyUtility → List (List Nat) → Option (List String)
  | _, [] => some []
  | s, readings :: calls =>
    match s.generateUniqueId dataCenterId machineId readings with
    | .returns id s' [] => (generateIds dataCenterId machineId s' calls).map (id :: ·)
    | _ => none

/-! ## The bits of an id -/

/-- The milliseconds since `epoch`, in the 42 bits that an id has for them. -/
def stamp (timestamp : Nat) : Nat := (timestamp + 2 ^ 64 - epoch) % 2 ^ 42

/-- The fields of an id, one above the other. -/
def pack (dataCenterId machineId : Nat) (p : Nat × Nat) : Nat :=
  p.1 * 2 ^ 22 + dataCenterId * 2 ^ 17 + machineId * 2 ^ 12 + p.2

theorem pack_inj {dataCenterId machineId : Nat} {p q : Nat × Nat} (hp : p.2 ≤ sequenceMask)
    (hq : q.2 ≤ sequenceMask) (h : pack dataCenterId machineId p = pack dataCenterId machineId q) :
    p = q := by
  unfold sequenceMask at hp hq
  unfold pack at h
  exact Prod.ext (by omega) (by omega)

theorem or_field {a b i : Nat} (hb : b < 2 ^ i) : a * 2 ^ i ||| b = a * 2 ^ i + b := by
  rw [← Nat.shiftLeft_eq, Nat.shiftLeft_add_eq_or_of_lt hb]

theorem uniqueId_eq {timestamp dataCenterId machineId sequence : Nat}
    (hd : dataCenterId ≤ maxDataCenterId) (hm : machineId ≤ maxMachineId)
    (hs : sequence ≤ sequenceMask) : uniqueId timestamp dataCenterId machineId sequence =
      pack dataCenterId machineId (stamp timestamp, sequence) := by
  have hd : dataCenterId ≤ 31 := hd
  have hm : machineId ≤ 31 := hm
  have hs : sequence ≤ 4095 := hs
  have hstamp : (((timestamp + 2 ^ 64 - epoch) % 2 ^ 64) <<< timestampLeftShift) % 2 ^ 64 =
      stamp timestamp * 2 ^ 22 := by
    have hpow : (2 : Nat) ^ 64 = 2 ^ 42 * 2 ^ 22 := by rw [← Nat.pow_add]
    have hdvd : (2 : Nat) ^ 42 ∣ 2 ^ 64 := Nat.pow_dvd_pow 2 (by omega)
    unfold stamp
    generalize timestamp + 2 ^ 64 - epoch = x
    have hshift : (x % 2 ^ 64) <<< timestampLeftShift = x % 2 ^ 64 * 2 ^ 22 := Nat.shiftLeft_eq _ _
    have hmod := Nat.mul_mod_mul_right (2 ^ 22) (x % 2 ^ 64) (2 ^ 42)
    rw [← hpow, Nat.mod_mod_of_dvd _ hdvd] at hmod
    rw [hshift, hmod]
  have hdata : dataCenterId <<< dataCenterIdShift = dataCenterId * 2 ^ 17 := Nat.shiftLeft_eq _ _
  have hmachine : machineId <<< machineIdShift = machineId * 2 ^ 12 := Nat.shiftLeft_eq _ _
  unfold uniqueId pack
  rw [hstamp, hdata, hmachine]
  generalize stamp timestamp = x
  -- each field is below the place of the one before it
  have h₁ : x * 2 ^ 22 + dataCenterId * 2 ^ 17 = (x * 2 ^ 5 + dataCenterId) * 2 ^ 17 := by
    rw [Nat.add_mul, Nat.mul_assoc, ← Nat.pow_add]
  have h₂ : (x * 2 ^ 5 + dataCenterId) * 2 ^ 17 + machineId * 2 ^ 12 =
      ((x * 2 ^ 5 + dataCenterId) * 2 ^ 5 + machineId) * 2 ^ 12 := by
    rw [Nat.add_mul _ machineId, Nat.mul_assoc, ← Nat.pow_add]
  rw [or_field (by omega), h₁, or_field (by omega), h₂, or_field (by omega)]

theorem repr_injective {a b : Nat} (h : Nat.repr a = Nat.repr b) : a = b := by
  have digits : ∀ n : Nat, Nat.ofDigitChars 10 (Nat.repr n).toList 0 = n := by
    intro n
    rw [Nat.toList_repr, Nat.ofDigitChars_toDigits (by omega) (by omega)]
  rw [← digits a, ← digits b, h]

/-! ## One call -/

theorem nextMillisecond_spec {last : Nat} {readings : List Nat} : ∀ {timestamp t : Nat},
    nextMillisecond last timestamp readings = some (t, []) →
      last < t ∧ (timestamp :: readings).getLast? = some t := by
  induction readings with
  | nil =>
    intro timestamp t h
    unfold nextMillisecond at h
    by_cases hle : timestamp ≤ last
    · rw [if_pos hle] at h; cases h
    · rw [if_neg hle] at h; cases h; exact ⟨by omega, rfl⟩
  | cons r readings ih =>
    intro timestamp t h
    unfold nextMillisecond at h
    by_cases hle : timestamp ≤ last
    · rw [if_pos hle] at h
      rw [List.getLast?_cons_cons]
      exact ih h
    · rw [if_neg hle] at h; cases h

/-- A call that returns ends in the millisecond of its last reading. Its sequence
number counts the calls that have ended in that millisecond since the clock came to it. -/
theorem generateUniqueId_spec {s s' : MyUtility} {dataCenterId machineId : Nat}
    {readings : List Nat} {id : String} (hseq : s.sequence ≤ sequenceMask)
    (h : s.generateUniqueId dataCenterId machineId readings = .returns id s' []) :
    dataCenterId ≤ maxDataCenterId ∧ machineId ≤ maxMachineId ∧
      readings.getLast? = some s'.lastTimestamp ∧
      s'.sequence = (if s'.lastTimestamp = s.lastTimestamp then s.sequence + 1 else 0) ∧
      s'.sequence ≤ sequenceMask ∧
      id = Nat.repr (uniqueId s'.lastTimestamp dataCenterId machineId s'.sequence) := by
  by_cases hvalid : dataCenterId > maxDataCenterId ∨ machineId > maxMachineId
  · cases readings <;> simp only [MyUtility.generateUniqueId, if_pos hvalid] at h <;> cases h
  · have hd : dataCenterId ≤ maxDataCenterId := by omega
    have hm : machineId ≤ maxMachineId := by omega
    refine ⟨hd, hm, ?_⟩
    cases readings with
    | nil => simp only [MyUtility.generateUniqueId, if_neg hvalid] at h; cases h
    | cons timestamp readings =>
      simp only [MyUtility.generateUniqueId, if_neg hvalid] at h
      by_cases heq : timestamp = s.lastTimestamp
      · rw [if_pos heq] at h
        have hmask : (s.sequence + 1) &&& sequenceMask = (s.sequence + 1) % 4096 :=
          Nat.and_two_pow_sub_one_eq_mod _ 12
        have hseq : s.sequence ≤ 4095 := hseq
        rw [hmask] at h
        by_cases hzero : (s.sequence + 1) % 4096 = 0
        · -- the sequence has run out: the call ends in a later millisecond
          rw [if_pos hzero] at h
          cases hn : nextMillisecond s.lastTimestamp timestamp readings with
          | none => rw [hn] at h; cases h
          | some p =>
            rw [hn] at h
            obtain ⟨t, rest⟩ := p
            cases h
            obtain ⟨hlt, hlast⟩ := nextMillisecond_spec hn
            have hne : t ≠ s.lastTimestamp := by omega
            exact ⟨hlast, by rw [if_neg hne, hzero], by rw [hzero]; exact Nat.zero_le _, rfl⟩
        · rw [if_neg hzero] at h
          cases h
          have hmod : (s.sequence + 1) % 4096 = s.sequence + 1 := by omega
          refine ⟨rfl, by rw [if_pos heq, hmod], ?_, rfl⟩
          change (s.sequence + 1) % 4096 ≤ 4095
          omega
      · rw [if_neg heq] at h
        cases h
        exact ⟨rfl, (if_neg heq).symm, Nat.zero_le _, rfl⟩

/-! ## Numbering repetitions -/

/-- A list without repetitions, apart from what came before it. -/
theorem nodup_cons_apart {B : Type} {b : B} {rest before : List B} :
    ((b ∉ rest ∧ rest.Nodup) ∧ b ∉ before ∧ ∀ c ∈ rest, c ∉ before) ↔
      b ∉ before ∧ rest.Nodup ∧ ∀ c ∈ rest, c ∉ b :: before := by
  constructor
  · intro h
    obtain ⟨⟨h1, h2⟩, h3, h4⟩ := h
    refine ⟨h3, h2, fun c hc hm => ?_⟩
    rcases List.mem_cons.mp hm with rfl | hm
    · exact h1 hc
    · exact h4 c hc hm
  · intro h
    obtain ⟨h3, h2, h4⟩ := h
    refine ⟨⟨fun hm => h4 _ hm List.mem_cons_self, h2⟩, h3, fun c hc hm => ?_⟩
    exact h4 c hc (List.mem_cons_of_mem _ hm)

section
variable {A K : Type} [DecidableEq A]

/-- Each value with its number among those equal to it since the last other one. -/
def count (last : A) (n : Nat) : List A → List (A × Nat)
  | [] => []
  | t :: ts => (t, if t = last then n + 1 else 0) :: count t (if t = last then n + 1 else 0) ts

/-- Every value is the one before it, or has a key that is not among those seen. -/
def NoReturn (key : A → K) : List K → A → List A → Prop
  | _, _, [] => True
  | seen, last, t :: ts => (t = last ∨ key t ∉ seen) ∧ NoReturn key (key t :: seen) t ts

instance NoReturn.decidable [DecidableEq K] (key : A → K) : (seen : List K) → (last : A) →
    (ts : List A) → Decidable (NoReturn key seen last ts)
  | _, _, [] => .isTrue trivial
  | seen, _, t :: ts =>
    @instDecidableAnd _ _ inferInstance (NoReturn.decidable key (key t :: seen) t ts)

/-- `emitted` are the keys seen, each with its numbers from 0 on. -/
theorem count_nodup (key : A → K) {ts : List A} : ∀ {emitted : List (K × Nat)} {seen : List K}
    {last : A} {n : Nat}, (∀ k ∈ seen, (k, 0) ∈ emitted) → (∀ p ∈ emitted, p.1 ∈ seen) →
    key last ∈ seen → (∀ m, (key last, m) ∈ emitted → m ≤ n) →
    ((((count last n ts).map (Prod.map key id)).Nodup ∧
      ∀ p ∈ (count last n ts).map (Prod.map key id), p ∉ emitted) ↔ NoReturn key seen last ts) := by
  induction ts with
  | nil =>
    intro emitted seen last n _ _ _ _
    exact iff_of_true ⟨List.nodup_nil, fun p hp => by cases hp⟩ trivial
  | cons t ts ih =>
    intro emitted seen last n hseen hemitted hlast hmax
    unfold count NoReturn
    rw [List.map_cons, List.nodup_cons, List.forall_mem_cons]
    generalize hn : (if t = last then n + 1 else 0) = n'
    have hkeys : ∀ p ∈ (key t, n') :: emitted, p.1 ∈ key t :: seen := by
      intro p hp
      rcases List.mem_cons.mp hp with rfl | hp
      · exact List.mem_cons_self
      · exact List.mem_cons_of_mem _ (hemitted p hp)
    refine nodup_cons_apart.trans ?_
    by_cases hold : t = last ∨ key t ∉ seen
    · have hnew : (key t, n') ∉ emitted := by
        intro hm
        rcases hold with he | hk
        · rw [if_pos he] at hn
          rw [he] at hm
          have := hmax n' hm
          omega
        · exact hk (hemitted _ hm)
      have hzero : ∀ k ∈ key t :: seen, (k, 0) ∈ (key t, n') :: emitted := by
        intro k hk
        rcases List.mem_cons.mp hk with rfl | hk
        · by_cases he : t = last
          · rw [he]; exact List.mem_cons_of_mem _ (hseen _ hlast)
          · rw [if_neg he] at hn
            rw [← hn]; exact List.mem_cons_self
        · exact List.mem_cons_of_mem _ (hseen k hk)
      have hmax' : ∀ m, (key t, m) ∈ (key t, n') :: emitted → m ≤ n' := by
        intro m hm
        rcases List.mem_cons.mp hm with he | hm
        · exact Nat.le_of_eq (Prod.mk.inj he).2
        · rcases hold with he | hk
          · rw [if_pos he] at hn
            rw [he] at hm
            have := hmax m hm
            omega
          · exact absurd (hemitted _ hm) hk
      exact and_congr (iff_of_true hnew hold) (ih hzero hkeys List.mem_cons_self hmax')
    · -- it has come back to a key, and its number starts from 0 again
      have he : t ≠ last := fun he => hold (.inl he)
      have hk : key t ∈ seen := by
        by_contra hk
        exact hold (.inr hk)
      rw [if_neg he] at hn
      have hm : (key t, n') ∈ emitted := by rw [← hn]; exact hseen _ hk
      exact iff_of_false (fun h => h.1 hm) (fun h => hold h.1)

end

/-! ## Successive calls -/

def lastReading (readings : List Nat) : Nat := readings.getLast?.getD 0

/-- The clock is read in the millisecond of the last call, or in one whose stamp
no call has had. -/
def ClockAdvances : List Nat → Prop
  | [] => True
  | t :: ts => NoReturn stamp [stamp t] t ts

instance : (ts : List Nat) → Decidable (ClockAdvances ts)
  | [] => .isTrue trivial
  | t :: ts => NoReturn.decidable stamp [stamp t] t ts

theorem generateIds_eq {dataCenterId machineId : Nat} {calls : List (List Nat)} :
    ∀ {s : MyUtility} {ids : List String}, s.sequence ≤ sequenceMask →
    s.generateIds dataCenterId machineId calls = some ids →
    ids = (count s.lastTimestamp s.sequence (calls.map lastReading)).map
        (fun p => Nat.repr (uniqueId p.1 dataCenterId machineId p.2)) ∧
      (∀ p ∈ count s.lastTimestamp s.sequence (calls.map lastReading), p.2 ≤ sequenceMask) ∧
      ∀ readings ∈ calls, dataCenterId ≤ maxDataCenterId ∧ machineId ≤ maxMachineId ∧
        lastReading readings ∈ readings := by
  induction calls with
  | nil =>
    intro s ids _ h
    cases h
    exact ⟨rfl, List.forall_mem_nil _, List.forall_mem_nil _⟩
  | cons readings calls ih =>
    intro s ids hseq h
    unfold MyUtility.generateIds at h
    cases hcall : s.generateUniqueId dataCenterId machineId readings with
    | throws what => rw [hcall] at h; cases h
    | waits => rw [hcall] at h; cases h
    | returns id s' rest =>
      rw [hcall] at h
      cases rest with
      | cons r rest => cases h
      | nil =>
        obtain ⟨ids', hids', rfl⟩ := Option.map_eq_some_iff.mp h
        obtain ⟨hd, hm, hlast, hn, hmask, rfl⟩ := generateUniqueId_spec hseq hcall
        have ht : lastReading readings = s'.lastTimestamp := by rw [lastReading, hlast]; rfl
        have hmem : lastReading readings ∈ readings := by
          rw [ht]; exact List.mem_of_getLast? hlast
        obtain ⟨hids, hle, hmore⟩ := ih hmask hids'
        rw [List.map_cons, ht]
        unfold count
        rw [← hn]
        refine ⟨by rw [hids, List.map_cons], ?_, ?_⟩
        · exact List.forall_mem_cons.mpr ⟨hmask, hle⟩
        · exact List.forall_mem_cons.mpr ⟨⟨hd, hm, hmem⟩, hmore⟩

/-- Different stamps and sequence numbers give different ids. -/
theorem ids_nodup {dataCenterId machineId : Nat} (hd : dataCenterId ≤ maxDataCenterId)
    (hm : machineId ≤ maxMachineId) {l : List (Nat × Nat)} (hl : ∀ p ∈ l, p.2 ≤ sequenceMask) :
    (l.map fun p => Nat.repr (uniqueId p.1 dataCenterId machineId p.2)).Nodup ↔
      (l.map (Prod.map stamp id)).Nodup := by
  have hfield : l.map (fun p => Nat.repr (uniqueId p.1 dataCenterId machineId p.2)) =
      (l.map (Prod.map stamp id)).map fun q => Nat.repr (pack dataCenterId machineId q) := by
    rw [List.map_map]
    apply List.map_congr_left
    intro p hp
    rw [uniqueId_eq hd hm (hl p hp)]; rfl
  rw [hfield]
  constructor
  · exact List.Nodup.of_map _
  · apply List.Nodup.map_on
    intro q hq q' hq' he
    have bound : ∀ q ∈ l.map (Prod.map stamp id), q.2 ≤ sequenceMask := by
      intro q hq
      obtain ⟨p, hp, rfl⟩ := List.mem_map.mp hq
      rw [Prod.map_snd]
      exact hl p hp
    exact pack_inj (bound q hq) (bound q' hq') (repr_injective he)

/-- **Unique ids.** The ids of successive calls are pairwise different if and
only if the clock does not return: a call whose last reading differs from that
of the call before ends in a millisecond in which no earlier call has ended
(`epoch + 2 ^ 42` has the stamp of `epoch`). -/
theorem unique_ids (dataCenterId machineId : Nat) (calls : List (List Nat)) (ids : List String)
    (hids : MyUtility.init.generateIds dataCenterId machineId calls = some ids)
    (hclock : ∀ readings ∈ calls, ∀ t ∈ readings, epoch ≤ t ∧ t ≤ epoch + 2 ^ 42) :
    ids.Nodup ↔ ClockAdvances (calls.map lastReading) := by
  obtain ⟨rfl, hmask, hcalls⟩ := generateIds_eq (Nat.zero_le _) hids
  cases calls with
  | nil => exact iff_of_true List.nodup_nil trivial
  | cons readings calls =>
    obtain ⟨hd, hm, hmem⟩ := hcalls readings List.mem_cons_self
    have hne : lastReading readings ≠ MyUtility.init.lastTimestamp := by
      have hge := (hclock readings List.mem_cons_self _ hmem).1
      have hepoch : 0 < epoch := by decide
      change lastReading readings ≠ 0
      omega
    rw [ids_nodup hd hm hmask, List.map_cons]
    unfold count
    rw [if_neg hne, List.map_cons, List.nodup_cons]
    generalize calls.map lastReading = ts
    generalize lastReading readings = t
    -- the first call has made the stamp known
    have hzero : ∀ k ∈ [stamp t], (k, 0) ∈ [(stamp t, 0)] := by
      intro k hk
      rw [List.mem_singleton.mp hk]
      exact List.mem_cons_self
    have hseen : ∀ p ∈ [(stamp t, 0)], p.1 ∈ [stamp t] := by
      intro p hp
      rw [List.mem_singleton.mp hp]
      exact List.mem_cons_self
    have hmax : ∀ m, (stamp t, m) ∈ [(stamp t, 0)] → m ≤ 0 := by
      intro m hm
      exact Nat.le_of_eq (Prod.mk.inj (List.mem_singleton.mp hm)).2
    refine Iff.trans ?_ (count_nodup stamp hzero hseen List.mem_cons_self hmax)
    constructor
    · intro h
      obtain ⟨hnew, hnodup⟩ := h
      refine ⟨hnodup, fun p hp he => hnew ?_⟩
      have he : p = (stamp t, 0) := List.mem_singleton.mp he
      rw [he] at hp
      exact hp
    · intro h
      obtain ⟨hnodup, hnew⟩ := h
      exact ⟨fun hp => hnew _ hp List.mem_cons_self, hnodup⟩

/-- The clock stands still, advances, and then is set back to a millisecond not seen before. -/
theorem unique_ids_advancing : ∃ ids, MyUtility.init.generateIds 1 2
    [[epoch + 5], [epoch + 5], [epoch + 6], [epoch + 1]] = some ids ∧ ids.Nodup := by
  have hrun : ∃ ids, MyUtility.init.generateIds 1 2
    [[epoch + 5], [epoch + 5], [epoch + 6], [epoch + 1]] = some ids := ⟨_, rfl⟩
  obtain ⟨ids, hids⟩ := hrun
  exact ⟨ids, hids, (unique_ids 1 2 _ ids hids (by decide)).mpr (by decide)⟩

/-- The clock steps back and comes again to the millisecond in which it was. -/
theorem id_repeated : ∃ ids, MyUtility.init.generateIds 1 2
    [[epoch + 5], [epoch + 4], [epoch + 5]] = some ids ∧ ¬ ids.Nodup := by
  have hrun : ∃ a b, MyUtility.init.generateIds 1 2
    [[epoch + 5], [epoch + 4], [epoch + 5]] = some [a, b, a] := ⟨_, _, rfl⟩
  obtain ⟨a, b, hids⟩ := hrun
  refine ⟨[a, b, a], hids, fun h => ?_⟩
  exact (List.nodup_cons.mp h).1 (List.mem_cons_of_mem _ List.mem_cons_self)

end Cxx.Chat
