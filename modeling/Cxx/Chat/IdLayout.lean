import Cxx.Chat.MyUtility
import Cxx.Core.LTS

/-!
# The layout of an id

What the number under an id tells, and how the numbers of one node and of two
nodes compare, include/chat/MyUtility.hpp:14-58.

* `fields`: the parts of a number, by the shifts and masks of the class.
  `fields_uniqueId`: they are what the number was built from.
* `node`: a process that goes on calling `generateUniqueId` for one node.
* `id_order`: while the clock does not go back the numbers of a node grow, every
  number determines its parts, and two nodes have no number in common.
-/
namespace Cxx.Chat

structure Fields where
  offset : Nat
  dataCenterId : Nat
  machineId : Nat
  sequence : Nat
  deriving DecidableEq, Repr

def fields (id : Nat) : Fields where
  offset := id >>> timestampLeftShift
  dataCenterId := (id >>> dataCenterIdShift) &&& maxDataCenterId
  machineId := (id >>> machineIdShift) &&& maxMachineId
  sequence := id &&& sequenceMask

/-- The millisecond of the reading fits its field. -/
def InRange (timestamp : Nat) : Prop := epoch ≤ timestamp ∧ timestamp ≤ epoch + 2 ^ 42 - 1

instance (timestamp : Nat) : Decidable (InRange timestamp) := inferInstanceAs (Decidable (_ ∧ _))

/-- A node. A step is a call, with the readings that it takes and the number
whose digits it returns. -/
def node (dataCenterId machineId : Nat) : LTS MyUtility (List Nat × Nat) where
  init s := s = .init
  step s l s' := s.generateUniqueId dataCenterId machineId l.1 = .returns (Nat.repr l.2) s' []

/-! ## The parts of a number -/

theorem stamp_of_range {timestamp : Nat} (h : InRange timestamp) :
    stamp timestamp = timestamp - epoch := by
  obtain ⟨hle, hge⟩ := h
  unfold epoch at hle hge
  unfold stamp epoch
  omega

theorem fields_pack {offset dataCenterId machineId sequence : Nat}
    (hd : dataCenterId ≤ maxDataCenterId) (hm : machineId ≤ maxMachineId)
    (hs : sequence ≤ sequenceMask) : fields (pack dataCenterId machineId (offset, sequence)) =
      ⟨offset, dataCenterId, machineId, sequence⟩ := by
  have hd : dataCenterId ≤ 31 := hd
  have hm : machineId ≤ 31 := hm
  have hs : sequence ≤ 4095 := hs
  have mask5 : ∀ x : Nat, x &&& 31 = x % 32 := fun x => Nat.and_two_pow_sub_one_eq_mod x 5
  have mask12 : ∀ x : Nat, x &&& 4095 = x % 4096 := fun x => Nat.and_two_pow_sub_one_eq_mod x 12
  unfold fields pack maxDataCenterId maxMachineId sequenceMask timestampLeftShift
    dataCenterIdShift machineIdShift
  rw [mask5, mask5, mask12, Nat.shiftRight_eq_div_pow, Nat.shiftRight_eq_div_pow,
    Nat.shiftRight_eq_div_pow, Fields.mk.injEq]
  refine ⟨?_, ?_, ?_, ?_⟩ <;> omega

/-- Shifting and masking undo the or of the fields. -/
theorem fields_uniqueId {timestamp dataCenterId machineId sequence : Nat}
    (hd : dataCenterId ≤ maxDataCenterId) (hm : machineId ≤ maxMachineId)
    (hs : sequence ≤ sequenceMask) : fields (uniqueId timestamp dataCenterId machineId sequence) =
      ⟨stamp timestamp, dataCenterId, machineId, sequence⟩ := by
  rw [uniqueId_eq hd hm hs, fields_pack hd hm hs]

/-- The millisecond comes first, the sequence number counts within it. -/
theorem pack_lt {dataCenterId machineId t u q r : Nat} (hq : q ≤ sequenceMask)
    (h : t < u ∨ t = u ∧ q < r) :
    pack dataCenterId machineId (t, q) < pack dataCenterId machineId (u, r) := by
  unfold sequenceMask at hq
  unfold pack
  omega

/-! ## The calls of a node -/

section
variable {dataCenterId machineId : Nat}

/-- What a step of a node does to its state, and the number it gives. -/
theorem node_step {s s' : MyUtility} {l : List Nat × Nat} (hseq : s.sequence ≤ sequenceMask)
    (h : (node dataCenterId machineId).step s l s') :
    dataCenterId ≤ maxDataCenterId ∧ machineId ≤ maxMachineId ∧
      l.1.getLast? = some s'.lastTimestamp ∧
      s'.sequence = (if s'.lastTimestamp = s.lastTimestamp then s.sequence + 1 else 0) ∧
      s'.sequence ≤ sequenceMask ∧
      l.2 = uniqueId s'.lastTimestamp dataCenterId machineId s'.sequence := by
  obtain ⟨hd, hm, hlast, hn, hmask, hid⟩ := generateUniqueId_spec hseq h
  exact ⟨hd, hm, hlast, hn, hmask, repr_injective hid⟩

theorem node_sequence_le :
    (node dataCenterId machineId).Inductive fun s => s.sequence ≤ sequenceMask where
  init := fun s h => by
    have h : s = .init := h
    rw [h]
    exact Nat.zero_le _
  step := fun s l s' hseq h => (node_step hseq h).2.2.2.2.1

/-- The number of a step has the node in its fields, whatever the clock says. -/
theorem fields_of_step {s s' : MyUtility} {l : List Nat × Nat} (hseq : s.sequence ≤ sequenceMask)
    (h : (node dataCenterId machineId).step s l s') :
    fields l.2 = ⟨stamp s'.lastTimestamp, dataCenterId, machineId, s'.sequence⟩ := by
  obtain ⟨hd, hm, -, -, hmask, hid⟩ := node_step hseq h
  rw [hid, fields_uniqueId hd hm hmask]

theorem fields_of_run {s s' : MyUtility} {ls : List (List Nat × Nat)}
    (hseq : s.sequence ≤ sequenceMask) (r : (node dataCenterId machineId).Run s ls s') :
    ∀ n ∈ ls.map Prod.snd,
      (fields n).dataCenterId = dataCenterId ∧ (fields n).machineId = machineId := by
  induction r with
  | nil => exact List.forall_mem_nil _
  | cons h _ ih =>
    have hfields := fields_of_step hseq h
    refine List.forall_mem_cons.mpr ⟨?_, ih (node_sequence_le.step _ _ _ hseq h)⟩
    rw [hfields]
    exact ⟨rfl, rfl⟩

/-- The pair `(lastTimestamp, sequence)` grows with every call, so the numbers of
a run are above that of the state it starts in. -/
theorem numbers_increase {s s' : MyUtility} {ls : List (List Nat × Nat)}
    (hseq : s.sequence ≤ sequenceMask) (r : (node dataCenterId machineId).Run s ls s')
    (hclock : (s.lastTimestamp :: ls.flatMap Prod.fst).Pairwise (· ≤ ·))
    (hrange : ∀ t ∈ ls.flatMap Prod.fst, InRange t) :
    (ls.map Prod.snd).Pairwise (· < ·) ∧
      ∀ n ∈ ls.map Prod.snd, ∃ t q, InRange t ∧
        n = pack dataCenterId machineId (t - epoch, q) ∧
        (s.lastTimestamp < t ∨ s.lastTimestamp = t ∧ s.sequence < q) := by
  induction r with
  | nil => exact ⟨.nil, List.forall_mem_nil _⟩
  | @cons s s' _ l ls h _ ih =>
    obtain ⟨hd, hm, hlast, hn, hmask, hid⟩ := node_step hseq h
    have hmem : s'.lastTimestamp ∈ l.1 := List.mem_of_getLast? hlast
    rw [List.flatMap_cons] at hclock hrange
    have hin : InRange s'.lastTimestamp := hrange _ (List.mem_append_left _ hmem)
    have hid : l.2 = pack dataCenterId machineId (s'.lastTimestamp - epoch, s'.sequence) := by
      rw [hid, uniqueId_eq hd hm hmask, stamp_of_range hin]
    obtain ⟨hbefore, hreadings⟩ := List.pairwise_cons.mp hclock
    have hle : s.lastTimestamp ≤ s'.lastTimestamp := hbefore _ (List.mem_append_left _ hmem)
    have hstep : s.lastTimestamp < s'.lastTimestamp ∨
        s.lastTimestamp = s'.lastTimestamp ∧ s.sequence < s'.sequence := by
      by_cases he : s'.lastTimestamp = s.lastTimestamp
      · rw [if_pos he] at hn
        exact .inr ⟨he.symm, by omega⟩
      · exact .inl (by omega)
    have hclock' : (s'.lastTimestamp :: ls.flatMap Prod.fst).Pairwise (· ≤ ·) := by
      obtain ⟨-, hrest, hcross⟩ := List.pairwise_append.mp hreadings
      exact List.pairwise_cons.mpr ⟨fun t ht => hcross _ hmem t ht, hrest⟩
    obtain ⟨hgrow, habove⟩ :=
      ih hmask hclock' fun t ht => hrange t (List.mem_append_right _ ht)
    rw [List.map_cons]
    constructor
    · refine List.pairwise_cons.mpr ⟨fun n hmem => ?_, hgrow⟩
      obtain ⟨t, q, ht, rfl, hlater⟩ := habove n hmem
      obtain ⟨hge, -⟩ := hin
      obtain ⟨hge', -⟩ := ht
      rw [hid]
      exact pack_lt hmask (by omega)
    · refine List.forall_mem_cons.mpr ⟨⟨_, _, hin, hid, hstep⟩, fun n hmem => ?_⟩
      obtain ⟨t, q, ht, hn, hlater⟩ := habove n hmem
      exact ⟨t, q, ht, hn, by omega⟩

end

/-- **Layout and order of the ids.** (1) While the readings of a node do not
decrease and are in range, its numbers are strictly increasing. (2) In every
state that calls can lead to, the shifts and masks give back what the number of the next
call was built from; the millisecond for a reading in range, the rest for any
reading. (3) Numbers of different nodes are different, whatever their clocks
and histories are. -/
theorem id_order (dataCenterId machineId : Nat) :
    (∀ s ls, (node dataCenterId machineId).Run .init ls s →
      (ls.flatMap Prod.fst).Pairwise (· ≤ ·) → (∀ t ∈ ls.flatMap Prod.fst, InRange t) →
      (ls.map Prod.snd).Pairwise (· < ·)) ∧
    (∀ s readings n s', (node dataCenterId machineId).Reachable s →
      (node dataCenterId machineId).step s (readings, n) s' →
      n = uniqueId s'.lastTimestamp dataCenterId machineId s'.sequence ∧
      readings.getLast? = some s'.lastTimestamp ∧
      (fields n).dataCenterId = dataCenterId ∧ (fields n).machineId = machineId ∧
      (fields n).sequence = s'.sequence ∧
      (InRange s'.lastTimestamp → epoch + (fields n).offset = s'.lastTimestamp)) ∧
    ∀ dataCenterId' machineId', (dataCenterId, machineId) ≠ (dataCenterId', machineId') →
      ∀ s ls s' ls', (node dataCenterId machineId).Run .init ls s →
        (node dataCenterId' machineId').Run .init ls' s' →
        List.Disjoint (ls.map Prod.snd) (ls'.map Prod.snd) := by
  refine ⟨fun s ls r hclock hrange => ?_, fun s readings n s' hr h => ?_,
    fun dataCenterId' machineId' hne s ls s' ls' r r' n hn hn' => hne ?_⟩
  · have hstart : (MyUtility.init.lastTimestamp :: ls.flatMap Prod.fst).Pairwise (· ≤ ·) :=
      List.pairwise_cons.mpr ⟨fun t _ => Nat.zero_le t, hclock⟩
    exact (numbers_increase (Nat.zero_le _) r hstart hrange).1
  · have hseq := node_sequence_le.reachable s hr
    obtain ⟨-, -, hlast, -, -, hid⟩ := node_step hseq h
    have hfields := fields_of_step hseq h
    rw [hfields]
    refine ⟨hid, hlast, rfl, rfl, rfl, fun hin => ?_⟩
    have hge := hin.1
    change epoch + stamp s'.lastTimestamp = s'.lastTimestamp
    rw [stamp_of_range hin]
    omega
  · obtain ⟨hd, hm⟩ := fields_of_run (Nat.zero_le _) r n hn
    obtain ⟨hd', hm'⟩ := fields_of_run (Nat.zero_le _) r' n hn'
    exact Prod.ext (hd.symm.trans hd') (hm.symm.trans hm')

/-- Two calls in one millisecond, one in the next, and a call of another node. -/
theorem id_order_two_nodes : ∃ ls s n s',
    (node 1 2).Run .init ls s ∧ ls.length = 3 ∧ (ls.map Prod.snd).Pairwise (· < ·) ∧
    (node 2 1).Run .init [([epoch + 5], n)] s' ∧ epoch + (fields n).offset = epoch + 5 ∧
    List.Disjoint (ls.map Prod.snd) [n] := by
  have r : (node 1 2).Run .init [([epoch + 5], uniqueId (epoch + 5) 1 2 0),
      ([epoch + 5], uniqueId (epoch + 5) 1 2 1), ([epoch + 6], uniqueId (epoch + 6) 1 2 0)]
      ⟨0, epoch + 6⟩ :=
    .cons rfl (.cons rfl (.cons rfl (.nil _)))
  have h : (node 2 1).step .init ([epoch + 5], uniqueId (epoch + 5) 2 1 0) ⟨0, epoch + 5⟩ := rfl
  have r' := LTS.Run.cons h (.nil _)
  obtain ⟨hgrow, -, hdisjoint⟩ := id_order 1 2
  obtain ⟨-, hfields, -⟩ := id_order 2 1
  obtain ⟨-, -, -, -, -, hoffset⟩ := hfields _ _ _ _ ⟨_, [], rfl, .nil _⟩ h
  exact ⟨_, _, _, _, r, rfl, hgrow _ _ r (by decide) (by decide), r', hoffset (by decide),
    hdisjoint 2 1 (by decide) _ _ _ _ r r'⟩

end Cxx.Chat
