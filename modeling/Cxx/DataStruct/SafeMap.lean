import Mathlib.Data.List.Nodup
import Mathlib.Logic.Function.Basic
import Cxx.Core.Object

/-!
# `SafeMap`

Model of the data of include/data_struct/SafeMap.hpp, for any hash function and
any number of buckets. An iterator into a bucket is an index; a `std::map` is
the partial function it stands for.

* `BucketType`: each operation, on the list of a bucket.
* `Represents`: when the buckets hold the bindings of an abstract map, each
  key at most once and in the bucket of its hash.
* `safeMap_refines`: calls one after another answer as those on a finite map.
-/
namespace Cxx

namespace SafeMap

variable {Key Value : Type} [DecidableEq Key]

/-! ## One bucket -/

abbrev BucketData (Key Value : Type) := List (Key × Value)

/-- mirrors include/data_struct/SafeMap.hpp:45-49 -/
def findEntryFor (data : BucketData Key Value) (key : Key) : Option Nat :=
  data.findIdx? fun item => decide (item.1 = key)

namespace BucketType

/-- mirrors include/data_struct/SafeMap.hpp:18-22 -/
def valueFor (data : BucketData Key Value) (key : Key) (defaultValue : Value) : Value :=
  match (findEntryFor data key).bind fun item => data[item]? with
  | none => defaultValue
  | some item => item.2

/-- mirrors include/data_struct/SafeMap.hpp:23-30 -/
def addOrUpdateFor (data : BucketData Key Value) (key : Key) (value : Value) :
    BucketData Key Value :=
  match findEntryFor data key with
  | none => data ++ [(key, value)]
  | some item => data.modify item fun entry => (entry.1, value)

/-- mirrors include/data_struct/SafeMap.hpp:31-36 -/
def romoveFor (data : BucketData Key Value) (key : Key) : BucketData Key Value :=
  match findEntryFor data key with
  | none => data
  | some item => data.eraseIdx item

end BucketType

section
variable {data : BucketData Key Value} {key k : Key} {value v : Value} {item : Key × Value}

theorem findEntryFor_cons : findEntryFor (item :: data) key =
    if item.1 = key then some 0 else (findEntryFor data key).map (· + 1) := by
  unfold findEntryFor
  rw [List.findIdx?_cons]
  by_cases h : item.1 = key <;> simp [h]

theorem lookup_cons : List.lookup key (item :: data) =
    if item.1 = key then some item.2 else List.lookup key data := by
  by_cases h : item.1 = key
  · rw [if_pos h, ← h]
    exact List.lookup_cons_self
  · have hne : (key == item.1) = false := beq_eq_false_iff_ne.mpr fun he => h he.symm
    obtain ⟨k, v⟩ := item
    rw [if_neg h, List.lookup_cons, hne]

theorem valueFor_eq (default : Value) :
    BucketType.valueFor data key default = (data.lookup key).getD default := by
  induction data with
  | nil => rfl
  | cons item data ih =>
    unfold BucketType.valueFor at ih ⊢
    rw [findEntryFor_cons, lookup_cons]
    by_cases h : item.1 = key
    · rw [if_pos h, if_pos h]; rfl
    · rw [if_neg h, if_neg h, ← ih]
      cases findEntryFor data key <;> rfl

theorem addOrUpdateFor_cons : BucketType.addOrUpdateFor (item :: data) key value =
    if item.1 = key then (item.1, value) :: data
    else item :: BucketType.addOrUpdateFor data key value := by
  unfold BucketType.addOrUpdateFor
  rw [findEntryFor_cons]
  by_cases h : item.1 = key
  · rw [if_pos h, if_pos h]; rfl
  · rw [if_neg h, if_neg h]
    cases findEntryFor data key <;> rfl

theorem romoveFor_cons : BucketType.romoveFor (item :: data) key =
    if item.1 = key then data else item :: BucketType.romoveFor data key := by
  unfold BucketType.romoveFor
  rw [findEntryFor_cons]
  by_cases h : item.1 = key
  · rw [if_pos h, if_pos h]; rfl
  · rw [if_neg h, if_neg h]
    cases findEntryFor data key <;> rfl

/-! ### What the operations do to the bindings of a bucket -/

theorem lookup_addOrUpdateFor : (BucketType.addOrUpdateFor data key value).lookup k =
    if k = key then some value else data.lookup k := by
  induction data with
  | nil =>
    change List.lookup k [(key, value)] = _
    rw [lookup_cons]
    by_cases h : k = key
    · rw [if_pos h, if_pos h.symm]
    · rw [if_neg h, if_neg fun he => h he.symm]
  | cons item data ih =>
    rw [addOrUpdateFor_cons, lookup_cons]
    by_cases hkey : item.1 = key
    · rw [if_pos hkey, lookup_cons, hkey]
      by_cases h : k = key
      · rw [if_pos h.symm, if_pos h]
      · rw [if_neg fun he => h he.symm, if_neg h, if_neg fun he => h he.symm]
    · rw [if_neg hkey, lookup_cons, ih]
      by_cases hk : item.1 = k
      · rw [if_pos hk, if_neg (by rw [← hk]; exact hkey), if_pos hk]
      · rw [if_neg hk, if_neg hk]

theorem keys_addOrUpdateFor : (BucketType.addOrUpdateFor data key value).map Prod.fst =
    if key ∈ data.map Prod.fst then data.map Prod.fst else data.map Prod.fst ++ [key] := by
  induction data with
  | nil => rfl
  | cons item data ih =>
    rw [addOrUpdateFor_cons, List.map_cons]
    by_cases hkey : item.1 = key
    · rw [if_pos hkey, if_pos (by rw [hkey]; exact List.mem_cons_self), List.map_cons]
    · rw [if_neg hkey, List.map_cons, ih]
      by_cases hm : key ∈ data.map Prod.fst
      · rw [if_pos hm, if_pos (List.mem_cons_of_mem _ hm)]
      · have hm' : key ∉ item.1 :: data.map Prod.fst := by
          intro he
          rcases List.mem_cons.mp he with he | he
          · exact hkey he.symm
          · exact hm he
        rw [if_neg hm, if_neg hm']; rfl

theorem romoveFor_sublist : (BucketType.romoveFor data key).Sublist data := by
  unfold BucketType.romoveFor
  cases findEntryFor data key with
  | none => exact List.Sublist.refl _
  | some item => exact List.eraseIdx_sublist _ _

theorem lookup_eq_none (h : key ∉ data.map Prod.fst) : data.lookup key = none := by
  induction data with
  | nil => rfl
  | cons item data ih =>
    rw [List.map_cons, List.mem_cons, not_or] at h
    rw [lookup_cons, if_neg fun he => h.1 he.symm]
    exact ih h.2

theorem lookup_romoveFor (hkeys : (data.map Prod.fst).Nodup) :
    (BucketType.romoveFor data key).lookup k = if k = key then none else data.lookup k := by
  induction data with
  | nil => exact (ite_self _).symm
  | cons item data ih =>
    rw [List.map_cons, List.nodup_cons] at hkeys
    rw [romoveFor_cons, lookup_cons]
    by_cases hkey : item.1 = key
    · rw [if_pos hkey]
      by_cases h : k = key
      · -- the only entry of the key is gone
        rw [hkey] at hkeys
        rw [if_pos h, h]
        exact lookup_eq_none hkeys.1
      · rw [if_neg h, if_neg (by rw [hkey]; exact fun he => h he.symm)]
    · rw [if_neg hkey, lookup_cons, ih hkeys.2]
      by_cases hk : item.1 = k
      · rw [if_pos hk, if_neg (by rw [← hk]; exact hkey), if_pos hk]
      · rw [if_neg hk, if_neg hk]

end

/-! ## All buckets -/

end SafeMap

/-- The bucket `i` of `buckets_` is `buckets i`, for `i < numBuckets`. -/
structure SafeMap (Key Value : Type) where
  numBuckets : Nat
  hasher : Key → Nat
  buckets : Nat → SafeMap.BucketData Key Value

namespace SafeMap

variable {Key Value : Type}

def new (numBuckets : Nat) (hasher : Key → Nat) : SafeMap Key Value :=
  ⟨numBuckets, hasher, fun _ => []⟩

/-- mirrors include/data_struct/SafeMap.hpp:84-87 -/
def getBucket (m : SafeMap Key Value) (key : Key) : Nat := m.hasher key % m.numBuckets

def update (m : SafeMap Key Value) (key : Key)
    (f : BucketData Key Value → BucketData Key Value) : SafeMap Key Value :=
  { m with
    buckets := Function.update m.buckets (m.getBucket key) (f (m.buckets (m.getBucket key))) }

section
variable [DecidableEq Key]

/-- mirrors include/data_struct/SafeMap.hpp:60-68 -/
def valueFor (m : SafeMap Key Value) (key : Key) (defaultValue : Value) : Value :=
  BucketType.valueFor (m.buckets (m.getBucket key)) key defaultValue

def addOrUpdateFor (m : SafeMap Key Value) (key : Key) (value : Value) : SafeMap Key Value :=
  m.update key fun data => BucketType.addOrUpdateFor data key value

def removeFor (m : SafeMap Key Value) (key : Key) : SafeMap Key Value :=
  m.update key fun data => BucketType.romoveFor data key

/-- `std::map::insert`, which keeps an entry that is there. -/
def insert (res : Key → Option Value) (item : Key × Value) : Key → Option Value :=
  match res item.1 with
  | some _ => res
  | none => Function.update res item.1 (some item.2)

/-- The inner loop of `getMap`, include/data_struct/SafeMap.hpp:74-77. -/
def copyBucket (res : Key → Option Value) (data : BucketData Key Value) : Key → Option Value :=
  data.foldl insert res

/-- mirrors include/data_struct/SafeMap.hpp:69-79 -/
def getMap (m : SafeMap Key Value) : Key → Option Value :=
  (List.range m.numBuckets).foldl (fun res i => copyBucket res (m.buckets i)) fun _ => none

end

/-- What the copy of the first `i` buckets is. -/
def Copied (m : SafeMap Key Value) (bindings res : Key → Option Value) (i : Nat) : Prop :=
  ∀ key, res key = if m.getBucket key < i then bindings key else none

variable {m : SafeMap Key Value} {bindings : Key → Option Value} {key : Key} {value : Value}

theorem Copied.all {res : Key → Option Value} (hn : 0 < m.numBuckets)
    (h : m.Copied bindings res m.numBuckets) : res = bindings := by
  funext key
  have hlt : m.getBucket key < m.numBuckets := Nat.mod_lt _ hn
  rw [h key, if_pos hlt]

section
variable [DecidableEq Key]

/-- The buckets hold the bindings of an abstract map. -/
structure Represents (m : SafeMap Key Value) (bindings : Key → Option Value) : Prop where
  keys : ∀ i, ((m.buckets i).map Prod.fst).Nodup
  placed : ∀ i, ∀ key ∈ (m.buckets i).map Prod.fst, m.getBucket key = i
  lookup : ∀ key, (m.buckets (m.getBucket key)).lookup key = bindings key

theorem represents_new (numBuckets : Nat) (hasher : Key → Nat) :
    (new numBuckets hasher : SafeMap Key Value).Represents fun _ => none where
  keys := fun _ => List.nodup_nil
  placed := fun _ _ h => by cases h
  lookup := fun _ => rfl

theorem Represents.valueFor_eq (h : m.Represents bindings) (default : Value) :
    m.valueFor key default = (bindings key).getD default := by
  unfold valueFor
  rw [SafeMap.valueFor_eq, h.lookup]

/-- An operation on the bucket of `key` that changes what is bound to `key` only. -/
theorem Represents.update (h : m.Represents bindings)
    {f : BucketData Key Value → BucketData Key Value} {v : Option Value}
    (hkeys : ((f (m.buckets (m.getBucket key))).map Prod.fst).Nodup)
    (hmem : ∀ k ∈ (f (m.buckets (m.getBucket key))).map Prod.fst,
      k = key ∨ k ∈ (m.buckets (m.getBucket key)).map Prod.fst)
    (hlookup : ∀ k, (f (m.buckets (m.getBucket key))).lookup k =
      if k = key then v else (m.buckets (m.getBucket key)).lookup k) :
    (m.update key f).Represents (Function.update bindings key v) where
  keys := by
    intro i
    by_cases hi : i = m.getBucket key
    · subst hi
      change ((Function.update m.buckets _ _ _).map Prod.fst).Nodup
      rw [Function.update_self]
      exact hkeys
    · change ((Function.update m.buckets _ _ _).map Prod.fst).Nodup
      rw [Function.update_of_ne hi]
      exact h.keys i
  placed := by
    intro i k hk
    change k ∈ (Function.update m.buckets _ _ _).map Prod.fst at hk
    by_cases hi : i = m.getBucket key
    · subst hi
      rw [Function.update_self] at hk
      rcases hmem k hk with he | hk
      · rw [he]; rfl
      · exact h.placed _ k hk
    · rw [Function.update_of_ne hi] at hk
      exact h.placed i k hk
  lookup := by
    intro k
    change (Function.update m.buckets _ _ (m.getBucket k)).lookup k = _
    by_cases hi : m.getBucket k = m.getBucket key
    · rw [hi, Function.update_self, hlookup]
      by_cases hk : k = key
      · rw [if_pos hk, hk, Function.update_self]
      · rw [if_neg hk, Function.update_of_ne hk, ← hi, h.lookup]
    · have hk : k ≠ key := fun he => hi (by rw [he])
      rw [Function.update_of_ne hi, Function.update_of_ne hk, h.lookup]

theorem Represents.addOrUpdateFor (h : m.Represents bindings) :
    (m.addOrUpdateFor key value).Represents (Function.update bindings key (some value)) := by
  apply h.update
  · rw [keys_addOrUpdateFor]
    by_cases hm : key ∈ (m.buckets (m.getBucket key)).map Prod.fst
    · rw [if_pos hm]; exact h.keys _
    · rw [if_neg hm]
      refine List.nodup_append.mpr ⟨h.keys _, List.nodup_singleton key, ?_⟩
      intro k hk k' hk' he
      have hk' : k' = key := List.mem_singleton.mp hk'
      subst hk' he
      exact hm hk
  · intro k hk
    rw [keys_addOrUpdateFor] at hk
    by_cases hm : key ∈ (m.buckets (m.getBucket key)).map Prod.fst
    · rw [if_pos hm] at hk; exact .inr hk
    · rw [if_neg hm] at hk
      rcases List.mem_append.mp hk with hk | hk
      · exact .inr hk
      · exact .inl (List.mem_singleton.mp hk)
  · exact fun k => lookup_addOrUpdateFor

theorem Represents.removeFor (h : m.Represents bindings) :
    (m.removeFor key).Represents (Function.update bindings key none) := by
  apply h.update
  · exact (h.keys _).sublist (romoveFor_sublist.map Prod.fst)
  · exact fun k hk => .inr ((romoveFor_sublist.map Prod.fst).subset hk)
  · exact fun k => lookup_romoveFor (h.keys _)

theorem insert_eq (res : Key → Option Value) (item : Key × Value) :
    insert res item key = (res key).or (if item.1 = key then some item.2 else none) := by
  unfold insert
  by_cases hk : item.1 = key
  · subst hk
    rw [if_pos rfl]
    cases hres : res item.1 with
    | some v => dsimp only; rw [hres]; rfl
    | none => exact Function.update_self _ _ _
  · rw [if_neg hk, Option.or_none]
    cases hres : res item.1 with
    | some v => rfl
    | none => exact Function.update_of_ne (fun he => hk he.symm) _ _

/-- A copied bucket binds its keys that are not bound already. -/
theorem copyBucket_eq {data : BucketData Key Value} : ∀ {res : Key → Option Value},
    copyBucket res data key = (res key).or (data.lookup key) := by
  induction data with
  | nil => intro res; exact (Option.or_none).symm
  | cons item data ih =>
    intro res
    change copyBucket (insert res item) data key = _
    rw [ih, lookup_cons, insert_eq, Option.or_assoc]
    by_cases hk : item.1 = key
    · rw [if_pos hk, if_pos hk]; rfl
    · rw [if_neg hk, if_neg hk, Option.none_or]

theorem Represents.copy (h : m.Represents bindings) {res : Key → Option Value} {i : Nat}
    (hres : m.Copied bindings res i) :
    m.Copied bindings (copyBucket res (m.buckets i)) (i + 1) := by
  intro key
  rw [copyBucket_eq, hres key]
  by_cases hlt : m.getBucket key < i
  · have hne : key ∉ (m.buckets i).map Prod.fst := by
      intro hm
      have := h.placed i key hm
      omega
    rw [if_pos hlt, if_pos (by omega), lookup_eq_none hne, Option.or_none]
  · rw [if_neg hlt, Option.none_or]
    by_cases heq : m.getBucket key = i
    · rw [if_pos (by omega), ← heq, h.lookup]
    · rw [if_neg (by omega)]
      exact lookup_eq_none fun hm => heq (h.placed i key hm)

theorem Represents.getMap (h : m.Represents bindings) (hn : 0 < m.numBuckets) :
    m.getMap = bindings := by
  have copied : ∀ n, m.Copied bindings ((List.range n).foldl
      (fun res i => copyBucket res (m.buckets i)) fun _ => none) n := by
    intro n
    induction n with
    | zero => exact fun key => (if_neg (Nat.not_lt_zero _)).symm
    | succ n ih =>
      rw [List.range_succ, List.foldl_append]
      exact h.copy ih
  exact (copied m.numBuckets).all hn

/-- In the whole structure a key occurs once at most. -/
theorem Represents.nodup (h : m.Represents bindings) (n : Nat) :
    ((List.range n).flatMap fun i => (m.buckets i).map Prod.fst).Nodup := by
  rw [List.nodup_flatMap]
  refine ⟨fun i _ => h.keys i, List.nodup_range.imp ?_⟩
  intro i j hij key hi hj
  exact hij ((h.placed i key hi).symm.trans (h.placed j key hj))

end

/-! ## Sequences of calls -/

inductive Call (Key Value : Type) where
  | addOrUpdateFor (key : Key) (value : Value)
  | removeFor (key : Key)
  | valueFor (key : Key) (defaultValue : Value)
  | getMap

inductive Answer (Key Value : Type) where
  | done
  | value (v : Value)
  | map (res : Key → Option Value)

section
variable [DecidableEq Key]

def call (m : SafeMap Key Value) : Call Key Value → Answer Key Value × SafeMap Key Value
  | .addOrUpdateFor key value => (.done, m.addOrUpdateFor key value)
  | .removeFor key => (.done, m.removeFor key)
  | .valueFor key default => (.value (m.valueFor key default), m)
  | .getMap => (.map m.getMap, m)

/-- The calls on a finite map. -/
def onMap (bindings : Key → Option Value) :
    Call Key Value → Answer Key Value × (Key → Option Value)
  | .addOrUpdateFor key value => (.done, Function.update bindings key (some value))
  | .removeFor key => (.done, Function.update bindings key none)
  | .valueFor key default => (.value ((bindings key).getD default), bindings)
  | .getMap => (.map bindings, bindings)

/-- The buckets are those of a finite map, and their number and the hash function stay. -/
structure Implements (numBuckets : Nat) (hasher : Key → Nat) (m : SafeMap Key Value)
    (bindings : Key → Option Value) : Prop where
  numBuckets : m.numBuckets = numBuckets
  hasher : m.hasher = hasher
  represents : m.Represents bindings

theorem Implements.call {numBuckets : Nat} {hasher : Key → Nat}
    (h : m.Implements numBuckets hasher bindings) (hn : 0 < numBuckets) (op : Call Key Value) :
    (m.call op).1 = (onMap bindings op).1 ∧
      (m.call op).2.Implements numBuckets hasher (onMap bindings op).2 := by
  obtain ⟨hsize, hhash, hrep⟩ := h
  cases op with
  | addOrUpdateFor key value => exact ⟨rfl, hsize, hhash, hrep.addOrUpdateFor⟩
  | removeFor key => exact ⟨rfl, hsize, hhash, hrep.removeFor⟩
  | valueFor key default =>
    exact ⟨congrArg Answer.value (hrep.valueFor_eq default), hsize, hhash, hrep⟩
  | getMap => exact ⟨congrArg Answer.map (hrep.getMap (hsize ▸ hn)), hsize, hhash, hrep⟩

/-- **`SafeMap` is a finite map.** Any sequence of calls on a fresh one is
answered as on a finite map; after it each key occurs once at most in the whole
structure, and only in the bucket of its hash. -/
theorem safeMap_refines (numBuckets : Nat) (hn : 0 < numBuckets) (hasher : Key → Nat)
    (ops : List (Call Key Value)) :
    Object.results call (.new numBuckets hasher) ops =
        Object.results onMap (fun _ => none) ops ∧
      ((List.range numBuckets).flatMap fun i =>
        ((Object.final call (.new numBuckets hasher) ops).buckets i).map Prod.fst).Nodup ∧
      ∀ i, ∀ key ∈ ((Object.final call (.new numBuckets hasher) ops).buckets i).map Prod.fst,
        hasher key % numBuckets = i := by
  have hnew : (new numBuckets hasher : SafeMap Key Value).Implements numBuckets hasher
    fun _ => none := ⟨rfl, rfl, represents_new numBuckets hasher⟩
  obtain ⟨hresults, hsize, hhash, hrep⟩ :=
    Object.results_congr (R := Implements numBuckets hasher) (fun _ _ op h => h.call hn op) ops hnew
  refine ⟨hresults, hrep.nodup numBuckets, fun i key hkey => ?_⟩
  rw [← hrep.placed i key hkey, getBucket, hsize, hhash]

/-- Two keys in one bucket, of which one is updated and one removed. -/
theorem safeMap_refines_collision :
    Object.results call (.new 2 id : SafeMap Nat Nat) [.addOrUpdateFor 4 40, .addOrUpdateFor 6 60,
      .addOrUpdateFor 4 41, .removeFor 6, .valueFor 4 0, .valueFor 6 0] =
        [.done, .done, .done, .done, .value 41, .value 0] :=
  (safeMap_refines 2 (by decide) id _).1.trans rfl

end

end SafeMap

end Cxx
