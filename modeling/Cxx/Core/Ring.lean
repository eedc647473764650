import Mathlib.Data.Nat.ModEq
import Mathlib.Logic.Function.Basic

/-!
# Rings

Positions `k` that only grow, kept in slots `k % m`. As long as the positions
in use lie in a window of `m` they have slots of their own.

* `Ring.inj`, `Ring.gap`: the slots of a window, and the distance of two.
* `Filled slots m f lo hi`: the positions from `lo` to `hi` hold what `f` says.
* `Holds slots m head tail vs`: from the slot `head` to the slot `tail` the
  ring holds the list `vs`, with a slot to spare; `Holds.push`, `Holds.pop`.
-/
namespace Cxx.Ring

variable {m lo hi a b k : Nat}

/-- Positions of one window with the same slot are the same. -/
theorem inj (ha : lo ≤ a) (ha' : a < lo + m) (hb : lo ≤ b) (hb' : b < lo + m)
    (h : a % m = b % m) : a = b := by
  have close : ∀ {c d : Nat}, lo ≤ c → d < lo + m → c ≤ d → c % m = d % m → c = d := by
    intro c d hc hd hcd he
    have hdvd : m ∣ d - c := (Nat.modEq_iff_dvd' hcd).mp he
    have hzero : d - c = 0 := Nat.eq_zero_of_dvd_of_lt hdvd (by omega)
    omega
  rcases Nat.le_total a b with hab | hab
  · exact close ha hb' hab h
  · exact (close hb ha' hab h.symm).symm

/-- The number of slots from one position of a window to another. -/
theorem gap (hle : a ≤ b) (hlt : b < a + m) : (b % m + m - a % m) % m = b - a := by
  have hm : 0 < m := by omega
  have hr : a % m < m := Nat.mod_lt a hm
  have hb : b % m = (a % m + (b - a)) % m := by
    rw [Nat.mod_add_mod, Nat.add_sub_cancel' hle]
  have hd : b - a < m := by omega
  rw [hb]
  generalize a % m = r at hr
  generalize b - a = d at hd
  by_cases hwrap : r + d < m
  · have hsum : (r + d) % m + m - r = d + m := by rw [Nat.mod_eq_of_lt hwrap]; omega
    rw [hsum, Nat.add_mod_right, Nat.mod_eq_of_lt hd]
  · have hmod : (r + d) % m = r + d - m := by
      rw [Nat.mod_eq_sub_mod (by omega), Nat.mod_eq_of_lt (by omega)]
    have hsum : r + d - m + m - r = d := by omega
    rw [hmod, hsum, Nat.mod_eq_of_lt hd]

theorem succ_mod (m a : Nat) : (a % m + 1) % m = (a + 1) % m := Nat.mod_add_mod a m 1

variable {V : Type} {slots : Nat → Option V} {f g : Nat → Option V}

def Filled (slots : Nat → Option V) (m : Nat) (f : Nat → Option V) (lo hi : Nat) : Prop :=
  ∀ k, lo ≤ k → k < hi → slots (k % m) = f k

theorem Filled.congr (h : Filled slots m f lo hi) (hg : ∀ k, k < hi → g k = f k) :
    Filled slots m g lo hi := by
  intro k hk hk'
  rw [hg k hk']
  exact h k hk hk'

/-- A slot of the window behind the filled ones is written to. -/
theorem Filled.write {v : Option V} (h : Filled slots m f lo hi) (hk : hi ≤ k) (hk' : k < lo + m) :
    Filled (Function.update slots (k % m) v) m f lo hi := by
  intro j hj hj'
  have hne : j % m ≠ k % m := by
    intro he
    have := inj hj (by omega) (Nat.le_trans hj (by omega)) hk' he
    omega
  rw [Function.update_of_ne hne]
  exact h j hj hj'

theorem Filled.push (h : Filled slots m f lo hi) (hv : slots (hi % m) = f hi) :
    Filled slots m f lo (hi + 1) := by
  intro k hk hk'
  by_cases he : k = hi
  · rw [he]; exact hv
  · exact h k hk (by omega)

theorem Filled.pop (h : Filled slots m f lo hi) : Filled slots m f (lo + 1) hi :=
  fun k hk hk' => h k (by omega) hk'

/-! ## Rings with two indices -/

/-- One slot is always spare, which tells a full ring from an empty one. -/
def Holds (slots : Nat → Option V) (m head tail : Nat) (vs : List V) : Prop :=
  vs.length < m ∧ ∃ lo, head = lo % m ∧ tail = (lo + vs.length) % m ∧
    ∀ k, k < vs.length → slots ((lo + k) % m) = vs[k]?

section
variable {head tail : Nat} {vs : List V} {v : V}

theorem holds_nil (slots : Nat → Option V) (hm : 0 < m) : Holds slots m 0 0 [] :=
  ⟨hm, 0, (Nat.zero_mod m).symm, (Nat.zero_mod m).symm, fun _ h => absurd h (Nat.not_lt_zero _)⟩

theorem Holds.head_lt (h : Holds slots m head tail vs) : head < m := by
  obtain ⟨hlen, lo, rfl, -, -⟩ := h
  exact Nat.mod_lt lo (by omega)

theorem Holds.tail_lt (h : Holds slots m head tail vs) : tail < m := by
  obtain ⟨hlen, lo, -, rfl, -⟩ := h
  exact Nat.mod_lt _ (by omega)

theorem Holds.empty_iff (h : Holds slots m head tail vs) : head = tail ↔ vs = [] := by
  obtain ⟨hlen, lo, rfl, rfl, -⟩ := h
  constructor
  · intro he
    have hlo : lo = lo + vs.length := inj (Nat.le_refl lo) (by omega) (by omega) (by omega) he
    exact List.eq_nil_of_length_eq_zero (by omega)
  · intro he
    rw [he]; rfl

theorem Holds.full_iff (h : Holds slots m head tail vs) :
    (tail + 1) % m = head ↔ vs.length + 1 = m := by
  obtain ⟨hlen, lo, rfl, rfl, -⟩ := h
  rw [succ_mod]
  constructor
  · intro he
    by_contra hne
    have hlo : lo + vs.length + 1 = lo :=
      inj (by omega) (by omega) (Nat.le_refl lo) (by omega) he
    omega
  · intro he
    rw [Nat.add_assoc, he, Nat.add_mod_right]

/-- Slots outside the list do not matter. -/
theorem Holds.congr {slots' : Nat → Option V} (h : Holds slots m head tail vs)
    (hs : ∀ k, k ≠ tail → slots' k = slots k) : Holds slots' m head tail vs := by
  obtain ⟨hlen, lo, hhead, htail, hslots⟩ := h
  refine ⟨hlen, lo, hhead, htail, fun k hk => ?_⟩
  rw [hs _ ?_]
  · exact hslots k hk
  · rw [htail]
    intro he
    have hk' : lo + k = lo + vs.length :=
      inj (Nat.le_add_right lo k) (by omega) (Nat.le_add_right lo _) (by omega) he
    omega

theorem Holds.push (h : Holds slots m head tail vs) (hroom : vs.length + 1 ≠ m)
    (hv : slots tail = some v) : Holds slots m head ((tail + 1) % m) (vs ++ [v]) := by
  obtain ⟨hlen, lo, hhead, rfl, hslots⟩ := h
  have hlen' : (vs ++ [v]).length = vs.length + 1 := by
    rw [List.length_append, List.length_singleton]
  refine ⟨by omega, lo, hhead, by rw [succ_mod, hlen', Nat.add_assoc], fun k hk => ?_⟩
  by_cases he : k = vs.length
  · rw [he, hv, List.getElem?_concat_length]
  · rw [List.getElem?_append_left (by omega)]
    exact hslots k (by omega)

theorem Holds.first (h : Holds slots m head tail (v :: vs)) : slots head = some v := by
  obtain ⟨-, lo, rfl, -, hslots⟩ := h
  exact hslots 0 (Nat.succ_pos _)

theorem Holds.pop (h : Holds slots m head tail (v :: vs)) :
    Holds slots m ((head + 1) % m) tail vs := by
  obtain ⟨hlen, lo, rfl, rfl, hslots⟩ := h
  rw [List.length_cons] at hlen
  refine ⟨by omega, lo + 1, succ_mod m lo, ?_, fun k hk => ?_⟩
  · rw [List.length_cons, Nat.add_right_comm, Nat.add_assoc]
  · have hk' := hslots (k + 1) (by rw [List.length_cons]; omega)
    rw [Nat.add_right_comm, Nat.add_assoc]
    exact hk'

/-- What is taken from the head may leave anything behind. -/
theorem Holds.pop_write {x : Option V} (h : Holds slots m head tail (v :: vs)) :
    Holds (Function.update slots head x) m ((head + 1) % m) tail vs := by
  obtain ⟨hlen, lo, hhead, htail, hslots⟩ := h.pop
  refine ⟨hlen, lo, hhead, htail, fun k hk => ?_⟩
  rw [Function.update_of_ne ?_]
  · exact hslots k hk
  · obtain ⟨hlen', lo', rfl, htail', -⟩ := h
    rw [List.length_cons] at hlen'
    rw [succ_mod] at hhead
    intro he
    have hnext : (lo' + 1 + k) % m = lo' % m := by
      rw [← he, ← Nat.mod_add_mod, hhead, Nat.mod_add_mod]
    have hle : lo' ≤ lo' + 1 + k := by omega
    have hk' : lo' + 1 + k = lo' := inj hle (by omega) (Nat.le_refl lo') (by omega) hnext
    omega

end

end Cxx.Ring
