import Mathlib.Data.List.Basic

/-!
# Writing into a buffer

`blit dst off src` is `dst` with `src` written at offset `off`; the lemmas
say what a prefix of the result is when the write fits.
-/
namespace Cxx

variable {α : Type}

def blit (dst : List α) (off : Nat) (src : List α) : List α :=
  dst.take off ++ src ++ dst.drop (off + src.length)

theorem blit_length {dst src : List α} {off : Nat} (h : off + src.length ≤ dst.length) :
    (blit dst off src).length = dst.length := by
  simp [blit]; omega

/-- The bytes up to the end of the write. -/
theorem blit_take {dst src : List α} {off : Nat} (h : off + src.length ≤ dst.length) :
    (blit dst off src).take (off + src.length) = dst.take off ++ src := by
  have : (dst.take off ++ src).length = off + src.length := by simp; omega
  rw [blit, ← this, List.take_left]

/-- A write at the end of the part already filled extends it. -/
theorem blit_take_append {dst src got : List α} (hg : dst.take got.length = got)
    (h : got.length + src.length ≤ dst.length) :
    (blit dst got.length src).take (got ++ src).length = got ++ src := by
  rw [List.length_append, blit_take h, hg]

/-- `take (n)` of a window of `n + k` symbols, and what follows it. -/
theorem take_drop_split (l : List α) (i k n : Nat) :
    (l.drop i).take (k + n) = (l.drop i).take k ++ (l.drop (i + k)).take n := by
  rw [List.take_add, List.drop_drop]

end Cxx
