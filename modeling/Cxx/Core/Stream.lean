import Mathlib.Data.List.Basic

/-!
# Stream machines and chunked receivers

A `Mealy` machine reads a stream one symbol at a time and emits outputs. A
receiver is handed items that carry pieces of the same stream, of any size
and possibly empty. `Simulates` relates the two one item at a time; then the
outputs seen through the receiver, and the machine state its final state is
related to, depend on the stream only and not on where it was cut
(`Simulates.feed_spec`, `Simulates.cut_free`). `Trap.run_iff` finds out from
the outputs of a run whether it got caught in a set of states.
-/
namespace Cxx

structure Mealy (S I O : Type) where
  step : S → I → S × List O

namespace Mealy

variable {S I O T C P : Type} (m : Mealy S I O)

/-- Reads a whole stream, collecting the outputs in order. -/
def run (s : S) : List I → S × List O
  | [] => (s, [])
  | i :: is =>
    let r := m.step s i
    let t := run r.1 is
    (t.1, r.2 ++ t.2)

@[simp] theorem run_nil (s : S) : m.run s [] = (s, []) := rfl

theorem run_cons (s : S) (i : I) (is : List I) :
    m.run s (i :: is) = ((m.run (m.step s i).1 is).1,
      (m.step s i).2 ++ (m.run (m.step s i).1 is).2) := by
  simp only [run]

theorem run_singleton (s : S) (i : I) : m.run s [i] = m.step s i := by
  simp [run_cons]

theorem run_append (s : S) (a b : List I) :
    m.run s (a ++ b) = ((m.run (m.run s a).1 b).1, (m.run s a).2 ++ (m.run (m.run s a).1 b).2) := by
  induction a generalizing s with
  | nil => simp
  | cons i is ih => simp [run_cons, ih, List.append_assoc]

/-- A state that no symbol changes and that emits nothing absorbs any stream. -/
theorem run_absorb {s : S} (h : ∀ i, m.step s i = (s, [])) (is : List I) :
    m.run s is = (s, []) := by
  induction is with
  | nil => rfl
  | cons i is ih => simp [run_cons, h, ih]

/-- States that are not left, and are entered exactly on marked outputs. -/
structure Trap (Bad : S → Prop) (mark : O → Prop) : Prop where
  stays : ∀ s i, Bad s → Bad (m.step s i).1
  enters : ∀ s i, ¬ Bad s → (Bad (m.step s i).1 ↔ ∃ o ∈ (m.step s i).2, mark o)

theorem Trap.run_stays {m : Mealy S I O} {Bad : S → Prop} {mark : O → Prop} (h : m.Trap Bad mark)
    (is : List I) :
    ∀ {s : S}, Bad s → Bad (m.run s is).1 := by
  induction is with
  | nil => exact fun hs => hs
  | cons i is ih => intro s hs; rw [run_cons]; exact ih (h.stays s i hs)

theorem Trap.run_iff {m : Mealy S I O} {Bad : S → Prop} {mark : O → Prop} (h : m.Trap Bad mark)
    (is : List I) :
    ∀ {s : S}, ¬ Bad s → (Bad (m.run s is).1 ↔ ∃ o ∈ (m.run s is).2, mark o) := by
  induction is with
  | nil => intro s hs; simp [hs]
  | cons i is ih =>
    intro s hs
    rw [run_cons]
    by_cases hbad : Bad (m.step s i).1
    · obtain ⟨o, ho, hm⟩ := (h.enters s i hs).mp hbad
      exact ⟨fun _ => ⟨o, List.mem_append_left _ ho, hm⟩, fun _ => h.run_stays is hbad⟩
    · rw [ih hbad]
      constructor
      · intro hex
        obtain ⟨o, ho, hm⟩ := hex
        exact ⟨o, List.mem_append_right _ ho, hm⟩
      · intro hex
        obtain ⟨o, ho, hm⟩ := hex
        rcases List.mem_append.mp ho with ho | ho
        · exact absurd ((h.enters s i hs).mpr ⟨o, ho, hm⟩) hbad
        · exact ⟨o, ho, hm⟩

/-- Hands the items of a list to a receiver one after another, collecting
what it puts out. -/
def feed (recv : T → C → T × List P) (t : T) : List C → T × List P
  | [] => (t, [])
  | c :: cs =>
    let r := recv t c
    let u := feed recv r.1 cs
    (u.1, r.2 ++ u.2)

theorem feed_cons (recv : T → C → T × List P) (t : T) (c : C) (cs : List C) :
    feed recv t (c :: cs) =
      ((feed recv (recv t c).1 cs).1, (recv t c).2 ++ (feed recv (recv t c).1 cs).2) := rfl

theorem feed_append (recv : T → C → T × List P) (t : T) (cs ds : List C) :
    feed recv t (cs ++ ds) = ((feed recv (feed recv t cs).1 ds).1,
      (feed recv t cs).2 ++ (feed recv (feed recv t cs).1 ds).2) := by
  induction cs generalizing t with
  | nil => rfl
  | cons c cs ih => rw [List.cons_append, feed_cons, ih, feed_cons, List.append_assoc]

/-- On items satisfying `ok`, the receiver does to related states what the
machine does on the symbols of the item; `obs` reads the machine's outputs
off the receiver's. -/
def Simulates (content : C → List I) (obs : P → List O) (ok : C → Prop)
    (recv : T → C → T × List P) (R : T → S → Prop) : Prop :=
  ∀ t s c, ok c → R t s →
    R (recv t c).1 (m.run s (content c)).1 ∧ (recv t c).2.flatMap obs = (m.run s (content c)).2

variable {m} {content : C → List I} {obs : P → List O} {ok : C → Prop} {recv : T → C → T × List P}
  {R : T → S → Prop}

theorem Simulates.feed_spec (h : m.Simulates content obs ok recv R) {t : T} {s : S} (hR : R t s)
    (cs : List C) (hc : ∀ c ∈ cs, ok c) :
    R (feed recv t cs).1 (m.run s (cs.flatMap content)).1 ∧
      (feed recv t cs).2.flatMap obs = (m.run s (cs.flatMap content)).2 := by
  induction cs generalizing t s with
  | nil => exact ⟨hR, rfl⟩
  | cons c cs ih =>
    obtain ⟨h1, h2⟩ := h t s c (hc c (by simp)) hR
    obtain ⟨h3, h4⟩ := ih h1 fun d hd => hc d (by simp [hd])
    simp only [feed, List.flatMap_cons, List.flatMap_append, run_append]
    exact ⟨h3, by rw [h2, h4]⟩

/-- **Cuts do not matter.** Two ways of cutting one stream give the same
outputs and end in states related to one and the same machine state. -/
theorem Simulates.cut_free (h : m.Simulates content obs ok recv R) {t : T} {s : S} (hR : R t s)
    {cs ds : List C} (hc : ∀ c ∈ cs, ok c) (hd : ∀ d ∈ ds, ok d)
    (he : cs.flatMap content = ds.flatMap content) :
    (feed recv t cs).2.flatMap obs = (feed recv t ds).2.flatMap obs ∧
      ∃ s', R (feed recv t cs).1 s' ∧ R (feed recv t ds).1 s' := by
  obtain ⟨h1, h2⟩ := h.feed_spec hR cs hc
  obtain ⟨h3, h4⟩ := h.feed_spec hR ds hd
  rw [← he] at h3 h4
  exact ⟨h2.trans h4.symm, _, h1, h3⟩

end Mealy

end Cxx
