import Cxx.DataStruct.ListThreads

/-!
# What the threads know of a `SafeList`

That `Inv` is kept by every step of a thread, as long as no removal has found an
element to remove and no `pushBack` has come before `tail_` has been set.

* `Place.linkFront`, `Place.linkBack`, `Place.advance`: what the pushes of other
  threads leave of what a thread knows.
* `Inv.post_eq_nil`: a thread that is about to link its node finds `tail_` at the
  last node.
* `Inv.run`, `Inv.call`: the steps.
-/
namespace Cxx.ListThreads

variable {ι A T : Type}

/-! ### The visitors -/

section
variable {head next : A} {cells before rest pre post : List (A × T)} {w : Walk A T} {c : A × T}
  {lock : Option A} {x : Loc A T} {v : T}

theorem Passed.front (h : Passed w before rest) : Passed w (c :: before) rest where
  seen := h.seen.trans (List.suffix_cons _ _)
  start := h.start
  passes := h.passes

theorem Passed.back (h : Passed w before rest) : Passed w before (rest ++ [c]) where
  seen := h.seen
  start := by
    rw [List.map_append, ← List.append_assoc]
    exact h.start.trans (List.prefix_append _ _)
  passes := h.passes

/-- The visitor goes past an element. -/
theorem Passed.pass (h : Passed w before ((next, v) :: rest)) (hv : w.visitor.passes v = true) :
    Passed (w.pass v) (before ++ [(next, v)]) rest where
  seen := by
    obtain ⟨front, hs⟩ := h.seen
    exact ⟨front, by simp [Walk.pass, ← hs]⟩
  start := by
    have := h.start
    simpa [Walk.pass] using this
  passes := by
    intro u hu
    rcases List.mem_append.mp hu with hu | hu
    · exact h.passes u hu
    · rw [List.mem_singleton.mp hu]; exact hv

theorem Below.front (h : Below head before lock) : Below head (c :: before) lock := by
  intro a ha
  rcases List.mem_cons.mp (h a ha) with rfl | hm
  · exact List.mem_cons_self
  · exact List.mem_cons_of_mem _ (List.mem_cons_of_mem _ hm)

/-- The mutex of a node that comes later is another one. -/
theorem Below.ne (h : Below head before lock)
    (hn : (head :: (before ++ (next, v) :: rest).map Prod.fst).Nodup) : lock ≠ some next := by
  intro he
  have hm := h next he
  rw [List.map_append, List.map_cons, ← List.cons_append] at hn
  exact (List.nodup_append.mp hn).2.2 next hm next List.mem_cons_self rfl

theorem Walked.front (h : Walked head cells w) (hl : w.lock ≠ some head) :
    Walked head (c :: cells) w := by
  obtain ⟨before, rest, rfl, hc, hfirst, hb, hp⟩ := h
  refine ⟨c :: before, rest, rfl, ?_, fun he => absurd he (by simp), hb.front, hp.front⟩
  obtain ⟨d, front, rfl⟩ := List.exists_cons_of_ne_nil fun he => hl (hfirst he)
  rw [hc, SafeList.last_cons, SafeList.last_cons, SafeList.last_cons]

theorem Walked.back (h : Walked head cells w) : Walked head (cells ++ [c]) w := by
  obtain ⟨before, rest, rfl, hc, hfirst, hb, hp⟩ := h
  exact ⟨before, rest ++ [c], List.append_assoc _ _ _, hc, hfirst, hb, hp.back⟩

theorem Facing.front (h : Facing head cells w next) : Facing head (c :: cells) w next := by
  obtain ⟨before, v, rest, rfl, hb, hp⟩ := h
  exact ⟨c :: before, v, rest, rfl, hb.front, hp.front⟩

theorem Facing.back (h : Facing head cells w next) : Facing head (cells ++ [c]) w next := by
  obtain ⟨before, v, rest, rfl, hb, hp⟩ := h
  exact ⟨before, v, rest ++ [c], List.append_assoc _ _ _, hb, hp.back⟩

theorem Passing.front (h : Passing head cells w next) : Passing head (c :: cells) w next := by
  obtain ⟨before, v, rest, rfl, hb, hp⟩ := h
  exact ⟨c :: before, v, rest, rfl, hb.front, hp.front⟩

theorem Passing.back (h : Passing head cells w next) : Passing head (cells ++ [c]) w next := by
  obtain ⟨before, v, rest, rfl, hb, hp⟩ := h
  exact ⟨before, v, rest ++ [c], List.append_assoc _ _ _, hb, hp.back⟩

theorem Passing.ne (h : Passing head cells w next) (hn : (head :: cells.map Prod.fst).Nodup) :
    w.lock ≠ some next := by
  obtain ⟨before, v, rest, rfl, hb, -⟩ := h
  exact hb.ne hn

/-- `current=next` -/
theorem Passing.moveTo (h : Passing head cells w next) (hl : lock = none ∨ lock = some next) :
    Walked head cells (w.moveTo next lock) := by
  obtain ⟨before, v, rest, rfl, hb, hp⟩ := h
  refine ⟨before ++ [(next, v)], rest, by simp, (SafeList.last_concat _ _ _ _).symm,
    fun he => absurd he (by simp), ?_, ⟨hp.seen, hp.start, hp.passes⟩⟩
  intro a ha
  rcases hl with rfl | rfl
  · cases ha
  · cases ha
    simp

/-! ### The places -/

theorem ne_nil_of_mem_map {tail : A} (h : tail ∈ pre.map Prod.fst) : pre ≠ [] := by
  intro he
  rw [he] at h
  cases h

/-- A new first element. The others do not hold `head_->mt_`. -/
theorem Place.linkFront (h : Place head pre post x) (hx : .node head ∉ x.locks head)
    (hpost : pre = [] → post = []) :
    Place head (if pre = [] then [] else c :: pre) (if pre = [] then [c] else post) x := by
  have hcells : (if pre = [] then [] else c :: pre) ++ (if pre = [] then [c] else post) =
      c :: (pre ++ post) := by
    split
    · next he => rw [hpost he, he]; rfl
    · rfl
  have htail : ∀ {tail : A}, tail ∈ pre.map Prod.fst → pre ≠ [] ∧
      tail ∈ (if pre = [] then [] else c :: pre).map Prod.fst := by
    intro tail hm
    have hne := ne_nil_of_mem_map hm
    rw [if_neg hne]
    exact ⟨hne, List.mem_cons_of_mem _ hm⟩
  cases x with
  | frontTest | frontGlobal | frontTail => exact absurd List.mem_cons_self hx
  | backLock _ _ tail | backGlobal _ _ tail | backLink _ _ tail => exact (htail h).2
  | backDestroy tail old =>
    refine ⟨(htail h.1).2, ?_, h.2.2⟩
    rw [if_neg (htail h.1).1]; exact h.2.1
  | backTail tail =>
    refine ⟨(htail h.1).2, ?_⟩
    rw [if_neg (htail h.1).1]; exact h.2
  | walkNext w =>
    simp only [Place, hcells]
    refine Walked.front h fun he => hx ?_
    simp [Loc.locks, he]
  | walkLockNext w next | walkInside w next | walkProbe w next =>
    simp only [Place, hcells]
    exact Facing.front h
  | walkCall w next =>
    simp only [Place, hcells]
    exact ⟨h.1, h.2.front⟩
  | walkPass w next | walkDrop w next =>
    simp only [Place, hcells]
    exact Passing.front h
  | _ => trivial

/-- A new last element, which `tail_` does not point to. -/
theorem Place.linkBack (h : Place head pre [] x) : Place head pre [c] x := by
  cases x with
  | frontTest => exact ⟨by simp, h.2⟩
  | frontGlobal | frontTail => exact absurd rfl h.2
  | backLock _ _ tail | backGlobal _ _ tail | backLink _ _ tail => exact h
  | backDestroy tail old => exact absurd rfl h.2.1
  | backTail tail => exact absurd rfl h.2
  | walkNext w =>
    simp only [Place, List.append_nil] at h
    exact Walked.back h
  | walkLockNext w next | walkInside w next | walkProbe w next =>
    simp only [Place, List.append_nil] at h
    exact Facing.back h
  | walkCall w next =>
    simp only [Place, List.append_nil] at h
    exact ⟨h.1, h.2.back⟩
  | walkPass w next | walkDrop w next =>
    simp only [Place, List.append_nil] at h
    exact Passing.back h
  | _ => trivial

/-- `tail_` is brought up to date by another thread. -/
theorem Place.advance (h : Place head pre post x)
    (hx : .global ∉ x.locks head) (hh : pre = [] → .node head ∉ x.locks head) :
    Place head (pre ++ post) [] x := by
  have htail : ∀ {tail : A}, tail ∈ pre.map Prod.fst → tail ∈ (pre ++ post).map Prod.fst := by
    intro tail hm
    rw [List.map_append]
    exact List.mem_append_left _ hm
  cases x with
  | frontTest =>
    refine ⟨by simpa using h.1, ?_⟩
    have hne : pre ≠ [] := fun he => hh he List.mem_cons_self
    have := List.length_pos_of_ne_nil hne
    have := h.2
    rw [List.length_append]
    omega
  | frontGlobal => exact absurd List.mem_cons_self (hh h.1)
  | frontTail | backDestroy _ _ | backTail _ => simp [Loc.locks] at hx
  | backLock _ _ tail | backGlobal _ _ tail => exact htail h
  | backLink _ _ tail => exact htail h
  | walkNext w => simpa only [Place, List.append_nil] using h
  | walkLockNext w next | walkInside w next | walkCall w next | walkProbe w next =>
    simpa only [Place, List.append_nil] using h
  | walkPass w next | walkDrop w next => simpa only [Place, List.append_nil] using h
  | _ => trivial

end

/-! ### The steps -/

section
variable {s s' : SharedList ι A T} {pre post : List (A × T)}
  {i j : ι} {x y : Loc A T} {m : Mutex A} {owner : Mutex A → Option ι} {a : A}

theorem access_eq {node : Node A T} (h : s.list.heap.nodes a = some node)
    (f : A → Node A T → SharedList ι A T) : s.access (some a) f = f a node := by
  simp only [SharedList.access, h]

theorem value_eq {v : T} {q : Option A} (h : s.list.heap.nodes a = some ⟨some v, q⟩)
    (f : T → SharedList ι A T) : s.value a f = f v := by
  simp only [SharedList.value, access_eq h]

theorem locks_of_taken {head : A} (h : x.taken = true) : .node head ∈ x.locks head := by
  cases x <;> first | exact List.mem_cons_self | cases h

/-- A visitor that holds two mutexes releases the first. -/
theorem locks_release {lock : Option A} {next : A} (hne : lock ≠ some next) (m : Mutex A) :
    m ∈ [Mutex.node next] ↔ (∀ a, lock = some a → m ≠ .node a) ∧
      m ∈ Mutex.node next :: lock.toList.map .node := by
  cases lock with
  | none => simp
  | some a =>
    have hna : next ≠ a := fun he => hne (he ▸ rfl)
    simp only [Option.toList, List.map_cons, List.map_nil, List.mem_cons, List.not_mem_nil,
      or_false, Option.some.injEq, forall_eq']
    constructor
    · rintro rfl
      exact ⟨fun he => hna (Mutex.node.inj he), .inl rfl⟩
    · rintro ⟨hma, hm | hm⟩
      · exact hm
      · exact absurd hm hma

/-- The thread that holds `head_->mt_` knows whether `head_` owns the elements. -/
theorem Inv.taken (h : Inv s pre post) (hi : .node s.list.head ∈ (s.loc i).locks s.list.head)
    (hj : j ≠ i) : (s.loc j).taken = false := by
  by_contra ht
  exact hj (h.owned.exclusive (locks_of_taken (by simpa using ht)) hi)

theorem Inv.untaken (h : Inv s pre post) (hi : .node s.list.head ∈ (s.loc i).locks s.list.head)
    (ht : (s.loc i).taken = false) (j : ι) : (s.loc j).taken = false := by
  by_cases hj : j = i
  · rw [hj]; exact ht
  · exact h.taken hi hj

/-- A thread that could find `tail_` not up to date would be the one to see to it. -/
theorem Inv.post_eq_nil (h : Inv s pre post) (hb : ¬ Behind pre (s.loc i))
    (hhead : pre = [] → .node s.list.head ∈ (s.loc i).locks s.list.head)
    (hglobal : pre ≠ [] → .global ∈ (s.loc i).locks s.list.head) : post = [] := by
  by_contra hne
  obtain ⟨j, hj⟩ := h.behind hne
  have hp := h.place j
  have hij : j ≠ i := fun he => hb (he ▸ hj)
  have nohead : .node s.list.head ∈ (s.loc j).locks s.list.head → pre ≠ [] :=
    fun hm he => hij (h.owned.exclusive hm (hhead he))
  have noglobal : .global ∈ (s.loc j).locks s.list.head → pre = [] := by
    intro hm
    by_contra he
    exact hij (h.owned.exclusive hm (hglobal he))
  cases hx : s.loc j with
  | frontTest =>
    rw [hx] at hj nohead
    exact nohead List.mem_cons_self hj
  | frontGlobal | frontTail =>
    rw [hx] at hp nohead
    exact nohead List.mem_cons_self hp.1
  | backDestroy tail old | backTail tail =>
    rw [hx] at hp noglobal
    have he := noglobal (by simp [Loc.locks])
    have hm := hp.1
    rw [he] at hm
    cases hm
  | _ => rw [hx] at hj; exact hj

/-- Once it has been set, `tail_` is at the last node of `pre`. -/
theorem Inv.tail_eq (h : Inv s pre post) (hne : pre ≠ []) :
    s.list.tail = some (SafeList.last s.list.head pre) := by
  obtain ⟨front, c, rfl⟩ := (List.eq_nil_or_concat' pre).resolve_left hne
  rw [h.tail, List.getLast?_concat, SafeList.last_concat]
  rfl

theorem Inv.log (h : Inv s pre post) {visit : Visit T} (hv : visit.Sound) :
    Inv (s.log visit) pre post where
  owned := h.owned
  memory := h.memory
  tail := h.tail
  short := h.short
  behind := h.behind
  place := h.place
  values := h.values
  visits := by
    intro x hx
    rcases List.mem_append.mp hx with hx | hx
    · exact h.visits x hx
    · rw [List.mem_singleton.mp hx]; exact hv
  sound := h.sound

/-- The element that a visitor faces. -/
theorem Inv.facing {w : Walk A T} {next : A} (h : Inv s pre post)
    (hp : Facing s.list.head (pre ++ post) w next) : ∃ v q,
      s.list.heap.nodes next = some ⟨some v, q⟩ ∧ w.lock ≠ some next ∧
      (w.visitor.passes v = true → Passing s.list.head (pre ++ post) (w.pass v) next) ∧
      (w.visitor.passes v = false →
        Visit.Sound ⟨w.visitor, w.start, w.seen ++ [v], some v, s.values⟩) := by
  obtain ⟨before, v, rest, hc, hbelow, hpassed⟩ := hp
  have hm := h.memory
  rw [hc] at hm
  obtain ⟨q, hq⟩ := hm.data
  refine ⟨v, q, hq, hbelow.ne hm.nodup, ?_, ?_⟩
  · exact fun hv => ⟨before, v, rest, hc, hbelow, hpassed.pass hv⟩
  · intro hv
    obtain ⟨skipped, hskip⟩ := hpassed.seen
    constructor
    · refine ⟨skipped, rest.map Prod.snd, ?_, by simpa using hpassed.start, fun he => by cases he⟩
      rw [h.values, hc, List.map_append, List.map_cons, ← hskip]
      simp
    · exact fun he => by cases he
    · intro u hu
      cases hu
      exact ⟨hv, w.seen, rfl, hpassed.passes⟩

theorem start_spec (pre post : List (A × T)) (push : Push T) (new : A) (head : A) :
    (push.start new).locks head = [] ∧
    (push.start new).fresh = some (new, push) ∧ (push.start new).taken = false ∧
    Place head pre post (push.start new) := by
  cases push <;> exact ⟨rfl, rfl, rfl, trivial⟩

variable [DecidableEq ι]

@[simp] theorem goto_loc : (s.goto i x).loc = Function.update s.loc i x := rfl

/-- A thread moves on, and nothing else changes but the mutexes. -/
theorem Inv.goto (h : Inv s pre post) (hi : s.loc i = y)
    (ho : Locks.Owned (Loc.locks s.list.head) owner (Function.update s.loc i x))
    (hf : x.fresh = y.fresh) (ht : x.taken = y.taken)
    (hb : post ≠ [] → Behind pre y → Behind pre x)
    (hp : Place s.list.head pre post x) :
    Inv (SharedList.goto { s with owner } i x) pre post where
  owned := ho
  memory := h.memory.move (hi ▸ hf) (hi ▸ ht)
  tail := h.tail
  short := h.short
  behind := by
    intro hne
    obtain ⟨j, hj⟩ := h.behind hne
    refine ⟨j, ?_⟩
    exact Threads.forall_update (Q := fun j z => Behind pre (s.loc j) → Behind pre z) (hi ▸ hb hne)
      (fun _ _ => id) j hj
  place := Threads.forall_update (Q := fun _ y => Place s.list.head pre post y) hp
    fun j _ => h.place j
  values := h.values
  visits := h.visits
  sound := h.sound

theorem Inv.stay (h : Inv s pre post) (hi : s.loc i = y)
    (hx : ∀ m, m ∈ x.locks s.list.head ↔ m ∈ y.locks s.list.head)
    (hf : x.fresh = y.fresh) (ht : x.taken = y.taken)
    (hb : post ≠ [] → Behind pre y → Behind pre x)
    (hp : Place s.list.head pre post x) : Inv (s.goto i x) pre post :=
  h.goto hi (h.owned.keep (hi ▸ hx)) hf ht hb hp

/-- `tail_` is brought up to date. -/
theorem Inv.advance (h : Inv s pre post) (hi : s.loc i = y) (hpost : post ≠ [])
    (hglobal : .global ∈ y.locks s.list.head)
    (hhead : pre = [] → .node s.list.head ∈ y.locks s.list.head)
    (hx : ∀ m, m ∈ x.locks s.list.head ↔ m ∈ y.locks s.list.head)
    (hf : x.fresh = y.fresh) (ht : x.taken = y.taken)
    (hp : Place s.list.head (pre ++ post) [] x) :
    Inv ((s.setTail (first post)).goto i x) (pre ++ post) [] where
  owned := h.owned.keep (hi ▸ hx)
  memory := by
    rw [List.append_nil]
    exact h.memory.move (hi ▸ hf) (hi ▸ ht)
  tail := by
    obtain ⟨c, rest, rfl⟩ := List.exists_cons_of_ne_nil hpost
    have hrest : rest = [] := List.eq_nil_of_length_eq_zero (by simpa using h.short)
    subst hrest
    change _ = (pre ++ [c]).getLast?.map Prod.fst
    rw [List.getLast?_concat]
    rfl
  short := Nat.zero_le 1
  behind := fun hne => absurd rfl hne
  place := Threads.forall_update (Q := fun _ y => Place s.list.head (pre ++ post) [] y) hp
    fun j hj => (h.place j).advance (fun hm => hj (h.owned.exclusive hm (hi ▸ hglobal)))
      fun he hm => hj (h.owned.exclusive hm (hi ▸ hhead he))
  values := by rw [List.append_nil]; exact h.values
  visits := h.visits
  sound := h.sound

variable [DecidableEq A]

theorem lock_eq_some : s.lock i m x = some s' ↔ s.owner m = none ∧
    SharedList.goto { s with owner := Function.update s.owner m (some i) } i x = s' := by
  unfold SharedList.lock
  cases h : s.owner m <;> simp

theorem Inv.lock (h : Inv s pre post) (hi : s.loc i = y) (hs : s.lock i m x = some s')
    (hx : ∀ m', m' ∈ x.locks s.list.head ↔ m' = m ∨ m' ∈ y.locks s.list.head)
    (hf : x.fresh = y.fresh) (ht : x.taken = y.taken)
    (hb : post ≠ [] → Behind pre y → Behind pre x)
    (hp : Place s.list.head pre post x) : Inv s' pre post := by
  obtain ⟨hm, rfl⟩ := lock_eq_some.mp hs
  exact h.goto hi (h.owned.acquire hm (hi ▸ hx)) hf ht hb hp

theorem Inv.unlock (h : Inv s pre post) (hi : s.loc i = y) (hm : m ∈ y.locks s.list.head)
    (hx : ∀ m', m' ∈ x.locks s.list.head ↔ m' ≠ m ∧ m' ∈ y.locks s.list.head)
    (hf : x.fresh = y.fresh) (ht : x.taken = y.taken)
    (hb : post ≠ [] → Behind pre y → Behind pre x)
    (hp : Place s.list.head pre post x) : Inv (s.unlock i m x) pre post :=
  h.goto hi (h.owned.release (hi ▸ hm) (hi ▸ hx)) hf ht hb hp

/-- The mutex that a visitor holds, if it holds one, is released. -/
theorem Inv.unlockIf (h : Inv s pre post) (hi : s.loc i = y) {lock : Option A}
    (hm : ∀ a, lock = some a → .node a ∈ y.locks s.list.head)
    (hx : ∀ m, m ∈ x.locks s.list.head ↔
      (∀ a, lock = some a → m ≠ .node a) ∧ m ∈ y.locks s.list.head)
    (hf : x.fresh = y.fresh) (ht : x.taken = y.taken)
    (hb : post ≠ [] → Behind pre y → Behind pre x)
    (hp : Place s.list.head pre post x) : Inv (s.unlockIf i lock x) pre post := by
  cases lock with
  | none => exact h.stay hi (by simpa using hx) hf ht hb hp
  | some a => exact h.unlock hi (hm a rfl) (by simpa using hx) hf ht hb hp

/-- `new Node(value)` -/
theorem Inv.alloc {push : Push T} {new : A} (h : Inv s pre post) (hi : s.loc i = .idle)
    (hn : s.list.heap.nodes new = none) :
    Inv (((s.write new ⟨some push.value, none⟩).record i push).goto i (push.start new))
      pre post := by
  obtain ⟨hlocks, hfresh, htaken, hplace⟩ :=
    start_spec pre post push new s.list.head
  constructor
  · exact h.owned.keep (x := push.start new) (by rw [hi, hlocks]; exact fun _ => Iff.rfl)
  · exact h.memory.alloc hn (by rw [hi]; rfl) hfresh htaken
  · exact h.tail
  · exact h.short
  · intro hne
    obtain ⟨j, hj⟩ := h.behind hne
    have hji : j ≠ i := by
      intro he
      rw [he, hi] at hj
      exact hj
    refine ⟨j, ?_⟩
    rw [goto_loc, Function.update_of_ne hji]
    exact hj
  · exact Threads.forall_update (Q := fun _ y => Place s.list.head pre post y) hplace
      fun j _ => h.place j
  · exact h.values
  · exact h.visits
  · exact h.sound

/-- `new_node->next_=std::move(head_->next_)` -/
theorem Inv.frontTake {v : T} {new : A} (h : Inv s pre post) (hi : s.loc i = .frontTake v new) :
    Inv (((s.write new ⟨some v, first (pre ++ post)⟩).write s.list.head ⟨none, none⟩).goto i
      (.frontLink v new)) pre post := by
  constructor
  · exact h.owned.keep (x := .frontLink v new) (by rw [hi]; exact fun _ => Iff.rfl)
  · exact h.memory.take hi
  · exact h.tail
  · exact h.short
  · intro hne
    obtain ⟨j, hj⟩ := h.behind hne
    have hji : j ≠ i := by
      intro he
      rw [he, hi] at hj
      exact hj
    refine ⟨j, ?_⟩
    rw [goto_loc, Function.update_of_ne hji]
    exact hj
  · exact Threads.forall_update (Q := fun _ y => Place s.list.head pre post y) trivial
      fun j _ => h.place j
  · exact h.values
  · exact h.visits
  · exact h.sound

/-- `head_->next_=std::move(new_node)` -/
theorem Inv.frontLink {v : T} {new : A} (h : Inv s pre post) (hi : s.loc i = .frontLink v new) :
    ∃ pre' post', Inv (((s.write s.list.head ⟨none, some new⟩).link i (.front v)).goto i
      .frontTest) pre' post' := by
  have hhead : .node s.list.head ∈ (s.loc i).locks s.list.head := by
    rw [hi]; exact List.mem_cons_self
  have hpost : pre = [] → post = [] := fun he =>
    h.post_eq_nil (i := i) (by rw [hi]; exact id) (fun _ => hhead) fun hne => absurd he hne
  have hcells : (if pre = [] then [] else (new, v) :: pre) ++
      (if pre = [] then [(new, v)] else post) = (new, v) :: (pre ++ post) := by
    split
    · next he => rw [hpost he, he]; rfl
    · rfl
  refine ⟨if pre = [] then [] else (new, v) :: pre, if pre = [] then [(new, v)] else post, ?_⟩
  constructor
  · exact h.owned.keep (x := .frontTest) (by rw [hi]; exact fun _ => Iff.rfl)
  · rw [hcells]
    exact h.memory.linkFront hi fun j hj => h.taken hhead hj
  · refine h.tail.trans ?_
    by_cases he : pre = []
    · rw [if_pos he, he]
    · obtain ⟨c, rest, rfl⟩ := List.exists_cons_of_ne_nil he
      rw [if_neg he, List.getLast?_cons_cons]
  · split
    · simp
    · exact h.short
  · intro hne
    by_cases he : pre = []
    · -- the thread itself has to bring `tail_` up to date
      refine ⟨i, ?_⟩
      rw [goto_loc, Function.update_self, if_pos he]
      exact rfl
    · rw [if_neg he] at hne ⊢
      obtain ⟨j, hj⟩ := h.behind hne
      have hji : j ≠ i := by
        intro hji
        rw [hji, hi] at hj
        exact hj
      refine ⟨j, ?_⟩
      rw [goto_loc, Function.update_of_ne hji]
      change Behind _ (s.loc j)
      cases hx : s.loc j with
      | frontTest => rw [hx] at hj; exact absurd hj he
      | _ => rw [hx] at hj; exact hj
  · refine Threads.forall_update (Q := fun _ y => Place s.list.head _ _ y) ?_ fun j hj => ?_
    · refine ⟨by rw [hcells]; simp, ?_⟩
      split
      · exact Nat.zero_ne_one
      · next he =>
        have := List.length_pos_of_ne_nil he
        rw [List.length_cons]
        omega
    · exact (h.place j).linkFront (fun hm => hj (h.owned.exclusive hm hhead)) hpost
  · rw [hcells, List.map_cons, ← h.values]; rfl
  · exact h.visits
  · exact h.sound

/-- `tail_->next_=std::move(new_node)` -/
theorem Inv.backLink {v : T} {new tail : A} (h : Inv s pre post)
    (hi : s.loc i = .backLink v new tail) : ∃ a d, s.list.tail = some a ∧
      s.list.heap.nodes a = some ⟨d, none⟩ ∧ ∃ pre' post',
        Inv (((s.write a ⟨d, some new⟩).link i (.back v)).goto i (.backDestroy tail none))
          pre' post' := by
  have hplace := h.place i
  rw [hi] at hplace
  have hglobal : .global ∈ (s.loc i).locks s.list.head := by rw [hi]; simp [Loc.locks]
  have hne : pre ≠ [] := ne_nil_of_mem_map hplace
  obtain rfl := h.post_eq_nil (i := i) (by rw [hi]; exact id) (fun he => absurd he hne)
    fun _ => hglobal
  have hm := h.memory
  obtain ⟨d, hd⟩ := hm.next fun he => absurd he hne
  rw [List.append_nil] at hm
  refine ⟨SafeList.last s.list.head pre, d, h.tail_eq hne, hd, pre, [(new, v)], ?_⟩
  constructor
  · exact h.owned.keep (x := .backDestroy tail none) (by rw [hi]; exact fun _ => Iff.rfl)
  · exact hm.linkBack hi hne rfl hd rfl rfl
  · exact h.tail
  · simp
  · refine fun _ => ⟨i, ?_⟩
    rw [goto_loc, Function.update_self]
    trivial
  · exact Threads.forall_update (Q := fun _ y => Place s.list.head pre [(new, v)] y)
      ⟨hplace, by simp, rfl⟩ fun j _ => (h.place j).linkBack
  · rw [List.map_append, ← List.append_nil pre, ← h.values, List.append_nil]; rfl
  · exact h.visits
  · exact h.sound

/-! One lemma for each step that reads the list. -/

theorem Inv.runFrontTest (h : Inv s pre post) (hi : s.loc i = .frontTest) (hs : s.run i = some s') :
    Inv s' pre post := by
  have hp := h.place i
  rw [hi] at hp
  have hhead := h.memory.root (h.untaken (by rw [hi]; exact List.mem_cons_self) (by rw [hi]; rfl))
  obtain ⟨c, rest, hc⟩ := List.exists_cons_of_ne_nil hp.1
  have hm := h.memory
  rw [hc] at hhead hm
  -- `head_->next_` is the first element
  have hnext : s.list.heap.nodes c.1 = some ⟨some c.2, first rest⟩ :=
    hm.linked.1.trans (by rw [← elements_first]; rfl)
  simp only [SharedList.run, hi, access_eq hhead, first, List.head?_cons, Option.map_some,
    access_eq hnext, Option.some.injEq] at hs
  subst hs
  cases rest with
  | nil =>
    have hpre : pre = [] := by
      have hlen := congrArg List.length hc
      rw [List.length_append, List.length_singleton] at hlen
      have := hp.2
      exact List.eq_nil_of_length_eq_zero (by omega)
    refine h.stay hi (fun _ => Iff.rfl) rfl rfl (fun _ _ => trivial) ⟨hpre, ?_⟩
    rw [hpre] at hc
    exact fun he => by simp [he] at hc
  | cons d rest =>
    refine h.stay hi (fun _ => Iff.rfl) rfl rfl ?_ trivial
    intro _ hb
    have hpre : pre = [] := hb
    have hlen := h.short
    rw [hpre, List.nil_append] at hc
    rw [hc] at hlen
    simp at hlen

theorem Inv.runFrontTail (h : Inv s pre post) (hi : s.loc i = .frontTail)
    (hs : s.run i = some s') : Inv s' (pre ++ post) [] := by
  have hp := h.place i
  rw [hi] at hp
  have hhead := h.memory.root (h.untaken (by rw [hi]; exact List.mem_cons_self) (by rw [hi]; rfl))
  simp only [SharedList.run, hi, access_eq hhead, Option.some.injEq] at hs
  subst hs
  rw [hp.1, List.nil_append]
  have := h.advance (x := .frontGlobalUnlock) hi hp.2 (by simp [Loc.locks])
    (fun _ => List.mem_cons_self) (fun _ => Iff.rfl) rfl rfl trivial
  rwa [hp.1] at this

theorem Inv.runBackTail {tail : A} (h : Inv s pre post) (hi : s.loc i = .backTail tail)
    (hs : s.run i = some s') : Inv s' (pre ++ post) [] := by
  have hp := h.place i
  rw [hi] at hp
  have hne : pre ≠ [] := ne_nil_of_mem_map hp.1
  obtain ⟨d, hd⟩ := h.memory.next fun he => absurd he hne
  simp only [SharedList.run, hi, h.tail_eq hne, access_eq hd, Option.some.injEq] at hs
  subst hs
  exact h.advance hi hp.2 (by simp [Loc.locks]) (fun he => absurd he hne) (fun _ => Iff.rfl)
    rfl rfl trivial

theorem Inv.runWalkNext {w : Walk A T} (h : Inv s pre post) (hi : s.loc i = .walkNext w)
    (hs : s.run i = some s') : Inv s' pre post := by
  have hp := h.place i
  rw [hi] at hp
  obtain ⟨before, rest, hc, hcur, hfirst, hbelow, hpassed⟩ := id hp
  have hm := h.memory
  rw [hc] at hm
  obtain ⟨d, hd⟩ := hm.next fun he => h.untaken (i := i)
    (by rw [hi]; simp [Loc.locks, hfirst he]) (by rw [hi]; rfl)
  rw [← hcur] at hd
  simp only [SharedList.run, hi, access_eq hd] at hs
  cases rest with
  | nil =>
    cases hs
    have hsound : Visit.Sound ⟨w.visitor, w.start, w.seen, none, s.values⟩ := by
      refine ⟨?_, fun _ => hpassed.passes, fun v hv => by cases hv⟩
      obtain ⟨skipped, hskip⟩ := hpassed.seen
      refine ⟨skipped, [], ?_, by simpa using hpassed.start, fun _ => rfl⟩
      rw [h.values, hc, List.append_nil, List.append_nil, hskip]
    exact (h.log hsound).stay hi (fun _ => Iff.rfl) rfl rfl (fun _ => id) trivial
  | cons c rest =>
    cases hs
    exact h.stay hi (fun _ => Iff.rfl) rfl rfl (fun _ => id)
      ⟨before, c.2, rest, hc, hbelow, hpassed⟩

theorem Inv.runWalkInside {w : Walk A T} {next : A} (h : Inv s pre post)
    (hi : s.loc i = .walkInside w next) (hq : s.removes i = false) (hs : s.run i = some s') :
    Inv s' pre post := by
  have hp := h.place i
  rw [hi] at hp
  obtain ⟨v, q, hv, hne, hpass, -⟩ := h.facing hp
  cases hw : w.visitor with
  | forEach =>
    simp only [SharedList.run, hi, hw, Option.some.injEq] at hs
    subst hs
    exact h.unlockIf hi (fun a ha => by simp [Loc.locks, ha]) (locks_release hne)
      rfl rfl (fun _ => id) ⟨hw, hp⟩
  | findFirstIf p =>
    simp only [SharedList.run, hi, hw, Option.some.injEq] at hs
    subst hs
    refine h.unlock hi List.mem_cons_self ?_ rfl rfl (fun _ => id) hp
    intro m
    cases hl : w.lock with
    | none => simp [Loc.locks, hl]
    | some a =>
      have : a ≠ next := fun he => hne (he ▸ hl)
      simp only [Loc.locks, hl, Option.toList, List.map_cons, List.map_nil, List.mem_cons,
        List.not_mem_nil, or_false]
      constructor
      · rintro rfl
        exact ⟨fun he => this (Mutex.node.inj he), .inr rfl⟩
      · rintro ⟨hma, hm | hm⟩
        · exact absurd hm hma
        · exact hm
  | remove first p =>
    have hkeep : w.visitor.passes v = true := by
      simp only [SharedList.removes, hi] at hq
      obtain ⟨visitor, current, lock, seen, start⟩ := w
      cases hw
      simpa [hv, Visitor.passes] using hq
    simp only [SharedList.run, hi, hw, value_eq hv, Option.some.injEq] at hs
    rw [← hw, if_pos hkeep] at hs
    subst hs
    exact h.stay hi (fun _ => Iff.rfl) rfl rfl (fun _ => id) (hpass hkeep)

theorem Inv.runWalkProbe {w : Walk A T} {next : A} (h : Inv s pre post)
    (hi : s.loc i = .walkProbe w next) (hs : s.run i = some s') : Inv s' pre post := by
  have hp := h.place i
  rw [hi] at hp
  obtain ⟨v, q, hv, -, hpass, hfound⟩ := h.facing hp
  simp only [SharedList.run, hi, value_eq hv, Option.some.injEq] at hs
  cases hpv : w.visitor.passes v with
  | true =>
    rw [hpv, if_pos rfl] at hs
    subst hs
    exact h.stay hi (fun _ => Iff.rfl) rfl rfl (fun _ => id) (hpass hpv)
  | false =>
    rw [hpv, if_neg Bool.false_ne_true] at hs
    subst hs
    exact (h.log (hfound hpv)).stay hi (fun _ => Iff.rfl) rfl rfl (fun _ => id) trivial

theorem Inv.runBackRead {v : T} {new : A} (h : Inv s pre post) (hi : s.loc i = .backRead v new)
    (hq : s.strays i = false) (hs : s.run i = some s') : Inv s' pre post := by
  have hne : pre ≠ [] := by
    intro he
    rw [SharedList.strays, hi, h.tail, he] at hq
    cases hq
  have hlast : SafeList.last s.list.head pre ∈ pre.map Prod.fst := by
    obtain ⟨front, c, rfl⟩ := (List.eq_nil_or_concat' pre).resolve_left hne
    rw [SafeList.last_concat]
    simp
  obtain ⟨node, hnode⟩ := Option.ne_none_iff_exists'.mp (h.memory.allocated (by
    rw [List.map_append]
    exact List.mem_cons_of_mem _ (List.mem_append_left _ hlast)))
  simp only [SharedList.run, hi, h.tail_eq hne, access_eq hnode, Option.some.injEq] at hs
  subst hs
  exact h.stay hi (fun _ => Iff.rfl) rfl rfl (fun _ => id) hlast

theorem Inv.run (h : Inv s pre post) (hq : s.removes i = false) (hq' : s.strays i = false)
    (hs : s.run i = some s') : ∃ pre' post', Inv s' pre' post' := by
  have hp := h.place i
  have hrun := hs
  cases hi : s.loc i with
  | idle => simp only [SharedList.run, hi] at hs; cases hs
  | frontLock v new =>
    simp only [SharedList.run, hi] at hs
    exact ⟨pre, post, h.lock hi hs (by simp [Loc.locks]) rfl rfl (fun _ => id) trivial⟩
  | frontTake v new =>
    have hhead := h.memory.root (h.untaken (i := i) (by rw [hi]; exact List.mem_cons_self)
      (by rw [hi]; rfl))
    simp only [SharedList.run, hi, access_eq hhead, Option.some.injEq] at hs
    subst hs
    exact ⟨pre, post, h.frontTake hi⟩
  | frontLink v new =>
    have hhead := h.memory.bare i (by rw [hi]; rfl)
    simp only [SharedList.run, hi, access_eq hhead, Option.some.injEq] at hs
    subst hs
    exact h.frontLink hi
  | frontTest => exact ⟨pre, post, h.runFrontTest hi hrun⟩
  | frontGlobal =>
    rw [hi] at hp
    simp only [SharedList.run, hi] at hs
    exact ⟨pre, post, h.lock hi hs (fun m => by simp [Loc.locks, or_comm]) rfl rfl
      (fun _ => id) hp⟩
  | frontTail => exact ⟨_, _, h.runFrontTail hi hrun⟩
  | frontGlobalUnlock =>
    simp only [SharedList.run, hi, Option.some.injEq] at hs
    subst hs
    exact ⟨pre, post, h.unlock hi (by simp [Loc.locks]) (fun m => by
      cases m <;> simp [Loc.locks]) rfl rfl (fun _ => id) trivial⟩
  | frontUnlock =>
    simp only [SharedList.run, hi, Option.some.injEq] at hs
    subst hs
    exact ⟨pre, post, h.unlock hi List.mem_cons_self (fun m => by simp [Loc.locks]) rfl rfl
      (fun _ => id) trivial⟩
  | backRead v new => exact ⟨pre, post, h.runBackRead hi hq' hrun⟩
  | backLock v new tail =>
    rw [hi] at hp
    simp only [SharedList.run, hi] at hs
    exact ⟨pre, post, h.lock hi hs (by simp [Loc.locks]) rfl rfl (fun _ => id) hp⟩
  | backGlobal v new tail =>
    rw [hi] at hp
    simp only [SharedList.run, hi] at hs
    exact ⟨pre, post, h.lock hi hs (fun m => by simp [Loc.locks, or_comm]) rfl rfl
      (fun _ => id) hp⟩
  | backLink v new tail =>
    obtain ⟨a, d, ht, hd, hinv⟩ := h.backLink hi
    simp only [SharedList.run, hi, ht, access_eq hd, Option.some.injEq] at hs
    subst hs
    exact hinv
  | backDestroy tail old =>
    rw [hi] at hp
    obtain ⟨hm, hne, rfl⟩ := hp
    simp only [SharedList.run, hi, Node.destroyTurn, Option.some.injEq] at hs
    subst hs
    exact ⟨pre, post, h.stay hi (fun _ => Iff.rfl) rfl rfl (fun _ => id) ⟨hm, hne⟩⟩
  | backTail tail => exact ⟨_, _, h.runBackTail hi hrun⟩
  | backGlobalUnlock tail =>
    simp only [SharedList.run, hi, Option.some.injEq] at hs
    subst hs
    exact ⟨pre, post, h.unlock hi (by simp [Loc.locks]) (fun m => by
      cases m <;> simp [Loc.locks]) rfl rfl (fun _ => id) trivial⟩
  | backUnlock tail =>
    simp only [SharedList.run, hi, Option.some.injEq] at hs
    subst hs
    exact ⟨pre, post, h.unlock hi List.mem_cons_self (fun m => by simp [Loc.locks]) rfl rfl
      (fun _ => id) trivial⟩
  | walkLock visitor =>
    simp only [SharedList.run, hi] at hs
    refine ⟨pre, post, h.lock hi hs (by simp [Loc.locks]) rfl rfl (fun _ => id) ?_⟩
    refine ⟨[], pre ++ post, rfl, rfl, fun _ => rfl, ?_, List.suffix_refl _, ?_, by simp⟩
    · intro a ha
      cases ha
      exact List.mem_cons_self
    · rw [h.values]
      exact List.prefix_refl _
  | walkNext w => exact ⟨pre, post, h.runWalkNext hi hrun⟩
  | walkLockNext w next =>
    rw [hi] at hp
    simp only [SharedList.run, hi] at hs
    exact ⟨pre, post, h.lock hi hs (by simp [Loc.locks]) rfl rfl (fun _ => id) hp⟩
  | walkInside w next => exact ⟨pre, post, h.runWalkInside hi hq hrun⟩
  | walkCall w next =>
    rw [hi] at hp
    obtain ⟨hw, hp⟩ := hp
    obtain ⟨v, q, hv, -, hpass, -⟩ := h.facing hp
    simp only [SharedList.run, hi, value_eq hv, Option.some.injEq] at hs
    subst hs
    refine ⟨pre, post, h.stay hi (by simp [Loc.locks, Walk.moveTo]) rfl rfl (fun _ => id) ?_⟩
    exact (hpass (by rw [hw]; rfl)).moveTo (.inr rfl)
  | walkProbe w next => exact ⟨pre, post, h.runWalkProbe hi hrun⟩
  | walkPass w next =>
    rw [hi] at hp
    simp only [SharedList.run, hi, Option.some.injEq] at hs
    subst hs
    exact ⟨pre, post, h.unlockIf hi (fun a ha => by simp [Loc.locks, ha])
      (locks_release (Passing.ne hp h.memory.nodup)) rfl rfl (fun _ => id)
      (Passing.moveTo hp (.inr rfl))⟩
  | walkDrop w next =>
    rw [hi] at hp
    simp only [SharedList.run, hi, Option.some.injEq] at hs
    subst hs
    refine ⟨pre, post, h.unlockIf hi (fun a ha => by simp [Loc.locks, ha]) (fun m => ?_) rfl rfl
      (fun _ => id) (Passing.moveTo hp (.inl rfl))⟩
    cases hl : w.lock <;> simp [Loc.locks, Walk.moveTo, hl]
  | walkEnd w =>
    simp only [SharedList.run, hi, Option.some.injEq] at hs
    subst hs
    refine ⟨pre, post, h.unlockIf hi (fun a ha => by simp [Loc.locks, ha]) (fun m => ?_) rfl rfl
      (fun _ => id) trivial⟩
    cases hl : w.lock <;> simp [Loc.locks, hl]

theorem Inv.call {op : Op A T} (h : Inv s pre post) (hs : s.call i op = some s') :
    Inv s' pre post := by
  cases hi : s.loc i with
  | idle =>
    cases op with
    | push push new =>
      cases hn : s.list.heap.nodes new with
      | some node => simp only [SharedList.call, hi, hn] at hs; cases hs
      | none =>
        simp only [SharedList.call, hi, hn, Option.some.injEq] at hs
        subst hs
        exact h.alloc hi hn
    | visit visitor =>
      simp only [SharedList.call, hi, Option.some.injEq] at hs
      subst hs
      exact h.stay hi (fun _ => Iff.rfl) rfl rfl (fun _ => id) trivial
  | _ => simp only [SharedList.call, hi] at hs; cases hs

end

end Cxx.ListThreads
