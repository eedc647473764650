import Cxx.DataStruct.ListWalks

/-!
# `SafeList` shared by threads: results

For the runs in which no removal finds an element, and no `pushBack` comes before
`tail_` has been set:

* `list_pushes`: the pushes take effect one after another, and none is lost.
* `list_visits`: a visit goes through the elements in order, and misses none of
  those there are at its start.
* `list_progress`: there is no deadlock.
-/
namespace Cxx.ListThreads

variable {ι A T : Type}

/-! ### The log -/

/-- A step that links nothing. -/
structure Quiet (s s' : SharedList ι A T) : Prop where
  values : s'.values = s.values
  linked : s'.linked = s.linked
  called : s'.called = s.called
  fresh : ∀ j, (s'.loc j).fresh = (s.loc j).fresh

/-- A step that links the new node of the thread. -/
structure Links (s s' : SharedList ι A T) (i : ι) (push : Push T) : Prop where
  before : (s.loc i).fresh.map Prod.snd = some push
  after : (s'.loc i).fresh = none
  others : ∀ j, j ≠ i → s'.loc j = s.loc j
  values : s'.values = push.apply s.values
  linked : s'.linked = s.linked ++ [(i, push)]
  called : s'.called = s.called

def Logs (s s' : SharedList ι A T) (i : ι) : Prop := Quiet s s' ∨ ∃ push, Links s s' i push

section
variable {s s' : SharedList ι A T} {i j : ι} {x y : Loc A T} {m : Mutex A} {a : Option A}

/-- What an access to a node leads to. -/
theorem access_cases {P : SharedList ι A T → Prop} {f : A → Node A T → SharedList ι A T}
    (hfail : P s.fail) (h : ∀ b node, a = some b → P (f b node)) : P (s.access a f) := by
  unfold SharedList.access
  split
  · exact hfail
  · split
    · exact hfail
    · exact h _ _ rfl

theorem value_cases {P : SharedList ι A T → Prop} {b : A} {f : T → SharedList ι A T}
    (hfail : P s.fail) (h : ∀ v, P (f v)) : P (s.value b f) := by
  refine access_cases hfail fun _ node _ => ?_
  split
  · exact hfail
  · exact h _

theorem logs_fail : Logs s s.fail i := .inl ⟨rfl, rfl, rfl, fun _ => rfl⟩

theorem logs_access {f : A → Node A T → SharedList ι A T} (h : ∀ b node, Logs s (f b node) i) :
    Logs s (s.access a f) i :=
  access_cases (P := fun s' => Logs s s' i) logs_fail fun b node _ => h b node

theorem logs_value {b : A} {f : T → SharedList ι A T} (h : ∀ v, Logs s (f v) i) :
    Logs s (s.value b f) i :=
  value_cases (P := fun s' => Logs s s' i) logs_fail h

variable [DecidableEq ι]

theorem logs_goto {list : SafeList A T} {owner : Mutex A → Option ι} {visits : List (Visit T)}
    (hi : s.loc i = y) (hx : x.fresh = y.fresh) :
    Logs s (SharedList.goto { s with list, owner, visits } i x) i :=
  .inl ⟨rfl, rfl, rfl, Threads.forall_update (Q := fun j z => Loc.fresh z = (s.loc j).fresh)
    (by rw [hi, hx]) fun _ _ => rfl⟩

variable [DecidableEq A]

theorem logs_lock (h : s.lock i m x = some s') (hi : s.loc i = y) (hx : x.fresh = y.fresh) :
    Logs s s' i := by
  obtain ⟨-, rfl⟩ := lock_eq_some.mp h
  exact logs_goto hi hx

theorem logs_unlockIf (hi : s.loc i = y) (hx : x.fresh = y.fresh) :
    Logs s (s.unlockIf i a x) i := by
  cases a <;> exact logs_goto hi hx

theorem logs_link {push : Push T} {new b : A} {node : Node A T} (hi : s.loc i = y)
    (hy : y.fresh = some (new, push)) (hx : x.fresh = none) :
    Logs s (((s.write b node).link i push).goto i x) i := by
  refine .inr ⟨push, ?_, ?_, ?_, rfl, rfl, rfl⟩
  · rw [hi, hy]; rfl
  · rw [goto_loc, Function.update_self, hx]
  · intro j hj
    rw [goto_loc, Function.update_of_ne hj]; rfl

/-- Every step links nothing, or the new node of the thread. -/
theorem logs_run (h : s.run i = some s') : Logs s s' i := by
  cases hi : s.loc i with
  | idle => simp only [SharedList.run, hi] at h; cases h
  | frontLock v new | frontGlobal | backLock v new tail | backGlobal v new tail | walkLock visitor
  | walkLockNext w next =>
    simp only [SharedList.run, hi] at h
    exact logs_lock h hi rfl
  | frontLink v new =>
    simp only [SharedList.run, hi, Option.some.injEq] at h
    subst h
    exact logs_access fun _ _ => logs_link hi rfl rfl
  | backLink v new tail =>
    simp only [SharedList.run, hi, Option.some.injEq] at h
    subst h
    exact logs_access fun _ _ => logs_link hi rfl rfl
  | frontTest =>
    simp only [SharedList.run, hi, Option.some.injEq] at h
    subst h
    refine logs_access fun _ _ => logs_access fun _ node => ?_
    split <;> exact logs_goto hi rfl
  | frontTake v new | frontTail | backRead v new | backTail tail =>
    simp only [SharedList.run, hi, Option.some.injEq] at h
    subst h
    exact logs_access fun _ _ => logs_goto hi rfl
  | frontGlobalUnlock | frontUnlock | backGlobalUnlock tail | backUnlock tail =>
    simp only [SharedList.run, hi, Option.some.injEq] at h
    subst h
    exact logs_goto hi rfl
  | backDestroy tail old =>
    simp only [SharedList.run, hi] at h
    split at h
    · cases h; exact logs_goto hi rfl
    · cases h; exact logs_goto hi rfl
    · cases h; exact logs_fail
  | walkNext w =>
    simp only [SharedList.run, hi, Option.some.injEq] at h
    subst h
    refine logs_access fun _ node => ?_
    split <;> exact logs_goto hi rfl
  | walkInside w next =>
    simp only [SharedList.run, hi] at h
    split at h
    · cases h; exact logs_unlockIf hi rfl
    · cases h; exact logs_goto hi rfl
    · cases h
      refine logs_value fun v => ?_
      split
      · exact logs_goto hi rfl
      · exact logs_fail
  | walkCall w next =>
    simp only [SharedList.run, hi, Option.some.injEq] at h
    subst h
    exact logs_value fun v => logs_goto hi rfl
  | walkProbe w next =>
    simp only [SharedList.run, hi, Option.some.injEq] at h
    subst h
    refine logs_value fun v => ?_
    split <;> exact logs_goto hi rfl
  | walkPass w next | walkDrop w next | walkEnd w =>
    simp only [SharedList.run, hi, Option.some.injEq] at h
    subst h
    exact logs_unlockIf hi rfl

theorem logs_call {op : Op A T} (h : s.call i op = some s') : s.loc i = .idle ∧
    ((∃ visitor, op = .visit visitor ∧ Quiet s s') ∨
    (∃ push new, op = .push push new ∧ (s'.loc i).fresh = some (new, push) ∧
      (∀ j, j ≠ i → s'.loc j = s.loc j) ∧ s'.values = s.values ∧ s'.linked = s.linked ∧
      s'.called = Function.update s.called i (s.called i ++ [push]))) := by
  cases hi : s.loc i with
  | idle =>
    refine ⟨rfl, ?_⟩
    cases op with
    | visit visitor =>
      simp only [SharedList.call, hi, Option.some.injEq] at h
      subst h
      refine .inl ⟨visitor, rfl, rfl, rfl, rfl, ?_⟩
      exact Threads.forall_update (Q := fun j z => Loc.fresh z = (s.loc j).fresh) (by rw [hi]; rfl)
        fun _ _ => rfl
    | push push new =>
      cases hn : s.list.heap.nodes new with
      | some node => simp only [SharedList.call, hi, hn] at h; cases h
      | none =>
        simp only [SharedList.call, hi, hn, Option.some.injEq] at h
        subst h
        refine .inr ⟨push, new, rfl, ?_, ?_, rfl, rfl, rfl⟩
        · rw [goto_loc, Function.update_self]
          exact (start_spec [] [] push new s.list.head).2.1
        · intro j hj
          rw [goto_loc, Function.update_of_ne hj]; rfl
  | _ => simp only [SharedList.call, hi] at h; cases h

end

/-! ### The order of the mutexes -/

section
variable [DecidableEq A] {s : SharedList ι A T} {i : ι}

/-- The place of a mutex in the order in which the threads lock them. -/
def rank (nodes : List A) : Mutex A → Nat
  | .node a => nodes.idxOf a
  | .global => nodes.length + 1

theorem Inv.ordered {pre post : List (A × T)} (h : Inv s pre post) {m m' : Mutex A}
    (hw : (s.loc i).wants s.list.head = some m) (hl : m' ∈ (s.loc i).locks s.list.head) :
    rank (s.list.head :: (pre ++ post).map Prod.fst) m' <
      rank (s.list.head :: (pre ++ post).map Prod.fst) m := by
  have hglobal : ∀ a, rank (s.list.head :: (pre ++ post).map Prod.fst) (.node a) <
      rank (s.list.head :: (pre ++ post).map Prod.fst) .global := by
    intro a
    have : (s.list.head :: (pre ++ post).map Prod.fst).idxOf a ≤ _ := List.idxOf_le_length
    simp only [rank]
    omega
  have hp := h.place i
  cases hx : s.loc i with
  | frontGlobal =>
    rw [hx] at hw hl
    cases hw
    cases List.mem_singleton.mp hl
    exact hglobal _
  | backGlobal v new tail =>
    rw [hx] at hw hl
    cases hw
    cases List.mem_singleton.mp hl
    exact hglobal _
  | walkLockNext w next =>
    rw [hx] at hw hl hp
    cases hw
    obtain ⟨before, v, rest, hc, hbelow, -⟩ := hp
    have hn := h.memory.nodup
    rw [hc, List.map_append, List.map_cons, ← List.cons_append] at hn ⊢
    obtain ⟨a, ha, rfl⟩ := List.mem_map.mp hl
    have hbefore := hbelow a (Option.mem_toList.mp ha)
    have hnext : next ∉ s.list.head :: before.map Prod.fst := fun hm =>
      (List.nodup_append.mp hn).2.2 next hm next List.mem_cons_self rfl
    simp only [rank]
    rw [List.idxOf_append_of_mem hbefore, List.idxOf_append_of_notMem hnext]
    have := List.idxOf_lt_length_iff.mpr hbefore
    omega
  | _ => rw [hx] at hw hl; first | (cases hw; done) | cases hl

end

/-! ## Results -/

section
variable {s s' : SharedList ι A T} {i : ι}

/-- Without a call the list is one as calls one after another build. -/
theorem Inv.holds {pre post : List (A × T)} (h : Inv s pre post) (hidle : ∀ i, s.loc i = .idle) :
    s.list.Holds pre ∧ pre.map Prod.snd = s.values := by
  have hpost : post = [] := by
    by_contra hne
    obtain ⟨j, hj⟩ := h.behind hne
    rw [hidle j] at hj
    exact hj
  subst hpost
  have hm := h.memory
  rw [List.append_nil] at hm
  refine ⟨⟨hm.chain fun i => by rw [hidle i]; rfl, hm.nodup, ?_, h.sound⟩, ?_⟩
  · intro a ha
    rcases hm.alive a ha with hmem | ⟨j, push, hj⟩
    · exact hmem
    · rw [hidle j] at hj; cases hj
  · rw [h.values, List.append_nil]

theorem inv_new [DecidableEq A] (head : A) : Inv (SharedList.new head : SharedList ι A T) [] [] := by
  have hh : (SafeList.new head : SafeList A T).Holds [] := SafeList.holds_new head
  constructor
  · exact Locks.owned_init fun _ => rfl
  · constructor
    · exact hh.linked.2
    · exact fun _ => hh.linked.1
    · intro _ hj; cases hj
    · exact hh.nodup
    · intro _ _ _ hj; cases hj
    · intro _ _ _ hj; cases hj
    · exact fun a ha => .inl (hh.alive a ha)
  · rfl
  · exact Nat.zero_le 1
  · exact fun hne => absurd rfl hne
  · exact fun _ => trivial
  · rfl
  · intro _ hx; cases hx
  · rfl

variable [DecidableEq ι]

/-- The elements are what the pushes that have been linked make of the empty list;
each thread has linked what it has called, but for its new node. -/
structure Logged (s : SharedList ι A T) : Prop where
  applied : s.values = (s.linked.map Prod.snd).foldl (fun values push => push.apply values) []
  called : ∀ i, s.called i = (s.linked.filter fun c => decide (c.1 = i)).map Prod.snd ++
    ((s.loc i).fresh.map Prod.snd).toList

theorem Logged.quiet (h : Logged s) (hq : Quiet s s') : Logged s' where
  applied := by rw [hq.values, hq.linked]; exact h.applied
  called := by
    intro j
    rw [hq.called, hq.linked, hq.fresh j]
    exact h.called j

theorem Logged.links {push : Push T} (h : Logged s) (hl : Links s s' i push) : Logged s' where
  applied := by
    rw [hl.values, hl.linked, List.map_append, List.foldl_append, ← h.applied]; rfl
  called := by
    intro j
    rw [hl.called, hl.linked, h.called j, List.filter_append, List.map_append]
    by_cases hj : j = i
    · subst hj
      rw [hl.before, hl.after]
      simp
    · rw [hl.others j hj]
      simp [Ne.symm hj]

variable [DecidableEq A]

theorem shared_inductive : ((sharedList ι A T).restrict Keeps).Inductive fun s =>
    ∃ pre post, Inv s pre post := by
  constructor
  · rintro s ⟨head, rfl⟩
    exact ⟨[], [], inv_new head⟩
  · rintro s l s' ⟨pre, post, h⟩ ⟨hs, hk⟩
    cases l with
    | call i op => exact ⟨pre, post, h.call hs⟩
    | run i => exact h.run hk.1 hk.2 hs

theorem logged_inductive : (sharedList ι A T).Inductive Logged := by
  constructor
  · rintro s ⟨head, rfl⟩
    exact ⟨rfl, fun _ => rfl⟩
  · intro s l s' h hs
    cases l with
    | run i =>
      rcases logs_run hs with hq | ⟨push, hl⟩
      · exact h.quiet hq
      · exact h.links hl
    | call i op =>
      obtain ⟨hi, hcase⟩ := logs_call hs
      rcases hcase with ⟨visitor, rfl, hq⟩ | ⟨push, new, rfl, hfresh, hothers, hvalues, hlinked,
        hcalled⟩
      · exact h.quiet hq
      · refine ⟨by rw [hvalues, hlinked]; exact h.applied, fun j => ?_⟩
        rw [hcalled, hlinked]
        by_cases hj : j = i
        · subst hj
          rw [Function.update_self, hfresh, h.called j, hi]
          simp [Loc.fresh]
        · rw [Function.update_of_ne hj, hothers j hj]
          exact h.called j

/-- **Pushes.** As long as no removal has found an element, and no `pushBack` has come
before `tail_` was set, no pointer without a node is followed, and the pushes take
effect one after another: each thread's in its order, none lost, and none twice. -/
theorem list_pushes (h : ((sharedList ι A T).restrict Keeps).Reachable s) :
    s.list.fault = false ∧
      s.values = (s.linked.map Prod.snd).foldl (fun values push => push.apply values) [] ∧
      (∀ i, s.called i = (s.linked.filter fun c => decide (c.1 = i)).map Prod.snd ++
        ((s.loc i).fresh.map Prod.snd).toList) ∧
      ((∀ i, s.loc i = .idle) → ∃ cells, s.list.Holds cells ∧ cells.map Prod.snd = s.values ∧
        s.list.tail = cells.getLast?.map Prod.fst) := by
  have hlog := (logged_inductive.restrict Keeps).reachable s h
  obtain ⟨pre, post, hinv⟩ := shared_inductive.reachable s h
  refine ⟨hinv.sound, hlog.applied, hlog.called, fun hidle => ?_⟩
  obtain ⟨hholds, hvalues⟩ := hinv.holds hidle
  exact ⟨pre, hholds, hvalues, hinv.tail⟩

/-- **Visits.** Next to the pushes, a visit goes through the elements there are when it
locks `head_`, in order, and goes on to those pushed to the back meanwhile. -/
theorem list_visits (h : ((sharedList ι A T).restrict Keeps).Reachable s) :
    ∀ x ∈ s.visits, x.Sound := by
  obtain ⟨pre, post, hinv⟩ := shared_inductive.reachable s h
  exact hinv.visits

/-! ### No deadlock -/

theorem run_of_not_blocked (hi : s.loc i ≠ .idle)
    (hb : ¬ Locks.Blocked (Loc.wants s.list.head) s.owner (s.loc i)) :
    ∃ s', s.run i = some s' := by
  have hlock : ∀ {m : Mutex A} {x : Loc A T}, (s.loc i).wants s.list.head = some m →
      ∃ s', s.lock i m x = some s' := by
    intro m x hm
    cases ho : s.owner m with
    | none => exact ⟨_, lock_eq_some.mpr ⟨ho, rfl⟩⟩
    | some j => exact absurd ⟨m, hm, by rw [ho]; simp⟩ hb
  cases hx : s.loc i with
  | idle => exact absurd hx hi
  | frontLock v new | frontGlobal | backLock v new tail | backGlobal v new tail | walkLock visitor
  | walkLockNext w next =>
    simp only [SharedList.run, hx]
    exact hlock (by rw [hx]; rfl)
  | backDestroy tail old =>
    simp only [SharedList.run, hx]
    split <;> exact ⟨_, rfl⟩
  | walkInside w next =>
    simp only [SharedList.run, hx]
    split <;> exact ⟨_, rfl⟩
  | _ =>
    simp only [SharedList.run, hx]
    exact ⟨_, rfl⟩

/-- **No deadlock.** Whenever a call has not come to its end, some thread can take a
step. -/
theorem list_progress [Fintype ι] (h : ((sharedList ι A T).restrict Keeps).Reachable s)
    (hi : s.loc i ≠ .idle) : ∃ j s', s.run j = some s' := by
  obtain ⟨pre, post, hinv⟩ := shared_inductive.reachable s h
  rcases hinv.owned.progress (Loc.wants s.list.head) _
    (fun i m m' hw hl => hinv.ordered hw hl) i with hb | ⟨j, hj, hb⟩
  · exact ⟨i, run_of_not_blocked hi hb⟩
  · refine ⟨j, run_of_not_blocked (fun he => hj ?_) hb⟩
    rw [he]; rfl

end

/-! ### Runs of two threads -/

/-- One element is pushed, and a thread walks to it while another pushes at both ends. -/
def pushWhileWalking : List (Label Bool Nat Nat) :=
  .call true (.push (.front 3) 9) :: List.replicate 8 (.run true) ++
    .call false (.visit .forEach) :: List.replicate 2 (.run false) ++
    .call true (.push (.back 7) 2) :: List.replicate 8 (.run true) ++
    List.replicate 2 (.run false) ++
    .call true (.push (.front 5) 1) :: List.replicate 5 (.run true) ++
    List.replicate 7 (.run false)

/-- A step that `Keeps` allows. -/
def keepsStep (s : SharedList Bool Nat Nat) (l : Label Bool Nat Nat) :
    Option (SharedList Bool Nat Nat) :=
  (s.step l).filter fun s' => decide (Keeps s l s')

theorem reachable_of_keeps {ls : List (Label Bool Nat Nat)} {s : SharedList Bool Nat Nat}
    (h : LTS.exec keepsStep (.new 0) ls = some s) :
    ((sharedList Bool Nat Nat).restrict Keeps).Reachable s :=
  ⟨_, ls, ⟨0, rfl⟩, LTS.run_restrict_of_exec h⟩

theorem list_pushes_while_walking : ∃ s : SharedList Bool Nat Nat,
    ((sharedList Bool Nat Nat).restrict Keeps).Reachable s ∧
      s.linked = [(true, .front 3), (true, .back 7), (true, .front 5)] ∧
      s.called true = [.front 3, .back 7, .front 5] ∧ s.values = [5, 3, 7] ∧
      ∃ cells, s.list.Holds cells ∧ cells.map Prod.snd = [5, 3, 7] := by
  have hrun : ∃ s : SharedList Bool Nat Nat, LTS.exec keepsStep (.new 0) pushWhileWalking = some s ∧
      s.linked = [(true, .front 3), (true, .back 7), (true, .front 5)] ∧
      s.loc false = .idle ∧ s.loc true = .idle := ⟨_, rfl, rfl, rfl, rfl⟩
  obtain ⟨s, he, hl, h0, h1⟩ := hrun
  have hr := reachable_of_keeps he
  obtain ⟨-, hvalues, hcalled, hholds⟩ := list_pushes hr
  have hv : s.values = [5, 3, 7] := by rw [hvalues, hl]; rfl
  have hidle : ∀ i, s.loc i = .idle := by
    intro i
    cases i with
    | false => exact h0
    | true => exact h1
  obtain ⟨cells, hcells, hmap, -⟩ := hholds hidle
  exact ⟨s, hr, hl, by rw [hcalled true, hl, h1]; rfl, hv, cells, hcells, hmap.trans hv⟩

theorem list_visits_while_pushing : ∃ s : SharedList Bool Nat Nat,
    ((sharedList Bool Nat Nat).restrict Keeps).Reachable s ∧
      ∃ x ∈ s.visits, x.start = [3] ∧ x.seen = [3, 7] ∧ x.finish = [5, 3, 7] ∧ x.Sound := by
  have hrun : ∃ s : SharedList Bool Nat Nat, LTS.exec keepsStep (.new 0) pushWhileWalking = some s ∧
      s.visits = [⟨.forEach, [3], [3, 7], none, [5, 3, 7]⟩] := ⟨_, rfl, rfl⟩
  obtain ⟨s, he, hv⟩ := hrun
  have hr := reachable_of_keeps he
  have hmem : (⟨.forEach, [3], [3, 7], none, [5, 3, 7]⟩ : Visit Nat) ∈ s.visits := by
    rw [hv]; exact List.mem_cons_self
  exact ⟨s, hr, _, hmem, rfl, rfl, rfl, list_visits hr _ hmem⟩

/-- A thread has locked the last node, and another waits for it. -/
def waitForLast : List (Label Bool Nat Nat) :=
  .call true (.push (.front 3) 9) :: List.replicate 8 (.run true) ++
    .call true (.push (.back 7) 2) :: List.replicate 2 (.run true) ++
    .call false (.visit .forEach) :: List.replicate 2 (.run false)

theorem list_progress_waiting : ∃ s : SharedList Bool Nat Nat,
    ((sharedList Bool Nat Nat).restrict Keeps).Reachable s ∧ s.run false = none ∧
      ∃ j s', s.run j = some s' := by
  have hrun : ∃ s : SharedList Bool Nat Nat, LTS.exec keepsStep (.new 0) waitForLast = some s ∧
      s.run false = none ∧ s.loc true = .backGlobal 7 2 9 := ⟨_, rfl, rfl, rfl⟩
  obtain ⟨s, he, h0, h1⟩ := hrun
  have hr := reachable_of_keeps he
  exact ⟨s, hr, h0, list_progress hr (i := true) (by rw [h1]; simp)⟩

end Cxx.ListThreads
