import Cxx.DataStruct.TwoLockQueue

/-!
# `SafeQueueEnhance` when a copy throws

`pop` has moved `head_` into `old_head` when it copies the element into the
caller's variable. If the copy throws, `old_head` is destroyed on the way out,
and with it all that it owns.

* `failing_pop`: that is the whole queue, the node at `tail_` included.
-/
namespace Cxx.TwoLock

variable {ι A T : Type}

/-- The elements in the queue: `head_` leads through them to the node at `tail_`. -/
def SafeQueueEnhance.Holds (s : SafeQueueEnhance ι A T) (elements : List T) : Prop :=
  ∃ front, s.head = some (front.headD s.tail) ∧ Node.Chain s.heap front elements s.tail ∧
    s.heap s.tail ≠ none

section
variable {s s' : SafeQueueEnhance ι A T} {front : List A} {vs : List T} {i : ι} {old : Option A}

/-- What `old_head` owns: the chain to the tail, and what a push has linked to it. -/
theorem Inv.old_owns (h : Inv s front vs) (hi : s.loc i = .read old) : ∃ a d cells,
    old = some a ∧ Node.Linked s.heap ((a, d) :: cells) ∧
      (((a, d) :: cells).map Prod.fst).Nodup ∧ s.tail ∈ cells.map Prod.fst := by
  obtain ⟨-, a, data, rfl, ha, -⟩ := h.read_at hi
  have howned := h.memory.owned i a (by rw [hi]; rfl)
  -- the tail and its successors
  have htail : ∃ d rest, Node.Linked s.heap ((s.tail, d) :: rest) ∧
      (front ++ s.tail :: rest.map Prod.fst).Nodup ∧ a ∉ rest.map Prod.fst := by
    rcases h.tail_cases with ht | ⟨k, data', new, -, hk⟩
    · exact ⟨none, [], ⟨ht, trivial⟩, h.memory.nodup, nofun⟩
    · rcases hk with ⟨-, ht⟩ | ⟨hk, ht, hnew⟩
      · exact ⟨some data', [], ⟨ht, trivial⟩, h.memory.nodup, nofun⟩
      · have hfresh := h.memory.owned k new (by rw [hk]; rfl)
        refine ⟨some data', [(new, none)], ⟨ht, hnew, trivial⟩, ?_, ?_⟩
        · rw [List.append_cons]
          refine List.nodup_append.mpr ⟨h.memory.nodup, List.nodup_singleton _, ?_⟩
          intro b hb c hc he
          have he : b = new := he.trans (List.mem_singleton.mp hc)
          exact hfresh.2 (he ▸ hb)
        · -- the old head is not the new node of a push
          intro hmem
          have he : a = new := List.mem_singleton.mp hmem
          have hik : i = k := h.memory.alone i k a (by rw [hi]; rfl) (by rw [hk, he]; rfl)
          rw [hik, hk] at hi
          cases hi
  obtain ⟨d, rest, hl, hn, hrest⟩ := htail
  obtain ⟨cells, hcells, hlinked⟩ := h.memory.chain.linked hl
  have haddr : (cells ++ (s.tail, d) :: rest).map Prod.fst =
      front ++ s.tail :: rest.map Prod.fst := by
    rw [List.map_append, hcells]; rfl
  refine ⟨a, some data, cells ++ (s.tail, d) :: rest, rfl, ⟨?_, hlinked⟩, ?_, ?_⟩
  · rw [ha, ← hcells]
    cases cells <;> rfl
  · rw [List.map_cons, haddr, List.nodup_cons]
    refine ⟨fun hmem => ?_, hn⟩
    rw [List.append_cons] at hmem
    exact (List.mem_append.mp hmem).elim howned.2 hrest
  · rw [haddr]
    exact List.mem_append_right _ List.mem_cons_self

variable [DecidableEq ι] [DecidableEq A]

/-- `data=*old_head->data` throws: `old_head` is destroyed, and the mutex released.
mirrors include/data_struct/SafeQueue.hpp:67-83 -/
def Throws (s : SafeQueueEnhance ι A T) (i : ι) (s' : SafeQueueEnhance ι A T) : Prop :=
  ∃ old heap, s.loc i = .read old ∧
    Loop.Returns Node.destroyTurn (⟨s.heap, []⟩, old) (some heap) ∧
    s' = SafeQueueEnhance.goto { s with heap := heap.nodes, mtHead := none } i .idle

/-- The way out of the copy ends, with the queue deleted. -/
theorem Inv.throws (h : Inv s front vs) (hi : s.loc i = .read old) :
    ∃ s', Throws s i s' ∧ s'.head = none ∧ s'.heap s'.tail = none ∧ s'.mtHead = none ∧
      s'.loc i = .idle ∧ ∀ s'', Throws s i s'' → s'' = s' := by
  obtain ⟨a, d, cells, rfl, hl, hn, htail⟩ := h.old_owns hi
  obtain ⟨hhead, -⟩ := h.read_at hi
  have hgo : Loop.Goes Node.destroyTurn ((⟨s.heap, []⟩ : Node.Heap A T), some a)
      ((⟨s.heap, []⟩ : Node.Heap A T).erase (((a, d) :: cells).map Prod.fst), none) :=
    Node.Linked.destroy hl hn
  have hret := hgo.returns rfl
  refine ⟨_, ⟨some a, _, hi, hret, rfl⟩, hhead, if_pos (List.mem_cons_of_mem _ htail), rfl,
    Function.update_self _ _ _, ?_⟩
  intro s'' hs
  obtain ⟨old', heap', hi', hret', rfl⟩ := hs
  cases hi.symm.trans hi'
  cases hret.unique hret'
  rfl

/-! ## What the calls after it do -/

/-- Four steps of `try_pop` through a null `head_`. -/
theorem tryPop_faults {j : ι} (hhead : s.head = none) (hm : s.mtHead = none)
    (hj : s.loc j = .idle) : ∃ t, (twoLockQueue ι A T).Run s
      [.call j .tryPop, .run j, .run j, .run j, .run j] t ∧ t.fault = true := by
  have hexec : ∃ t, LTS.exec SafeQueueEnhance.step s
      [.call j .tryPop, .run j, .run j, .run j, .run j] = some t ∧ t.fault = true := by
    simp [LTS.exec, SafeQueueEnhance.step, SafeQueueEnhance.call, SafeQueueEnhance.run,
      SafeQueueEnhance.goto, SafeQueueEnhance.access, hj, hm, hhead]
  obtain ⟨t, ht, hfault⟩ := hexec
  exact ⟨t, LTS.run_of_exec ht, hfault⟩

/-- Two steps of `push` through a dangling `tail_`. -/
theorem push_faults {j : ι} {data : T} {new : A} (htail : s.heap s.tail = none)
    (hm : s.mtTail = none) (hj : s.loc j = .idle) (hnew : s.heap new = none)
    (hne : new ≠ s.tail) : ∃ t, (twoLockQueue ι A T).Run s
      [.call j (.push data new), .run j, .run j] t ∧ t.fault = true := by
  have hexec : ∃ t, LTS.exec SafeQueueEnhance.step s
      [.call j (.push data new), .run j, .run j] = some t ∧ t.fault = true := by
    simp [LTS.exec, SafeQueueEnhance.step, SafeQueueEnhance.call, SafeQueueEnhance.run,
      SafeQueueEnhance.goto, SafeQueueEnhance.write, SafeQueueEnhance.access, hj, hm, hnew,
      Function.update_of_ne hne.symm, htail]
  obtain ⟨t, ht, hfault⟩ := hexec
  exact ⟨t, LTS.run_of_exec ht, hfault⟩

/-- **A copy that throws destroys the queue.** Whatever is in the queue, `head_` is
null after the exception, and the node at `tail_` has been deleted, so that the
queue holds nothing; the next `try_pop` and the next `push` go through these
pointers. -/
theorem failing_pop (s : SafeQueueEnhance ι A T) (h : (twoLockQueue ι A T).Reachable s) (i : ι)
    (old : Option A) (hi : s.loc i = .read old) :
    (∃ s', Throws s i s') ∧ (∃ v vs, s.pushed = s.popped ++ v :: vs) ∧
      ∀ s', Throws s i s' →
        (∀ elements, ¬ s'.Holds elements) ∧ s'.head = none ∧ s'.heap s'.tail = none ∧
        (∀ j, s'.loc j = .idle → ∃ t, (twoLockQueue ι A T).Run s'
          [.call j .tryPop, .run j, .run j, .run j, .run j] t ∧ t.fault = true) ∧
        (∀ j data new, s'.loc j = .idle → s'.mtTail = none → s'.heap new = none →
          new ≠ s'.tail → ∃ t, (twoLockQueue ι A T).Run s'
            [.call j (.push data new), .run j, .run j] t ∧ t.fault = true) := by
  obtain ⟨front, vs, hI⟩ := inv_inductive.reachable s h
  obtain ⟨s', hs', hhead, htail, hm, -, hunique⟩ := hI.throws hi
  refine ⟨⟨s', hs'⟩, ?_, fun s'' hs'' => ?_⟩
  · obtain ⟨-, -, v, -, -, hpushed⟩ := hI.read_at hi
    exact ⟨v, vs, hpushed⟩
  · obtain rfl := hunique s'' hs''
    refine ⟨fun elements hl => ?_, hhead, htail, fun j hj => tryPop_faults hhead hm hj,
      fun j data new hj hmt hnew hne => push_faults htail hmt hj hnew hne⟩
    obtain ⟨front', hh, -⟩ := hl
    rw [hhead] at hh
    cases hh

end

/-- Thread `false` pushes 5 and 6, and the copy of 5 by thread `true` is about to be made. -/
def popping : List (Label Bool Nat Nat) :=
  .call false (.push 5 1) :: List.replicate 5 (.run false) ++
    .call false (.push 6 2) :: List.replicate 5 (.run false) ++
    .call true .tryPop :: List.replicate 3 (.run true)

theorem popping_reads : ∃ s, (twoLockQueue Bool Nat Nat).Reachable s ∧
    s.pushed = [5, 6] ∧ s.popped = [] ∧ s.loc true = .read (some 0) := by
  have hrun : ∃ s : SafeQueueEnhance Bool Nat Nat,
      LTS.exec SafeQueueEnhance.step (.new 0) popping = some s ∧
        s.pushed = [5, 6] ∧ s.popped = [] ∧ s.loc true = .read (some 0) := ⟨_, rfl, rfl, rfl, rfl⟩
  obtain ⟨s, he, hs⟩ := hrun
  exact ⟨s, LTS.reachable_of_exec ⟨0, rfl⟩ he, hs⟩

theorem failing_pop_of_two : ∃ s s', (twoLockQueue Bool Nat Nat).Reachable s ∧
    s.pushed = [5, 6] ∧ Throws s true s' ∧ ∀ elements, ¬ s'.Holds elements := by
  obtain ⟨s, hr, hp, -, hloc⟩ := popping_reads
  obtain ⟨⟨s', hs'⟩, -, h⟩ := failing_pop s hr true (some 0) hloc
  exact ⟨s, s', hr, hp, hs', (h s' hs').1⟩

/-- The queue of 5 and 6 after a `try_pop` whose copy of 5 throws. -/
theorem queue_lost : ∃ s s', (twoLockQueue Bool Nat Nat).Reachable s ∧ s.pushed = [5, 6] ∧
    s.popped = [] ∧ Throws s true s' ∧ ¬ s'.Holds [5, 6] ∧ s'.head = none ∧
    s'.heap s'.tail = none ∧ ∃ t, (twoLockQueue Bool Nat Nat).Run s'
      [.call true .tryPop, .run true, .run true, .run true, .run true] t ∧ t.fault = true := by
  obtain ⟨s, hr, hp, ho, hloc⟩ := popping_reads
  obtain ⟨front, vs, hI⟩ := inv_inductive.reachable s hr
  obtain ⟨s', hs', hhead, htail, hm, hidle, -⟩ := hI.throws hloc
  refine ⟨s, s', hr, hp, ho, hs', fun hl => ?_, hhead, htail, tryPop_faults hhead hm hidle⟩
  obtain ⟨front', hh, -⟩ := hl
  rw [hhead] at hh
  cases hh

end Cxx.TwoLock
