import Cxx.Core.Chain
import Cxx.Core.Threads

/-!
# `SafeQueueEnhance`

Model of include/data_struct/SafeQueue.hpp:46-93, for any number of threads
that call `push`, `try_pop` and `wait_pop`. Nodes are at addresses of any
type, and an address may be used again when its node has been deleted. The
steps of an operation are its accesses to `head_`, `tail_` and the nodes; a
null or dangling pointer that is dereferenced is recorded as a `fault`.

* `Memory`, `Last`, `First`: what holds of the nodes, and at each place of a
  `push` and of a pop that holds its mutex.
* `two_lock_queue`: the queue refines a FIFO queue.
-/
namespace Cxx.TwoLock

variable {ι A T : Type}

/-- Where a thread is. -/
inductive Loc (A T : Type) where
  | idle
  /-- `push` has its new node, and is about to lock `mt_tail_`. -/
  | pushLock (data : T) (new : A)
  | pushFill (data : T) (new : A)
  | pushLink (data : T) (new : A)
  | pushAdvance (data : T) (new : A)
  | pushUnlock
  /-- `try_pop` or, with `wait`, `wait_pop` is about to lock `mt_head_`. -/
  | popLock (wait : Bool)
  | compare (wait : Bool)
  | move
  | read (old : Option A)
  | install (old : A)
  /-- the end of `pop`, where `old_head` is destroyed -/
  | destroy (old : A)
  | popUnlock
  deriving DecidableEq, Repr

inductive Op (A T : Type) where
  /-- A `push` whose new node is at `new`. -/
  | push (data : T) (new : A)
  | tryPop
  | waitPop
  deriving DecidableEq, Repr

structure SafeQueueEnhance (ι A T : Type) where
  heap : A → Option (Node A T)
  head : Option A
  tail : A
  mtHead : Option ι
  mtTail : Option ι
  loc : ι → Loc A T
  /-- The values pushed, in the order in which `tail_` was advanced, and those popped. -/
  pushed : List T
  popped : List T
  fault : Bool

section
variable [DecidableEq ι] [DecidableEq A]

def SafeQueueEnhance.new (dummy : A) : SafeQueueEnhance ι A T where
  heap := Function.update (fun _ => none) dummy (some .empty)
  head := some dummy
  tail := dummy
  mtHead := none
  mtTail := none
  loc := fun _ => .idle
  pushed := []
  popped := []
  fault := false

def SafeQueueEnhance.goto (s : SafeQueueEnhance ι A T) (i : ι) (x : Loc A T) :
    SafeQueueEnhance ι A T := { s with loc := Function.update s.loc i x }

/-- An access to a node, which has to be there. -/
def SafeQueueEnhance.access (s : SafeQueueEnhance ι A T) (a : Option A)
    (f : A → Node A T → SafeQueueEnhance ι A T) : SafeQueueEnhance ι A T :=
  match a with
  | none => { s with fault := true }
  | some a =>
    match s.heap a with
    | none => { s with fault := true }
    | some node => f a node

def SafeQueueEnhance.write (s : SafeQueueEnhance ι A T) (a : A) (node : Node A T) :
    SafeQueueEnhance ι A T := { s with heap := Function.update s.heap a (some node) }

/-- mirrors include/data_struct/SafeQueue.hpp:59-87 -/
def SafeQueueEnhance.run (s : SafeQueueEnhance ι A T) (i : ι) : Option (SafeQueueEnhance ι A T) :=
  match s.loc i with
  | .idle => none
  | .pushLock data new =>
    if s.mtTail = none then
      some (SafeQueueEnhance.goto { s with mtTail := some i } i (.pushFill data new))
    else none
  | .pushFill data new =>
    some (s.access (some s.tail) fun a node =>
      (s.write a { node with data := some data }).goto i (.pushLink data new))
  | .pushLink data new =>
    some (s.access (some s.tail) fun a node =>
      (s.write a { node with next := some new }).goto i (.pushAdvance data new))
  | .pushAdvance data new =>
    some (SafeQueueEnhance.goto { s with tail := new, pushed := s.pushed ++ [data] } i .pushUnlock)
  | .pushUnlock => some (SafeQueueEnhance.goto { s with mtTail := none } i .idle)
  | .popLock wait =>
    if s.mtHead = none then
      some (SafeQueueEnhance.goto { s with mtHead := some i } i (.compare wait))
    else none
  | .compare wait =>
    if s.head = some s.tail then
      -- the wait releases the mutex and evaluates its predicate again later
      if wait then some (SafeQueueEnhance.goto { s with mtHead := none } i (.popLock true))
      else some (s.goto i .popUnlock)
    else some (s.goto i .move)
  | .move => some (SafeQueueEnhance.goto { s with head := none } i (.read s.head))
  | .read old =>
    some (s.access old fun a node =>
      match node.data with
      | none => { s with fault := true }
      | some data => SafeQueueEnhance.goto { s with popped := s.popped ++ [data] } i (.install a))
  | .install old =>
    some (s.access (some old) fun a node =>
      SafeQueueEnhance.goto (SafeQueueEnhance.write { s with head := node.next } a
        { node with next := none }) i (.destroy a))
  | .destroy old =>
    some (SafeQueueEnhance.goto { s with heap := Function.update s.heap old none } i .popUnlock)
  | .popUnlock => some (SafeQueueEnhance.goto { s with mtHead := none } i .idle)

inductive Label (ι A T : Type) where
  | call (i : ι) (op : Op A T)
  | run (i : ι)
  deriving DecidableEq, Repr

/-- `new QueueNode` is at an address that is not in use. -/
def SafeQueueEnhance.call (s : SafeQueueEnhance ι A T) (i : ι) (op : Op A T) :
    Option (SafeQueueEnhance ι A T) :=
  match s.loc i, op with
  | .idle, .push data new =>
    match s.heap new with
    | none => some ((s.write new .empty).goto i (.pushLock data new))
    | some _ => none
  | .idle, .tryPop => some (s.goto i (.popLock false))
  | .idle, .waitPop => some (s.goto i (.popLock true))
  | _, _ => none

def SafeQueueEnhance.step (s : SafeQueueEnhance ι A T) :
    Label ι A T → Option (SafeQueueEnhance ι A T)
  | .call i op => s.call i op
  | .run i => s.run i

end

def twoLockQueue (ι A T : Type) [DecidableEq ι] [DecidableEq A] :
    LTS (SafeQueueEnhance ι A T) (Label ι A T) :=
  LTS.ofFn (fun s => ∃ dummy, s = .new dummy) SafeQueueEnhance.step

/-! ## What holds in every state -/

/-- Whether a thread holds `mt_head_`. -/
def Loc.inHead : Loc A T → Bool
  | .compare _ | .move | .read _ | .install _ | .destroy _ | .popUnlock => true
  | _ => false

/-- Whether a thread holds `mt_tail_`. -/
def Loc.inTail : Loc A T → Bool
  | .pushFill _ _ | .pushLink _ _ | .pushAdvance _ _ | .pushUnlock => true
  | _ => false

/-- The new node of a `push` that has not advanced `tail_`. -/
def Loc.fresh : Loc A T → Option A
  | .pushLock _ new | .pushFill _ new | .pushLink _ new | .pushAdvance _ new => some new
  | _ => none

/-- The node that a thread has to itself: its new one, or the old head. -/
def Loc.owns : Loc A T → Option A
  | .pushLock _ new | .pushFill _ new | .pushLink _ new | .pushAdvance _ new => some new
  | .read old => old
  | .install old | .destroy old => some old
  | _ => none

theorem Loc.not_inTail {x : Loc A T} (h : x.inHead = true) : x.inTail = false := by
  cases x <;> first | rfl | cases h

theorem Loc.not_inHead {x : Loc A T} (h : x.inTail = true) : x.inHead = false := by
  cases x <;> first | rfl | cases h

theorem owns_of_fresh {x : Loc A T} {a : A} (h : x.fresh = some a) : x.owns = some a := by
  cases x <;> first | exact h | cases h

/-- The nodes: a chain from the head to the tail, and what the threads own. -/
structure Memory (heap : A → Option (Node A T)) (tail : A) (loc : ι → Loc A T) (front : List A)
    (vs : List T) : Prop where
  chain : Node.Chain heap front vs tail
  nodup : (front ++ [tail]).Nodup
  last : heap tail ≠ none
  owned : ∀ i a, (loc i).owns = some a → heap a ≠ none ∧ a ∉ front ++ [tail]
  alone : Threads.Distinct Loc.owns loc
  fresh : ∀ i a, (loc i).fresh = some a → heap a = some .empty

/-- The tail, while a thread at `x` holds `mt_tail_`. -/
def Last (heap : A → Option (Node A T)) (tail : A) : Option (Loc A T) → Prop
  | some (.pushLink data _) => heap tail = some ⟨some data, none⟩
  | some (.pushAdvance data new) => heap tail = some ⟨some data, some new⟩
  | _ => heap tail = some .empty

/-- The head, while a thread at `x` holds `mt_head_`. -/
def First (heap : A → Option (Node A T)) (head : Option A) (tail : A) (pushed popped : List T)
    (front : List A) (vs : List T) : Option (Loc A T) → Prop
  | some .move => head = some (front.headD tail) ∧ pushed = popped ++ vs ∧ front ≠ []
  | some (.read old) => head = none ∧ ∃ a data, old = some a ∧
    heap a = some ⟨some data, some (front.headD tail)⟩ ∧ pushed = popped ++ data :: vs
  | some (.install old) => head = none ∧ pushed = popped ++ vs ∧
    ∃ data, heap old = some ⟨data, some (front.headD tail)⟩
  | _ => head = some (front.headD tail) ∧ pushed = popped ++ vs

structure Inv (s : SafeQueueEnhance ι A T) (front : List A) (vs : List T) : Prop where
  headMutex : Threads.Exclusive Loc.inHead s.mtHead s.loc
  tailMutex : Threads.Exclusive Loc.inTail s.mtTail s.loc
  memory : Memory s.heap s.tail s.loc front vs
  last : Last s.heap s.tail (Threads.held s.mtTail s.loc)
  first : First s.heap s.head s.tail s.pushed s.popped front vs (Threads.held s.mtHead s.loc)
  sound : s.fault = false

/-! ### The nodes -/

section
variable {heap : A → Option (Node A T)} {tail : A} {loc : ι → Loc A T} {front : List A}
  {vs : List T} {a b : A} {data : T} {node : Node A T} {i : ι} {x : Loc A T}

theorem Memory.allocated (h : Memory heap tail loc front vs) (ha : a ∈ front ++ [tail]) :
    heap a ≠ none := by
  rcases List.mem_append.mp ha with ha | ha
  · exact h.chain.allocated ha
  · rw [List.mem_singleton.mp ha]; exact h.last

section
variable [DecidableEq ι]

/-- A thread moves, and owns no more than before. -/
theorem Memory.move (h : Memory heap tail loc front vs)
    (ho : ∀ a, x.owns = some a → (loc i).owns = some a)
    (hf : ∀ a, x.fresh = some a → (loc i).fresh = some a) :
    Memory heap tail (Function.update loc i x) front vs := by
  have owns : ∀ j a, (Function.update loc i x j).owns = some a → (loc j).owns = some a :=
    Threads.forall_update (Q := fun j y => ∀ a, Loc.owns y = some a → (loc j).owns = some a) ho
      fun _ _ _ => id
  have fresh : ∀ j a, (Function.update loc i x j).fresh = some a → (loc j).fresh = some a :=
    Threads.forall_update (Q := fun j y => ∀ a, Loc.fresh y = some a → (loc j).fresh = some a) hf
      fun _ _ _ => id
  exact {
    chain := h.chain
    nodup := h.nodup
    last := h.last
    owned := fun j a ha => h.owned j a (owns j a ha)
    alone := h.alone.move ho
    fresh := fun j a ha => h.fresh j a (fresh j a ha) }

theorem Memory.drop (h : Memory heap tail loc front vs) (hx : x.owns = none) :
    Memory heap tail (Function.update loc i x) front vs := by
  apply h.move
  · intro a ha; rw [hx] at ha; cases ha
  · intro a ha; rw [owns_of_fresh ha] at hx; cases hx

/-- `tail_` is advanced to the new node behind it. -/
theorem Memory.advance (h : Memory heap tail loc front vs) (ho : (loc i).fresh = some b)
    (ht : heap tail = some ⟨some data, some b⟩) (hx : x.owns = none) :
    Memory heap b (Function.update loc i x) (front ++ [tail]) (vs ++ [data]) := by
  have hi := owns_of_fresh ho
  have hm := h.drop (i := i) hx
  refine ⟨h.chain.concat ht, ?_, (h.owned i b hi).1, ?_, hm.alone, hm.fresh⟩
  · rw [List.nodup_append]
    refine ⟨h.nodup, List.nodup_singleton b, ?_⟩
    intro a ha c hc he
    rw [List.mem_singleton] at hc
    subst hc; subst he
    exact (h.owned i a hi).2 ha
  · intro j a ha
    refine ⟨(hm.owned j a ha).1, fun hmem => ?_⟩
    rcases List.mem_append.mp hmem with hmem | hmem
    · exact (hm.owned j a ha).2 hmem
    · -- the new node was the thread's own
      rw [List.mem_singleton] at hmem
      subst hmem
      by_cases hj : j = i
      · subst hj; rw [Function.update_self, hx] at ha; cases ha
      · rw [Function.update_of_ne hj] at ha
        exact hj (h.alone j i a ha hi)

/-- The head node is taken out of the chain. -/
theorem Memory.take {v : T} (h : Memory heap tail loc (a :: front) (v :: vs)) (hx : x.owns = some a)
    (hf : x.fresh = none) (hi : (loc i).owns = none) :
    Memory heap tail (Function.update loc i x) front vs := by
  have hnodup : a ∉ front ++ [tail] ∧ (front ++ [tail]).Nodup := List.nodup_cons.mp h.nodup
  have hother : ∀ j, (loc j).owns ≠ some a := fun j hj => (h.owned j a hj).2 List.mem_cons_self
  refine ⟨h.chain.2, hnodup.2, h.last, ?_, ?_, ?_⟩
  · intro j b hb
    by_cases hj : j = i
    · subst hj
      rw [Function.update_self, hx] at hb
      cases hb
      exact ⟨h.chain.allocated List.mem_cons_self, hnodup.1⟩
    · rw [Function.update_of_ne hj] at hb
      exact ⟨(h.owned j b hb).1, fun hm => (h.owned j b hb).2 (List.mem_cons_of_mem _ hm)⟩
  · apply h.alone.gain
    intro b hb j _
    rw [hx] at hb
    cases hb
    exact hother j
  · intro j b hb
    by_cases hj : j = i
    · subst hj; rw [Function.update_self, hf] at hb; cases hb
    · rw [Function.update_of_ne hj] at hb
      exact h.fresh j b hb

end

variable [DecidableEq A]

/-- A write to a node that is not in front, and nobody's new one. -/
theorem Memory.write (h : Memory heap tail loc front vs) (hf : b ∉ front)
    (hn : ∀ j, (loc j).fresh ≠ some b) :
    Memory (Function.update heap b (some node)) tail loc front vs where
  chain := h.chain.congr fun a ha => by
    rw [Function.update_of_ne]
    intro he; subst he; exact hf ha
  nodup := h.nodup
  last := by
    by_cases ht : tail = b
    · subst ht; rw [Function.update_self]; simp
    · rw [Function.update_of_ne ht]; exact h.last
  owned := by
    intro j a ha
    refine ⟨?_, (h.owned j a ha).2⟩
    by_cases hab : a = b
    · subst hab; rw [Function.update_self]; simp
    · rw [Function.update_of_ne hab]; exact (h.owned j a ha).1
  alone := h.alone
  fresh := by
    intro j a ha
    have hab : a ≠ b := by intro he; subst he; exact hn j ha
    rw [Function.update_of_ne hab]
    exact h.fresh j a ha

variable [DecidableEq ι]

/-- A thread that owns nothing gets a new node. -/
theorem Memory.alloc (h : Memory heap tail loc front vs) (hb : heap b = none)
    (ho : x.owns = some b) :
    Memory (Function.update heap b (some .empty)) tail (Function.update loc i x) front vs := by
  have hne : ∀ a, heap a ≠ none → a ≠ b := by
    intro a ha he; subst he; exact ha hb
  have others : ∀ j, j ≠ i → (Function.update loc i x j) = loc j :=
    fun j hj => Function.update_of_ne hj x loc
  constructor
  · exact h.chain.congr fun a ha => Function.update_of_ne (hne a (h.chain.allocated ha)) _ _
  · exact h.nodup
  · rw [Function.update_of_ne (hne tail h.last)]; exact h.last
  · intro j a ha
    by_cases hj : j = i
    · subst hj
      rw [Function.update_self, ho] at ha
      cases ha
      exact ⟨by rw [Function.update_self]; simp, fun hm => h.allocated hm hb⟩
    · rw [others j hj] at ha
      have hold := h.owned j a ha
      rw [Function.update_of_ne (hne a hold.1)]
      exact hold
  · apply h.alone.gain
    intro a ha j _ hja
    rw [ho] at ha
    cases ha
    exact (h.owned j b hja).1 hb
  · intro j a ha
    by_cases hj : j = i
    · subst hj
      rw [Function.update_self] at ha
      have := (owns_of_fresh ha).symm.trans ho
      cases this
      rw [Function.update_self]
    · rw [others j hj] at ha
      rw [Function.update_of_ne (hne a (h.owned j a (owns_of_fresh ha)).1)]
      exact h.fresh j a ha

/-- A thread deletes the node it owns. -/
theorem Memory.free (h : Memory heap tail loc front vs) (ho : (loc i).owns = some a)
    (hx : x.owns = none) :
    Memory (Function.update heap a none) tail (Function.update loc i x) front vs := by
  have hm := h.drop (i := i) hx
  have hne : ∀ b ∈ front ++ [tail], b ≠ a := by
    intro b hb he; subst he; exact (h.owned i b ho).2 hb
  have hkeep : ∀ j b, (Function.update loc i x j).owns = some b → b ≠ a := by
    intro j b hb he
    subst he
    by_cases hj : j = i
    · subst hj; rw [Function.update_self, hx] at hb; cases hb
    · rw [Function.update_of_ne hj] at hb
      exact hj (h.alone j i b hb ho)
  refine ⟨?_, h.nodup, ?_, ?_, hm.alone, ?_⟩
  · exact h.chain.congr fun b hb => Function.update_of_ne (hne b (List.mem_append_left _ hb)) _ _
  · rw [Function.update_of_ne (hne tail (List.mem_append_right _ (List.mem_singleton_self _)))]
    exact h.last
  · intro j b hb
    rw [Function.update_of_ne (hkeep j b hb)]
    exact hm.owned j b hb
  · intro j b hb
    rw [Function.update_of_ne (hkeep j b (owns_of_fresh hb))]
    exact hm.fresh j b hb

end

/-! ### The head and the tail -/

section
variable {heap heap' : A → Option (Node A T)} {head : Option A} {tail : A} {pushed popped : List T}
  {front : List A} {vs : List T} {x : Option (Loc A T)}

theorem First.rest (h : First heap head tail pushed popped front vs x) :
    ∃ rest, pushed = popped ++ rest := by
  cases x with
  | none => exact ⟨vs, h.2⟩
  | some y =>
    cases y with
    | move => exact ⟨vs, h.2.1⟩
    | read old =>
      obtain ⟨-, a, data, -, -, hp⟩ := h
      exact ⟨data :: vs, hp⟩
    | install old => exact ⟨vs, h.2.1⟩
    | _ => exact ⟨vs, h.2⟩

/-- Other nodes are written to. -/
theorem First.written (h : First heap head tail pushed popped front vs x)
    (hh : ∀ y a, x = some y → y.owns = some a → heap' a = heap a) :
    First heap' head tail pushed popped front vs x := by
  cases x with
  | none => exact h
  | some y =>
    cases y with
    | read old =>
      obtain ⟨h1, a, data, rfl, ha, hp⟩ := h
      exact ⟨h1, a, data, rfl, (hh _ a rfl rfl).trans ha, hp⟩
    | install old =>
      obtain ⟨h1, h2, data, ha⟩ := h
      exact ⟨h1, h2, data, (hh _ old rfl rfl).trans ha⟩
    | _ => exact h

theorem First.advance {new : A} {data : T} (h : First heap head tail pushed popped front vs x) :
    First heap head new (pushed ++ [data]) popped (front ++ [tail]) (vs ++ [data]) x := by
  have hd : (front ++ [tail]).headD new = front.headD tail := Node.headD_concat _ _ _
  cases x with
  | none => exact ⟨by rw [hd]; exact h.1, by rw [h.2, List.append_assoc]⟩
  | some y =>
    cases y with
    | move => exact ⟨by rw [hd]; exact h.1, by rw [h.2.1, List.append_assoc], by simp⟩
    | read old =>
      obtain ⟨h1, a, d, he, ha, hp⟩ := h
      exact ⟨h1, a, d, he, by rw [hd]; exact ha, by rw [hp, List.append_assoc]; rfl⟩
    | install old =>
      obtain ⟨h1, h2, d, ha⟩ := h
      exact ⟨h1, by rw [h2, List.append_assoc], d, by rw [hd]; exact ha⟩
    | _ => exact ⟨by rw [hd]; exact h.1, by rw [h.2, List.append_assoc]⟩

theorem Last.written (h : Last heap tail x) (hh : heap' tail = heap tail) : Last heap' tail x := by
  cases x with
  | none => exact hh.trans h
  | some y => cases y <;> exact hh.trans h

end

/-! ### The steps -/

section
variable {s : SafeQueueEnhance ι A T} {front : List A} {vs : List T} {i : ι}

theorem inv_new [DecidableEq A] (dummy : A) :
    Inv (SafeQueueEnhance.new dummy : SafeQueueEnhance ι A T) [] [] where
  headMutex := fun _ => iff_of_false (fun h => by cases h) (fun h => by cases h)
  tailMutex := fun _ => iff_of_false (fun h => by cases h) (fun h => by cases h)
  memory := {
    chain := trivial
    nodup := List.nodup_singleton dummy
    last := by
      change Function.update (fun _ => none) dummy (some (Node.empty : Node A T)) dummy ≠ none
      rw [Function.update_self]
      exact Option.some_ne_none _
    owned := fun _ _ h => by cases h
    alone := fun _ _ _ h => by cases h
    fresh := fun _ _ h => by cases h }
  last := by
    change Function.update (fun _ => none) dummy (some (Node.empty : Node A T)) dummy = some .empty
    rw [Function.update_self]
  first := ⟨rfl, rfl⟩
  sound := rfl

theorem access_eq {a : A} {node : Node A T} (h : s.heap a = some node)
    (f : A → Node A T → SafeQueueEnhance ι A T) : s.access (some a) f = f a node := by
  simp only [SafeQueueEnhance.access, h]

/-- What the owner of `mt_head_` owns is not in the chain, and not new. -/
theorem Inv.head_owns (h : Inv s front vs) {b : A}
    (hb : b ∈ front ++ [s.tail] ∨ s.heap b = none) (y : Loc A T) (a : A)
    (hy : Threads.held s.mtHead s.loc = some y) (ha : y.owns = some a) : a ≠ b := by
  intro he
  subst he
  obtain ⟨k, -, rfl⟩ := Threads.held_eq_some hy
  obtain ⟨h1, h2⟩ := h.memory.owned k a ha
  rcases hb with hb | hb
  · exact h2 hb
  · exact h1 hb

/-! What the two owners know before a step of theirs. -/

theorem Inv.first_at (h : Inv s front vs) {x : Loc A T} (hi : s.loc i = x) (hx : x.inHead = true) :
    First s.heap s.head s.tail s.pushed s.popped front vs (some x) := by
  have hheld := h.headMutex.held_eq (i := i) (by rw [hi]; exact hx)
  rw [hi] at hheld
  exact hheld ▸ h.first

theorem Inv.last_at (h : Inv s front vs) {x : Loc A T} (hi : s.loc i = x) (hx : x.inTail = true) :
    Last s.heap s.tail (some x) := by
  have hheld := h.tailMutex.held_eq (i := i) (by rw [hi]; exact hx)
  rw [hi] at hheld
  exact hheld ▸ h.last

theorem Inv.compare_at (h : Inv s front vs) {wait : Bool} (hi : s.loc i = .compare wait) :
    s.head = some (front.headD s.tail) ∧ s.pushed = s.popped ++ vs := h.first_at hi rfl

theorem Inv.read_at (h : Inv s front vs) {old : Option A} (hi : s.loc i = .read old) :
    s.head = none ∧ ∃ a data, old = some a ∧
      s.heap a = some ⟨some data, some (front.headD s.tail)⟩ ∧
      s.pushed = s.popped ++ data :: vs := h.first_at hi rfl

theorem Inv.install_at (h : Inv s front vs) {old : A} (hi : s.loc i = .install old) :
    s.head = none ∧ s.pushed = s.popped ++ vs ∧
      ∃ data, s.heap old = some ⟨data, some (front.headD s.tail)⟩ := h.first_at hi rfl

/-- The tail is not in front of itself, nobody's new node and not the old head. -/
theorem Inv.tail_apart (h : Inv s front vs) : s.tail ∉ front ∧
    (∀ j, (s.loc j).fresh ≠ some s.tail) ∧ ∀ j, (s.loc j).owns ≠ some s.tail := by
  have hmem : s.tail ∈ front ++ [s.tail] := List.mem_append_right _ (List.mem_singleton_self _)
  have howns : ∀ j, (s.loc j).owns ≠ some s.tail := fun j hj => (h.memory.owned j _ hj).2 hmem
  refine ⟨fun hm => ?_, fun j hj => howns j (owns_of_fresh hj), howns⟩
  exact (List.nodup_append.mp h.memory.nodup).2.2 _ hm _ (List.mem_singleton_self _) rfl

variable [DecidableEq ι]

/-! What the two owners know after a step of theirs, or of another thread. -/

section
variable {x : Loc A T} {heap : A → Option (Node A T)} {head : Option A} {tail : A}
  {pushed popped : List T} {front' : List A} {vs' : List T}

theorem Inv.first_in (h : Inv s front vs) (hi : (s.loc i).inHead = true)
    (hf : First heap head tail pushed popped front' vs' (some x)) :
    First heap head tail pushed popped front' vs'
      (Threads.held s.mtHead (Function.update s.loc i x)) := by
  rw [h.headMutex.held_update hi]; exact hf

theorem Inv.last_in (h : Inv s front vs) (hi : (s.loc i).inTail = true)
    (hl : Last heap tail (some x)) :
    Last heap tail (Threads.held s.mtTail (Function.update s.loc i x)) := by
  rw [h.tailMutex.held_update hi]; exact hl

theorem Inv.first_out (h : Inv s front vs) (hi : (s.loc i).inHead = false)
    (hf : First heap head tail pushed popped front' vs' (Threads.held s.mtHead s.loc)) :
    First heap head tail pushed popped front' vs'
      (Threads.held s.mtHead (Function.update s.loc i x)) := by
  rw [h.headMutex.held_update_of_outside hi]; exact hf

theorem Inv.last_out (h : Inv s front vs) (hi : (s.loc i).inTail = false)
    (hl : Last heap tail (Threads.held s.mtTail s.loc)) :
    Last heap tail (Threads.held s.mtTail (Function.update s.loc i x)) := by
  rw [h.tailMutex.held_update_of_outside hi]; exact hl

end

theorem Inv.push_lock (h : Inv s front vs) {data : T} {new : A} (hi : s.loc i = .pushLock data new)
    (hm : s.mtTail = none) :
    Inv (SafeQueueEnhance.goto { s with mtTail := some i } i (.pushFill data new)) front vs where
  headMutex := h.headMutex.stay (by rw [hi]; rfl)
  tailMutex := (hm ▸ h.tailMutex).enter rfl
  memory := h.memory.move (by rw [hi]; exact fun _ => id) (by rw [hi]; exact fun _ => id)
  last := by
    have hheld : Threads.held s.mtTail s.loc = none := by rw [hm]; rfl
    have hempty := h.last
    rw [hheld] at hempty
    change Last s.heap s.tail (Threads.held (some i) (Function.update s.loc i _))
    rw [Threads.held_enter]
    exact hempty
  first := h.first_out (by rw [hi]; rfl) h.first
  sound := h.sound

/-- The owner of `mt_head_` changes the head and the nodes that are not the tail. -/
theorem Inv.pop_move (h : Inv s front vs) {x : Loc A T} {heap : A → Option (Node A T)}
    {head : Option A} {popped : List T} {front' : List A} {vs' : List T}
    (hi : (s.loc i).inHead = true) (hx : x.inHead = true)
    (hm : Memory heap s.tail (Function.update s.loc i x) front' vs')
    (ht : heap s.tail = s.heap s.tail)
    (hf : First heap head s.tail s.pushed popped front' vs' (some x)) :
    Inv (SafeQueueEnhance.goto { s with heap, head, popped } i x) front' vs' := by
  have htail := Loc.not_inTail hi
  exact {
    headMutex := h.headMutex.stay (hx.trans hi.symm)
    tailMutex := h.tailMutex.stay (by rw [htail, Loc.not_inTail hx])
    memory := hm
    last := h.last_out htail (h.last.written ht)
    first := h.first_in hi hf
    sound := h.sound }

theorem Inv.pop_lock (h : Inv s front vs) {wait : Bool} (hi : s.loc i = .popLock wait)
    (hm : s.mtHead = none) :
    Inv (SafeQueueEnhance.goto { s with mtHead := some i } i (.compare wait)) front vs where
  headMutex := (hm ▸ h.headMutex).enter rfl
  tailMutex := h.tailMutex.stay (by rw [hi]; rfl)
  memory := h.memory.drop rfl
  last := h.last_out (by rw [hi]; rfl) h.last
  first := by
    have hheld : Threads.held s.mtHead s.loc = none := by rw [hm]; rfl
    have hf := h.first
    rw [hheld] at hf
    change First _ _ _ _ _ _ _ (Threads.held (some i) (Function.update s.loc i _))
    rw [Threads.held_enter]
    exact hf
  sound := h.sound

/-- The owner of `mt_head_` lets it go, with the head in its place. -/
theorem Inv.pop_unlock (h : Inv s front vs) {x : Loc A T} (hi : (s.loc i).inHead = true)
    (hx : x.inHead = false) (hx' : x.inTail = false) (ho : x.owns = none)
    (hf : s.head = some (front.headD s.tail) ∧ s.pushed = s.popped ++ vs) :
    Inv (SafeQueueEnhance.goto { s with mtHead := none } i x) front vs := by
  have htail := Loc.not_inTail hi
  exact {
    headMutex := h.headMutex.leave hi hx
    tailMutex := h.tailMutex.stay (by rw [hx', htail])
    memory := h.memory.drop ho
    last := h.last_out htail h.last
    first := hf
    sound := h.sound }

end

section
variable [DecidableEq ι] [DecidableEq A] {s s' : SafeQueueEnhance ι A T} {front : List A}
  {vs : List T} {i : ι}

theorem Inv.call {op : Op A T} (h : Inv s front vs) (hs : s.call i op = some s') :
    Inv s' front vs := by
  unfold SafeQueueEnhance.call at hs
  cases hi : s.loc i with
  | idle =>
    have hhead : (s.loc i).inHead = false := by rw [hi]; rfl
    have htail : (s.loc i).inTail = false := by rw [hi]; rfl
    cases op with
    | push data new =>
      cases hn : s.heap new with
      | some node => simp [hi, hn] at hs
      | none =>
        simp only [hi, hn, Option.some.injEq] at hs
        subst hs
        have hne : s.tail ≠ new := by intro he; subst he; exact h.memory.last hn
        exact {
          headMutex := h.headMutex.stay hhead.symm
          tailMutex := h.tailMutex.stay htail.symm
          memory := h.memory.alloc hn rfl
          last := h.last_out htail (h.last.written (Function.update_of_ne hne _ _))
          first := h.first_out hhead (h.first.written fun y a hy ha =>
            Function.update_of_ne (h.head_owns (.inr hn) y a hy ha) _ _)
          sound := h.sound }
    | tryPop =>
      simp only [hi, Option.some.injEq] at hs
      subst hs
      exact ⟨h.headMutex.stay hhead.symm, h.tailMutex.stay htail.symm, h.memory.drop rfl,
        h.last_out htail h.last, h.first_out hhead h.first, h.sound⟩
    | waitPop =>
      simp only [hi, Option.some.injEq] at hs
      subst hs
      exact ⟨h.headMutex.stay hhead.symm, h.tailMutex.stay htail.symm, h.memory.drop rfl,
        h.last_out htail h.last, h.first_out hhead h.first, h.sound⟩
  | _ => rw [hi] at hs; cases op <;> cases hs

/-! #### `push` -/

/-- A write to the tail, by the owner of `mt_tail_`. -/
theorem Inv.write_tail (h : Inv s front vs) {x : Loc A T} {node : Node A T}
    (hi : (s.loc i).inTail = true) (hx : x.inTail = true)
    (ho : ∀ a, x.owns = some a → (s.loc i).owns = some a)
    (hf : ∀ a, x.fresh = some a → (s.loc i).fresh = some a)
    (hl : Last (Function.update s.heap s.tail (some node)) s.tail (some x)) :
    Inv ((s.write s.tail node).goto i x) front vs where
  headMutex := h.headMutex.stay (by rw [Loc.not_inHead hi, Loc.not_inHead hx])
  tailMutex := h.tailMutex.stay (hx.trans hi.symm)
  memory := (h.memory.write h.tail_apart.1 h.tail_apart.2.1).move ho hf
  last := h.last_in hi hl
  first := by
    apply h.first_out (Loc.not_inHead hi)
    apply h.first.written
    intro y a hy ha
    have hmem : s.tail ∈ front ++ [s.tail] := List.mem_append_right _ (List.mem_singleton_self _)
    exact Function.update_of_ne (h.head_owns (.inl hmem) y a hy ha) _ _
  sound := h.sound

/-- A step of `push`, with `mt_tail_` or about to lock it. -/
theorem Inv.push_step (h : Inv s front vs) (hs : s.run i = some s')
    (hp : (s.loc i).inTail = true ∨ ∃ data new, s.loc i = .pushLock data new) :
    ∃ front' vs', Inv s' front' vs' := by
  unfold SafeQueueEnhance.run at hs
  cases hi : s.loc i with
  | pushLock data new =>
    rw [hi] at hs
    obtain ⟨hm, hs⟩ := Option.ite_none_right_eq_some.mp hs
    cases hs
    exact ⟨front, vs, h.push_lock hi hm⟩
  | pushFill data new =>
    rw [hi] at hs
    have ht : s.heap s.tail = some .empty := h.last_at hi rfl
    cases hs
    rw [access_eq ht]
    exact ⟨front, vs, h.write_tail (by rw [hi]; rfl) rfl (by rw [hi]; exact fun _ => id)
      (by rw [hi]; exact fun _ => id) (Function.update_self _ _ _)⟩
  | pushLink data new =>
    rw [hi] at hs
    have ht : s.heap s.tail = some ⟨some data, none⟩ := h.last_at hi rfl
    cases hs
    rw [access_eq ht]
    exact ⟨front, vs, h.write_tail (by rw [hi]; rfl) rfl (by rw [hi]; exact fun _ => id)
      (by rw [hi]; exact fun _ => id) (Function.update_self _ _ _)⟩
  | pushAdvance data new =>
    rw [hi] at hs
    have ht : s.heap s.tail = some ⟨some data, some new⟩ := h.last_at hi rfl
    have hf : (s.loc i).fresh = some new := by rw [hi]; rfl
    cases hs
    exact ⟨front ++ [s.tail], vs ++ [data], {
      headMutex := h.headMutex.stay (by rw [hi]; rfl)
      tailMutex := h.tailMutex.stay (by rw [hi]; rfl)
      memory := h.memory.advance hf ht rfl
      last := h.last_in (by rw [hi]; rfl) (h.memory.fresh i new hf)
      first := h.first_out (by rw [hi]; rfl) h.first.advance
      sound := h.sound }⟩
  | pushUnlock =>
    rw [hi] at hs
    have ht : s.heap s.tail = some .empty := h.last_at hi rfl
    cases hs
    exact ⟨front, vs, {
      headMutex := h.headMutex.stay (by rw [hi]; rfl)
      tailMutex := h.tailMutex.leave (by rw [hi]; rfl) rfl
      memory := h.memory.drop rfl
      last := ht
      first := h.first_out (by rw [hi]; rfl) h.first
      sound := h.sound }⟩
  | _ => rw [hi] at hp; rcases hp with hp | ⟨_, _, hp⟩ <;> cases hp

/-! #### `try_pop` and `wait_pop` -/

theorem Inv.pop_install (h : Inv s front vs) {a : A} (hi : s.loc i = .install a) {node : Node A T}
    (ha : s.heap a = some node) :
    Inv (SafeQueueEnhance.goto (SafeQueueEnhance.write { s with head := node.next } a
      { node with next := none }) i (.destroy a)) front vs := by
  obtain ⟨-, hpushed, v, hnode⟩ := h.install_at hi
  obtain rfl : node = ⟨v, some (front.headD s.tail)⟩ := Option.some.inj (ha.symm.trans hnode)
  have howns : (s.loc i).owns = some a := by rw [hi]; rfl
  have hout : a ∉ front := fun hm => (h.memory.owned i a howns).2 (List.mem_append_left _ hm)
  have hfresh : ∀ j, (s.loc j).fresh ≠ some a := by
    intro j hj
    obtain rfl := h.memory.alone j i a (owns_of_fresh hj) howns
    rw [hi] at hj; cases hj
  have hne : s.tail ≠ a := by
    intro he
    exact h.tail_apart.2.2 i (by rw [he]; exact howns)
  exact h.pop_move (by rw [hi]; rfl) rfl ((h.memory.write hout hfresh).move
    (by rw [hi]; exact fun _ => id) (fun _ hb => by cases hb)) (Function.update_of_ne hne _ _)
    ⟨rfl, hpushed⟩

theorem Inv.pop_destroy (h : Inv s front vs) {a : A} (hi : s.loc i = .destroy a) :
    Inv (SafeQueueEnhance.goto { s with heap := Function.update s.heap a none } i .popUnlock)
      front vs := by
  have hf : s.head = some (front.headD s.tail) ∧ s.pushed = s.popped ++ vs := h.first_at hi rfl
  have howns : (s.loc i).owns = some a := by rw [hi]; rfl
  have hne : s.tail ≠ a := by
    intro he
    exact h.tail_apart.2.2 i (by rw [he]; exact howns)
  exact h.pop_move (by rw [hi]; rfl) rfl (h.memory.free howns rfl)
    (Function.update_of_ne hne _ _) hf

/-- A step of `try_pop` or `wait_pop`, with `mt_head_` or about to lock it. -/
theorem Inv.pop_step (h : Inv s front vs) (hs : s.run i = some s')
    (hp : (s.loc i).inHead = true ∨ ∃ wait, s.loc i = .popLock wait) :
    ∃ front' vs', Inv s' front' vs' := by
  unfold SafeQueueEnhance.run at hs
  cases hi : s.loc i with
  | popLock wait =>
    rw [hi] at hs
    obtain ⟨hm, hs⟩ := Option.ite_none_right_eq_some.mp hs
    cases hs
    exact ⟨front, vs, h.pop_lock hi hm⟩
  | compare wait =>
    rw [hi] at hs
    have hf := h.compare_at hi
    by_cases hc : s.head = some s.tail
    · simp only [if_pos hc] at hs
      cases wait with
      | true => cases hs; exact ⟨front, vs, h.pop_unlock (by rw [hi]; rfl) rfl rfl rfl hf⟩
      | false =>
        cases hs
        exact ⟨front, vs, h.pop_move (by rw [hi]; rfl) rfl (h.memory.drop rfl) rfl hf⟩
    · simp only [if_neg hc] at hs
      cases hs
      have hne : front ≠ [] := by
        intro he
        rw [he] at hf
        exact hc hf.1
      exact ⟨front, vs,
        h.pop_move (by rw [hi]; rfl) rfl (h.memory.drop rfl) rfl ⟨hf.1, hf.2, hne⟩⟩
  | move =>
    rw [hi] at hs
    obtain ⟨hhead, hpushed, hne⟩ : s.head = some (front.headD s.tail) ∧
      s.pushed = s.popped ++ vs ∧ front ≠ [] := h.first_at hi rfl
    cases hs
    obtain ⟨a, rest, v, vs', rfl, rfl, ha, -⟩ := h.memory.chain.uncons hne
    rw [List.headD_cons] at hhead
    exact ⟨rest, vs', h.pop_move (by rw [hi]; rfl) rfl
      (h.memory.take (a := a) hhead rfl (by rw [hi]; rfl)) rfl ⟨rfl, a, v, hhead, ha, hpushed⟩⟩
  | read old =>
    rw [hi] at hs
    obtain ⟨hhead, a, v, rfl, ha, hpushed⟩ := h.read_at hi
    cases hs
    rw [access_eq ha]
    have hlog : s.pushed = (s.popped ++ [v]) ++ vs := by rw [hpushed, List.append_assoc]; rfl
    exact ⟨front, vs, h.pop_move (by rw [hi]; rfl) rfl
      (h.memory.move (by rw [hi]; exact fun _ => id) fun _ hb => by cases hb) rfl
      ⟨hhead, hlog, _, ha⟩⟩
  | install a =>
    rw [hi] at hs
    obtain ⟨-, -, v, ha⟩ := h.install_at hi
    cases hs
    rw [access_eq ha]
    exact ⟨front, vs, h.pop_install hi ha⟩
  | destroy a => rw [hi] at hs; cases hs; exact ⟨front, vs, h.pop_destroy hi⟩
  | popUnlock =>
    rw [hi] at hs
    cases hs
    exact ⟨front, vs, h.pop_unlock (by rw [hi]; rfl) rfl rfl rfl (h.first_at hi rfl)⟩
  | _ => rw [hi] at hp; rcases hp with hp | ⟨_, hp⟩ <;> cases hp

/-- Only the owner of `mt_head_` moves the head out, and `mt_tail_`'s fills the tail. -/
theorem Inv.step {l : Label ι A T} (h : Inv s front vs) (hs : s.step l = some s') :
    ∃ front' vs', Inv s' front' vs' := by
  cases l with
  | call i op => exact ⟨front, vs, h.call hs⟩
  | run i =>
    have hs : s.run i = some s' := hs
    cases hi : s.loc i with
    | idle => unfold SafeQueueEnhance.run at hs; rw [hi] at hs; cases hs
    | pushLock data new => exact h.push_step hs (.inr ⟨data, new, hi⟩)
    | popLock wait => exact h.pop_step hs (.inr ⟨wait, hi⟩)
    | pushFill | pushLink | pushAdvance | pushUnlock =>
      exact h.push_step hs (by rw [hi]; exact .inl rfl)
    | _ => exact h.pop_step hs (by rw [hi]; exact .inl rfl)

theorem inv_inductive : (twoLockQueue ι A T).Inductive fun s => ∃ front vs, Inv s front vs where
  init := by
    intro s hs
    obtain ⟨dummy, rfl⟩ := hs
    exact ⟨[], [], inv_new dummy⟩
  step := by
    intro s l s' h hst
    obtain ⟨front, vs, h⟩ := h
    exact h.step hst

end

/-! ## The queue refines a FIFO queue -/

section
variable {s s' : SafeQueueEnhance ι A T} {front : List A} {vs : List T}

/-- What a step does to the values pushed and popped. -/
inductive Logged (s s' : SafeQueueEnhance ι A T) : Prop
  | keep (hp : s'.pushed = s.pushed) (ho : s'.popped = s.popped)
  | push (v : T) (hp : s'.pushed = s.pushed ++ [v]) (ho : s'.popped = s.popped)
  | pop (v : T) (hp : s'.pushed = s.pushed) (ho : s'.popped = s.popped ++ [v])

theorem access_logged {a : Option A}
    {f : A → Node A T → SafeQueueEnhance ι A T} (hf : ∀ a node, Logged s (f a node)) :
    Logged s (s.access a f) := by
  unfold SafeQueueEnhance.access
  cases a with
  | none => exact .keep rfl rfl
  | some a =>
    cases hn : s.heap a with
    | none => simp only [hn]; exact .keep rfl rfl
    | some node => simp only [hn]; exact hf a node

/-- The head, unless a pop has moved it out, is the first node of the chain;
and the pop that has moved it out is the one that holds `mt_head_`. -/
theorem Inv.head_cases (h : Inv s front vs) : s.head = some (front.headD s.tail) ∨
    s.head = none ∧ ∃ i a data, s.mtHead = some i ∧
      (s.loc i = .read (some a) ∨ s.loc i = .install a) ∧
      s.heap a = some ⟨data, some (front.headD s.tail)⟩ := by
  have hf := h.first
  cases hx : Threads.held s.mtHead s.loc with
  | none => rw [hx] at hf; exact .inl hf.1
  | some x =>
    obtain ⟨i, hm, hi⟩ := Threads.held_eq_some hx
    rw [hx] at hf
    cases x with
    | read old =>
      obtain ⟨hn, a, data, rfl, ha, -⟩ := hf
      exact .inr ⟨hn, i, a, some data, hm, .inl hi, ha⟩
    | install old =>
      obtain ⟨hn, -, data, ha⟩ := hf
      exact .inr ⟨hn, i, old, data, hm, .inr hi, ha⟩
    | _ => exact .inl hf.1

/-- The tail is the empty node, but for a push between its steps. -/
theorem Inv.tail_cases (h : Inv s front vs) : s.heap s.tail = some .empty ∨
    ∃ i data new, s.mtTail = some i ∧
      (s.loc i = .pushLink data new ∧ s.heap s.tail = some ⟨some data, none⟩ ∨
        s.loc i = .pushAdvance data new ∧ s.heap s.tail = some ⟨some data, some new⟩ ∧
          s.heap new = some .empty) := by
  have hl := h.last
  cases hx : Threads.held s.mtTail s.loc with
  | none => rw [hx] at hl; exact .inl hl
  | some x =>
    obtain ⟨i, hm, hi⟩ := Threads.held_eq_some hx
    rw [hx] at hl
    cases x with
    | pushLink data new => exact .inr ⟨i, data, new, hm, .inl ⟨hi, hl⟩⟩
    | pushAdvance data new =>
      have hn : s.heap new = some .empty := h.memory.fresh i new (by rw [hi]; rfl)
      exact .inr ⟨i, data, new, hm, .inr ⟨hi, hl, hn⟩⟩
    | _ => exact .inl hl

end

section
variable [DecidableEq ι] [DecidableEq A] {s s' : SafeQueueEnhance ι A T} {i : ι}

theorem run_logged (hs : s.run i = some s') : Logged s s' := by
  unfold SafeQueueEnhance.run at hs
  cases hi : s.loc i with
  | idle => rw [hi] at hs; cases hs
  | pushLock data new =>
    rw [hi] at hs
    obtain ⟨-, hs⟩ := Option.ite_none_right_eq_some.mp hs
    cases hs; exact .keep rfl rfl
  | popLock wait =>
    rw [hi] at hs
    obtain ⟨-, hs⟩ := Option.ite_none_right_eq_some.mp hs
    cases hs; exact .keep rfl rfl
  | pushFill data new => rw [hi] at hs; cases hs; exact access_logged fun _ _ => .keep rfl rfl
  | pushLink data new => rw [hi] at hs; cases hs; exact access_logged fun _ _ => .keep rfl rfl
  | pushAdvance data new => rw [hi] at hs; cases hs; exact .push data rfl rfl
  | compare wait =>
    rw [hi] at hs
    by_cases hc : s.head = some s.tail
    · simp only [if_pos hc] at hs
      cases wait <;> cases hs <;> exact .keep rfl rfl
    · simp only [if_neg hc] at hs
      cases hs; exact .keep rfl rfl
  | read old =>
    rw [hi] at hs; cases hs
    apply access_logged
    intro a node
    cases hd : node.data with
    | none => exact .keep rfl rfl
    | some data => exact .pop data rfl rfl
  | install old => rw [hi] at hs; cases hs; exact access_logged fun _ _ => .keep rfl rfl
  | _ => rw [hi] at hs; cases hs; exact .keep rfl rfl

theorem step_logged {l : Label ι A T} (hs : s.step l = some s') : Logged s s' := by
  cases l with
  | run i => exact run_logged hs
  | call i op =>
    have hs : s.call i op = some s' := hs
    unfold SafeQueueEnhance.call at hs
    cases hi : s.loc i with
    | idle =>
      cases op with
      | push data new =>
        cases hn : s.heap new with
        | none => simp only [hi, hn, Option.some.injEq] at hs; subst hs; exact .keep rfl rfl
        | some node => simp only [hi, hn] at hs; cases hs
      | _ => simp only [hi, Option.some.injEq] at hs; subst hs; exact .keep rfl rfl
    | _ => rw [hi] at hs; cases op <;> cases hs

/-- The FIFO queue that a state stands for. -/
def Refines (s : SafeQueueEnhance ι A T) (q : Fifo T) : Prop :=
  (∃ front vs, Inv s front vs) ∧ q.pushed = s.pushed ∧ q.popped = s.popped ∧
    s.pushed = s.popped ++ q.queue

/-- The advance of `tail_` is the push, and the read of the data is the pop. -/
theorem two_lock_simulation : (twoLockQueue ι A T).Simulation (Fifo.fifo T) Refines where
  init := by
    intro s hs
    refine ⟨⟨[], [], []⟩, rfl, inv_inductive.init s hs, ?_⟩
    obtain ⟨dummy, rfl⟩ := hs
    exact ⟨rfl, rfl, rfl⟩
  step := by
    intro s l s' q hR hst
    obtain ⟨hI, hp, ho, hq⟩ := hR
    have hI' := inv_inductive.step s l s' hI hst
    obtain ⟨queue, pushed, popped⟩ := q
    have hp : pushed = s.pushed := hp
    have ho : popped = s.popped := ho
    have hq : s.pushed = s.popped ++ queue := hq
    cases step_logged hst with
    | keep hp' ho' =>
      exact ⟨[], _, .nil _, hI', hp.trans hp'.symm, ho.trans ho'.symm, by rw [hp', ho', hq]⟩
    | push v hp' ho' =>
      refine ⟨[.push v], _, .cons (.push queue pushed popped v) (.nil _), hI', ?_,
        ho.trans ho'.symm, ?_⟩
      · rw [hp', ← hp]
      · rw [hp', ho', hq, List.append_assoc]
    | pop v hp' ho' =>
      -- the value popped is the first of those pushed and not popped
      obtain ⟨front, vs, hinv⟩ := hI'
      obtain ⟨rest, hrest⟩ := hinv.first.rest
      have hcons : queue = v :: rest := by
        rw [hp', ho', hq, List.append_assoc] at hrest
        exact List.append_cancel_left hrest
      subst hcons
      refine ⟨[.pop v], _, .cons (.pop rest pushed popped v) (.nil _), ⟨front, vs, hinv⟩,
        hp.trans hp'.symm, ?_, hrest⟩
      rw [ho', ← ho]

/-- **`SafeQueueEnhance` is a FIFO queue.** A state stands for one of the FIFO
queue with the same pushes and pops, so that what is popped is the front of
what is pushed. No pointer that is dereferenced is null; when `mt_head_` is
free `head_` is not null. A chain of nodes leads from the head, or from the
node that a pop has moved out, to the tail, which is empty except that a push
that holds `mt_tail_` may have filled it and linked its new empty node. -/
theorem two_lock_queue (s : SafeQueueEnhance ι A T) (h : (twoLockQueue ι A T).Reachable s) :
    (∃ q, (Fifo.fifo T).Reachable q ∧ q.pushed = s.pushed ∧ q.popped = s.popped) ∧
      s.popped <+: s.pushed ∧ s.fault = false ∧ (s.mtHead = none → s.head ≠ none) ∧
      (∃ front vs, Node.Chain s.heap front vs s.tail ∧
        (s.head = some (front.headD s.tail) ∨
          s.head = none ∧ ∃ i a data, s.mtHead = some i ∧
            (s.loc i = .read (some a) ∨ s.loc i = .install a) ∧
            s.heap a = some ⟨data, some (front.headD s.tail)⟩)) ∧
      (s.heap s.tail = some .empty ∨
        ∃ i data new, s.mtTail = some i ∧
          (s.loc i = .pushLink data new ∧ s.heap s.tail = some ⟨some data, none⟩ ∨
            s.loc i = .pushAdvance data new ∧ s.heap s.tail = some ⟨some data, some new⟩ ∧
              s.heap new = some .empty)) := by
  obtain ⟨q, hq, hR⟩ := two_lock_simulation.reachable h
  obtain ⟨⟨front, vs, hI⟩, hp, ho, hlog⟩ := hR
  refine ⟨⟨q, hq, hp, ho⟩, ⟨q.queue, hlog.symm⟩, hI.sound, ?_, ⟨front, vs, hI.memory.chain,
    hI.head_cases⟩, hI.tail_cases⟩
  intro hm
  rcases hI.head_cases with hh | ⟨-, i, a, data, hi, -⟩
  · rw [hh]; exact Option.some_ne_none _
  · rw [hm] at hi; cases hi

end

/-- A consumer is between reading the only value and its end, while a producer links a second. -/
def pushWhilePopping : List (Label Bool Nat Nat) :=
  .call false (.push 5 1) :: List.replicate 5 (.run false) ++
    .call true .tryPop :: List.replicate 4 (.run true) ++
    .call false (.push 6 2) :: List.replicate 3 (.run false)

theorem two_lock_queue_busy : ∃ s, (twoLockQueue Bool Nat Nat).Reachable s ∧ s.pushed = [5] ∧
    s.popped = [5] ∧ s.head = none ∧ s.fault = false ∧ s.popped <+: s.pushed := by
  have hrun : ∃ s : SafeQueueEnhance Bool Nat Nat,
      LTS.exec SafeQueueEnhance.step (.new 0) pushWhilePopping = some s ∧
        s.pushed = [5] ∧ s.popped = [5] ∧ s.head = none := ⟨_, rfl, rfl, rfl, rfl⟩
  obtain ⟨s, he, hp, ho, hn⟩ := hrun
  have hr : (twoLockQueue Bool Nat Nat).Reachable s := LTS.reachable_of_exec ⟨0, rfl⟩ he
  have h := two_lock_queue s hr
  exact ⟨s, hr, hp, ho, hn, h.2.2.1, h.2.1⟩

end Cxx.TwoLock
