import Cxx.Core.Locks
import Cxx.DataStruct.SafeList

/-!
# `SafeList` between threads

Model of include/data_struct/SafeList.hpp:26-117 for any number of threads, on
the nodes of `SafeList`, each with its mutex. The list is shared when it has been
constructed, without an element and with `tail_` not initialised. The steps of an
operation are the accesses of a statement to `tail_` and to the nodes, and the locks
it takes and releases. They are taken in one order: memory is sequentially consistent,
though `tail_` and `next_` are plain pointers (`SharedList.Race` is about that).

An element that a removal finds to remove ends the model: the removal holds the
mutex of the node it then deletes, which is recorded as a `fault`, as an
uninitialised, null or dangling pointer that is dereferenced is.

* `Keeps`: the steps of runs in which no removal finds an element, and no `pushBack`
  comes before `tail_` has been set.
* `Memory`: the nodes, and who owns them, while pushes are under way.
* `Place`, `Inv`: what each thread knows of the list, and what holds in every state.
-/
namespace Cxx.ListThreads

variable {ι A T : Type}

/-- What goes through the list. The two removals do the same as long as they find
nothing to remove. -/
inductive Visitor (T : Type) where
  | forEach
  | findFirstIf (p : T → Bool)
  | remove (first : Bool) (p : T → Bool)

/-- Whether the visitor goes on to the next element after this one. -/
def Visitor.passes : Visitor T → T → Bool
  | .forEach, _ => true
  | .findFirstIf p, v | .remove _ p, v => !p v

/-- A visitor on its way. `lock` is the node whose mutex it holds between two
rounds of its loop: that of `current`, except that `findFirstIf` has the one of
`head_` for the first round and none after it. `seen` are the elements that it has
passed, `start` the list at the time it locked `head_`. -/
structure Walk (A T : Type) where
  visitor : Visitor T
  current : A
  lock : Option A
  seen : List T
  start : List T

def Walk.pass (w : Walk A T) (v : T) : Walk A T := { w with seen := w.seen ++ [v] }

def Walk.moveTo (w : Walk A T) (next : A) (lock : Option A) : Walk A T :=
  { w with current := next, lock }

/-- Where a thread is. -/
inductive Loc (A T : Type) where
  | idle
  /-- `pushFront` has its new node, and is about to lock `head_->mt_`. -/
  | frontLock (value : T) (new : A)
  | frontTake (value : T) (new : A)
  | frontLink (value : T) (new : A)
  | frontTest
  | frontGlobal
  | frontTail
  | frontGlobalUnlock
  | frontUnlock
  /-- `pushBack` has its new node, and is about to read `tail_`. -/
  | backRead (value : T) (new : A)
  | backLock (value : T) (new : A) (tail : A)
  | backGlobal (value : T) (new : A) (tail : A)
  | backLink (value : T) (new : A) (tail : A)
  /-- what the tail node owned before is deleted -/
  | backDestroy (tail : A) (old : Option A)
  | backTail (tail : A)
  | backGlobalUnlock (tail : A)
  | backUnlock (tail : A)
  | walkLock (visitor : Visitor T)
  /-- at the test of the loop -/
  | walkNext (w : Walk A T)
  | walkLockNext (w : Walk A T) (next : A)
  | walkInside (w : Walk A T) (next : A)
  /-- `forEach` is about to call its function, `lock` released. -/
  | walkCall (w : Walk A T) (next : A)
  /-- `findFirstIf` is about to call its predicate, `next->mt_` released. -/
  | walkProbe (w : Walk A T) (next : A)
  /-- A removal has kept the element, and is about to release `lock`. -/
  | walkPass (w : Walk A T) (next : A)
  /-- `findFirstIf` is about to release what it holds from the round before. -/
  | walkDrop (w : Walk A T) (next : A)
  | walkEnd (w : Walk A T)

inductive Mutex (A : Type) where
  | node (a : A)
  | global
  deriving DecidableEq

inductive Push (T : Type) where
  | front (value : T)
  | back (value : T)
  deriving DecidableEq, Repr

def Push.value : Push T → T
  | .front v | .back v => v

def Push.start (push : Push T) (new : A) : Loc A T :=
  match push with
  | .front v => .frontLock v new
  | .back v => .backRead v new

/-- What the push does to a list. -/
def Push.apply : Push T → List T → List T
  | .front v, values => v :: values
  | .back v, values => values ++ [v]

/-- A visitor that has got to the end, or has found what it looked for, and the
list at that time. -/
structure Visit (T : Type) where
  visitor : Visitor T
  start : List T
  seen : List T
  found : Option T
  finish : List T

structure SharedList (ι A T : Type) where
  list : SafeList A T
  owner : Mutex A → Option ι
  loc : ι → Loc A T
  /-- The elements, the pushes that have been linked and the visits, in order. -/
  values : List T
  linked : List (ι × Push T)
  visits : List (Visit T)
  /-- The pushes that each thread has called. -/
  called : ι → List (Push T)

inductive Op (A T : Type) where
  /-- A push whose new node is at `new`. -/
  | push (push : Push T) (new : A)
  | visit (visitor : Visitor T)

section
variable [DecidableEq ι] [DecidableEq A]

def SharedList.new (head : A) : SharedList ι A T where
  list := .new head
  owner := fun _ => none
  loc := fun _ => .idle
  values := []
  linked := []
  visits := []
  called := fun _ => []

def SharedList.goto (s : SharedList ι A T) (i : ι) (x : Loc A T) : SharedList ι A T :=
  { s with loc := Function.update s.loc i x }

def SharedList.fail (s : SharedList ι A T) : SharedList ι A T := { s with list := s.list.fail }

/-- `mutex::lock`: the thread stays where it is while another has the mutex. -/
def SharedList.lock (s : SharedList ι A T) (i : ι) (m : Mutex A) (x : Loc A T) :
    Option (SharedList ι A T) :=
  match s.owner m with
  | none => some (SharedList.goto { s with owner := Function.update s.owner m (some i) } i x)
  | some _ => none

def SharedList.unlock (s : SharedList ι A T) (i : ι) (m : Mutex A) (x : Loc A T) :
    SharedList ι A T :=
  SharedList.goto { s with owner := Function.update s.owner m none } i x

/-- The end of a `unique_lock` that may be empty. -/
def SharedList.unlockIf (s : SharedList ι A T) (i : ι) (lock : Option A) (x : Loc A T) :
    SharedList ι A T :=
  match lock with
  | none => s.goto i x
  | some a => s.unlock i (.node a) x

/-- An access to a node, which has to be there. -/
def SharedList.access (s : SharedList ι A T) (a : Option A)
    (f : A → Node A T → SharedList ι A T) : SharedList ι A T :=
  match a with
  | none => s.fail
  | some a =>
    match s.list.heap.nodes a with
    | none => s.fail
    | some node => f a node

def SharedList.write (s : SharedList ι A T) (a : A) (node : Node A T) : SharedList ι A T :=
  { s with list := s.list.write a node }

def SharedList.setTail (s : SharedList ι A T) (tail : Option A) : SharedList ι A T :=
  { s with list := { s.list with tail } }

def SharedList.record (s : SharedList ι A T) (i : ι) (push : Push T) : SharedList ι A T :=
  { s with called := Function.update s.called i (s.called i ++ [push]) }

def SharedList.log (s : SharedList ι A T) (visit : Visit T) : SharedList ι A T :=
  { s with visits := s.visits ++ [visit] }

def SharedList.link (s : SharedList ι A T) (i : ι) (push : Push T) : SharedList ι A T :=
  { s with values := push.apply s.values, linked := s.linked ++ [(i, push)] }

/-- An access to the data of a node. -/
def SharedList.value (s : SharedList ι A T) (a : A) (f : T → SharedList ι A T) :
    SharedList ι A T :=
  s.access (some a) fun _ node =>
    match node.data with
    | none => s.fail
    | some v => f v

/-- mirrors include/data_struct/SafeList.hpp:26-117 -/
def SharedList.run (s : SharedList ι A T) (i : ι) : Option (SharedList ι A T) :=
  match s.loc i with
  | .idle => none
  -- `pushFront`
  | .frontLock v new => s.lock i (.node s.list.head) (.frontTake v new)
  | .frontTake v new =>
    some (s.access (some s.list.head) fun head node =>
      ((s.write new ⟨some v, node.next⟩).write head { node with next := none }).goto i
        (.frontLink v new))
  | .frontLink v new =>
    some (s.access (some s.list.head) fun head node =>
      ((s.write head { node with next := some new }).link i (.front v)).goto i .frontTest)
  | .frontTest =>
    some (s.access (some s.list.head) fun _ node => s.access node.next fun _ node =>
      s.goto i (if node.next.isNone then .frontGlobal else .frontUnlock))
  | .frontGlobal => s.lock i .global .frontTail
  | .frontTail =>
    some (s.access (some s.list.head) fun _ node =>
      (s.setTail node.next).goto i .frontGlobalUnlock)
  | .frontGlobalUnlock => some (s.unlock i .global .frontUnlock)
  | .frontUnlock => some (s.unlock i (.node s.list.head) .idle)
  -- `pushBack`, which reads `tail_` again when it holds both mutexes
  | .backRead v new => some (s.access s.list.tail fun tail _ => s.goto i (.backLock v new tail))
  | .backLock v new tail => s.lock i (.node tail) (.backGlobal v new tail)
  | .backGlobal v new tail => s.lock i .global (.backLink v new tail)
  | .backLink v new tail =>
    some (s.access s.list.tail fun a node =>
      ((s.write a { node with next := some new }).link i (.back v)).goto i
        (.backDestroy tail node.next))
  | .backDestroy tail old =>
    match Node.destroyTurn (s.list.heap, old) with
    | .again (heap, old) =>
      some (SharedList.goto { s with list := { s.list with heap } } i (.backDestroy tail old))
    | .leave (some _) => some (s.goto i (.backTail tail))
    | .leave none => some s.fail
  | .backTail tail =>
    some (s.access s.list.tail fun _ node =>
      (s.setTail node.next).goto i (.backGlobalUnlock tail))
  | .backGlobalUnlock tail => some (s.unlock i .global (.backUnlock tail))
  | .backUnlock tail => some (s.unlock i (.node tail) .idle)
  -- `forEach`, `findFirstIf`, `removeIf` and `removeFirstIf`
  | .walkLock visitor =>
    s.lock i (.node s.list.head)
      (.walkNext ⟨visitor, s.list.head, some s.list.head, [], s.values⟩)
  | .walkNext w =>
    some (s.access (some w.current) fun _ node =>
      match node.next with
      | none => (s.log ⟨w.visitor, w.start, w.seen, none, s.values⟩).goto i (.walkEnd w)
      | some next => s.goto i (.walkLockNext w next))
  | .walkLockNext w next => s.lock i (.node next) (.walkInside w next)
  | .walkInside w next =>
    match w.visitor with
    | .forEach => some (s.unlockIf i w.lock (.walkCall w next))
    | .findFirstIf _ => some (s.unlock i (.node next) (.walkProbe w next))
    | .remove _ _ =>
      some (s.value next fun v =>
        if w.visitor.passes v then s.goto i (.walkPass (w.pass v) next) else s.fail)
  | .walkCall w next =>
    some (s.value next fun v => s.goto i (.walkNext ((w.pass v).moveTo next (some next))))
  | .walkProbe w next =>
    some (s.value next fun v =>
      if w.visitor.passes v then s.goto i (.walkDrop (w.pass v) next)
      else (s.log ⟨w.visitor, w.start, w.seen ++ [v], some v, s.values⟩).goto i (.walkEnd w))
  | .walkPass w next => some (s.unlockIf i w.lock (.walkNext (w.moveTo next (some next))))
  | .walkDrop w next => some (s.unlockIf i w.lock (.walkNext (w.moveTo next none)))
  | .walkEnd w => some (s.unlockIf i w.lock .idle)

/-- `new Node(value)` is at an address that is not in use. -/
def SharedList.call (s : SharedList ι A T) (i : ι) (op : Op A T) : Option (SharedList ι A T) :=
  match s.loc i, op with
  | .idle, .push push new =>
    match s.list.heap.nodes new with
    | none => some (((s.write new ⟨some push.value, none⟩).record i push).goto i (push.start new))
    | some _ => none
  | .idle, .visit visitor => some (s.goto i (.walkLock visitor))
  | _, _ => none

inductive Label (ι A T : Type) where
  | call (i : ι) (op : Op A T)
  | run (i : ι)

def SharedList.step (s : SharedList ι A T) : Label ι A T → Option (SharedList ι A T)
  | .call i op => s.call i op
  | .run i => s.run i

/-- The next step of the thread is a removal's, with an element to be removed. -/
def SharedList.removes (s : SharedList ι A T) (i : ι) : Bool :=
  match s.loc i with
  | .walkInside ⟨.remove _ p, _, _, _, _⟩ next =>
    match s.list.heap.nodes next with
    | some ⟨some v, _⟩ => p v
    | _ => false
  | _ => false

/-- The next step of the thread is `pushBack`'s first, with `tail_` not initialised. -/
def SharedList.strays (s : SharedList ι A T) (i : ι) : Bool :=
  match s.loc i with
  | .backRead _ _ => s.list.tail.isNone
  | _ => false

end

def sharedList (ι A T : Type) [DecidableEq ι] [DecidableEq A] :
    LTS (SharedList ι A T) (Label ι A T) :=
  LTS.ofFn (fun s => ∃ head, s = .new head) SharedList.step

/-- No removal finds anything, and no `pushBack` comes before `tail_` has been set. -/
def Keeps [DecidableEq A] (s : SharedList ι A T) (l : Label ι A T) (_ : SharedList ι A T) : Prop :=
  match l with
  | .run i => s.removes i = false ∧ s.strays i = false
  | .call _ _ => True

instance [DecidableEq A] (s : SharedList ι A T) (l : Label ι A T) (s' : SharedList ι A T) :
    Decidable (Keeps s l s') :=
  match l with
  | .run _ => inferInstanceAs (Decidable (_ ∧ _))
  | .call _ _ => inferInstanceAs (Decidable True)

/-! ## What holds in every state -/

/-- The mutexes that a thread holds. -/
def Loc.locks (head : A) : Loc A T → List (Mutex A)
  | .frontTake _ _ | .frontLink _ _ | .frontTest | .frontGlobal | .frontUnlock => [.node head]
  | .frontTail | .frontGlobalUnlock => [.node head, .global]
  | .backGlobal _ _ tail | .backUnlock tail => [.node tail]
  | .backLink _ _ tail | .backDestroy tail _ | .backTail tail | .backGlobalUnlock tail =>
    [.node tail, .global]
  | .walkNext w | .walkLockNext w _ | .walkProbe w _ | .walkDrop w _ | .walkEnd w =>
    w.lock.toList.map .node
  | .walkInside w next | .walkPass w next => .node next :: w.lock.toList.map .node
  | .walkCall _ next => [.node next]
  | _ => []

/-- The mutex that a thread is about to lock. -/
def Loc.wants (head : A) : Loc A T → Option (Mutex A)
  | .frontLock _ _ | .walkLock _ => some (.node head)
  | .frontGlobal | .backGlobal _ _ _ => some .global
  | .backLock _ _ tail => some (.node tail)
  | .walkLockNext _ next => some (.node next)
  | _ => none

/-- The new node of a push that has not linked it. -/
def Loc.fresh : Loc A T → Option (A × Push T)
  | .frontLock v new | .frontTake v new | .frontLink v new => some (new, .front v)
  | .backRead v new | .backLock v new _ | .backGlobal v new _ | .backLink v new _ =>
    some (new, .back v)
  | _ => none

/-- Whether the new node of a `pushFront` owns the elements. -/
def Loc.taken : Loc A T → Bool
  | .frontLink _ _ => true
  | _ => false

/-- The nodes with their data. -/
def elements (cells : List (A × T)) : List (A × Option T) := cells.map fun c => (c.1, some c.2)

def first (cells : List (A × T)) : Option A := cells.head?.map Prod.fst

/-- The nodes: the elements, owned by `head_` or for a moment by a new node, and the
new nodes. -/
structure Memory (nodes : A → Option (Node A T)) (head : A) (cells : List (A × T))
    (loc : ι → Loc A T) : Prop where
  linked : Node.Linked nodes (elements cells)
  root : (∀ i, (loc i).taken = false) → nodes head = some ⟨none, first cells⟩
  bare : ∀ i, (loc i).taken = true → nodes head = some ⟨none, none⟩
  nodup : (head :: cells.map Prod.fst).Nodup
  fresh : ∀ i a push, (loc i).fresh = some (a, push) → a ∉ head :: cells.map Prod.fst ∧
    nodes a = some ⟨some push.value, if (loc i).taken then first cells else none⟩
  alone : Threads.Distinct (fun x => x.fresh.map Prod.fst) loc
  alive : ∀ a, nodes a ≠ none →
    a ∈ head :: cells.map Prod.fst ∨ ∃ i push, (loc i).fresh = some (a, push)

/-- A visitor has passed elements up to `rest`. -/
structure Passed (w : Walk A T) (before rest : List (A × T)) : Prop where
  seen : w.seen <:+ before.map Prod.snd
  start : w.start <+: w.seen ++ rest.map Prod.snd
  passes : ∀ v ∈ w.seen, w.visitor.passes v = true

/-- What a visitor holds comes before the rest of the list. -/
def Below (head : A) (before : List (A × T)) (lock : Option A) : Prop :=
  ∀ a, lock = some a → a ∈ head :: before.map Prod.fst

/-- A visitor at the test of its loop. Nobody pushes to the front of the list before
it has passed an element. -/
def Walked (head : A) (cells : List (A × T)) (w : Walk A T) : Prop :=
  ∃ before rest, cells = before ++ rest ∧ w.current = SafeList.last head before ∧
    (before = [] → w.lock = some head) ∧ Below head before w.lock ∧ Passed w before rest

/-- A visitor on its way to `next`. -/
def Facing (head : A) (cells : List (A × T)) (w : Walk A T) (next : A) : Prop :=
  ∃ before v rest, cells = before ++ (next, v) :: rest ∧ Below head before w.lock ∧
    Passed w before ((next, v) :: rest)

/-- A visitor that is done with `next`. -/
def Passing (head : A) (cells : List (A × T)) (w : Walk A T) (next : A) : Prop :=
  ∃ before v rest, cells = before ++ (next, v) :: rest ∧ Below head before w.lock ∧
    Passed w (before ++ [(next, v)]) rest

/-- What a thread knows of the list, which is `pre` up to `tail_` and `post` behind it.
`pre` is empty while `tail_` is not initialised. -/
def Place (head : A) (pre post : List (A × T)) : Loc A T → Prop
  | .frontTest => pre ++ post ≠ [] ∧ pre.length ≠ 1
  | .frontGlobal | .frontTail => pre = [] ∧ post ≠ []
  | .backLock _ _ tail | .backGlobal _ _ tail | .backLink _ _ tail => tail ∈ pre.map Prod.fst
  | .backDestroy tail old => tail ∈ pre.map Prod.fst ∧ post ≠ [] ∧ old = none
  | .backTail tail => tail ∈ pre.map Prod.fst ∧ post ≠ []
  | .walkNext w => Walked head (pre ++ post) w
  | .walkLockNext w next | .walkInside w next | .walkProbe w next =>
    Facing head (pre ++ post) w next
  | .walkCall w next => w.visitor = .forEach ∧ Facing head (pre ++ post) w next
  | .walkPass w next | .walkDrop w next => Passing head (pre ++ post) w next
  | _ => True

/-- A thread that is about to bring `tail_` up to date. -/
def Behind (pre : List (A × T)) : Loc A T → Prop
  | .frontTest => pre = []
  | .frontGlobal | .frontTail | .backDestroy _ _ | .backTail _ => True
  | _ => False

/-- A visit went through all of the elements that were there at its start, and of
those pushed to the back since; or up to the first that it looked for. -/
structure Visit.Sound (x : Visit T) : Prop where
  whole : ∃ skipped rest, x.finish = skipped ++ x.seen ++ rest ∧ x.start <+: x.seen ++ rest ∧
    (x.found = none → rest = [])
  none : x.found = none → ∀ v ∈ x.seen, x.visitor.passes v = true
  some : ∀ v, x.found = some v → x.visitor.passes v = false ∧
    ∃ before, x.seen = before ++ [v] ∧ ∀ w ∈ before, x.visitor.passes w = true

structure Inv (s : SharedList ι A T) (pre post : List (A × T)) : Prop where
  owned : Locks.Owned (Loc.locks s.list.head) s.owner s.loc
  memory : Memory s.list.heap.nodes s.list.head (pre ++ post) s.loc
  tail : s.list.tail = pre.getLast?.map Prod.fst
  short : post.length ≤ 1
  behind : post ≠ [] → ∃ i, Behind pre (s.loc i)
  place : ∀ i, Place s.list.head pre post (s.loc i)
  values : s.values = (pre ++ post).map Prod.snd
  visits : ∀ x ∈ s.visits, x.Sound
  sound : s.list.fault = false

/-! ### The nodes -/

theorem elements_map (cells : List (A × T)) :
    (elements cells).map Prod.fst = cells.map Prod.fst := by
  simp [elements, Function.comp_def]

theorem elements_first (cells : List (A × T)) :
    (elements cells).head?.map Prod.fst = first cells := by
  cases cells <;> rfl

theorem fresh_of_taken {x : Loc A T} (h : x.taken = true) : ∃ c, x.fresh = some c := by
  cases x <;> first | exact ⟨_, rfl⟩ | cases h

section
variable {nodes nodes' : A → Option (Node A T)} {head a : A} {cells before rest : List (A × T)}
  {loc : ι → Loc A T} {i : ι} {x : Loc A T} {push : Push T} {v : T}

theorem Memory.chain (h : Memory nodes head cells loc) (hf : ∀ i, (loc i).taken = false) :
    Node.Linked nodes (SafeList.chain head cells) :=
  ⟨(h.root hf).trans (by rw [← elements_first]; rfl), h.linked⟩

theorem Memory.head_alive (h : Memory nodes head cells loc) : nodes head ≠ none := by
  by_cases hf : ∀ i, (loc i).taken = false
  · rw [h.root hf]; simp
  · obtain ⟨i, hi⟩ := not_forall.mp hf
    rw [h.bare i (by simpa using hi)]; simp

theorem Memory.allocated (h : Memory nodes head cells loc) (ha : a ∈ head :: cells.map Prod.fst) :
    nodes a ≠ none := by
  rcases List.mem_cons.mp ha with rfl | ha
  · exact h.head_alive
  · exact h.linked.allocated (by rwa [elements_map])

/-- The node before the rest of the list owns it. -/
theorem Memory.next (h : Memory nodes head (before ++ rest) loc)
    (hf : before = [] → ∀ i, (loc i).taken = false) :
    ∃ d, nodes (SafeList.last head before) = some ⟨d, first rest⟩ := by
  rcases List.eq_nil_or_concat before with rfl | ⟨before, c, rfl⟩
  · exact ⟨none, h.root (hf rfl)⟩
  · have hl := h.linked
    simp only [elements, List.map_append, List.append_assoc, List.concat_eq_append] at hl
    have hc := (Node.Linked.tail hl).1
    refine ⟨some c.2, ?_⟩
    rw [List.concat_eq_append, SafeList.last_concat, hc]
    simp only [first]
    cases rest <;> rfl

/-- The data of an element. -/
theorem Memory.data (h : Memory nodes head (before ++ (a, v) :: rest) loc) :
    ∃ q, nodes a = some ⟨some v, q⟩ := by
  have hl := h.linked
  simp only [elements, List.map_append] at hl
  exact ⟨_, (Node.Linked.tail hl).1⟩

/-- A new node is the node of one push. -/
theorem Memory.alone_eq {j : ι} {push' : Push T} (h : Memory nodes head cells loc)
    (hj : (loc j).fresh = some (a, push)) (hi : (loc i).fresh = some (a, push')) : j = i :=
  h.alone j i a (Option.map_eq_some_iff.mpr ⟨_, hj, rfl⟩) (Option.map_eq_some_iff.mpr ⟨_, hi, rfl⟩)

/-- The nodes of the list stay as they are. -/
theorem Memory.linked_congr (h : Memory nodes head cells loc)
    (hn : ∀ b ∈ cells.map Prod.fst, nodes' b = nodes b) :
    Node.Linked nodes' (elements cells) :=
  h.linked.congr fun b hb => hn b (by rwa [elements_map] at hb)

variable [DecidableEq ι]

/-- A thread moves on, with the new node that it had. -/
theorem Memory.move (h : Memory nodes head cells loc) (hx : x.fresh = (loc i).fresh)
    (ht : x.taken = (loc i).taken) : Memory nodes head cells (Function.update loc i x) := by
  have fresh : ∀ j, (Function.update loc i x j).fresh = (loc j).fresh :=
    Threads.forall_update (Q := fun j y => Loc.fresh y = (loc j).fresh) hx fun _ _ => rfl
  have taken : ∀ j, (Function.update loc i x j).taken = (loc j).taken :=
    Threads.forall_update (Q := fun j y => Loc.taken y = (loc j).taken) ht fun _ _ => rfl
  constructor
  · exact h.linked
  · intro hf
    exact h.root fun j => (taken j).symm.trans (hf j)
  · intro j hj
    exact h.bare j ((taken j).symm.trans hj)
  · exact h.nodup
  · intro j b push hb
    rw [taken j]
    exact h.fresh j b push ((fresh j).symm.trans hb)
  · exact h.alone.move fun k hk => by rwa [hx] at hk
  · intro b hb
    rcases h.alive b hb with hm | ⟨j, push, hj⟩
    · exact .inl hm
    · exact .inr ⟨j, push, (fresh j).trans hj⟩

variable [DecidableEq A]

/-- A thread without a new node gets one. -/
theorem Memory.alloc (h : Memory nodes head cells loc) (hn : nodes a = none)
    (hi : (loc i).fresh = none) (hx : x.fresh = some (a, push)) (ht : x.taken = false) :
    Memory (Function.update nodes a (some ⟨some push.value, none⟩)) head cells
      (Function.update loc i x) := by
  have hne : ∀ b, nodes b ≠ none → Function.update nodes a (some ⟨some push.value, none⟩) b =
      nodes b := by
    intro b hb
    rw [Function.update_of_ne]
    intro he; subst he; exact hb hn
  have hti : (loc i).taken = false := by
    by_contra hc
    obtain ⟨c, hc⟩ := fresh_of_taken (by simpa using hc)
    rw [hi] at hc; cases hc
  have taken : ∀ j, (Function.update loc i x j).taken = (loc j).taken :=
    Threads.forall_update (Q := fun j y => Loc.taken y = (loc j).taken) (ht.trans hti.symm)
      fun _ _ => rfl
  constructor
  · apply h.linked_congr
    intro b hb
    exact hne b (h.allocated (List.mem_cons_of_mem _ hb))
  · intro hf
    rw [hne head h.head_alive]
    exact h.root fun j => (taken j).symm.trans (hf j)
  · intro j hj
    rw [hne head h.head_alive]
    exact h.bare j ((taken j).symm.trans hj)
  · exact h.nodup
  · intro j b push' hb
    rw [taken j]
    by_cases hj : j = i
    · subst hj
      rw [Function.update_self, hx] at hb
      cases hb
      rw [Function.update_self, hti]
      exact ⟨fun hm => h.allocated hm hn, rfl⟩
    · rw [Function.update_of_ne hj] at hb
      have hold := h.fresh j b push' hb
      rw [hne b (by rw [hold.2]; simp)]
      exact hold
  · apply h.alone.gain
    intro b hb j _ hjb
    rw [hx] at hb
    cases hb
    obtain ⟨⟨c, push'⟩, hc, rfl⟩ := Option.map_eq_some_iff.mp hjb
    have := (h.fresh j c push' hc).2
    rw [hn] at this
    cases this
  · intro b hb
    by_cases hba : b = a
    · subst hba
      exact .inr ⟨i, push, by rw [Function.update_self, hx]⟩
    · rw [Function.update_of_ne hba] at hb
      rcases h.alive b hb with hm | ⟨j, push', hj⟩
      · exact .inl hm
      · refine .inr ⟨j, push', ?_⟩
        rw [Function.update_of_ne]
        · exact hj
        · intro he; subst he; rw [hi] at hj; cases hj

/-- The new node of a `pushFront` gets the elements, and `head_` nothing. -/
theorem Memory.take (h : Memory nodes head cells loc) (hi : loc i = .frontTake v a) :
    Memory (Function.update (Function.update nodes a (some ⟨some v, first cells⟩)) head
      (some ⟨none, none⟩)) head cells (Function.update loc i (.frontLink v a)) := by
  have hfresh := h.fresh i a (.front v) (by rw [hi]; rfl)
  have others : ∀ j, j ≠ i → Function.update loc i (.frontLink v a) j = loc j :=
    fun j hj => Function.update_of_ne hj _ _
  have hah : a ≠ head := fun he => hfresh.1 (he ▸ List.mem_cons_self)
  have keeps : ∀ b, b ≠ a → b ≠ head → Function.update (Function.update nodes a
      (some ⟨some v, first cells⟩)) head (some ⟨none, none⟩) b = nodes b := by
    intro b hb hbh
    rw [Function.update_of_ne hbh, Function.update_of_ne hb]
  constructor
  · apply h.linked_congr
    intro b hb
    apply keeps
    · intro he; subst he; exact hfresh.1 (List.mem_cons_of_mem _ hb)
    · intro he; subst he; exact (List.nodup_cons.mp h.nodup).1 hb
  · intro hnone
    have := hnone i
    rw [Function.update_self] at this
    cases this
  · intro j _
    rw [Function.update_self]
  · exact h.nodup
  · intro j b push hb
    by_cases hj : j = i
    · subst hj
      rw [Function.update_self] at hb ⊢
      cases hb
      rw [Function.update_of_ne hah, Function.update_self]
      exact ⟨hfresh.1, rfl⟩
    · rw [others j hj] at hb ⊢
      have hold := h.fresh j b push hb
      rw [keeps]
      · exact hold
      · intro he
        subst he
        exact hj (h.alone_eq hb (by rw [hi]; rfl))
      · intro he; subst he; exact hold.1 List.mem_cons_self
  · exact h.alone.move fun k hk => by rw [hi]; exact hk
  · intro b hb
    by_cases hba : b = a
    · subst hba
      exact .inr ⟨i, .front v, by rw [Function.update_self]; rfl⟩
    by_cases hbh : b = head
    · rw [hbh]; exact .inl List.mem_cons_self
    · rw [keeps b hba hbh] at hb
      rcases h.alive b hb with hm | ⟨j, push, hj⟩
      · exact .inl hm
      · refine .inr ⟨j, push, ?_⟩
        by_cases hji : j = i
        · subst hji
          rw [Function.update_self, ← hj, hi]; rfl
        · rw [others j hji]; exact hj

/-- The new node has become the first. -/
theorem Memory.linkFront (h : Memory nodes head cells loc) (hi : loc i = .frontLink v a)
    (hf : ∀ j, j ≠ i → (loc j).taken = false) :
    Memory (Function.update nodes head (some ⟨none, some a⟩)) head ((a, v) :: cells)
      (Function.update loc i .frontTest) := by
  have hfresh := h.fresh i a (.front v) (by rw [hi]; rfl)
  rw [hi] at hfresh
  have keeps : ∀ b, b ≠ head → Function.update nodes head (some ⟨none, some a⟩) b = nodes b :=
    fun b hb => Function.update_of_ne hb _ _
  have hah : a ≠ head := fun he => hfresh.1 (he ▸ List.mem_cons_self)
  have taken : ∀ j, (Function.update loc i .frontTest j).taken = false :=
    Threads.forall_update (Q := fun _ y => Loc.taken y = false) rfl hf
  have notMem : ∀ j b push, j ≠ i → (loc j).fresh = some (b, push) → b ≠ a := by
    intro j b push hj hb he
    subst he
    exact hj (h.alone_eq hb (by rw [hi]; rfl))
  constructor
  · refine ⟨?_, h.linked_congr fun b hb => keeps b ?_⟩
    · rw [keeps a hah, hfresh.2]
      exact congrArg some (by rw [← elements_first]; rfl)
    · intro he; subst he; exact (List.nodup_cons.mp h.nodup).1 hb
  · intro _
    rw [Function.update_self]; rfl
  · intro j hj
    rw [taken j] at hj; cases hj
  · rw [List.map_cons, List.Perm.nodup_iff (List.Perm.swap _ _ _), List.nodup_cons]
    exact ⟨hfresh.1, h.nodup⟩
  · intro j b push hb
    rw [taken j]
    by_cases hj : j = i
    · subst hj
      rw [Function.update_self] at hb; cases hb
    · rw [Function.update_of_ne hj] at hb
      have hold := h.fresh j b push hb
      rw [hf j hj] at hold
      have hbh : b ≠ head := fun he => hold.1 (he ▸ List.mem_cons_self)
      rw [keeps b hbh]
      refine ⟨fun hm => ?_, hold.2⟩
      rcases List.mem_cons.mp hm with he | hm
      · exact hbh he
      · rcases List.mem_cons.mp hm with he | hm
        · exact notMem j b push hj hb he
        · exact hold.1 (List.mem_cons_of_mem _ hm)
  · exact h.alone.move fun k hk => by cases hk
  · intro b hb
    by_cases hba : b = a
    · rw [hba]; exact .inl (by simp)
    by_cases hbh : b = head
    · rw [hbh]; exact .inl List.mem_cons_self
    · rw [keeps b hbh] at hb
      rcases h.alive b hb with hm | ⟨j, push, hj⟩
      · left
        rcases List.mem_cons.mp hm with he | hm
        · exact absurd he hbh
        · exact List.mem_cons_of_mem _ (List.mem_cons_of_mem _ hm)
      · refine .inr ⟨j, push, ?_⟩
        rw [Function.update_of_ne]
        · exact hj
        · intro he
          subst he
          rw [hi] at hj
          cases hj
          exact hba rfl

/-- The new node of a `pushBack` has become the last, after the node at `tail_`. -/
theorem Memory.linkBack {tail old : A} {d : Option T} (h : Memory nodes head cells loc)
    (hi : loc i = .backLink v a old) (hne : cells ≠ []) (ht : tail = SafeList.last head cells)
    (hd : nodes tail = some ⟨d, none⟩) (hx : x.fresh = none) (hxt : x.taken = false) :
    Memory (Function.update nodes tail (some ⟨d, some a⟩)) head (cells ++ [(a, v)])
      (Function.update loc i x) := by
  obtain ⟨front, c, rfl⟩ := (List.eq_nil_or_concat' cells).resolve_left hne
  rw [SafeList.last_concat] at ht
  subst ht
  have hfresh := h.fresh i a (.back v) (by rw [hi]; rfl)
  rw [hi] at hfresh
  have hmem : c.1 ∈ (front ++ [c]).map Prod.fst := by simp
  have keeps : ∀ b, b ≠ c.1 → Function.update nodes c.1 (some ⟨d, some a⟩) b = nodes b :=
    fun b hb => Function.update_of_ne hb _ _
  have hhead : head ≠ c.1 := fun he => (List.nodup_cons.mp h.nodup).1 (he ▸ hmem)
  have hat : a ≠ c.1 := fun he => hfresh.1 (List.mem_cons_of_mem _ (he ▸ hmem))
  have hti : (loc i).taken = false := by rw [hi]; rfl
  have taken : ∀ j, (Function.update loc i x j).taken = (loc j).taken :=
    Threads.forall_update (Q := fun j y => Loc.taken y = (loc j).taken) (hxt.trans hti.symm)
      fun _ _ => rfl
  have others : ∀ {j b push'}, (Function.update loc i x j).fresh = some (b, push') →
      j ≠ i ∧ (loc j).fresh = some (b, push') := by
    intro j b push' hb
    by_cases hj : j = i
    · subst hj; rw [Function.update_self, hx] at hb; cases hb
    · rw [Function.update_of_ne hj] at hb; exact ⟨hj, hb⟩
  have hlast : Node.Linked (Function.update nodes c.1 (some ⟨d, some a⟩))
      [(c.1, d), (a, some v)] :=
    ⟨Function.update_self _ _ _, (keeps a hat).trans hfresh.2, trivial⟩
  have hfirst : first (front ++ [c] ++ [(a, v)]) = first (front ++ [c]) := by
    cases front <;> rfl
  constructor
  · have hl := h.linked
    have hn := h.nodup
    simp only [elements, List.map_append, List.append_assoc] at hl hn ⊢
    have hc := (Node.Linked.tail hl).1
    cases hd.symm.trans hc
    refine hl.replace (fun b hb => keeps b ?_) hlast
    intro he
    have hbm : b ∈ front.map Prod.fst := by simpa using hb
    exact (List.nodup_append.mp (List.nodup_cons.mp hn).2).2.2 b hbm c.1 (by simp) he
  · intro hnone
    rw [keeps head hhead, hfirst]
    exact h.root fun j => (taken j).symm.trans (hnone j)
  · intro j hj
    rw [keeps head hhead]
    exact h.bare j ((taken j).symm.trans hj)
  · rw [List.map_append, ← List.cons_append, List.map_singleton, ← List.concat_eq_append]
    exact h.nodup.concat hfresh.1
  · intro j b push hb
    obtain ⟨hj, hb⟩ := others hb
    have hold := h.fresh j b push hb
    have hba : b ≠ a := by
      intro he; subst he
      exact hj (h.alone_eq hb (by rw [hi]; rfl))
    rw [taken j, hfirst, keeps b fun he => hold.1 (List.mem_cons_of_mem _ (he ▸ hmem))]
    refine ⟨?_, hold.2⟩
    rw [List.map_append, ← List.cons_append, List.mem_append]
    intro hm
    rcases hm with hm | hm
    · exact hold.1 hm
    · exact hba (List.mem_singleton.mp hm)
  · exact h.alone.move fun k hk => by rw [hx] at hk; cases hk
  · intro b hb
    rw [List.map_append, ← List.cons_append, List.mem_append]
    by_cases hbt : b = c.1
    · exact .inl (.inl (List.mem_cons_of_mem _ (hbt ▸ hmem)))
    · rw [keeps b hbt] at hb
      rcases h.alive b hb with hm | ⟨j, push, hj⟩
      · exact .inl (.inl hm)
      · by_cases hji : j = i
        · subst hji
          rw [hi] at hj
          cases hj
          exact .inl (.inr List.mem_cons_self)
        · exact .inr ⟨j, push, by rw [Function.update_of_ne hji]; exact hj⟩

end

end Cxx.ListThreads
