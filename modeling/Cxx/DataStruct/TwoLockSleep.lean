import Cxx.DataStruct.TwoLockQueue

/-!
# The wait of `SafeQueueEnhance`

`wait_pop` evaluates its predicate under `mt_head_`, and in a later step
releases the mutex and blocks on `cv_lock_`. Nothing in the class notifies
`cv_lock_`, so that no step unblocks a thread.

* `waits_served`: when no push comes too late for a consumer, as many pops are
  under way as there are elements, whenever a consumer is in the wait.
* `wait_pop_in_time`: then no consumer is left blocked beside an element.
-/
namespace Cxx.TwoLock

variable {ι A T : Type}

/-- The queue with the waits of its consumers. A thread in no wait is at `enter`. -/
structure Waiting (ι A T : Type) where
  queue : SafeQueueEnhance ι A T
  wait : ι → Wait

/-- Where a thread is, and how far its wait is. -/
def Waiting.place (s : Waiting ι A T) (i : ι) : Loc A T × Wait := (s.queue.loc i, s.wait i)

section
variable [DecidableEq ι] [DecidableEq A]

/-- The predicate of the wait is false. -/
def SafeQueueEnhance.sleeps (s : SafeQueueEnhance ι A T) (i : ι) : Bool :=
  match s.loc i with
  | .compare true => decide (s.head = some s.tail)
  | _ => false

/-- mirrors include/data_struct/SafeQueue.hpp:59-87 -/
def Waiting.run (s : Waiting ι A T) (i : ι) : Option (Waiting ι A T) :=
  match s.wait i with
  | .blocked => none
  | .sleepy => some {
      queue := SafeQueueEnhance.goto { s.queue with mtHead := none } i (.popLock true)
      wait := Function.update s.wait i .blocked }
  | .enter | .woken =>
    if s.queue.sleeps i then some { s with wait := Function.update s.wait i .sleepy }
    else (s.queue.run i).map fun queue => { s with queue }

def Waiting.step (s : Waiting ι A T) : Label ι A T → Option (Waiting ι A T)
  | .call i op => (s.queue.call i op).map fun queue => { s with queue }
  | .run i => s.run i

end

def waitingQueue (ι A T : Type) [DecidableEq ι] [DecidableEq A] :
    LTS (Waiting ι A T) (Label ι A T) :=
  LTS.ofFn (fun s => ∃ dummy, s = ⟨.new dummy, fun _ => .enter⟩) Waiting.step

/-- The threads in the wait, which have found the queue empty. -/
def waits : CondVar (Loc A T × Wait) where
  blocked
    | (_, .sleepy) | (_, .blocked) => true
    | _ => false
  wake := fun x => (x.1, .woken)
  unblocks := fun _ _ => rfl

/-- A pop that has yet to take an element, or find that there is none. -/
def Loc.pops : Loc A T → Bool
  | .popLock _ | .compare _ | .move | .read _ => true
  | _ => false

def helps (x : Loc A T × Wait) : Bool := x.1.pops && !waits.blocked x

/-- A consumer is blocked for ever: there is an element, and nobody else is at work. -/
def Stranded (s : Waiting ι A T) : Prop :=
  (∃ i, s.wait i = .blocked) ∧ (∀ i, s.wait i = .blocked ∨ s.queue.loc i = .idle) ∧
    s.queue.head ≠ some s.queue.tail

def Waiting.advances (s : Waiting ι A T) : Label ι A T → Bool
  | .run i =>
    match s.queue.loc i with
    | .pushAdvance _ _ => true
    | _ => false
  | _ => false

/-- When a push advances `tail_` while a consumer is in the wait, there is a pop
under way for its element too. -/
def InTime [Fintype ι] (s : Waiting ι A T) (l : Label ι A T) (_ : Waiting ι A T) : Prop :=
  s.advances l = true → 0 < Threads.count waits.blocked s.place →
    s.queue.pushed.length + 1 ≤ s.queue.popped.length + Threads.count helps s.place

instance [Fintype ι] (s : Waiting ι A T) (l : Label ι A T) (s' : Waiting ι A T) :
    Decidable (InTime s l s') := inferInstanceAs (Decidable (_ → _))

/-! ## What a step does to the elements and to the pops -/

section
variable {s s' : SafeQueueEnhance ι A T} {front : List A} {vs : List T} {i : ι}

/-- The queue is empty exactly if the head is the tail. -/
theorem Inv.empty_iff (h : Inv s front vs) (hhead : s.head = some (front.headD s.tail)) :
    s.head = some s.tail ↔ vs = [] := by
  have hout := h.tail_apart.1
  have hchain := h.memory.chain
  rw [hhead]
  cases front with
  | nil =>
    cases vs with
    | nil => exact iff_of_true rfl rfl
    | cons v vs => exact hchain.elim
  | cons a front =>
    cases vs with
    | nil => exact hchain.elim
    | cons v vs =>
      refine iff_of_false (fun he => ?_) (List.cons_ne_nil v vs)
      rw [List.headD_cons, Option.some.injEq] at he
      exact hout (he ▸ List.mem_cons_self)

theorem sleeps_iff [DecidableEq A] :
    s.sleeps i = true ↔ s.loc i = .compare true ∧ s.head = some s.tail := by
  unfold SafeQueueEnhance.sleeps
  cases hi : s.loc i with
  | compare wait => cases wait <;> simp
  | _ => simp

/-- A step takes a thread from place `x` to `y`. -/
inductive Effect (s s' : SafeQueueEnhance ι A T) (x y : Loc A T × Wait) : Prop
  | keep (hp : s'.pushed = s.pushed) (ho : s'.popped = s.popped)
      (hb : waits.blocked y = true → waits.blocked x = true) (hh : helps x = true → helps y = true)
  /-- a pop has found that there is nothing -/
  | empty (hp : s'.pushed = s.pushed) (ho : s'.popped = s.popped) (hn : s.pushed = s.popped)
  | push (data : T) (new : A) (hx : x = (.pushAdvance data new, .enter))
      (hy : y = (.pushUnlock, .enter)) (hp : s'.pushed = s.pushed ++ [data])
      (ho : s'.popped = s.popped)
  | pop (v : T) (hp : s'.pushed = s.pushed) (ho : s'.popped = s.popped ++ [v])
      (hb : waits.blocked y = false)

variable [DecidableEq ι] [DecidableEq A]

theorem run_effect (h : Inv s front vs) (hs : s.run i = some s') :
    ∃ x, s'.loc = Function.update s.loc i x ∧ Effect s s' (s.loc i, .enter) (x, .enter) := by
  unfold SafeQueueEnhance.run at hs
  cases hi : s.loc i with
  | idle => rw [hi] at hs; cases hs
  | pushLock data new =>
    rw [hi] at hs
    obtain ⟨-, hs⟩ := Option.ite_none_right_eq_some.mp hs
    cases hs
    exact ⟨_, rfl, .keep rfl rfl nofun nofun⟩
  | pushFill data new =>
    rw [hi] at hs
    have ht : s.heap s.tail = some .empty := h.last_at hi rfl
    cases hs
    rw [access_eq ht]
    exact ⟨_, rfl, .keep rfl rfl nofun nofun⟩
  | pushLink data new =>
    rw [hi] at hs
    have ht : s.heap s.tail = some ⟨some data, none⟩ := h.last_at hi rfl
    cases hs
    rw [access_eq ht]
    exact ⟨_, rfl, .keep rfl rfl nofun nofun⟩
  | pushAdvance data new =>
    rw [hi] at hs
    cases hs
    exact ⟨_, rfl, .push data new rfl rfl rfl rfl⟩
  | popLock wait =>
    rw [hi] at hs
    obtain ⟨-, hs⟩ := Option.ite_none_right_eq_some.mp hs
    cases hs
    exact ⟨_, rfl, .keep rfl rfl nofun fun _ => rfl⟩
  | compare wait =>
    rw [hi] at hs
    have hf := h.compare_at hi
    by_cases hc : s.head = some s.tail
    · have hlog : s.pushed = s.popped := by
        rw [hf.2, (h.empty_iff hf.1).mp hc, List.append_nil]
      simp only [if_pos hc] at hs
      cases wait <;> cases hs <;> exact ⟨_, rfl, .empty rfl rfl hlog⟩
    · simp only [if_neg hc] at hs
      cases hs
      exact ⟨_, rfl, .keep rfl rfl nofun fun _ => rfl⟩
  | move => rw [hi] at hs; cases hs; exact ⟨_, rfl, .keep rfl rfl nofun fun _ => rfl⟩
  | read old =>
    rw [hi] at hs
    obtain ⟨-, a, v, rfl, ha, -⟩ := h.read_at hi
    cases hs
    rw [access_eq ha]
    exact ⟨_, rfl, .pop v rfl rfl rfl⟩
  | install a =>
    rw [hi] at hs
    obtain ⟨-, -, v, ha⟩ := h.install_at hi
    cases hs
    rw [access_eq ha]
    exact ⟨_, rfl, .keep rfl rfl nofun nofun⟩
  | _ => rw [hi] at hs; cases hs; exact ⟨_, rfl, .keep rfl rfl nofun nofun⟩

end

/-! ## What holds in every state -/

/-- A thread in the wait is where the wait has left it. -/
def Fits : Loc A T × Wait → Prop
  | (_, .enter) => True
  | (x, .sleepy) => x = .compare true
  | (x, .blocked) => x = .popLock true
  | (_, .woken) => False

structure Waiting.Inv (s : Waiting ι A T) : Prop where
  queue : ∃ front vs, TwoLock.Inv s.queue front vs
  fits : ∀ i, Fits (s.place i)

/-- What a step of thread `i` does. -/
structure Moves [DecidableEq ι] (s s' : Waiting ι A T) (i : ι) (y : Loc A T × Wait) : Prop where
  queue : ∃ front vs, TwoLock.Inv s'.queue front vs
  place : s'.place = Function.update s.place i y
  fits : Fits y
  effect : Effect s.queue s'.queue (s.place i) y

section
variable [DecidableEq ι] {s s' : Waiting ι A T} {l : Label ι A T} {i : ι} {y : Loc A T × Wait}

theorem place_update (loc : ι → Loc A T) (wait : ι → Wait) (i : ι) (x : Loc A T) (w : Wait) :
    (fun j => (Function.update loc i x j, Function.update wait i w j)) =
      Function.update (fun j => (loc j, wait j)) i (x, w) := by
  funext j
  by_cases hj : j = i
  · subst hj
    simp only [Function.update_self]
  · simp only [Function.update_of_ne hj]

/-- A thread moves while no wait does. -/
theorem place_goto {queue : SafeQueueEnhance ι A T} {x : Loc A T}
    (h : queue.loc = Function.update s.queue.loc i x) :
    ({ s with queue } : Waiting ι A T).place = Function.update s.place i (x, s.wait i) := by
  have hw := place_update s.queue.loc s.wait i x (s.wait i)
  rw [Function.update_eq_self] at hw
  unfold Waiting.place
  rw [← hw, ← h]

theorem place_wait {w : Wait} :
    ({ s with wait := Function.update s.wait i w } : Waiting ι A T).place =
      Function.update s.place i (s.queue.loc i, w) := by
  have hl := place_update s.queue.loc s.wait i (s.queue.loc i) w
  rw [Function.update_eq_self] at hl
  exact hl

theorem Waiting.Inv.step (h : s.Inv) (hm : Moves s s' i y) : s'.Inv where
  queue := hm.queue
  fits := by
    rw [hm.place]
    exact Threads.forall_update (Q := fun _ => Fits) hm.fits fun j _ => h.fits j

section
variable [Fintype ι]

/-- As many pops are under way as there are elements, if a consumer is in the wait. -/
def Waiting.Served (s : Waiting ι A T) : Prop :=
  CondVar.Served waits helps (s.queue.pushed.length - s.queue.popped.length) s.place

theorem Waiting.Served.step (h : s.Served) (hm : Moves s s' i y)
    (hl : (s.place i).1 ≠ .idle → l = .run i) (ht : InTime s l s') : s'.Served := by
  unfold Waiting.Served
  rw [hm.place]
  cases hm.effect with
  | keep hp ho hb hh =>
    rw [hp, ho]
    exact CondVar.Served.move h hb hh
  | empty hp ho hn =>
    rw [hp, ho, hn, Nat.sub_self]
    exact .zero
  | push data new hx hy hp ho =>
    obtain rfl := hl (by rw [hx]; nofun)
    have hi : s.queue.loc i = .pushAdvance data new := congrArg Prod.fst hx
    have hadvances : s.advances (.run i) = true := by
      simp only [Waiting.advances, hi]
    have hblocked := Threads.count_update waits.blocked s.place i y
    have hhelps := Threads.count_update helps s.place i y
    rw [hx, hy] at hblocked hhelps
    -- a push is in no wait, and takes nothing
    change _ + 0 = _ + 0 at hblocked hhelps
    intro hpos
    rw [hy] at hpos ⊢
    have hin := ht hadvances (by omega)
    rw [hp, ho, List.length_append, List.length_singleton]
    omega
  | pop v hp ho hb =>
    have hlog : s.queue.popped.length < s.queue.pushed.length := by
      obtain ⟨front, vs, hI'⟩ := hm.queue
      obtain ⟨rest, hrest⟩ := hI'.first.rest
      have hlen := congrArg List.length hrest
      rw [hp, ho] at hlen
      simp only [List.length_append, List.length_singleton] at hlen
      omega
    have hsub : s.queue.pushed.length - s.queue.popped.length =
        s'.queue.pushed.length - s'.queue.popped.length + 1 := by
      rw [hp, ho, List.length_append, List.length_singleton]
      omega
    unfold Waiting.Served at h
    rw [hsub] at h
    exact h.take (by rw [hb]; nofun)

end

variable [DecidableEq A]

theorem call_loc {q q' : SafeQueueEnhance ι A T} {op : Op A T} (hs : q.call i op = some q') :
    q.loc i = .idle ∧ (∃ x, q'.loc = Function.update q.loc i x) ∧ q'.pushed = q.pushed ∧
      q'.popped = q.popped := by
  unfold SafeQueueEnhance.call at hs
  cases hi : q.loc i with
  | idle =>
    cases op with
    | push data new =>
      cases hn : q.heap new with
      | none =>
        simp only [hi, hn, Option.some.injEq] at hs
        subst hs
        exact ⟨rfl, ⟨_, rfl⟩, rfl, rfl⟩
      | some node => simp only [hi, hn] at hs; cases hs
    | _ =>
      simp only [hi, Option.some.injEq] at hs
      subst hs
      exact ⟨rfl, ⟨_, rfl⟩, rfl, rfl⟩
  | _ => rw [hi] at hs; cases op <;> cases hs

theorem Waiting.Inv.call_moves (h : s.Inv) {op : Op A T} (hs : s.step (.call i op) = some s') :
    ∃ y, Moves s s' i y ∧ s.queue.loc i = .idle := by
  obtain ⟨front, vs, hI⟩ := h.queue
  obtain ⟨q, hq, rfl⟩ := Option.map_eq_some_iff.mp hs
  obtain ⟨hi, ⟨x, hx⟩, hp, ho⟩ := call_loc hq
  have hwait : ∀ z : Loc A T, waits.blocked (x, s.wait i) = waits.blocked (z, s.wait i) := by
    intro z
    cases s.wait i <;> rfl
  refine ⟨(x, s.wait i), ⟨⟨front, vs, hI.call hq⟩, place_goto hx, ?_, .keep hp ho ?_ ?_⟩, hi⟩
  · -- a thread in the wait makes no calls
    have hfits := h.fits i
    unfold Waiting.place at hfits
    rw [hi] at hfits
    cases hw : s.wait i with
    | enter => trivial
    | _ => rw [hw] at hfits; cases hfits
  · exact fun hb => (hwait (s.queue.loc i)).symm.trans hb
  · unfold Waiting.place helps
    rw [hi]
    nofun

theorem Waiting.Inv.run_moves (h : s.Inv) (hs : s.run i = some s') : ∃ y, Moves s s' i y := by
  obtain ⟨front, vs, hI⟩ := h.queue
  unfold Waiting.run at hs
  have hfits := h.fits i
  unfold Waiting.place at hfits
  cases hw : s.wait i with
  | blocked => simp only [hw] at hs; cases hs
  | woken => rw [hw] at hfits; exact hfits.elim
  | sleepy =>
    rw [hw] at hfits
    simp only [hw, Option.some.injEq] at hs
    have hi : s.queue.loc i = .compare true := hfits
    subst hs
    refine ⟨(.popLock true, .blocked),
      ⟨front, vs, hI.pop_unlock (by rw [hi]; rfl) rfl rfl rfl (hI.compare_at hi)⟩,
      place_update s.queue.loc s.wait i _ _, rfl, .keep rfl rfl ?_ ?_⟩
    · unfold Waiting.place
      rw [hw]
      exact fun _ => rfl
    · unfold Waiting.place
      rw [hw, hi]
      nofun
  | enter =>
    simp only [hw] at hs
    by_cases hsleep : s.queue.sleeps i = true
    · rw [if_pos hsleep, Option.some.injEq] at hs
      obtain ⟨hi, hc⟩ := sleeps_iff.mp hsleep
      have hf := hI.compare_at hi
      have hlog : s.queue.pushed = s.queue.popped := by
        rw [hf.2, (hI.empty_iff hf.1).mp hc, List.append_nil]
      subst hs
      exact ⟨_, h.queue, place_wait, hi, .empty rfl rfl hlog⟩
    · rw [if_neg hsleep] at hs
      obtain ⟨q, hq, rfl⟩ := Option.map_eq_some_iff.mp hs
      obtain ⟨x, hx, heff⟩ := run_effect hI hq
      refine ⟨_, hI.step (l := .run i) hq, place_goto hx, ?_, ?_⟩
      · rw [hw]; trivial
      · unfold Waiting.place
        rw [hw]
        exact heff

theorem Waiting.Inv.moves (h : s.Inv) (hs : s.step l = some s') : ∃ i y, Moves s s' i y ∧
    ((s.place i).1 ≠ .idle → l = .run i) := by
  cases l with
  | call i op =>
    obtain ⟨y, hm, hi⟩ := h.call_moves hs
    exact ⟨i, y, hm, fun hne => absurd hi hne⟩
  | run i =>
    obtain ⟨y, hm⟩ := h.run_moves hs
    exact ⟨i, y, hm, fun _ => rfl⟩

theorem waiting_inductive : (waitingQueue ι A T).Inductive Waiting.Inv where
  init := by
    intro s hs
    obtain ⟨dummy, rfl⟩ := hs
    exact ⟨⟨[], [], inv_new dummy⟩, fun _ => trivial⟩
  step := by
    intro s l s' h hst
    obtain ⟨i, y, hm, -⟩ := h.moves hst
    exact h.step hm

/-! ## No consumer is left asleep beside an element -/

variable [Fintype ι]

theorem waits_served : ((waitingQueue ι A T).restrict InTime).Inductive
    fun s => s.Inv ∧ s.Served := by
  apply (waiting_inductive.restrict InTime).assuming
  · intro s hs
    obtain ⟨dummy, rfl⟩ := hs
    exact CondVar.Served.zero
  · intro s l s' hI h hst
    obtain ⟨i, y, hm, hl⟩ := hI.moves hst.1
    exact h.step hm hl hst.2

/-- **Where every push is in time, no consumer is left blocked beside an element.** -/
theorem wait_pop_in_time (s₀ s : Waiting ι A T) (ls : List (Label ι A T))
    (h₀ : (waitingQueue ι A T).init s₀) (r : ((waitingQueue ι A T).restrict InTime).Run s₀ ls s) :
    ¬ Stranded s := by
  intro h
  obtain ⟨⟨j, hj⟩, hquiet, hne⟩ := h
  obtain ⟨hI, hserved⟩ := waits_served.run r (waits_served.init s₀ h₀)
  obtain ⟨front, vs, hq⟩ := hI.queue
  -- nobody holds the mutex, and nobody pops
  have hloc : ∀ i, s.queue.loc i = .popLock true ∨ s.queue.loc i = .idle := by
    intro i
    rcases hquiet i with hw | hi
    · have hfits := hI.fits i
      unfold Waiting.place at hfits
      rw [hw] at hfits
      exact .inl hfits
    · exact .inr hi
  have hfirst : s.queue.head = some (front.headD s.queue.tail) ∧
      s.queue.pushed = s.queue.popped ++ vs := by
    have hf := hq.first
    cases hm : s.queue.mtHead with
    | none => rw [hm] at hf; exact hf
    | some i =>
      have hin := (hq.headMutex i).mpr hm
      rcases hloc i with hi | hi <;> rw [hi] at hin <;> cases hin
  have hhelps : Threads.count helps s.place = 0 := by
    rw [Threads.count_eq_zero]
    intro i
    unfold Waiting.place helps
    rcases hquiet i with hw | hi
    · rw [hw]; exact Bool.and_false _
    · rw [hi]; rfl
  have hpos : 0 < Threads.count waits.blocked s.place := by
    refine Threads.count_pos.mpr ⟨j, ?_⟩
    unfold Waiting.place
    rw [hj]; rfl
  have hle := hserved hpos
  rw [hhelps, hfirst.2, List.length_append] at hle
  have hvs : vs = [] := List.eq_nil_of_length_eq_zero (by omega)
  exact hne ((hq.empty_iff hfirst.1).mpr hvs)

end

/-- Thread `false` pushes 5 and thread `true` takes it; then `true` waits. -/
def inTime : List (Label Bool Nat Nat) :=
  .call false (.push 5 1) :: List.replicate 5 (.run false) ++
    .call true .waitPop :: List.replicate 7 (.run true) ++
    .call true .waitPop :: List.replicate 3 (.run true)

theorem wait_pop_in_time_blocked : ∃ s, ((waitingQueue Bool Nat Nat).restrict InTime).Run
    ⟨.new 0, fun _ => .enter⟩ inTime s ∧ s.wait true = .blocked ∧ ¬ Stranded s := by
  have hrun : ∃ s : Waiting Bool Nat Nat, LTS.exec (fun s l =>
      (Waiting.step s l).filter fun s' => decide (InTime s l s')) ⟨.new 0, fun _ => .enter⟩
      inTime = some s ∧ s.wait true = .blocked := ⟨_, rfl, rfl⟩
  obtain ⟨s, he, hw⟩ := hrun
  have r : ((waitingQueue Bool Nat Nat).restrict InTime).Run ⟨.new 0, fun _ => .enter⟩ inTime s :=
    LTS.run_restrict_of_exec he
  exact ⟨s, r, hw, wait_pop_in_time _ s inTime ⟨0, rfl⟩ r⟩

/-- The consumer blocks on the empty queue, and a push does not wake it. -/
def asleep : List (Label Bool Nat Nat) :=
  .call true .waitPop :: List.replicate 3 (.run true) ++
    .call false (.push 5 1) :: List.replicate 5 (.run false)

theorem consumer_stranded : ∃ s, (waitingQueue Bool Nat Nat).Reachable s ∧
    s.queue.pushed = [5] ∧ s.queue.popped = [] ∧ Stranded s := by
  have hrun : ∃ s : Waiting Bool Nat Nat,
      LTS.exec Waiting.step ⟨.new 0, fun _ => .enter⟩ asleep = some s ∧
        s.queue.pushed = [5] ∧ s.queue.popped = [] ∧ s.wait true = .blocked ∧
        s.queue.loc false = .idle ∧ s.queue.head = some 0 ∧ s.queue.tail = 1 :=
    ⟨_, rfl, rfl, rfl, rfl, rfl, rfl, rfl⟩
  obtain ⟨s, he, hp, ho, hw, hi, hh, ht⟩ := hrun
  refine ⟨s, LTS.reachable_of_exec ⟨0, rfl⟩ he, hp, ho, ⟨true, hw⟩, fun i => ?_, ?_⟩
  · cases i with
    | true => exact .inl hw
    | false => exact .inr hi
  · rw [hh, ht]
    decide

end Cxx.TwoLock
