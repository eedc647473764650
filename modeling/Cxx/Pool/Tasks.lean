import Cxx.Pool.ThreadPool

/-!
# Which tasks are run

A worker leaves its loop when it finds `stop_` set, with whatever is in
`tasks_` left there. Of the tasks queued when `stop_` is set, those are run
that some worker is already waiting to take: one that is past the loop's
test and has no task yet.

* `no_task_lost`: when `stop` has returned, every task put into `tasks_` has
  been run exactly once just if there was such a worker for each.
* `task_abandoned`: a run in which there was none.
-/
namespace Cxx.Pool

variable {W C : Type}

/-- Past the loop's test, and without a task yet. -/
def Worker.taking : Worker → Bool
  | .wait _ | .take => true
  | _ => false

def Worker.runs (task : Nat) : Worker → Bool
  | .run t => t == task
  | _ => false

def ThreadPool.takers [Fintype W] (s : ThreadPool W C) : Nat :=
  Threads.count Worker.taking s.worker

/-- When `stop_` is set there are workers to take what is in `tasks_`; and when
a task is put into `tasks_` after that, there is one to spare. -/
def Enough [Fintype W] (s : ThreadPool W C) (l : Label W C) (_ : ThreadPool W C) : Prop :=
  match l with
  | .stop => s.stopper = .idle → s.tasks.length ≤ s.takers
  | .commit c _ => s.client c = .push → s.stop = true → s.tasks.length < s.takers
  | _ => True

/-- Every accepted task has been run by one worker, once. -/
def AllRun (s : ThreadPool W C) : Prop :=
  ∀ task < s.accepted, ∃ w, s.ran.filter (fun r => r.2 = task) = [(w, task)]

/-- Where a task is: it has been run, is being run, or is in `tasks_`. -/
def ThreadPool.places [Fintype W] (s : ThreadPool W C) (task : Nat) : Nat :=
  (s.ran.map Prod.snd).count task + Threads.count (Worker.runs task) s.worker + s.tasks.count task

def due (accepted task : Nat) : Nat := (decide (task < accepted)).toNat

structure Ledger [Fintype W] (s : ThreadPool W C) : Prop where
  once : ∀ task, s.places task = due s.accepted task
  stopped : s.stopper ≠ .idle → s.stop = true
  joined : s.stopper = .returned → ∀ w, s.worker w = .done

/-- There are workers for all the tasks left when the pool has stopped. -/
def Manned [Fintype W] (s : ThreadPool W C) : Prop := s.stop = true → s.tasks.length ≤ s.takers

/-- There are not. -/
def Short [Fintype W] (s : ThreadPool W C) : Prop := s.stop = true ∧ s.takers < s.tasks.length

theorem count_cons_toNat (t task : Nat) (tasks : List Nat) :
    (t :: tasks).count task = tasks.count task + (t == task).toNat := by
  rw [List.count_cons]
  cases t == task <;> rfl

theorem count_concat_toNat (t task : Nat) (tasks : List Nat) :
    (tasks ++ [t]).count task = tasks.count task + (t == task).toNat := by
  rw [List.count_append, count_cons_toNat, List.count_nil, Nat.zero_add]

theorem due_succ (accepted task : Nat) :
    due (accepted + 1) task = due accepted task + (accepted == task).toNat := by
  unfold due
  by_cases he : accepted = task
  · subst he; simp
  · have hne : (accepted == task) = false := by simpa using he
    have hlt : decide (task < accepted + 1) = decide (task < accepted) := by
      rw [decide_eq_decide]; omega
    rw [hne, hlt]; rfl

/-! ## When all workers are done -/

section
variable [Fintype W] {s : ThreadPool W C}

theorem takers_done (hw : ∀ w, s.worker w = .done) : s.takers = 0 := by
  apply Threads.count_eq_zero.mpr
  intro w
  rw [hw w]; rfl

theorem all_run_iff (hl : Ledger s) (hw : ∀ w, s.worker w = .done) : AllRun s ↔ s.tasks = [] := by
  have hidle : ∀ task, Threads.count (Worker.runs task) s.worker = 0 := by
    intro task
    apply Threads.count_eq_zero.mpr
    intro w
    rw [hw w]; rfl
  have hlen : ∀ task, (s.ran.map Prod.snd).count task =
      (s.ran.filter fun r => r.2 = task).length := by
    intro task
    rw [List.count, List.countP_map, List.countP_eq_length_filter]
    rfl
  have honce : ∀ task, (s.ran.filter fun r => r.2 = task).length + s.tasks.count task =
      due s.accepted task := by
    intro task
    have := hl.once task
    rwa [ThreadPool.places, hidle, hlen, Nat.add_zero] at this
  constructor
  · intro hrun
    apply List.eq_nil_iff_forall_not_mem.mpr
    intro task hmem
    have hpos : 0 < s.tasks.count task := List.count_pos_iff.mpr hmem
    have hsum := honce task
    have hlt : task < s.accepted := by
      apply Decidable.byContradiction
      intro hge
      rw [due, decide_eq_false hge] at hsum
      simp only [Bool.toNat_false] at hsum
      omega
    obtain ⟨w, hfilter⟩ := hrun task hlt
    rw [hfilter, due, decide_eq_true hlt] at hsum
    simp only [List.length_singleton, Bool.toNat_true] at hsum
    omega
  · intro hq task hlt
    have hsum := honce task
    rw [hq, List.count_nil, due, decide_eq_true hlt] at hsum
    obtain ⟨r, hfilter⟩ := List.length_eq_one_iff.mp hsum
    have hmem : r ∈ s.ran.filter fun r => r.2 = task := by
      rw [hfilter]
      exact List.mem_singleton_self r
    have htask : r.2 = task := of_decide_eq_true (List.mem_filter.mp hmem).2
    exact ⟨r.1, by rw [hfilter, ← htask]⟩

end

/-! ## The workers left for the tasks -/

/-- What a step does to the number of tasks and of workers to take them. -/
inductive Shift [Fintype W] (s : ThreadPool W C) (l : Label W C) (s' : ThreadPool W C) : Prop
  | even (hs : s'.stop = s.stop)
      (h : s'.tasks.length + s.takers = s.tasks.length + s'.takers)
  | enter (h : s.stop = false) (hs : s'.stop = false)
  | giveUp (hs : s'.stop = s.stop) (hq : s.tasks = []) (hq' : s'.tasks = [])
  | push (c : C) (target : Option W) (hl : l = .commit c target) (hc : s.client c = .push)
      (hs : s'.stop = s.stop) (hq : s'.tasks.length = s.tasks.length + 1)
      (hw : s'.takers = s.takers)
  | stop (hl : l = .stop) (h : s.stopper = .idle) (hs : s'.stop = true)
      (hq : s'.tasks = s.tasks) (hw : s'.takers = s.takers)

section
variable [Fintype W] {s s' : ThreadPool W C} {l : Label W C}

theorem Shift.manned (h : Shift s l s') (hm : Manned s) (he : Enough s l s') : Manned s' := by
  intro hstop
  cases h with
  | even hs h => have := hm (hs ▸ hstop); omega
  | enter h hs => exact absurd (hs.symm.trans hstop) (by decide)
  | giveUp hs hq hq' => rw [hq']; exact Nat.zero_le _
  | push c target hl hc hs hq hw =>
    subst hl
    have := he hc (hs ▸ hstop)
    omega
  | stop hl h hs hq hw =>
    subst hl
    rw [hq, hw]
    exact he h

/-- Once there are too few workers there are too few for ever. -/
theorem Shift.short (h : Shift s l s') (hs : Short s) : Short s' := by
  obtain ⟨hstop, hlen⟩ := hs
  cases h with
  | even hs h => exact ⟨hs.trans hstop, by omega⟩
  | enter h hs => exact absurd (h.symm.trans hstop) (by decide)
  | giveUp hs hq hq' => rw [hq] at hlen; exact absurd hlen (Nat.not_lt_zero _)
  | push c target hl hc hs hq hw => exact ⟨hs.trans hstop, by omega⟩
  | stop hl h hs hq hw => exact ⟨hs, by rw [hq, hw]; exact hlen⟩

end

section
variable [DecidableEq W] [Fintype W] [DecidableEq C] {s s' : ThreadPool W C} {l : Label W C}

/-! ## The tasks -/

theorem Moves.once (h : Moves s l s') (hl : Ledger s) (task : Nat) :
    s'.places task = due s'.accepted task := by
  have h₀ := hl.once task
  -- a worker moves without a task at either end
  have quiet : ∀ {w : W} {x : Worker}, (s.worker w).runs task = false → x.runs task = false →
      (s.goto w x).places task = due s.accepted task := by
    intro w x hw hx
    have hc := Threads.count_update (Worker.runs task) s.worker w x
    rw [hw, hx, Nat.add_right_cancel_iff] at hc
    rw [← h₀]
    unfold ThreadPool.places
    simp only [ThreadPool.goto, hc]
  have notified : ∀ {worker : W → Worker},
      (∀ w, (worker w).runs task = (s.worker w).runs task) →
      Threads.count (Worker.runs task) worker = Threads.count (Worker.runs task) s.worker :=
    fun h => Threads.count_congr h
  unfold ThreadPool.places at h₀ ⊢
  cases h with
  | leave w h hs => exact quiet (by rw [h]; rfl) rfl
  | enter w h hs => exact quiet (by rw [h]; rfl) rfl
  | awake w p h hp hb => exact quiet (by rw [h]; rfl) rfl
  | doze w p h hp hb => exact quiet (by rw [h]; rfl) rfl
  | block w h => exact quiet (by rw [h]; rfl) rfl
  | giveUp w h hq => exact quiet (by rw [h]; rfl) rfl
  | take w t tasks h hq =>
    have hc := Threads.count_update (Worker.runs task) s.worker w (.run t)
    rw [h] at hc
    rw [hq, count_cons_toNat] at h₀
    simp only [Worker.runs, Bool.toNat_false, Nat.add_zero] at hc
    simp only [ThreadPool.goto]
    omega
  | run w t h =>
    have hc := Threads.count_update (Worker.runs task) s.worker w .check
    rw [h] at hc
    simp only [Worker.runs, Bool.toNat_false, Nat.add_zero] at hc
    simp only [ThreadPool.goto, List.map_append, List.map_cons, List.map_nil, count_concat_toNat]
    omega
  | commit c target x h hx => exact h₀
  | push c target h =>
    have hd := due_succ s.accepted task
    simp only [ThreadPool.move, count_concat_toNat]
    omega
  | notify c target h worker hn =>
    have hc := notified (CondVar.notifyOne_keeps (keeps_worker (Worker.runs task) rfl) hn)
    simp only [ThreadPool.move, hc]
    exact h₀
  | stop h => exact h₀
  | notifyAll h =>
    have hc := notified (CondVar.notifyAll_keeps (keeps_worker (Worker.runs task) rfl) s.worker)
    simp only [hc]
    exact h₀
  | joined h hw => exact h₀
  | spurious w h => exact quiet (by rw [h]; rfl) rfl

theorem Moves.all_done (h : Moves s l s') (hl : Ledger s) (hr : s'.stopper = .returned) :
    ∀ w, s'.worker w = .done := by
  cases h with
  | joined h hw => exact hw
  | stop h => cases hr
  | notifyAll h => cases hr
  | commit c target x h hx => exact hl.joined hr
  | push c target h => exact hl.joined hr
  | notify c target h worker hn =>
    have hw := hl.joined hr
    rcases CondVar.notifyOne_spec hn with ⟨j, hj, -⟩ | ⟨-, rfl⟩
    · rw [hw j] at hj; cases hj
    · exact hw
  | leave w h | enter w h | awake w p h | doze w p h | block w h | giveUp w h | take w t tasks h
  | run w t h | spurious w h =>
    -- no worker moves any more
    have hw := hl.joined hr w
    rw [h] at hw
    cases hw

theorem Moves.stopped (h : Moves s l s') (hl : Ledger s) (hs : s'.stopper ≠ .idle) :
    s'.stop = true := by
  cases h with
  | stop h => rfl
  | notifyAll h => exact hl.stopped (by simp [h])
  | joined h hw => exact hl.stopped (by simp [h])
  | _ => exact hl.stopped hs

theorem ledger_inductive : (pool W C).Inductive Ledger where
  init := by
    intro s hs
    subst hs
    refine ⟨fun task => ?_, fun h => absurd rfl h, fun h => by cases h⟩
    have hrun : Threads.count (Worker.runs task) (ThreadPool.new : ThreadPool W C).worker = 0 :=
      Threads.count_eq_zero.mpr fun _ => rfl
    unfold ThreadPool.places
    rw [hrun]
    simp [ThreadPool.new, due]
  step := fun _ _ _ hl hst =>
    ⟨(step_moves hst).once hl, (step_moves hst).stopped hl, (step_moves hst).all_done hl⟩

theorem Moves.shift (h : Moves s l s') : Shift s l s' := by
  have even : ∀ {w : W} {x : Worker}, x.taking = (s.worker w).taking →
      s.tasks.length + s.takers = s.tasks.length + (s.goto w x).takers := by
    intro w x hx
    have hc := Threads.count_update Worker.taking s.worker w x
    rw [hx, Nat.add_right_cancel_iff] at hc
    exact congrArg (s.tasks.length + ·) hc.symm
  have notified : ∀ {worker : W → Worker}, (∀ w, (worker w).taking = (s.worker w).taking) →
      s.tasks.length + s.takers = s.tasks.length + Threads.count Worker.taking worker :=
    fun hw => congrArg (s.tasks.length + ·) (Threads.count_congr hw).symm
  cases h with
  | leave w h hs => exact .even rfl (even (by rw [h]; rfl))
  | enter w h hs => exact .enter hs hs
  | awake w p h hp hb => exact .even rfl (even (by rw [h]; rfl))
  | doze w p h hp hb => exact .even rfl (even (by rw [h]; rfl))
  | block w h => exact .even rfl (even (by rw [h]; rfl))
  | giveUp w h hq => exact .giveUp rfl hq hq
  | take w t tasks h hq =>
    have hc := Threads.count_update Worker.taking s.worker w (.run t)
    rw [h] at hc
    simp only [Worker.taking, Bool.toNat_false, Bool.toNat_true, Nat.add_zero] at hc
    refine .even rfl ?_
    simp only [ThreadPool.takers, ThreadPool.goto, hq, List.length_cons]
    omega
  | run w t h => exact .even rfl (even (by rw [h]; rfl))
  | commit c target x h hx => exact .even rfl rfl
  | push c target h => exact .push c target rfl h rfl (by simp [ThreadPool.move]) rfl
  | notify c target h worker hn =>
    exact .even rfl (notified (CondVar.notifyOne_keeps (keeps_worker Worker.taking rfl) hn))
  | stop h => exact .stop rfl h rfl rfl rfl
  | notifyAll h =>
    exact .even rfl (notified (CondVar.notifyAll_keeps (keeps_worker Worker.taking rfl) s.worker))
  | joined h hw => exact .even rfl rfl
  | spurious w h => exact .even rfl (even (by rw [h]; rfl))

/-- Without the condition there are too few. -/
theorem Moves.spill (h : Moves s l s') (hne : ¬ Enough s l s') : Short s' := by
  cases h with
  | stop h =>
    unfold Enough at hne
    push Not at hne
    exact ⟨rfl, hne.2⟩
  | push c target h =>
    unfold Enough at hne
    push Not at hne
    obtain ⟨-, hstop, hlen⟩ := hne
    refine ⟨hstop, ?_⟩
    simp only [ThreadPool.move, List.length_append, List.length_singleton]
    exact Nat.lt_succ_of_le hlen
  | commit c target x h hx => exact absurd (fun hc => absurd hc h) hne
  | notify c target h worker hn => exact absurd (fun hc => by rw [h] at hc; cases hc) hne
  | notifyAll h => exact absurd (fun hi => by rw [h] at hi; cases hi) hne
  | joined h hw => exact absurd (fun hi => by rw [h] at hi; cases hi) hne
  | _ => exact absurd trivial hne

theorem manned_inductive :
    ((pool W C).restrict Enough).Inductive fun s => Ledger s ∧ Manned s := by
  apply (ledger_inductive.restrict Enough).assuming
  · intro s hs
    subst hs
    exact fun h => by cases h
  · exact fun s l s' _ hm hst => (step_moves hst.1).shift.manned hm hst.2

/-- **No task is lost.** When `stop` has returned, all tasks put into `tasks_`
have been run, by one worker and once, just if at each step there were
workers enough. -/
theorem no_task_lost {ls : List (Label W C)} (r : (pool W C).Run .new ls s)
    (hr : s.stopper = .returned) : AllRun s ↔ ((pool W C).restrict Enough).Run .new ls s := by
  have hinit := (manned_inductive (W := W) (C := C)).init .new rfl
  have hl := ledger_inductive.run r hinit.1
  have hw := hl.joined hr
  rw [all_run_iff hl hw]
  constructor
  · intro hq
    rcases LTS.run_restrict_or manned_inductive (B := Short)
      (fun s l s' _ hst hne => (step_moves hst).spill hne)
      (fun s l s' hs hst => (step_moves hst).shift.short hs) hinit r with hrestrict | hshort
    · exact hrestrict
    · have := hshort.2
      rw [hq] at this
      exact absurd this (Nat.not_lt_zero _)
  · intro hrestrict
    have hm := (manned_inductive.run hrestrict hinit).2
    have := hm (hl.stopped (by simp [hr]))
    rw [takers_done hw] at this
    exact List.length_eq_zero_iff.mp (Nat.le_zero.mp this)

end

/-- A task is put into `tasks_`. -/
def commitOne : List (Label Unit Unit) := List.replicate 4 (.commit () none)

/-- The worker waits, takes the task and runs it before the pool is stopped. -/
def taskInTime : List (Label Unit Unit) :=
  .worker () :: commitOne ++ List.replicate 3 (.worker ()) ++ [.stop, .stop, .worker (), .stop]

theorem no_task_lost_in_time : ∃ s : ThreadPool Unit Unit, (pool Unit Unit).Run .new taskInTime s ∧
    s.stopper = .returned ∧ s.accepted = 1 ∧
    ((pool Unit Unit).restrict Enough).Run .new taskInTime s := by
  have hrun : ∃ s : ThreadPool Unit Unit, LTS.exec ThreadPool.step .new taskInTime = some s ∧
      s.stopper = .returned ∧ s.accepted = 1 ∧ s.ran = [((), 0)] := ⟨_, rfl, rfl, rfl, rfl⟩
  obtain ⟨s, he, hr, ha, hran⟩ := hrun
  have r : (pool Unit Unit).Run .new taskInTime s := LTS.run_of_exec he
  have hall : AllRun s := by
    intro task hlt
    obtain rfl : task = 0 := by omega
    exact ⟨(), by rw [hran]; rfl⟩
  exact ⟨s, r, hr, ha, (no_task_lost r hr).mp hall⟩

/-- The pool is stopped before its worker has come to the loop's test. -/
def taskTooLate : List (Label Unit Unit) := commitOne ++ [.stop, .stop, .worker (), .stop]

theorem task_abandoned : ∃ s : ThreadPool Unit Unit,
    LTS.exec ThreadPool.step .new taskTooLate = some s ∧ s.stopper = .returned ∧
      s.accepted = 1 ∧ s.ran = [] ∧ ¬ AllRun s := by
  have hrun : ∃ s : ThreadPool Unit Unit, LTS.exec ThreadPool.step .new taskTooLate = some s ∧
      s.stopper = .returned ∧ s.accepted = 1 ∧ s.ran = [] := ⟨_, rfl, rfl, rfl, rfl⟩
  obtain ⟨s, he, hr, ha, hran⟩ := hrun
  refine ⟨s, he, hr, ha, hran, fun h => ?_⟩
  obtain ⟨w, hw⟩ := h 0 (by omega)
  rw [hran] at hw
  cases hw

end Cxx.Pool
