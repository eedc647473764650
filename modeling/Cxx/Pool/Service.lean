import Cxx.Core.Potential
import Cxx.Pool.Hang
import Cxx.Pool.Tasks

/-!
# The order and the pace of the tasks

A task that a worker has begun returns, with the worker's next step.

* `pool_order`: tasks are begun in the order in which they were accepted.
* `pool_bounded`: the workers take so many steps for a task, and none for nothing.
* `pool_serves`: before anyone calls `stop`, they come to rest with every accepted
  task run.
* `pool_stops`: when the notification of `stop` is noticed, they come to their end,
  and `stop` returns.
-/
namespace Cxx.Pool

variable {W C : Type}

/-! ## The order -/

/-- The task that a worker is running. -/
def Worker.task : Worker → Option Nat
  | .run task => some task
  | _ => none

theorem task_eq_of_blocked {x : Worker} (h : cvLock.blocked x = true) :
    (cvLock.wake x).task = x.task := by
  rw [blocked_worker.mp h]
  rfl

/-- What a worker has begun, in its order. -/
def ThreadPool.begun [DecidableEq W] (s : ThreadPool W C) (w : W) : List Nat :=
  (s.ran.filter fun r => decide (r.1 = w)).map Prod.snd ++ (s.worker w).task.toList

/-- The first `n` tasks have been begun, and the others are in `tasks_`. -/
structure InOrder [DecidableEq W] (s : ThreadPool W C) (n : Nat) : Prop where
  le : n ≤ s.accepted
  tasks : s.tasks = List.range' n (s.accepted - n)
  begun : ∀ task, (∃ w, task ∈ s.begun w) ↔ task < n
  one : ∀ task v w, task ∈ s.begun v → task ∈ s.begun w → v = w
  increasing : ∀ w, (s.begun w).Pairwise (· < ·)

section
variable [DecidableEq W] {s s' : ThreadPool W C} {n : Nat} {w : W}

theorem begun_congr (hran : s'.ran = s.ran)
    (htask : ∀ w, (s'.worker w).task = (s.worker w).task) : s'.begun = s.begun := by
  funext w
  simp only [ThreadPool.begun, hran, htask w]

theorem begun_goto (cvMt : Option W) {x : Worker} (hx : x.task = (s.worker w).task) :
    (ThreadPool.goto { s with cvMt } w x).begun = s.begun :=
  begun_congr rfl (Threads.forall_update (Q := fun v y => Worker.task y = (s.worker v).task) hx
    fun _ _ => rfl)

theorem begun_take (h : s.worker w = .take) (task : Nat) (tasks : List Nat) :
    (ThreadPool.goto { s with tasks, cvMt := none } w (.run task)).begun =
      Function.update s.begun w (s.begun w ++ [task]) := by
  funext v
  by_cases hv : v = w
  · subst hv
    simp [ThreadPool.begun, ThreadPool.goto, h, Worker.task]
  · simp [ThreadPool.begun, ThreadPool.goto, hv]

theorem begun_run {task : Nat} (h : s.worker w = .run task) :
    (ThreadPool.goto { s with ran := s.ran ++ [(w, task)] } w .check).begun = s.begun := by
  funext v
  by_cases hv : v = w
  · subst hv
    simp [ThreadPool.begun, ThreadPool.goto, h, Worker.task]
  · have hw : w ≠ v := fun he => hv he.symm
    simp [ThreadPool.begun, ThreadPool.goto, hv, hw]

theorem InOrder.congr (h : InOrder s n) (hb : s'.begun = s.begun) (ht : s'.tasks = s.tasks)
    (ha : s'.accepted = s.accepted) : InOrder s' n where
  le := ha ▸ h.le
  tasks := by rw [ht, ha]; exact h.tasks
  begun := hb ▸ h.begun
  one := hb ▸ h.one
  increasing := hb ▸ h.increasing

theorem InOrder.goto (h : InOrder s n) (cvMt : Option W) {x : Worker}
    (hx : x.task = (s.worker w).task) : InOrder (ThreadPool.goto { s with cvMt } w x) n :=
  h.congr (begun_goto cvMt hx) rfl rfl

/-- A worker begins the first task of `tasks_`. -/
theorem InOrder.take (h : InOrder s n) {task : Nat} {tasks : List Nat}
    (hw : s.worker w = .take) (hq : s.tasks = task :: tasks) :
    InOrder (ThreadPool.goto { s with tasks, cvMt := none } w (.run task)) (n + 1) := by
  have hb := begun_take hw task tasks
  have hlt : n < s.accepted := by
    have hlen := congrArg List.length (hq.symm.trans h.tasks)
    simp only [List.length_cons, List.length_range'] at hlen
    omega
  have hrange : List.range' n (s.accepted - n) =
      n :: List.range' (n + 1) (s.accepted - (n + 1)) := by
    rw [← List.range'_succ]
    congr 1
    omega
  obtain ⟨rfl, rfl⟩ : task = n ∧ tasks = List.range' (n + 1) (s.accepted - (n + 1)) := by
    simpa using hq.symm.trans (h.tasks.trans hrange)
  have hfresh : ∀ v, task ∉ s.begun v := fun v hv =>
    Nat.lt_irrefl _ ((h.begun task).mp ⟨v, hv⟩)
  have hmem : ∀ v t, t ∈ Function.update s.begun w (s.begun w ++ [task]) v ↔
      t ∈ s.begun v ∨ v = w ∧ t = task := by
    intro v t
    by_cases hv : v = w
    · subst hv; simp
    · simp [hv]
  refine ⟨hlt, rfl, fun t => ?_, fun t u v hu hv => ?_, ?_⟩
  · rw [hb]
    simp only [hmem]
    constructor
    · rintro ⟨v, hv | ⟨-, rfl⟩⟩
      · have := (h.begun t).mp ⟨v, hv⟩
        omega
      · omega
    · intro ht
      by_cases he : t = task
      · exact ⟨w, .inr ⟨rfl, he⟩⟩
      · obtain ⟨v, hv⟩ := (h.begun t).mpr (by omega)
        exact ⟨v, .inl hv⟩
  · rw [hb, hmem] at hu hv
    rcases hu with hu | ⟨hu, rfl⟩
    · rcases hv with hv | ⟨-, rfl⟩
      · exact h.one t u v hu hv
      · exact absurd hu (hfresh u)
    · rcases hv with hv | ⟨hv, -⟩
      · exact absurd hv (hfresh v)
      · rw [hu, hv]
  · rw [hb]
    refine Threads.forall_update (Q := fun _ tasks => List.Pairwise (· < ·) tasks) ?_
      fun v _ => h.increasing v
    rw [List.pairwise_append]
    refine ⟨h.increasing w, List.pairwise_singleton _ _, fun t ht u hu => ?_⟩
    rw [List.mem_singleton.mp hu]
    exact (h.begun t).mp ⟨w, ht⟩

theorem InOrder.push [DecidableEq C] (h : InOrder s n) (c : C) :
    InOrder (ThreadPool.move { s with
      tasks := s.tasks ++ [s.accepted]
      accepted := s.accepted + 1 } c .notify) n where
  le := Nat.le_succ_of_le h.le
  tasks := by
    have hle := h.le
    change s.tasks ++ [s.accepted] = List.range' n (s.accepted + 1 - n)
    rw [h.tasks, Nat.succ_sub hle, List.range'_concat]
    congr 2
    omega
  begun := h.begun
  one := h.one
  increasing := h.increasing

variable [Fintype W] [DecidableEq C] {l : Label W C}

theorem Moves.in_order (hm : Moves s l s') (h : InOrder s n) : ∃ n', InOrder s' n' := by
  cases hm with
  | leave w hw hs => exact ⟨n, h.goto _ (by rw [hw]; rfl)⟩
  | enter w hw hs => exact ⟨n, h.goto _ (by rw [hw]; rfl)⟩
  | awake w p hw hp hb => exact ⟨n, h.goto _ (by rw [hw]; rfl)⟩
  | doze w p hw hp hb => exact ⟨n, h.goto _ (by rw [hw]; rfl)⟩
  | block w hw => exact ⟨n, h.goto _ (by rw [hw]; rfl)⟩
  | giveUp w hw hq => exact ⟨n, h.goto _ (by rw [hw]; rfl)⟩
  | take w task tasks hw hq => exact ⟨n + 1, h.take hw hq⟩
  | run w task hw => exact ⟨n, h.congr (begun_run hw) rfl rfl⟩
  | commit c target x hc hx => exact ⟨n, h.congr rfl rfl rfl⟩
  | push c target hc => exact ⟨n, h.push c⟩
  | notify c target hc worker hn =>
    refine ⟨n, h.congr (begun_congr rfl fun w => ?_) rfl rfl⟩
    rcases CondVar.notifyOne_spec hn with ⟨v, hv, rfl⟩ | ⟨-, rfl⟩
    · exact Threads.forall_update (Q := fun u y => Worker.task y = (s.worker u).task)
        (task_eq_of_blocked hv) (fun _ _ => rfl) w
    · rfl
  | stop hs => exact ⟨n, h.congr rfl rfl rfl⟩
  | notifyAll hs =>
    refine ⟨n, h.congr (begun_congr rfl fun w => ?_) rfl rfl⟩
    simp only [CondVar.notifyAll]
    split
    · next hb => exact task_eq_of_blocked hb
    · rfl
  | joined hs hw => exact ⟨n, h.congr rfl rfl rfl⟩
  | spurious w hw => exact ⟨n, h.goto _ (by rw [hw]; rfl)⟩

theorem in_order_inductive : (pool W C).Inductive fun s => ∃ n, InOrder s n where
  init := by
    intro s hs
    subst hs
    exact ⟨0, Nat.le_refl _, rfl, by simp [ThreadPool.begun, ThreadPool.new, Worker.task],
      by simp [ThreadPool.begun, ThreadPool.new, Worker.task],
      by simp [ThreadPool.begun, ThreadPool.new, Worker.task]⟩
  step := by
    intro s l s' h hs
    obtain ⟨n, h⟩ := h
    exact (step_moves hs).in_order h

/-- **Order.** Tasks are begun in the order in which they were accepted: at any time
those begun are the first `n`, each by one worker and once, each worker's in that
order, and those after them are in `tasks_`, in that order. -/
theorem pool_order (h : (pool W C).Reachable s) : ∃ n ≤ s.accepted,
    s.tasks = List.range' n (s.accepted - n) ∧
      (∀ task < n, ∃! w, task ∈ s.begun w) ∧
      ∀ w, (s.begun w).Pairwise (· < ·) ∧ ∀ task ∈ s.begun w, task < n := by
  obtain ⟨n, h⟩ := in_order_inductive.reachable s h
  refine ⟨n, h.le, h.tasks, fun task ht => ?_, fun w => ⟨h.increasing w, fun task hw => ?_⟩⟩
  · obtain ⟨w, hw⟩ := (h.begun task).mpr ht
    exact ⟨w, hw, fun v hv => h.one task v w hv hw⟩
  · exact (h.begun task).mp ⟨w, hw⟩

end

/-! ## Rest -/

/-- Whether a worker has the mutex. -/
def Worker.inside : Worker → Bool
  | .wait .sleepy | .take => true
  | _ => false

/-- Whether a worker comes to the queue by itself. -/
def Worker.active : Worker → Bool
  | .check | .wait .enter | .wait .woken | .take | .run _ => true
  | _ => false

/-- What a worker has found under the mutex still holds while it has it. -/
def Worker.Finding (stop : Bool) (tasks : List Nat) : Worker → Prop
  | .wait .sleepy => tasks = []
  | .take => stop = true ∨ tasks ≠ []
  | .done => stop = true
  | _ => True

theorem Worker.Finding.outside {stop : Bool} {tasks : List Nat} {x : Worker}
    (h : x.Finding stop tasks) (hx : x.inside = false) (tasks' : List Nat) :
    x.Finding stop tasks' := by
  cases x with
  | wait p => cases p <;> trivial
  | take => cases hx
  | done => exact h
  | _ => trivial

theorem Worker.Finding.stop {stop : Bool} {tasks : List Nat} {x : Worker}
    (h : x.Finding stop tasks) : x.Finding true tasks := by
  cases x with
  | wait p => cases p <;> trivial
  | take => exact .inl rfl
  | done => exact rfl
  | _ => trivial

/-- While there are tasks, some worker comes for them, or is about to be notified. -/
structure Attended [DecidableEq W] (s : ThreadPool W C) : Prop where
  mutex : Threads.Exclusive Worker.inside s.cvMt s.worker
  finding : ∀ w, (s.worker w).Finding s.stop s.tasks
  stopped : s.stopper ≠ .idle → s.stop = true
  attended : s.stop = false → s.tasks ≠ [] →
    (∃ w, (s.worker w).active = true) ∨ ∃ c, s.client c = .notify

/-- The steps that lock the mutex find it free, and a `commit` ends with a notification. -/
def Guarded [DecidableEq W] [Fintype W] [DecidableEq C] (s : ThreadPool W C) (l : Label W C)
    (s' : ThreadPool W C) : Prop :=
  match l with
  | .worker w => ∀ p, s.worker w = .wait p → p.evaluates = true → s.cvMt = none
  | .commit c target =>
    match s.client c with
    | .push => s.cvMt = none
    | .notify => ∃ worker, cvLock.notifyOne s.worker target = some worker ∧
        s' = ThreadPool.move { s with worker } c .idle
    | _ => ∃ x, x ≠ .notify ∧ s' = s.move c x
  | _ => True

section
variable [DecidableEq W] {s s' : ThreadPool W C} {w : W}

theorem Attended.goto (h : Attended s) {x : Worker} (hin : x.inside = (s.worker w).inside)
    (hf : x.Finding s.stop s.tasks) (hx : x.active = true) : Attended (s.goto w x) where
  mutex := h.mutex.stay hin
  finding := Threads.forall_update (Q := fun _ y => Worker.Finding s.stop s.tasks y) hf
    fun v _ => h.finding v
  stopped := h.stopped
  attended := fun _ _ => .inl ⟨w, by simpa [ThreadPool.goto] using hx⟩

/-- A worker that is not blocked, done or asleep is active. -/
theorem Attended.active (h : Attended s) (hs : s.stop = false) (hq : s.tasks ≠ [])
    (hb : s.worker w ≠ .wait .blocked) : (s.worker w).active = true := by
  have hf := h.finding w
  cases hw : s.worker w with
  | wait p =>
    rw [hw] at hb hf
    cases p with
    | sleepy => exact absurd hf hq
    | blocked => exact absurd rfl hb
    | _ => rfl
  | done =>
    rw [hw] at hf
    have hf : s.stop = true := hf
    rw [hs] at hf; cases hf
  | _ => rfl

theorem Attended.notified (h : Attended s) {worker : W → Worker}
    (hn : ∀ w, worker w = s.worker w ∨
      s.worker w = .wait .blocked ∧ worker w = .wait .woken) :
    Threads.Exclusive Worker.inside s.cvMt worker ∧
      ∀ w, (worker w).Finding s.stop s.tasks := by
  refine ⟨h.mutex.congr fun w => ?_, fun w => ?_⟩
  · rcases hn w with he | ⟨hb, hw⟩
    · rw [he]
    · rw [hb, hw]; rfl
  · rcases hn w with he | ⟨-, hw⟩
    · rw [he]; exact h.finding w
    · rw [hw]; trivial

omit [DecidableEq W] in
theorem notifyAll_worker (w : W) : cvLock.notifyAll s.worker w = s.worker w ∨
    s.worker w = .wait .blocked ∧ cvLock.notifyAll s.worker w = .wait .woken := by
  simp only [CondVar.notifyAll]
  cases hb : cvLock.blocked (s.worker w) with
  | true =>
    have hw := blocked_worker.mp hb
    exact .inr ⟨hw, by rw [if_pos rfl, hw]; rfl⟩
  | false => exact .inl (if_neg (by simp))

variable [Fintype W]

theorem notifyOne_worker {target : Option W} {worker : W → Worker}
    (hn : cvLock.notifyOne s.worker target = some worker) (w : W) :
    worker w = s.worker w ∨ s.worker w = .wait .blocked ∧ worker w = .wait .woken := by
  rcases CondVar.notifyOne_spec hn with ⟨v, hb, rfl⟩ | ⟨-, rfl⟩
  · by_cases hv : w = v
    · subst hv
      have hw := blocked_worker.mp hb
      exact .inr ⟨hw, by rw [Function.update_self, hw]; rfl⟩
    · exact .inl (Function.update_of_ne hv _ _)
  · exact .inl rfl

variable [DecidableEq C] {l : Label W C}

theorem step_guarded (h : s.step l = some s') : Guarded s l s' := by
  cases l with
  | worker w =>
    intro p hw hp
    have h : s.work w = some s' := h
    unfold ThreadPool.work at h
    rw [hw] at h
    cases p with
    | enter => exact (Option.ite_none_right_eq_some.mp h).1
    | woken => exact (Option.ite_none_right_eq_some.mp h).1
    | _ => cases hp
  | commit c target =>
    have h : s.commit c target = some s' := h
    unfold ThreadPool.commit at h
    cases hc : s.client c with
    | idle =>
      simp only [hc, Option.some.injEq] at h
      simp only [Guarded, hc]
      exact ⟨.check, by simp, h.symm⟩
    | check =>
      simp only [hc, Option.some.injEq] at h
      simp only [Guarded, hc]
      exact ⟨_, by split <;> simp, h.symm⟩
    | push =>
      simp only [hc] at h
      simp only [Guarded, hc]
      exact (Option.ite_none_right_eq_some.mp h).1
    | notify =>
      simp only [hc] at h
      obtain ⟨worker, hn, rfl⟩ := Option.map_eq_some_iff.mp h
      simp only [Guarded, hc]
      exact ⟨worker, hn, rfl⟩
  | _ => trivial

/-- Whom the notification of a `commit` wakes up comes for the task; and when nobody is
blocked all come. -/
theorem Attended.notify [Nonempty W] (h : Attended s) {c : C} {target : Option W}
    {worker : W → Worker} (hn : cvLock.notifyOne s.worker target = some worker) :
    Attended (ThreadPool.move { s with worker } c .idle) := by
  obtain ⟨hmutex, hfinding⟩ := h.notified (notifyOne_worker hn)
  refine ⟨hmutex, hfinding, h.stopped, fun hs hq => .inl ?_⟩
  rcases CondVar.notifyOne_spec hn with ⟨v, hv, rfl⟩ | ⟨hnone, rfl⟩
  · refine ⟨v, ?_⟩
    simp [ThreadPool.move, blocked_worker.mp hv, cvLock, Worker.active]
  · obtain ⟨w⟩ := ‹Nonempty W›
    refine ⟨w, h.active hs hq fun hw => ?_⟩
    have := hnone w
    rw [blocked_worker.mpr hw] at this; cases this

theorem Moves.attended [Nonempty W] (hm : Moves s l s') (hg : Guarded s l s')
    (h : Attended s) : Attended s' := by
  have finding : ∀ {w : W} {x : Worker}, x.Finding s.stop s.tasks →
      ∀ v, (Function.update s.worker w x v).Finding s.stop s.tasks := fun hx =>
    Threads.forall_update (Q := fun _ y => Worker.Finding s.stop s.tasks y) hx
      fun v _ => h.finding v
  cases hm with
  | leave w hw hs =>
    exact ⟨h.mutex.stay (by rw [hw]; rfl), finding hs, h.stopped,
      fun hf => absurd (hs.symm.trans hf) (by decide)⟩
  | enter w hw hs => exact h.goto (by rw [hw]; rfl) trivial rfl
  | awake w p hw hp hb =>
    have hfree := hg p hw hp
    have hx : Worker.take.Finding s.stop s.tasks := by
      simpa [ThreadPool.pred, Worker.Finding] using hb
    have hmutex := h.mutex
    rw [hfree] at hmutex
    exact ⟨hmutex.enter rfl, finding hx, h.stopped,
      fun _ _ => .inl ⟨w, by simp [ThreadPool.goto, Worker.active]⟩⟩
  | doze w p hw hp hb =>
    have hfree := hg p hw hp
    obtain ⟨-, hq⟩ : s.stop = false ∧ s.tasks = [] := by
      simpa [ThreadPool.pred] using hb
    have hmutex := h.mutex
    rw [hfree] at hmutex
    exact ⟨hmutex.enter rfl, finding hq, h.stopped, fun _ hne => absurd hq hne⟩
  | block w hw =>
    have hq : s.tasks = [] := by simpa [hw, Worker.Finding] using h.finding w
    exact ⟨h.mutex.leave (by rw [hw]; rfl) rfl, finding trivial, h.stopped,
      fun _ hne => absurd hq hne⟩
  | giveUp w hw hq =>
    have hs : s.stop = true := by simpa [hw, hq, Worker.Finding] using h.finding w
    exact ⟨h.mutex.leave (by rw [hw]; rfl) rfl, finding hs, h.stopped,
      fun _ hne => absurd hq hne⟩
  | take w task tasks hw hq =>
    have hin : (s.worker w).inside = true := by rw [hw]; rfl
    refine ⟨h.mutex.leave hin rfl, ?_, h.stopped,
      fun _ _ => .inl ⟨w, by simp [ThreadPool.goto, Worker.active]⟩⟩
    -- the others are outside
    exact Threads.forall_update (Q := fun _ y => Worker.Finding s.stop tasks y) trivial
      fun v hv => (h.finding v).outside (h.mutex.others hin hv) tasks
  | run w task hw =>
    have := h.goto (w := w) (x := .check) (by rw [hw]; rfl) trivial rfl
    exact ⟨this.mutex, this.finding, this.stopped, this.attended⟩
  | commit c target x hc hx =>
    by_cases hn : s.client c = .notify
    · simp only [Guarded, hn] at hg
      obtain ⟨worker, hn, he⟩ := hg
      rw [he]
      exact h.notify hn
    · refine ⟨h.mutex, h.finding, h.stopped, fun hs hq => ?_⟩
      rcases h.attended hs hq with hw | ⟨d, hd⟩
      · exact .inl hw
      · have hne : d ≠ c := fun he => hn (he ▸ hd)
        exact .inr ⟨d, by simpa [ThreadPool.move, hne] using hd⟩
  | push c target hc =>
    simp only [Guarded, hc] at hg
    refine ⟨h.mutex, fun w => ?_, h.stopped,
      fun _ _ => .inr ⟨c, by simp [ThreadPool.move]⟩⟩
    refine (h.finding w).outside ?_ _
    cases hin : (s.worker w).inside with
    | false => rfl
    | true =>
      have := (h.mutex w).mp hin
      rw [hg] at this; cases this
  | notify c target hc worker hn => exact h.notify hn
  | stop hs =>
    exact ⟨h.mutex, fun w => (h.finding w).stop, fun _ => rfl, fun hf => by cases hf⟩
  | notifyAll hs =>
    have hstop := h.stopped (by rw [hs]; simp)
    obtain ⟨hmutex, hfinding⟩ := h.notified notifyAll_worker
    exact ⟨hmutex, hfinding, fun _ => hstop, fun hf => absurd (hstop.symm.trans hf) (by decide)⟩
  | joined hs hw =>
    exact ⟨h.mutex, h.finding, fun _ => h.stopped (by rw [hs]; simp), h.attended⟩
  | spurious w hw => exact h.goto (by rw [hw]; rfl) trivial rfl

theorem attended_inductive [Nonempty W] : (pool W C).Inductive Attended where
  init := by
    intro s hs
    subst hs
    exact ⟨fun _ => iff_of_false (fun h => by cases h) (fun h => by cases h), fun _ => trivial,
      fun h => absurd rfl h, fun _ hq => absurd rfl hq⟩
  step := fun _ _ _ h hs => (step_moves hs).attended (step_guarded hs) h

omit [Fintype W] [DecidableEq C] in
/-- Where no worker can go on, all are blocked or done. -/
theorem Attended.stuck (h : Attended s) (hw : ∀ w, s.work w = none) (w : W) :
    s.worker w = .wait .blocked ∨ s.worker w = .done := by
  have hfree : s.cvMt = none := by
    cases ho : s.cvMt with
    | none => rfl
    | some v =>
      -- the owner can go on
      have hin := (h.mutex v).mpr ho
      have hv := hw v
      cases hx : s.worker v with
      | wait p =>
        rw [hx] at hin
        cases p with
        | sleepy => simp [ThreadPool.work, hx] at hv
        | _ => cases hin
      | take =>
        simp only [ThreadPool.work, hx] at hv
        split at hv <;> cases hv
      | _ => rw [hx] at hin; cases hin
  have hstuck := hw w
  cases hx : s.worker w with
  | wait p => cases p <;> simp [ThreadPool.work, hx, hfree] at hstuck ⊢
  | take =>
    simp only [ThreadPool.work, hx] at hstuck
    split at hstuck <;> cases hstuck
  | done => exact .inr rfl
  | _ => simp [ThreadPool.work, hx] at hstuck

omit [DecidableEq W] [DecidableEq C] in
theorem Ledger.all_run (h : Ledger s) (hw : ∀ w, s.worker w = .wait .blocked)
    (hq : s.tasks = []) : AllRun s := by
  intro task hlt
  have hidle : Threads.count (Worker.runs task) s.worker = 0 :=
    Threads.count_eq_zero.mpr fun w => by rw [hw w]; rfl
  have honce := h.once task
  rw [ThreadPool.places, hidle, hq, List.count_nil, due, decide_eq_true hlt, List.count,
    List.countP_map, List.countP_eq_length_filter] at honce
  obtain ⟨r, hfilter⟩ := List.length_eq_one_iff.mp honce
  have hmem : r ∈ s.ran.filter ((fun t => t == task) ∘ Prod.snd) := by
    rw [hfilter]
    exact List.mem_singleton_self r
  have htask : r.2 = task := by simpa using (List.mem_filter.mp hmem).2
  refine ⟨r.1, ?_⟩
  rw [← htask] at hfilter ⊢
  exact hfilter

end

/-! ## The pace -/

def Worker.weight : Worker → Nat
  | .run _ => 4
  | .check => 3
  | .wait .enter | .wait .woken => 2
  | .wait .sleepy | .take => 1
  | .wait .blocked | .done => 0

/-- The notification of a `commit` may wake up a worker. -/
def Client.weight : Client → Nat
  | .notify => 2
  | _ => 0

/-- The notification of `stop` may wake up each of the `n` workers. -/
def Stopper.weight (n : Nat) : Stopper → Nat
  | .idle | .notify => 2 * n
  | .join | .returned => 0

/-- How many steps the workers may still take. -/
def ThreadPool.load [Fintype W] [Fintype C] (s : ThreadPool W C) : Nat :=
  Threads.total Worker.weight s.worker + 4 * s.tasks.length +
    Threads.total Client.weight s.client + s.stopper.weight (Fintype.card W)

def Label.isWorker : Label W C → Bool
  | .worker _ => true
  | _ => false

def Label.isSpurious : Label W C → Bool
  | .spurious _ => true
  | _ => false

section
variable [DecidableEq W] [Fintype W] [DecidableEq C] [Fintype C] {s s' : ThreadPool W C}
  {l : Label W C}

theorem weight_wake {x y : Worker} (h : y = x ∨ x = .wait .blocked ∧ y = .wait .woken) :
    y.weight ≤ x.weight + 2 := by
  rcases h with rfl | ⟨rfl, rfl⟩
  · omega
  · exact Nat.le_refl _

theorem load_notify {c : C} {target : Option W} {worker : W → Worker}
    (hc : s.client c = .notify) (hn : cvLock.notifyOne s.worker target = some worker) :
    (ThreadPool.move { s with worker } c .idle).load ≤ s.load := by
  have hclient := Threads.total_update Client.weight s.client c .idle
  have hworker : Threads.total Worker.weight worker ≤
      Threads.total Worker.weight s.worker + 2 := by
    rcases CondVar.notifyOne_spec hn with ⟨v, hv, rfl⟩ | ⟨-, rfl⟩
    · have := Threads.total_update Worker.weight s.worker v (cvLock.wake (s.worker v))
      rw [blocked_worker.mp hv] at this ⊢
      simp only [cvLock, Worker.weight] at this ⊢
      omega
    · omega
  rw [hc] at hclient
  simp only [Client.weight] at hclient
  simp only [ThreadPool.load, ThreadPool.move]
  omega

omit [DecidableEq C] in
/-- A worker moves. -/
theorem load_goto {w : W} {x : Worker} (cvMt : Option W) (ran : List (W × Nat))
    (hx : x.weight + 1 ≤ (s.worker w).weight) :
    (ThreadPool.goto { s with cvMt, ran } w x).load + 1 ≤ s.load := by
  have := Threads.total_update Worker.weight s.worker w x
  simp only [ThreadPool.load, ThreadPool.goto]
  omega

theorem evaluates_weight {p : Wait} (hp : p.evaluates = true) : (Worker.wait p).weight = 2 := by
  cases p with
  | enter | woken => rfl
  | _ => cases hp

theorem Moves.load (hm : Moves s l s') (hg : Guarded s l s') :
    s'.load + (if l.isWorker then 1 else 0) + 6 * s.accepted ≤
      s.load + (if l.isSpurious then 2 else 0) + 6 * s'.accepted := by
  have move : ∀ {w : W} {x : Worker} {cvMt : Option W} {ran : List (W × Nat)},
      x.weight + 1 ≤ (s.worker w).weight →
      (ThreadPool.goto { s with cvMt, ran } w x).load + 1 + 6 * s.accepted ≤
        s.load + 0 + 6 * s.accepted := by
    intro w x cvMt ran hx
    have := load_goto cvMt ran hx
    omega
  cases hm with
  | leave w hw hs => exact move (by rw [hw]; decide)
  | enter w hw hs => exact move (by rw [hw]; decide)
  | awake w p hw hp hb => exact move (by rw [hw, evaluates_weight hp]; decide)
  | doze w p hw hp hb => exact move (by rw [hw, evaluates_weight hp]; decide)
  | block w hw => exact move (by rw [hw]; decide)
  | giveUp w hw hq => exact move (by rw [hw]; decide)
  | take w task tasks hw hq =>
    have := Threads.total_update Worker.weight s.worker w (.run task)
    rw [hw] at this
    simp only [Worker.weight] at this
    simp only [ThreadPool.load, ThreadPool.goto, hq, List.length_cons, Label.isWorker,
      Label.isSpurious, if_true, Bool.false_eq_true, if_false]
    omega
  | run w task hw => exact move (by rw [hw]; simp [Worker.weight])
  | commit c target x hc hx =>
    have hquiet : (s.client c).weight = 0 →
        (∃ y, y ≠ Client.notify ∧ s.move c x = s.move c y) → (s.move c x).load ≤ s.load := by
      intro hw hmove
      obtain ⟨y, hy, he⟩ := hmove
      have := Threads.total_update Client.weight s.client c y
      have hyw : y.weight = 0 := by cases y <;> first | rfl | exact absurd rfl hy
      rw [he]
      simp only [ThreadPool.load, ThreadPool.move]
      omega
    have hload : (s.move c x).load ≤ s.load := by
      cases hi : s.client c with
      | push => exact absurd hi hc
      | notify =>
        simp only [Guarded, hi] at hg
        obtain ⟨worker, hn, he⟩ := hg
        rw [he]
        exact load_notify hi hn
      | _ =>
        simp only [Guarded, hi] at hg
        exact hquiet (by rw [hi]; rfl) hg
    exact Nat.add_le_add_right hload (6 * s.accepted)
  | push c target hc =>
    have := Threads.total_update Client.weight s.client c .notify
    rw [hc] at this
    simp only [Client.weight] at this
    simp only [ThreadPool.load, ThreadPool.move, List.length_append, List.length_singleton,
      Label.isWorker, Label.isSpurious, Bool.false_eq_true, if_false]
    omega
  | notify c target hc worker hn =>
    exact Nat.add_le_add_right (load_notify hc hn) (6 * s.accepted)
  | stop hs =>
    simp [ThreadPool.load, Label.isWorker, Label.isSpurious, hs, Stopper.weight]
  | notifyAll hs =>
    have := Threads.total_le fun w => weight_wake (notifyAll_worker (s := s) w)
    simp only [ThreadPool.load, hs, Stopper.weight, Label.isWorker, Label.isSpurious,
      Bool.false_eq_true, if_false]
    omega
  | joined hs hw =>
    simp [ThreadPool.load, Label.isWorker, Label.isSpurious, hs, Stopper.weight]
  | spurious w hw =>
    have := Threads.total_update Worker.weight s.worker w (.wait .woken)
    rw [hw] at this
    simp only [Worker.weight] at this
    simp only [ThreadPool.load, ThreadPool.goto, Label.isWorker, Label.isSpurious,
      Bool.false_eq_true, if_false, if_true]
    omega

theorem load_run {ls : List (Label W C)} (r : (pool W C).Run s ls s') :
    s'.load + ls.countP Label.isWorker + 6 * s.accepted ≤
      s.load + 2 * ls.countP Label.isSpurious + 6 * s'.accepted := by
  have h := LTS.run_balance (I := fun _ => True) ThreadPool.load (fun s => 6 * s.accepted)
    (fun l => if Label.isWorker l then 1 else 0) (fun l => if Label.isSpurious l then 2 else 0)
    (fun _ _ _ _ _ => trivial) (fun _ _ _ _ hs => (step_moves hs).load (step_guarded hs)) r trivial
  rw [LTS.sum_weight, LTS.sum_weight] at h
  omega

/-- **Pace.** The workers do not spin: from the start they take no more than 6 steps for
each accepted task, 2 for each wait that is unblocked for no reason, and 5 each. -/
theorem pool_bounded {ls : List (Label W C)} (r : (pool W C).Run .new ls s) :
    ls.countP Label.isWorker ≤
      5 * Fintype.card W + 6 * s.accepted + 2 * ls.countP Label.isSpurious := by
  have h := load_run r
  have hnew : (ThreadPool.new : ThreadPool W C).load = 5 * Fintype.card W := by
    have hw : Threads.total Worker.weight (fun _ : W => .check) = Fintype.card W * 3 :=
      Threads.total_const _
    have hc : Threads.total Client.weight (fun _ : C => .idle) = Fintype.card C * 0 :=
      Threads.total_const _
    simp only [ThreadPool.load, ThreadPool.new, hw, hc, Stopper.weight, List.length_nil]
    omega
  have hzero : (ThreadPool.new : ThreadPool W C).accepted = 0 := rfl
  omega

/-! ### The workers by themselves -/

theorem worker_step {w : W} (hs : s.work w = some s') :
    s'.stop = s.stop ∧ s'.client = s.client ∧ s'.stopper = s.stopper ∧ s'.load < s.load := by
  have hstep : s.step (.worker w) = some s' := hs
  have hload := (step_moves hstep).load (step_guarded hstep)
  have hkeep : s'.stop = s.stop ∧ s'.client = s.client ∧ s'.stopper = s.stopper ∧
      s'.accepted = s.accepted := by
    cases step_moves hstep <;> exact ⟨rfl, rfl, rfl, rfl⟩
  obtain ⟨hstop, hclient, hstopper, haccepted⟩ := hkeep
  simp only [Label.isWorker, Label.isSpurious, if_true, Bool.false_eq_true, if_false] at hload
  exact ⟨hstop, hclient, hstopper, by omega⟩

/-- Every schedule of the workers comes to its end, with what their steps keep. -/
theorem workers_end {I : ThreadPool W C → Prop} (hI : ∀ s w s', I s → s.work w = some s' → I s')
    (h : I s) :
    (∀ ls s', (pool W C).Run s ls s' → (∀ l ∈ ls, l.isWorker = true) →
      ls.length ≤ s.load ∧ I s') ∧
      ∃ ls s', (pool W C).Run s ls s' ∧ (∀ l ∈ ls, l.isWorker = true) ∧
        ∀ w, s'.work w = none := by
  have hstep : ∀ t (l : Label W C) t', I t → l.isWorker = true →
      (pool W C).step t l t' → I t' ∧ t'.load < t.load := by
    intro t l t' ht hl hst
    cases l with
    | worker w => exact ⟨hI t w t' ht hst, (worker_step hst).2.2.2⟩
    | _ => cases hl
  have hkeep := fun t l t' ht hl hst => (hstep t l t' ht hl hst).1
  have hlower := fun t l t' ht hl hst => (hstep t l t' ht hl hst).2
  refine ⟨fun ls s' r hls => ?_, ?_⟩
  · exact ⟨LTS.run_length ThreadPool.load hkeep hlower r hls h, LTS.run_keeps hkeep r hls h⟩
  · obtain ⟨ls, s', r, hls, -, hend⟩ := LTS.run_to_end ThreadPool.load
      (fun l : Label W C => l.isWorker = true) hkeep hlower h
    refine ⟨ls, s', r, hls, fun w => ?_⟩
    cases hw : s'.work w with
    | none => rfl
    | some t => exact absurd hw (hend (.worker w) t rfl)

/-- No task is waiting for anyone but the workers. -/
def Serving (s : ThreadPool W C) : Prop :=
  (Ledger s ∧ Attended s) ∧ s.stop = false ∧ ∀ c, s.client c ≠ .notify

theorem Serving.work [Nonempty W] {w : W} (h : Serving s) (hs : s.work w = some s') :
    Serving s' := by
  have hstep : (pool W C).step s (.worker w) s' := hs
  obtain ⟨hstop, hclient, -⟩ := worker_step hs
  exact ⟨⟨ledger_inductive.step _ _ _ h.1.1 hstep, attended_inductive.step _ _ _ h.1.2 hstep⟩,
    hstop.trans h.2.1, fun c => hclient ▸ h.2.2 c⟩

omit [DecidableEq C] [Fintype C] in
/-- When the workers cannot go on, there is nothing left to do. -/
theorem Serving.at_rest (h : Serving s) (hw : ∀ w, s.work w = none) :
    s.tasks = [] ∧ (∀ w, s.worker w = .wait .blocked) ∧ AllRun s := by
  obtain ⟨⟨hl, ha⟩, hs, hc⟩ := h
  have hb : ∀ w, s.worker w = .wait .blocked := by
    intro w
    refine (ha.stuck hw w).resolve_right fun hdone => ?_
    have hf := ha.finding w
    rw [hdone] at hf
    exact absurd (hs.symm.trans hf) (by decide)
  have hq : s.tasks = [] := by
    by_contra hq
    rcases ha.attended hs hq with ⟨w, hactive⟩ | ⟨c, hn⟩
    · rw [hb w] at hactive; cases hactive
    · exact hc c hn
  exact ⟨hq, hb, hl.all_run hb hq⟩

/-- **Service.** Before anyone calls `stop`, and when no `commit` has its notification
still to make, the workers by themselves come to rest, whatever their order: every
schedule of them comes to its end, which is where `tasks_` is empty, all workers are
blocked, and every accepted task has been run once. -/
theorem pool_serves [Nonempty W] (h : (pool W C).Reachable s) (hs : s.stop = false)
    (hc : ∀ c, s.client c ≠ .notify) :
    (∀ ls s', (pool W C).Run s ls s' → (∀ l ∈ ls, l.isWorker = true) →
      ls.length ≤ s.load ∧ ((∀ w, s'.work w = none) →
        s'.tasks = [] ∧ (∀ w, s'.worker w = .wait .blocked) ∧ AllRun s')) ∧
      ∃ ls s', (pool W C).Run s ls s' ∧ (∀ l ∈ ls, l.isWorker = true) ∧
        ∀ w, s'.work w = none := by
  have hserving : Serving s := ⟨⟨ledger_inductive.reachable s h,
    attended_inductive.reachable s h⟩, hs, hc⟩
  obtain ⟨hall, hend⟩ := workers_end (fun _ _ _ ht hst => Serving.work ht hst) hserving
  refine ⟨fun ls s' r hls => ?_, hend⟩
  obtain ⟨hlen, hs'⟩ := hall ls s' r hls
  exact ⟨hlen, hs'.at_rest⟩

/-- `stop` waits for the workers, of whom none is asleep. -/
def Stopping (s : ThreadPool W C) : Prop :=
  (Roused s ∧ Attended s) ∧ s.stopper = .join

theorem Stopping.work [Nonempty W] {w : W} (h : Stopping s) (hs : s.work w = some s') :
    Stopping s' := by
  have hstep : (pool W C).step s (.worker w) s' := hs
  have hnoticed : Noticed s (.worker w) s' := fun hl => by cases hl
  obtain ⟨-, -, hstopper, -⟩ := worker_step hs
  exact ⟨⟨roused_inductive.step _ _ _ h.1.1 ⟨hstep, hnoticed⟩,
    attended_inductive.step _ _ _ h.1.2 hstep⟩, hstopper.trans h.2⟩

omit [Fintype C] in
theorem Stopping.at_end (h : Stopping s) (hw : ∀ w, s.work w = none) :
    (∀ w, s.worker w = .done) ∧ ∃ t, s.step .stop = some t ∧ t.stopper = .returned := by
  obtain ⟨⟨hr, ha⟩, hj⟩ := h
  have hdone : ∀ w, s.worker w = .done := by
    intro w
    refine (ha.stuck hw w).resolve_left fun hb => ?_
    have hawake := hr.awake (.inl hj) w
    rw [hb] at hawake; cases hawake
  refine ⟨hdone, { s with stopper := .returned }, ?_, rfl⟩
  simp only [ThreadPool.step, ThreadPool.shutdown, hj]
  exact if_pos hdone

/-- **Shutdown ends.** When the notification of `stop` has been noticed, every schedule of
the workers comes to its end, which is where all of them are done, and `stop` returns. -/
theorem pool_stops [Nonempty W] {ls : List (Label W C)}
    (r : ((pool W C).restrict Noticed).Run .new ls s) (hj : s.stopper = .join) :
    (∀ ls s', (pool W C).Run s ls s' → (∀ l ∈ ls, l.isWorker = true) →
      ls.length ≤ s.load ∧ ((∀ w, s'.work w = none) →
        (∀ w, s'.worker w = .done) ∧ ∃ t, s'.step .stop = some t ∧ t.stopper = .returned)) ∧
      ∃ ls s', (pool W C).Run s ls s' ∧ (∀ l ∈ ls, l.isWorker = true) ∧
        ∀ w, s'.work w = none := by
  have hroused := roused_inductive.run r (roused_inductive.init _ rfl)
  have hattended : Attended s :=
    (attended_inductive.restrict Noticed).run r (attended_inductive.init _ rfl)
  have hstopping : Stopping s := ⟨⟨hroused, hattended⟩, hj⟩
  obtain ⟨hall, hend⟩ := workers_end (fun _ _ _ ht hst => Stopping.work ht hst) hstopping
  refine ⟨fun ls s' r hls => ?_, hend⟩
  obtain ⟨hlen, hs'⟩ := hall ls s' r hls
  exact ⟨hlen, hs'.at_end⟩

end

/-! ### Runs on two workers and on one -/

/-- Three tasks are accepted, and each of two workers begins one. -/
def beginTwo : List (Label Bool Unit) :=
  List.replicate 12 (.commit () none) ++ List.replicate 3 (.worker true) ++
    List.replicate 3 (.worker false)

theorem pool_order_two : ∃ s : ThreadPool Bool Unit, (pool Bool Unit).Reachable s ∧
    s.accepted = 3 ∧ s.tasks = [2] ∧ s.begun true = [0] ∧ s.begun false = [1] ∧
      ∀ task < 2, ∃! w, task ∈ s.begun w := by
  have hrun : ∃ s : ThreadPool Bool Unit, LTS.exec ThreadPool.step .new beginTwo = some s ∧
      s.accepted = 3 ∧ s.tasks = [2] ∧ s.begun true = [0] ∧ s.begun false = [1] :=
    ⟨_, rfl, rfl, rfl, rfl, rfl⟩
  obtain ⟨s, he, ha, hq, ht, hf⟩ := hrun
  have hr : (pool Bool Unit).Reachable s := LTS.reachable_of_exec rfl he
  obtain ⟨n, hn, htasks, hbegun, -⟩ := pool_order hr
  have hlen := congrArg List.length (hq.symm.trans htasks)
  simp only [List.length_singleton, List.length_range'] at hlen
  obtain rfl : n = 2 := by omega
  exact ⟨s, hr, ha, hq, ht, hf, hbegun⟩

theorem pool_bounded_in_time : ∃ s : ThreadPool Unit Unit,
    (pool Unit Unit).Run .new taskInTime s ∧ s.accepted = 1 ∧
      taskInTime.countP Label.isWorker = 5 ∧ taskInTime.countP Label.isWorker ≤ 5 + 6 := by
  have hrun : ∃ s : ThreadPool Unit Unit, LTS.exec ThreadPool.step .new taskInTime = some s ∧
      s.accepted = 1 := ⟨_, rfl, rfl⟩
  obtain ⟨s, he, ha⟩ := hrun
  have r : (pool Unit Unit).Run .new taskInTime s := LTS.run_of_exec he
  refine ⟨s, r, ha, rfl, ?_⟩
  have h := pool_bounded r
  rw [ha] at h
  exact h

theorem pool_serves_one : ∃ s : ThreadPool Unit Unit, (pool Unit Unit).Reachable s ∧
    s.tasks = [0] ∧ ∃ ls s', (pool Unit Unit).Run s ls s' ∧ s'.tasks = [] ∧ AllRun s' := by
  have hrun : ∃ s : ThreadPool Unit Unit, LTS.exec ThreadPool.step .new commitOne = some s ∧
      s.tasks = [0] ∧ s.stop = false ∧ s.client () = .idle := ⟨_, rfl, rfl, rfl, rfl⟩
  obtain ⟨s, he, hq, hs, hc⟩ := hrun
  have hr : (pool Unit Unit).Reachable s := LTS.reachable_of_exec rfl he
  obtain ⟨hall, ls, s', r, hls, hend⟩ := pool_serves hr hs (fun _ => by rw [hc]; simp)
  have hrest := (hall ls s' r hls).2 hend
  exact ⟨s, hr, hq, ls, s', r, hrest.1, hrest.2.2⟩

theorem pool_stops_one : ∃ s : ThreadPool Unit Unit,
    ((pool Unit Unit).restrict Noticed).Run .new stopAfterBlock s ∧ s.stopper = .join ∧
      s.worker () = .wait .woken ∧
      ∃ ls s' t, (pool Unit Unit).Run s ls s' ∧ s'.step .stop = some t ∧
        t.stopper = .returned := by
  have hrun : ∃ s : ThreadPool Unit Unit, LTS.exec
      (fun s l => (ThreadPool.step s l).filter fun s' => decide (Noticed s l s')) .new
      stopAfterBlock = some s ∧ s.stopper = .join ∧ s.worker () = .wait .woken :=
    ⟨_, rfl, rfl, rfl⟩
  obtain ⟨s, he, hj, hw⟩ := hrun
  have r : ((pool Unit Unit).restrict Noticed).Run .new stopAfterBlock s :=
    LTS.run_restrict_of_exec he
  obtain ⟨hall, ls, s', r', hls, hend⟩ := pool_stops r hj
  obtain ⟨-, t, ht, hreturned⟩ := (hall ls s' r' hls).2 hend
  exact ⟨s, r, hj, hw, ls, s', t, r', ht, hreturned⟩

end Cxx.Pool
