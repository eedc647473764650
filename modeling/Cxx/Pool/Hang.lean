import Cxx.Pool.ThreadPool

/-!
# A worker that sleeps through `stop`

`stop` sets `stop_` and notifies without the mutex. A worker that has found
`stop_` clear and `tasks_` empty, and has not blocked yet, misses the
notification, and then `stop` waits in `join` for a worker that nobody wakes.

* `no_hang`: `stop` does not wait for a blocked worker if no worker was about
  to block when it notified.
* `stop_hangs`: a run in which one was.
-/
namespace Cxx.Pool

variable {W C : Type}

/-- `stop` is in its join loop, no `commit` is in progress, and a worker is blocked. -/
def Hangs (s : ThreadPool W C) : Prop :=
  s.stopper = .join ∧ (∀ c, s.client c = .idle) ∧ ∃ w, s.worker w = .wait .blocked

/-- When `stop` notifies, no worker has found its predicate false and not blocked yet. -/
def Noticed (s : ThreadPool W C) (l : Label W C) (_ : ThreadPool W C) : Prop :=
  l = .stop → s.stopper = .notify → ∀ w, s.worker w ≠ .wait .sleepy

instance [DecidableEq W] [Fintype W] [DecidableEq C] (s : ThreadPool W C) (l : Label W C)
    (s' : ThreadPool W C) : Decidable (Noticed s l s') :=
  inferInstanceAs (Decidable (l = .stop → s.stopper = .notify → ∀ w, s.worker w ≠ .wait .sleepy))

def Worker.asleep : Worker → Bool
  | .wait .sleepy | .wait .blocked => true
  | _ => false

/-- Once `stop` has notified, no worker is asleep. -/
structure Roused (s : ThreadPool W C) : Prop where
  stopped : s.stopper ≠ .idle → s.stop = true
  awake : s.stopper = .join ∨ s.stopper = .returned → ∀ w, (s.worker w).asleep = false

section
variable [DecidableEq W] [Fintype W] [DecidableEq C] {s s' : ThreadPool W C} {l : Label W C}

theorem Moves.roused (h : Moves s l s') (hr : Roused s) (hn : Noticed s l s') : Roused s' := by
  have stopped : s.stopper = .join ∨ s.stopper = .returned → s.stop = true := by
    intro h
    apply hr.stopped
    rcases h with h | h <;> simp [h]
  have step : ∀ {w : W} {x : Worker}, x.asleep = false →
      s.stopper = .join ∨ s.stopper = .returned →
      ∀ v, (Function.update s.worker w x v).asleep = false := by
    intro w x hx hj
    exact Threads.forall_update (Q := fun _ y => Worker.asleep y = false) hx
      fun v _ => hr.awake hj v
  cases h with
  | leave w h hs => exact ⟨hr.stopped, step rfl⟩
  | enter w h hs => exact ⟨hr.stopped, step rfl⟩
  | awake w p h hp hb => exact ⟨hr.stopped, step rfl⟩
  | doze w p h hp hb =>
    refine ⟨hr.stopped, fun hj => ?_⟩
    -- `stop_` is set, and so the predicate true
    have := stopped hj
    rw [ThreadPool.pred, this] at hb
    cases hb
  | block w h =>
    refine ⟨hr.stopped, fun hj => ?_⟩
    have := hr.awake hj w
    rw [h] at this
    cases this
  | giveUp w h hq => exact ⟨hr.stopped, step rfl⟩
  | take w t tasks h hq => exact ⟨hr.stopped, step rfl⟩
  | run w t h => exact ⟨hr.stopped, step rfl⟩
  | commit c target x h hx => exact ⟨hr.stopped, hr.awake⟩
  | push c target h => exact ⟨hr.stopped, hr.awake⟩
  | notify c target h worker hn' =>
    refine ⟨hr.stopped, fun hj => ?_⟩
    rcases CondVar.notifyOne_spec hn' with ⟨j, hb, rfl⟩ | ⟨-, rfl⟩
    · have := hr.awake hj j
      rw [blocked_worker.mp hb] at this
      cases this
    · exact hr.awake hj
  | stop h =>
    refine ⟨fun _ => rfl, fun hj => ?_⟩
    rcases hj with hj | hj <;> cases hj
  | notifyAll h =>
    refine ⟨fun _ => hr.stopped (by simp [h]), fun _ w => ?_⟩
    have hw := hn rfl h w
    simp only [CondVar.notifyAll]
    cases hb : cvLock.blocked (s.worker w) with
    | true => rw [if_pos rfl, blocked_worker.mp hb]; rfl
    | false =>
      rw [if_neg (by simp)]
      cases hx : s.worker w with
      | wait p =>
        rw [hx] at hw hb
        cases p with
        | sleepy => exact absurd rfl hw
        | blocked => cases hb
        | _ => rfl
      | _ => rfl
  | joined h hw =>
    exact ⟨fun _ => hr.stopped (by simp [h]), fun _ w => by rw [hw w]; rfl⟩
  | spurious w h => exact ⟨hr.stopped, step rfl⟩

theorem roused_inductive : ((pool W C).restrict Noticed).Inductive Roused where
  init := by
    intro s hs
    subst hs
    exact ⟨fun h => absurd rfl h, fun h => by rcases h with h | h <;> cases h⟩
  step := fun _ _ _ hr hst => (step_moves hst.1).roused hr hst.2

/-- **Shutdown does not hang.** In every run in which the notification of
`stop` is noticed, no state has `stop` waiting for a blocked worker. -/
theorem no_hang (s : ThreadPool W C) (ls : List (Label W C))
    (r : ((pool W C).restrict Noticed).Run .new ls s) : ¬ Hangs s := by
  intro h
  obtain ⟨hj, -, w, hw⟩ := h
  have := (roused_inductive.run r (roused_inductive.init _ rfl)).awake (.inl hj) w
  rw [hw] at this
  cases this

end

/-- The worker blocks, and then the pool is stopped. -/
def stopAfterBlock : List (Label Unit Unit) :=
  [.worker (), .worker (), .worker (), .stop, .stop]

theorem no_hang_blocked : ∃ s : ThreadPool Unit Unit,
    ((pool Unit Unit).restrict Noticed).Run .new stopAfterBlock s ∧ s.stopper = .join ∧
      s.worker () = .wait .woken ∧ ¬ Hangs s := by
  have hrun : ∃ s : ThreadPool Unit Unit, LTS.exec
      (fun s l => (ThreadPool.step s l).filter fun s' => decide (Noticed s l s')) .new
      stopAfterBlock = some s ∧ s.stopper = .join ∧ s.worker () = .wait .woken :=
    ⟨_, rfl, rfl, rfl⟩
  obtain ⟨s, he, hj, hw⟩ := hrun
  have r : ((pool Unit Unit).restrict Noticed).Run .new stopAfterBlock s :=
    LTS.run_restrict_of_exec he
  exact ⟨s, r, hj, hw, no_hang s stopAfterBlock r⟩

/-- The pool is stopped when the worker has evaluated its predicate, before it blocks. -/
def stopBeforeBlock : List (Label Unit Unit) :=
  [.worker (), .worker (), .stop, .stop, .worker ()]

theorem stop_hangs : ∃ s : ThreadPool Unit Unit, (pool Unit Unit).Reachable s ∧ s.stop = true ∧
    Hangs s := by
  have hrun : ∃ s : ThreadPool Unit Unit, LTS.exec ThreadPool.step .new stopBeforeBlock = some s ∧
      s.stop = true ∧ s.stopper = .join ∧ s.client () = .idle ∧
      s.worker () = .wait .blocked := ⟨_, rfl, rfl, rfl, rfl, rfl⟩
  obtain ⟨s, he, hs, hj, hc, hw⟩ := hrun
  exact ⟨s, LTS.reachable_of_exec rfl he, hs, hj, fun _ => hc, (), hw⟩

end Cxx.Pool
