/-
The order of the tasks, worker by worker. A worker invokes the tasks it takes,
each once and in the order it takes them in, and is through with one before it
reads `isAlive` again (`Worked`). So when `Shutdown` returns, the tasks
executed are the first ones of those added (`run_inOrder`); and if `HasWork`
was false once all were submitted, they are all of those submitted.
-/
import Dxpool.Workers.Drain

namespace Dxpool.Workers

open Machine

/-- The task that a worker has taken and not invoked yet. -/
def Worker.pending {τ : Type} : Worker τ → List (Task τ)
  | .took task => [task]
  | _ => []

/-- The task that a worker is running. -/
def Worker.current {τ : Type} : Worker τ → List (Task τ)
  | .running task => [task]
  | _ => []

section
variable {τ C : Type} {numThreads : Nat}

/-- The task that a step invokes. -/
def invoked (s : State τ numThreads C) : Act τ numThreads C → Option (Task τ)
  | .work w =>
    match s.workers w with
    | .took task => some task
    | _ => none
  | _ => none

/-- What is recorded of the steps of worker `w`. -/
def ofWorker (w : Fin numThreads) (f : State τ numThreads C → Act τ numThreads C → Option (Task τ))
    (s : State τ numThreads C) : Act τ numThreads C → Option (Task τ)
  | .work v => if v = w then f s (.work v) else none
  | _ => none

variable [DecidableEq C] {s s' : State τ numThreads C} {tr : Trace (State τ numThreads C) (Act τ numThreads C)}
  {w : Fin numThreads}

/-- Worker `w` takes, invokes and is done with the same tasks, up to the one
it is at. -/
structure Worked (w : Fin numThreads) (tr : Trace (State τ numThreads C) (Act τ numThreads C))
    (s : State τ numThreads C) : Prop where
  begun : log (ofWorker w takenTask) tr = log (ofWorker w invoked) tr ++ (s.workers w).pending
  ended : log (ofWorker w invoked) tr = log (ofWorker w executed) tr ++ (s.workers w).current

theorem Worked.step {a : Act τ numThreads C} (h : Worked w tr s) (hs : Step s a s') : Worked w ((s, a) :: tr) s' := by
  obtain ⟨hbegun, hended⟩ := h
  -- a step of another thread
  have hquiet : (∀ f, ofWorker w f s a = none) → s'.workers w = s.workers w → Worked w ((s, a) :: tr) s' := by
    intro hf hw
    refine ⟨?_, ?_⟩
    · rw [log_none (hf _), log_none (hf _), hw]; exact hbegun
    · rw [log_none (hf _), log_none (hf _), hw]; exact hended
  have hwork : ∀ {q v k}, a = .work v → s' = { s with workQueue := q }.setWorker v k →
      (v = w → (s.workers w).pending ++ (takenTask s a).toList = (invoked s a).toList ++ k.pending ∧
        (s.workers w).current ++ (invoked s a).toList = (executed s a).toList ++ k.current) →
      Worked w ((s, a) :: tr) s' := by
    rintro q v k rfl rfl hv
    by_cases hvw : v = w
    · subst hvw
      obtain ⟨h₁, h₂⟩ := hv rfl
      refine ⟨?_, ?_⟩
      · simp only [log, ofWorker, if_true, setWorker_self]
        rw [hbegun, List.append_assoc, List.append_assoc, h₁]
      · simp only [log, ofWorker, if_true, setWorker_self]
        rw [hended, List.append_assoc, List.append_assoc, h₂]
    · exact hquiet (fun f => if_neg hvw) (setWorker_ne (Ne.symm hvw))
  cases hs with
  | start hw =>
    refine hwork (q := s.workQueue) rfl rfl fun hv => ?_
    subst hv
    simp [hw, Worker.pending, Worker.current, takenTask, queueAct, invoked, executed]
  | goOn hw ha ht =>
    refine hwork rfl rfl fun hv => ?_
    subst hv
    simp [hw, ha, Worker.pending, Worker.current, takenTask, queueAct, taken, invoked, executed]
  | exit hw ha =>
    refine hwork (q := s.workQueue) rfl rfl fun hv => ?_
    subst hv
    simp [hw, ha, Worker.pending, Worker.current, takenTask, queueAct, invoked, executed]
  | lock hw ht =>
    refine hwork rfl rfl fun hv => ?_
    subst hv
    cases hq : s.workQueue.tasks <;>
      simp [hw, hq, Worker.pending, Worker.current, takenTask, queueAct, taken, invoked, executed]
  | invoke hw =>
    refine hwork (q := s.workQueue) rfl rfl fun hv => ?_
    subst hv
    simp [hw, Worker.pending, Worker.current, takenTask, queueAct, invoked, executed]
  | finish hw =>
    refine hwork (q := s.workQueue) rfl rfl fun hv => ?_
    subst hv
    simp [hw, Worker.pending, Worker.current, takenTask, queueAct, invoked, executed]
  | _ => exact hquiet (fun _ => rfl) rfl

theorem worked_of_run (hr : (machine τ numThreads C).Run tr s) : Worked w tr s := by
  induction hr with
  | init h => rw [show _ = _ from h]; exact ⟨rfl, rfl⟩
  | step hr hs ih => exact ih.step (step_cases hs)

omit [DecidableEq C] in
/-- Between two tasks a worker has none in hand. -/
theorem Worked.between (h : Worked w tr s) (hp : (s.workers w).pending = []) (hc : (s.workers w).current = []) :
    log (ofWorker w takenTask) tr = log (ofWorker w executed) tr := by
  rw [h.begun, h.ended, hp, hc, List.append_nil, List.append_nil]

omit [DecidableEq C] in
/-- What clients submit is what is added, less the no-ops. -/
theorem users_added (tr : Trace (State τ numThreads C) (Act τ numThreads C)) :
    (log addedTask tr).filterMap Task.user? = log submitted tr := by
  induction tr with
  | nil => rfl
  | cons e tr ih =>
    obtain ⟨s, a⟩ := e
    have hstep : (addedTask s a).toList.filterMap Task.user? = (submitted s a).toList := by
      cases a with
      | work v =>
        simp only [addedTask, queueAct, submitted]
        cases s.workers v with
        | check => cases s.isAlive <;> rfl
        | _ => rfl
      | run c n =>
        simp only [addedTask, queueAct, submitted]
        cases s.calls c <;> rfl
      | _ => rfl
    rw [log, log, List.filterMap_append, ih, hstep]

end

section
variable {τ : Type} {numThreads : Nat} {s : State τ numThreads Unit} {tr : Trace (State τ numThreads Unit) (Act τ numThreads Unit)}

/-- If the queue is empty when the last task has been submitted, the tasks
submitted are all taken. -/
theorem users_taken {s₁ : State τ numThreads Unit} {post pre}
    (hr : (machine τ numThreads Unit).Run (post ++ (s₁, .hasWork) :: pre) s) (hempty : s₁.workQueue.tasks = [])
    (hlast : ∀ e ∈ post, submitted e.1 e.2 = none) :
    (log takenTask (post ++ (s₁, .hasWork) :: pre)).filterMap Task.user? =
      log submitted (post ++ (s₁, .hasWork) :: pre) := by
  -- what is taken and submitted up to the empty queue is what was added
  have hpre : log takenTask pre = log addedTask pre := by
    have h := taken_append hr.before
    rwa [hempty, List.append_nil] at h
  have hnone : log submitted post = [] := by
    clear hr
    induction post with
    | nil => rfl
    | cons e post ih => rw [log, hlast e (by simp), ih fun e he => hlast e (by simp [he])]; rfl
  have hsub : log submitted (post ++ (s₁, .hasWork) :: pre) = (log takenTask pre).filterMap Task.user? := by
    rw [log_append, hnone, List.append_nil, log_none rfl, hpre, users_added]
  have htaken : log takenTask (post ++ (s₁, .hasWork) :: pre) = log takenTask pre ++ log takenTask post := by
    rw [log_append, log_none rfl]
  -- nothing is left for later
  have hall := users_added (post ++ (s₁, .hasWork) :: pre)
  rw [← taken_append hr, hsub, htaken, List.append_assoc, List.filterMap_append] at hall
  have hlater := List.append_right_eq_self.1 hall
  rw [List.filterMap_append, List.append_eq_nil_iff] at hlater
  rw [hsub, htaken, List.filterMap_append, hlater.1, List.append_nil]

/-- **The executed tasks are a prefix of the added ones.** In every run: the
tasks taken, and then those in the queue, are the tasks added; worker by
worker those taken are those invoked, up to the one in hand, and those
executed when it checks `isAlive` again or has exited. When `Shutdown` has
returned, the tasks executed are the first ones added, each once; and all of
those submitted, if `HasWork` was false after the last of them. -/
theorem run_inOrder (hr : (machine τ numThreads Unit).Run tr s) :
    log takenTask tr ++ s.workQueue.tasks = log addedTask tr ∧
    (∀ w, log (ofWorker w takenTask) tr = log (ofWorker w invoked) tr ++ (s.workers w).pending ∧
      (s.workers w = .check ∨ s.workers w = .exited →
        log (ofWorker w invoked) tr = log (ofWorker w takenTask) tr ∧
        log (ofWorker w executed) tr = log (ofWorker w takenTask) tr)) ∧
    (s.calls () = .returned →
      (∃ d, (log executed tr).Perm ((log addedTask tr).take d)) ∧
      ∀ s₁ post pre, tr = post ++ (s₁, .hasWork) :: pre → s₁.hasWork = false →
        (∀ e ∈ post, submitted e.1 e.2 = none) →
        ((log executed tr).filterMap Task.user?).Perm (log submitted tr)) := by
  refine ⟨taken_append hr, fun w => ⟨(worked_of_run hr).begun, fun hw => ?_⟩, fun hret => ?_⟩
  · have h : Worked w tr s := worked_of_run hr
    have hpending : (s.workers w).pending = [] := by rcases hw with hw | hw <;> rw [hw] <;> rfl
    have hcurrent : (s.workers w).current = [] := by rcases hw with hw | hw <;> rw [hw] <;> rfl
    exact ⟨by rw [h.begun, hpending, List.append_nil], (h.between hpending hcurrent).symm⟩
  · have hperm := executed_perm hr (exited_of_returned hr hret)
    refine ⟨⟨(log takenTask tr).length, ?_⟩, fun s₁ post pre htr hempty hlast => ?_⟩
    · rwa [← taken_append hr, List.take_left]
    · subst htr
      have h₁ : s₁.workQueue.tasks = [] := by simpa [State.hasWork] using hempty
      rw [← users_taken hr h₁ hlast]
      exact hperm.filterMap _

end

/-- Two tasks on one worker, and a `HasWork` that sees the queue empty while the
second is running. -/
theorem run_inOrder_two : ∃ tr s, (machine Nat 1 Unit).Run tr s ∧ s.calls () = .returned ∧ log submitted tr = [7, 8] ∧
    ((log executed tr).filterMap Task.user?).Perm [7, 8] := by
  have h := exists_run (m := machine Nat 1 Unit) (s := {})
    (l := [.submit 7 none, .submit 8 none, .work 0, .work 0, .work 0, .work 0, .work 0, .work 0, .work 0, .work 0,
      .hasWork, .shutdown (), .run () none, .run () none, .run () none, .work 0, .work 0, .run () none, .run () none])
    (p := fun tr s => decide (s.calls () = .returned ∧ log submitted tr = [7, 8] ∧
      (tr[8]?.any fun e => e.2 = .hasWork && !e.1.hasWork) ∧ ∀ e ∈ tr.take 8, submitted e.1 e.2 = none)) rfl
    (by decide +kernel)
  obtain ⟨tr, s, hr, hp⟩ := h
  simp only [decide_eq_true_eq, Option.any_eq_true, Bool.and_eq_true] at hp
  obtain ⟨hret, hsub, ⟨⟨s₁, a⟩, h₈, ha, hempty⟩, hlast⟩ := hp
  obtain ⟨hlt, hget⟩ := List.getElem?_eq_some_iff.1 h₈
  have htr : tr = tr.take 8 ++ (s₁, .hasWork) :: tr.drop 9 := by
    conv_lhs => rw [← List.take_append_drop 8 tr, List.drop_eq_getElem_cons hlt, hget]
    rw [show a = .hasWork from ha]
  refine ⟨tr, s, hr, hret, hsub, ?_⟩
  rw [← hsub]
  exact ((run_inOrder hr).2.2 hret).2 s₁ _ _ htr (by simpa using hempty) hlast

end Dxpool.Workers
