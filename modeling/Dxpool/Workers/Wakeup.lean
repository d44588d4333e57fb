/-
`Shutdown` cannot deadlock: once it has submitted its no-ops, every worker in
`Take` has a task in the queue, and one of them is awake (`run_awake`).

A worker that is past its check of `isAlive` takes one task; the others take
none once the flag is down. So the tasks taken after that are at most as many
as the workers, and so are the no-ops (`Stocked`).
-/
import Dxpool.Workers.Pool

namespace Dxpool.Workers

open Machine

/-- One for a worker past its check of `isAlive` that has not taken a task yet. -/
def Worker.waits {τ : Type} : Worker τ → Nat
  | .taking => 1
  | _ => 0

/-- How many no-ops a call of `Shutdown` has submitted. -/
def Call.added {numThreads : Nat} : Call numThreads → Nat
  | .idle | .read | .write => 0
  | .adding i => i
  | .joining _ | .inJoin _ | .returned | .failed => numThreads

/-- Before the write of `isAlive`. -/
def Call.early {numThreads : Nat} : Call numThreads → Bool
  | .idle | .read | .write => true
  | .adding _ | .joining _ | .inJoin _ | .returned | .failed => false

section
variable {numThreads i : Nat}

@[simp] theorem joinFrom_added : (joinFrom numThreads i).added = numThreads := by
  unfold joinFrom
  split <;> rfl

theorem addFrom_added (h : i ≤ numThreads) : (addFrom numThreads i).added = i := by
  unfold addFrom
  split
  · rfl
  · rw [joinFrom_added]; omega

@[simp] theorem joinFrom_early : (joinFrom numThreads i).early = false := by
  unfold joinFrom
  split <;> rfl

@[simp] theorem addFrom_early : (addFrom numThreads i).early = false := by
  unfold addFrom
  split
  · rfl
  · exact joinFrom_early

end

section
variable {τ C : Type} {numThreads : Nat} {s s' : State τ numThreads C} {tr : Trace (State τ numThreads C) (Act τ numThreads C)}

/-- The number of workers past their check of `isAlive` that have not taken a task. -/
def waiting (s : State τ numThreads C) : Nat := ∑ w, (s.workers w).waits

theorem waiting_le : waiting s ≤ numThreads := by
  have h : ∀ w ∈ Finset.univ, (s.workers w).waits ≤ 1 := fun w _ => by cases s.workers w <;> simp [Worker.waits]
  have := Finset.sum_le_sum h
  simpa [waiting] using this

theorem waiting_pos : 0 < waiting s ↔ ∃ w, s.workers w = .taking := by
  constructor
  · intro h
    obtain ⟨w, hw⟩ := Tally.exists_of_sum_pos s.workers Worker.waits h
    exact ⟨w, by cases hs : s.workers w <;> simp_all [Worker.waits]⟩
  · rintro ⟨w, hw⟩
    have := Tally.le_sum s.workers Worker.waits w
    rw [hw] at this
    exact this

theorem waiting_setWorker (q : WorkQueue (Task τ) (Fin numThreads)) (w : Fin numThreads) (k : Worker τ) :
    waiting ({ s with workQueue := q }.setWorker w k) + (s.workers w).waits = waiting s + k.waits :=
  Tally.sum_update s.workers Worker.waits w k

/-- The consumers of the queue are the workers in `Take`. -/
def Consume (s : State τ numThreads C) : Prop := ∀ w, s.workers w = .taking ↔ s.workQueue.takers w ≠ .out

theorem add_out {Task W : Type} [DecidableEq W] {q : WorkQueue Task W} {task : Task} {n : Option W}
    (hn : Notifies q.takers n) (w : W) : (q.add task n).takers w = .out ↔ q.takers w = .out := by
  cases n with
  | none => rfl
  | some v =>
    have hv : q.takers v = .asleep := hn
    by_cases hw : w = v
    · subst hw; simp [WorkQueue.add, WorkQueue.set, hv]
    · simp [WorkQueue.add, WorkQueue.set, hw]

variable [DecidableEq C]

theorem Consume.step {a : Act τ numThreads C} (h : Consume s) (hs : Step s a s') : Consume s' := by
  have hset : ∀ {q : WorkQueue (Task τ) (Fin numThreads)} {w k}, (k = .taking ↔ q.takers w ≠ .out) →
      (∀ v, v ≠ w → q.takers v = s.workQueue.takers v) → Consume ({ s with workQueue := q }.setWorker w k) := by
    intro q w k hk hq v
    by_cases hv : v = w
    · subst hv; rw [setWorker_self]; exact hk
    · rw [setWorker_ne hv, h v, ← hq v hv]; rfl
  have hkeep : ∀ {w k}, s.workers w ≠ .taking → k ≠ .taking → Consume (s.setWorker w k) := fun hw hk =>
    hset (iff_of_false hk fun ht => hw ((h _).2 ht)) fun _ _ => rfl
  cases hs with
  | submit hn | add _ hn => exact fun w => (h w).trans (not_congr (add_out hn w).symm)
  | @wake w hw =>
    intro v
    by_cases hv : v = w
    · subst hv; simp [WorkQueue.set, h v, hw]
    · simpa [WorkQueue.set, hv] using h v
  | goOn hw ha ht => exact hset (by simp [WorkQueue.set]) fun v hv => by simp [WorkQueue.set, hv]
  | @lock w hw ht =>
    refine hset ?_ fun v hv => ?_
    · unfold WorkQueue.take
      cases s.workQueue.tasks <;> simp [WorkQueue.set]
    · unfold WorkQueue.take
      cases s.workQueue.tasks <;> simp [WorkQueue.set, hv]
  | start hw | exit hw | invoke hw | finish hw => exact hkeep (by simp [hw]) (by simp)
  | _ => exact h

theorem consume_of_run (hr : (machine τ numThreads C).Run tr s) : Consume s :=
  hr.invariant' (fun s h => by subst h; simp [Consume]) (fun _ _ _ hi h => hi.step (step_cases h))

/-- While anybody sleeps, every task in the queue has a worker that was woken. -/
theorem attended_queue (hr : (machine τ numThreads C).Run tr s) : Attended s.workQueue :=
  attended_of_run (queue_of_run hr)

end

/-! ## One call of `Shutdown` -/

section
variable {τ : Type} {numThreads : Nat} {s s' : State τ numThreads Unit} {tr : Trace (State τ numThreads Unit) (Act τ numThreads Unit)}

/-- The workers in `Take` have the tasks of the queue to take, up to the no-ops
still to come; the flag is down once the first is due. -/
structure Stocked (s : State τ numThreads Unit) : Prop where
  alive : s.isAlive = (s.calls ()).early
  tasks : (s.calls ()).added + waiting s ≤ s.workQueue.tasks.length + numThreads

theorem Stocked.step {a : Act τ numThreads Unit} (h : Stocked s) (hs : Step s a s') : Stocked s' := by
  have hle := waiting_le (s := s')
  obtain ⟨halive, htasks⟩ := h
  have hwork : ∀ {w k}, (s.workers w).waits = k.waits → Stocked (s.setWorker w k) := by
    intro w k hk
    have : waiting (s.setWorker w k) + _ = _ := waiting_setWorker s.workQueue w k
    refine ⟨halive, ?_⟩
    show (s.calls ()).added + waiting (s.setWorker w k) ≤ s.workQueue.tasks.length + numThreads
    omega
  have hcall : ∀ {s₁ : State τ numThreads Unit} {k}, s₁.isAlive = k.early →
      k.added + waiting s₁ ≤ s₁.workQueue.tasks.length + numThreads → Stocked (s₁.setCall () k) := fun ha ht =>
    ⟨by rw [setCall_self]; exact ha, by rw [setCall_self]; exact ht⟩
  cases hs with
  | submit hn =>
    refine ⟨halive, ?_⟩
    show (s.calls ()).added + waiting s ≤ _
    simp only [add_tasks, List.length_append, List.length_singleton]
    omega
  | hasWork | wake => exact ⟨halive, htasks⟩
  | start hw | exit hw | invoke hw | finish hw => exact hwork (by simp [hw, Worker.waits])
  | goOn hw ha ht =>
    refine ⟨halive, ?_⟩
    have hadded : (s.calls ()).added = 0 := by
      rw [ha] at halive
      cases hc : s.calls () <;> simp_all [Call.early, Call.added]
    show (s.calls ()).added + waiting _ ≤ s.workQueue.tasks.length + numThreads
    omega
  | @lock w hw ht =>
    refine ⟨halive, ?_⟩
    have hset := waiting_setWorker (s := s) (s.workQueue.take w) w (s.workQueue.tasks.head?.elim .taking .took)
    show (s.calls ()).added + waiting _ ≤ (s.workQueue.take w).tasks.length + numThreads
    rw [take_tasks]
    simp only [hw, Worker.waits] at hset
    cases hq : s.workQueue.tasks with
    | nil =>
      simp only [hq, List.head?_nil, Option.elim_none, List.length_nil, List.tail_nil] at hset htasks ⊢
      omega
    | cons task rest =>
      simp only [hq, List.head?_cons, Option.elim_some, List.length_cons, List.tail_cons] at hset htasks ⊢
      omega
  | shutdown hc =>
    rw [hc] at halive htasks
    exact hcall halive htasks
  | readAlive hc ha =>
    rw [hc] at halive htasks
    exact hcall halive htasks
  | readDead hc ha =>
    rw [hc, ha] at halive
    cases halive
  | write hc =>
    rw [hc] at htasks
    exact hcall addFrom_early.symm (by rw [addFrom_added (Nat.zero_le _)]; exact htasks)
  | @add c i n hc hn =>
    rw [hc] at halive htasks
    refine hcall (halive.trans addFrom_early.symm) ?_
    rw [addFrom_added i.isLt, add_tasks, List.length_append, List.length_singleton]
    simp only [Call.added] at htasks
    show _ + waiting s ≤ _
    omega
  | join hc =>
    rw [hc] at halive htasks
    exact hcall (halive.trans joinFrom_early.symm) (by rw [joinFrom_added]; exact htasks)
  | startJoin hc | joinFailed hc =>
    rw [hc] at halive htasks
    exact hcall halive htasks

theorem stocked_of_run (hr : (machine τ numThreads Unit).Run tr s) : Stocked s :=
  hr.invariant' (fun s h => by subst h; exact ⟨rfl, by simp [Call.added, waiting, Worker.waits]⟩)
    (fun _ _ _ hi h => hi.step (step_cases h))

/-- Past the last no-op. -/
def Call.allAdded {numThreads : Nat} : Call numThreads → Bool
  | .joining _ | .inJoin _ | .returned | .failed => true
  | .idle | .read | .write | .adding _ => false

/-- **No deadlock.** Once `Shutdown` has submitted its no-ops, the queue has a
task for every worker in `Take`; one of them, if any, is not asleep; and so it
is never that some worker has not exited and all such are asleep. -/
theorem run_awake (hr : (machine τ numThreads Unit).Run tr s) (hadded : (s.calls ()).allAdded = true) :
    waiting s ≤ s.workQueue.tasks.length ∧
    (0 < waiting s → ∃ w, s.workers w = .taking ∧ s.workQueue.takers w ≠ .asleep) ∧
    ¬((∃ w, s.workers w ≠ .exited) ∧ ∀ w, s.workers w ≠ .exited → s.workQueue.takers w = .asleep) := by
  have hstocked := (stocked_of_run hr).tasks
  have hall : (s.calls ()).added = numThreads := by cases hc : s.calls () <;> simp_all [Call.allAdded, Call.added]
  have hle : waiting s ≤ s.workQueue.tasks.length := by omega
  have hawake : 0 < waiting s → ∃ w, s.workers w = .taking ∧ s.workQueue.takers w ≠ .asleep := by
    intro hpos
    obtain ⟨w, hw⟩ := waiting_pos.1 hpos
    by_cases hsleep : s.workQueue.takers w = .asleep
    · have hwoken := attended_queue hr (count_pos.2 ⟨w, hsleep⟩)
      obtain ⟨v, hv⟩ := count_pos.1 (show 0 < s.workQueue.count .woken by omega)
      exact ⟨v, (consume_of_run hr v).2 (by simp [hv]), by simp [hv]⟩
    · exact ⟨w, hw, hsleep⟩
  refine ⟨hle, hawake, fun ⟨⟨w, hw⟩, hsleep⟩ => ?_⟩
  have htaking := (consume_of_run hr w).2 (by rw [hsleep w hw]; simp)
  obtain ⟨v, hv, hno⟩ := hawake (waiting_pos.2 ⟨w, htaking⟩)
  exact hno (hsleep v (by rw [hv]; simp))

end

/-- Two workers asleep on the queue when `Shutdown` comes, and a task that the
first of them takes before the second no-op. -/
theorem run_awake_two : ∃ tr s, (machine Nat 2 Unit).Run tr s ∧ s.calls () = .joining 0 ∧ s.workers 0 = .took (.user 7) ∧
    s.workQueue.takers 1 = .woken ∧ s.workQueue.tasks = [.noOp, .noOp] ∧ waiting s ≤ s.workQueue.tasks.length := by
  have h := exists_run (m := machine Nat 2 Unit) (s := {})
    (l := [.work 0, .work 0, .work 0, .work 1, .work 1, .work 1, .submit 7 (some 0), .shutdown (), .run () none,
      .run () none, .run () (some 1), .work 0, .run () none])
    (p := fun _ s => decide (s.calls () = .joining 0 ∧ s.workers 0 = .took (.user 7) ∧ s.workQueue.takers 1 = .woken ∧
      s.workQueue.tasks = [.noOp, .noOp])) rfl (by decide +kernel)
  obtain ⟨tr, s, hr, hp⟩ := h
  simp only [decide_eq_true_eq] at hp
  obtain ⟨hcall, hw, ht, hq⟩ := hp
  exact ⟨tr, s, hr, hcall, hw, ht, hq, (run_awake hr (by rw [hcall]; rfl)).1⟩

end Dxpool.Workers
