/-
What one `Shutdown` leaves behind. Once the flag is down, a worker past its
check takes one more task and then exits; the others take none. So all tasks
submitted before are executed if and only if, at the write of the flag, no
more were queued than workers were in `Take` (`run_executed`). A worker that
has not started yet, or runs a task, does not come back to the queue
(`lost_task`).
-/
import Dxpool.Workers.Wakeup
import Dxpool.Workers.Shutdown

namespace Dxpool.Workers

open Machine

/-! ## Tasks added, taken and executed -/

/-- What a client submitted. -/
def Task.user? {τ : Type} : Task τ → Option τ
  | .user x => some x
  | .noOp => none

/-- The task a worker has in hand. -/
def Worker.hand {τ : Type} : Worker τ → Multiset (Task τ)
  | .took task | .running task => {task}
  | .notStarted | .check | .taking | .exited => 0

section
variable {τ C : Type} {numThreads : Nat}

/-- What a step submits. -/
def submitted (_ : State τ numThreads C) : Act τ numThreads C → Option τ
  | .submit x _ => some x
  | _ => none

/-- The task that a step adds to the queue. -/
def addedTask (s : State τ numThreads C) (a : Act τ numThreads C) : Option (Task τ) :=
  (queueAct s a).bind (added s.workQueue)

/-- The task that a step takes from the queue. -/
def takenTask (s : State τ numThreads C) (a : Act τ numThreads C) : Option (Task τ) :=
  (queueAct s a).bind (taken s.workQueue)

/-- The task that a worker is done with. -/
def executed (s : State τ numThreads C) : Act τ numThreads C → Option (Task τ)
  | .work w =>
    match s.workers w with
    | .running task => some task
    | _ => none
  | _ => none

/-- The tasks in the hands of workers. -/
def hands (s : State τ numThreads C) : Multiset (Task τ) := ∑ w, (s.workers w).hand

theorem hands_setWorker (s : State τ numThreads C) (q : WorkQueue (Task τ) (Fin numThreads)) (w : Fin numThreads)
    (k : Worker τ) : hands ({ s with workQueue := q }.setWorker w k) + (s.workers w).hand = hands s + k.hand :=
  Tally.sum_update s.workers Worker.hand w k

variable [DecidableEq C] {s s' : State τ numThreads C} {tr : Trace (State τ numThreads C) (Act τ numThreads C)}

/-- Tasks are taken in the order they were added in. -/
theorem taken_append (hr : (machine τ numThreads C).Run tr s) :
    log takenTask tr ++ s.workQueue.tasks = log addedTask tr := by
  have h := fifo_of_run (queue_of_run hr)
  rwa [log_project, log_project] at h

/-- A step takes a task in hand that it takes from the queue, and lets one go
that it executes. -/
theorem Step.hands {a : Act τ numThreads C} (hs : Step s a s') :
    ((executed s a).toList : Multiset (Task τ)) + hands s' = hands s + (takenTask s a).toList := by
  cases hs with
  | submit | hasWork | wake | shutdown => exact add_comm _ _
  | @start w hw =>
    have hk : hands (s.setWorker w .check) + _ = _ := hands_setWorker s s.workQueue w .check
    simp only [hw, Worker.hand, add_zero] at hk
    simp [executed, takenTask, queueAct, hw, hk]
  | @goOn w hw ha ht =>
    have hk := hands_setWorker s (s.workQueue.set w .locking) w .taking
    simp only [hw, Worker.hand, add_zero] at hk
    rw [hk]
    simp [executed, takenTask, queueAct, hw, ha, taken]
  | @exit w hw ha =>
    have hk : hands (s.setWorker w .exited) + _ = _ := hands_setWorker s s.workQueue w .exited
    simp only [hw, Worker.hand, add_zero] at hk
    simp [executed, takenTask, queueAct, hw, ha, hk]
  | @lock w hw ht =>
    have hk := hands_setWorker s (s.workQueue.take w) w (s.workQueue.tasks.head?.elim .taking .took)
    simp only [hw, Worker.hand, add_zero] at hk
    rw [hk]
    cases hq : s.workQueue.tasks <;> simp [executed, takenTask, queueAct, hw, taken, hq]
  | @invoke w task hw =>
    have hk : hands (s.setWorker w (.running task)) + _ = _ := hands_setWorker s s.workQueue w (.running task)
    simp only [hw, Worker.hand] at hk
    simp [executed, takenTask, queueAct, hw, add_right_cancel hk]
  | @finish w task hw =>
    have hk : hands (s.setWorker w .check) + _ = _ := hands_setWorker s s.workQueue w .check
    simp only [hw, Worker.hand, add_zero] at hk
    simp only [executed, takenTask, queueAct, hw, ← hk, Option.bind_none, Option.toList_some, Option.toList_none,
      Multiset.coe_singleton, Multiset.coe_nil, add_zero]
    exact add_comm _ _
  | readAlive hc | readDead hc | write hc | add hc | startJoin hc | join hc | joinFailed hc =>
    simp only [executed, takenTask, queueAct, hc, Option.bind_some, Option.bind_none, taken]
    exact add_comm _ _

/-- A task taken is executed, or in the hand of one worker. -/
theorem executed_add_hands (hr : (machine τ numThreads C).Run tr s) :
    (log executed tr : Multiset (Task τ)) + hands s = log takenTask tr := by
  induction hr with
  | init h => rw [show _ = _ from h]; simp [Workers.hands, Worker.hand]
  | step hr hs ih =>
    have hstep := (step_cases hs).hands
    simp only [log, ← Multiset.coe_add]
    rw [add_assoc, hstep, ← add_assoc, ih]

end

/-! ## One call of `Shutdown` -/

section
variable {τ : Type} {numThreads : Nat}

/-- Tasks are submitted only before `Shutdown` is called. -/
def SubmitsFirst (s : State τ numThreads Unit) : Act τ numThreads Unit → Prop
  | .submit _ _ => s.calls () = .idle
  | _ => True

/-- The flag goes down only when no more tasks are queued than workers in
`Take` will take. -/
def Drained (s : State τ numThreads Unit) : Act τ numThreads Unit → Prop
  | .run _ _ => s.calls () = .write → s.workQueue.tasks.length ≤ waiting s
  | _ => True

instance (s : State τ numThreads Unit) (a : Act τ numThreads Unit) : Decidable (SubmitsFirst s a) :=
  match a with
  | .submit _ _ => inferInstanceAs (Decidable (s.calls () = .idle))
  | .hasWork | .work _ | .wake _ | .shutdown _ | .run _ _ => .isTrue trivial

instance (s : State τ numThreads Unit) (a : Act τ numThreads Unit) : Decidable (Drained s a) :=
  match a with
  | .run _ _ => inferInstanceAs (Decidable (s.calls () = .write → s.workQueue.tasks.length ≤ waiting s))
  | .hasWork | .work _ | .wake _ | .shutdown _ | .submit _ _ => .isTrue trivial

variable {s s' : State τ numThreads Unit} {tr : Trace (State τ numThreads Unit) (Act τ numThreads Unit)}

/-- A single call meets the condition of several. -/
theorem serial_of_run (hr : (machine τ numThreads Unit).Run tr s) : Along Serial tr := by
  refine hr.along_of (I := fun _ s => Stocked s) (W := fun _ _ => True) (fun _ _ hr _ _ => stocked_of_run hr)
    (fun _ s a _ h _ => ?_) (fun _ _ => trivial)
  cases a with
  | run c n =>
    intro hc
    have halive : s.isAlive = true := by rw [h.alive, hc]; rfl
    rw [if_pos halive]
    intro d
    rw [hc]
    simp
  | _ => trivial

/-- The no-ops come after all submitted tasks, and after the flag is down. -/
def NoOpsLast (tr : Trace (State τ numThreads Unit) (Act τ numThreads Unit)) (s : State τ numThreads Unit) : Prop :=
  ∃ k, log addedTask tr = (log submitted tr).map .user ++ .replicate k .noOp ∧ ((s.calls ()).early = true → k = 0)

theorem NoOpsLast.step {a : Act τ numThreads Unit} (h : NoOpsLast tr s) (hfirst : SubmitsFirst s a) (hs : Step s a s') :
    NoOpsLast ((s, a) :: tr) s' := by
  obtain ⟨k, hlog, hk⟩ := h
  have hquiet : submitted s a = none → addedTask s a = none → ((s'.calls ()).early = true → (s.calls ()).early = true) →
      NoOpsLast ((s, a) :: tr) s' := fun h₁ h₂ he =>
    ⟨k, by rw [log_none h₁, log_none h₂, hlog], fun h => hk (he h)⟩
  cases hs with
  | @submit x n hn =>
    have h₀ : k = 0 := hk (by rw [hfirst]; rfl)
    subst h₀
    refine ⟨0, ?_, fun _ => rfl⟩
    rw [log_some (f := addedTask) (b := .user x) rfl, log_some (f := submitted) (b := x) rfl, hlog]
    simp
  | @add c i n hc hn =>
    refine ⟨k + 1, ?_, fun h => ?_⟩
    · rw [log_some (f := addedTask) (b := .noOp) (by simp [addedTask, queueAct, hc, added]),
        log_none (f := submitted) rfl, hlog, List.replicate_succ', List.append_assoc]
    · rw [setCall_self, addFrom_early] at h; cases h
  | hasWork | wake => exact hquiet rfl rfl id
  | start hw | exit hw | lock hw | invoke hw | finish hw =>
    exact hquiet rfl (by simp_all [addedTask, queueAct, added]) id
  | goOn hw ha => exact hquiet rfl (by simp [addedTask, queueAct, hw, ha, added]) id
  | shutdown hc => exact hquiet rfl rfl fun _ => by rw [hc]; rfl
  | readAlive hc | readDead hc | write hc =>
    exact hquiet rfl (by simp [addedTask, queueAct, hc]) fun _ => by rw [hc]; rfl
  | join hc =>
    refine hquiet rfl (by simp [addedTask, queueAct, hc]) fun h => ?_
    rw [setCall_self, joinFrom_early] at h; cases h
  | startJoin hc | joinFailed hc =>
    refine hquiet rfl (by simp [addedTask, queueAct, hc]) fun h => ?_
    rw [setCall_self] at h; cases h

/-- Before the flag is down nothing is lost; from then on, what is taken, and
what the workers in `Take` will take, decides. -/
structure Decided (tr : Trace (State τ numThreads Unit) (Act τ numThreads Unit)) (s : State τ numThreads Unit) : Prop where
  early : (s.calls ()).early = true → Along Drained tr
  late : (s.calls ()).early = false →
    (Along Drained tr ↔ (log submitted tr).length ≤ (log takenTask tr).length + waiting s)

/-- A worker that takes a task has stopped waiting for one. -/
theorem waiting_lock {w : Fin numThreads} (hw : s.workers w = .taking) :
    (takenTask s (.work w)).toList.length + waiting ({ s with workQueue := s.workQueue.take w }.setWorker w
      (s.workQueue.tasks.head?.elim .taking .took)) = waiting s := by
  have hset := waiting_setWorker (s := s) (s.workQueue.take w) w (s.workQueue.tasks.head?.elim .taking .took)
  simp only [hw, Worker.waits] at hset
  simp only [takenTask, queueAct, hw, Option.bind_some, taken]
  cases hq : s.workQueue.tasks with
  | nil =>
    simp only [hq, List.head?_nil, Option.elim_none, Option.toList_none, List.length_nil] at hset ⊢
    omega
  | cons task rest =>
    simp only [hq, List.head?_cons, Option.elim_some, Option.toList_some, List.length_singleton] at hset ⊢
    omega

theorem Decided.step {a : Act τ numThreads Unit} (h : Decided tr s) (hr : (machine τ numThreads Unit).Run tr s)
    (hno : NoOpsLast tr s) (hfirst : SubmitsFirst s a) (hs : Step s a s') : Decided ((s, a) :: tr) s' := by
  have halive := (stocked_of_run hr).alive
  have hquiet : Drained s a → (s'.calls ()).early = (s.calls ()).early → ((s.calls ()).early = false →
      submitted s a = none ∧ (takenTask s a).toList.length + waiting s' = waiting s) → Decided ((s, a) :: tr) s' := by
    intro hd he hlate
    refine ⟨fun h' => along_cons.2 ⟨hd, h.early (he ▸ h')⟩, fun h' => ?_⟩
    obtain ⟨hsub, hcount⟩ := hlate (he ▸ h')
    rw [along_cons, h.late (he ▸ h'), log_none hsub, log, List.length_append]
    exact ⟨fun h'' => by have := h''.2; omega, fun hle => ⟨hd, by omega⟩⟩
  have hwork : ∀ {w k}, s.workers w ≠ .taking → k ≠ .taking → waiting (s.setWorker w k) = waiting s := by
    intro w k hw hk
    have : waiting (s.setWorker w k) + _ = _ := waiting_setWorker s.workQueue w k
    have h₁ : (s.workers w).waits = 0 := by cases hs : s.workers w <;> simp_all [Worker.waits]
    have h₂ : k.waits = 0 := by cases k <;> simp_all [Worker.waits]
    omega
  cases hs with
  | submit hn => exact hquiet trivial rfl fun h' => by rw [show s.calls () = .idle from hfirst] at h'; cases h'
  | hasWork | wake => exact hquiet trivial rfl fun _ => ⟨rfl, Nat.zero_add _⟩
  | start hw | exit hw | invoke hw | finish hw =>
    refine hquiet trivial rfl fun _ => ⟨rfl, ?_⟩
    rw [hwork (by simp [hw]) (by simp)]
    simp_all [takenTask, queueAct]
  | goOn hw ha => exact hquiet trivial rfl fun h' => by rw [← halive, ha] at h'; cases h'
  | lock hw => exact hquiet trivial rfl fun _ => ⟨rfl, waiting_lock hw⟩
  | shutdown hc => exact hquiet trivial (by rw [setCall_self, hc]; rfl) fun h' => by rw [hc] at h'; cases h'
  | readAlive hc =>
    refine hquiet (fun h' => ?_) (by rw [setCall_self, hc]; rfl) fun h' => by rw [hc] at h'; cases h'
    rw [hc] at h'; cases h'
  | readDead hc ha => rw [hc, ha] at halive; cases halive
  | @write c n hc =>
    have hearly : (s.calls ()).early = true := by rw [hc]; rfl
    obtain ⟨k, hadded, hk⟩ := hno
    have hlen := congrArg List.length ((taken_append hr).trans hadded)
    rw [hk hearly, List.length_append, List.length_append, List.length_map, List.length_replicate, Nat.add_zero] at hlen
    refine ⟨fun h' => ?_, fun _ => ?_⟩
    · rw [setCall_self, addFrom_early] at h'; cases h'
    · rw [along_cons, log_none (f := submitted) rfl, log_none (f := takenTask) (by simp [takenTask, queueAct, hc])]
      have hd : Drained s (.run c n) ↔ s.workQueue.tasks.length ≤ waiting s := ⟨fun hd => hd hc, fun hle _ => hle⟩
      show _ ↔ _ ≤ _ + waiting s
      rw [hd]
      exact ⟨fun h' => by have := h'.1; omega, fun hle => ⟨by omega, h.early hearly⟩⟩
  | add hc =>
    refine hquiet (fun h' => ?_) (by rw [setCall_self, hc, addFrom_early]; rfl) fun _ =>
      ⟨rfl, by simp only [takenTask, queueAct, hc, Option.bind_some, taken]; exact Nat.zero_add _⟩
    rw [hc] at h'; cases h'
  | join hc =>
    refine hquiet (fun h' => ?_) (by rw [setCall_self, hc, joinFrom_early]; rfl) fun _ =>
      ⟨rfl, by simp only [takenTask, queueAct, hc, Option.bind_none]; exact Nat.zero_add _⟩
    rw [hc] at h'; cases h'
  | startJoin hc | joinFailed hc =>
    refine hquiet (fun h' => ?_) (by rw [setCall_self, hc]; rfl) fun _ =>
      ⟨rfl, by simp only [takenTask, queueAct, hc, Option.bind_none]; exact Nat.zero_add _⟩
    rw [hc] at h'; cases h'

theorem decided_of_run (hr : (machine τ numThreads Unit).Run tr s) (hfirst : Along SubmitsFirst tr) :
    NoOpsLast tr s ∧ Decided tr s :=
  hr.invariantT (I := fun tr s => NoOpsLast tr s ∧ Decided tr s)
    (fun s h => by subst h; exact ⟨⟨0, rfl, fun _ => rfl⟩, fun _ => along_nil, fun h => by cases h⟩)
    (fun _ _ _ _ hr _ hi hok h => ⟨hi.1.step hok (step_cases h), hi.2.step hr hi.1 hok (step_cases h)⟩) hfirst

/-- When all workers have exited, what was taken was executed. -/
theorem executed_perm (hr : (machine τ numThreads Unit).Run tr s) (hexited : ∀ w, s.workers w = .exited) :
    (log executed tr).Perm (log takenTask tr) := by
  have h := executed_add_hands hr
  rw [show hands s = 0 by simp [hands, hexited, Worker.hand], add_zero] at h
  exact Multiset.coe_eq_coe.1 h

/-- When `Shutdown` has returned, all workers have exited. -/
theorem exited_of_returned (hr : (machine τ numThreads Unit).Run tr s) (hret : s.calls () = .returned) :
    ∀ w, s.workers w = .exited := by
  rcases closed_of_run hr (serial_of_run hr) with h | ⟨c, h⟩
  · rcases h.calls () with hk | hk | hk <;> rw [hk] at hret <;> cases hret
  · exact h.returned () hret

/-- What clients submitted among the first tasks. -/
theorem filterMap_user (xs : List τ) (k d : Nat) :
    ((xs.map .user ++ .replicate k .noOp).take d).filterMap Task.user? = xs.take d := by
  have huser : Task.user? ∘ Task.user = (some : τ → Option τ) := rfl
  rw [List.take_append, ← List.map_take, List.filterMap_append, List.filterMap_map, huser, List.filterMap_some,
    List.take_replicate, List.filterMap_replicate_of_none rfl, List.append_nil]

/-- **Shutdown loses no task** if and only if the flag goes down when no more
tasks are queued than workers in `Take` will take: when `Shutdown` has
returned, the tasks submitted before it are those executed, each once. -/
theorem run_executed (hr : (machine τ numThreads Unit).Run tr s) (hfirst : Along SubmitsFirst tr)
    (hret : s.calls () = .returned) :
    ((log executed tr).filterMap Task.user?).Perm (log submitted tr) ↔ Along Drained tr := by
  have hexited := exited_of_returned hr hret
  have hwait : waiting s = 0 := by simp [waiting, hexited, Worker.waits]
  obtain ⟨⟨k, hadded, -⟩, hdecided⟩ := decided_of_run hr hfirst
  rw [hdecided.late (by rw [hret]; rfl), hwait, Nat.add_zero]
  have htake : log takenTask tr = ((log submitted tr).map .user ++ .replicate k .noOp).take (log takenTask tr).length := by
    rw [← hadded, ← taken_append hr, List.take_left]
  have huser := (congrArg (List.filterMap Task.user?) htake).trans (filterMap_user _ _ _)
  have hperm := (executed_perm hr hexited).filterMap Task.user?
  rw [huser] at hperm
  constructor
  · intro h
    have hlen := (hperm.symm.trans h).length_eq
    rw [List.length_take] at hlen
    omega
  · intro h
    rwa [List.take_of_length_le h] at hperm

end

/-- The only task of a pool whose only worker starts after the flag is down. -/
def lateWorker (w : Fin 1) : List (Act Nat 1 Unit) :=
  [.submit 7 none, .shutdown (), .run () none, .run () none, .run () none, .run () none, .work w, .work w, .run () none]

/-- **A lost task**: `Shutdown` returns, and the task submitted before it is
still in the queue. -/
theorem lost_task : ∃ tr s, (machine Nat 1 Unit).Run tr s ∧ Along SubmitsFirst tr ∧ s.calls () = .returned ∧
    log submitted tr = [7] ∧ log executed tr = [] ∧ s.workQueue.tasks = [.user 7, .noOp] := by
  have h := exists_run (m := machine Nat 1 Unit) (s := {}) (l := lateWorker 0)
    (p := fun tr s => decide (Along SubmitsFirst tr ∧ s.calls () = .returned ∧ log submitted tr = [7] ∧
      log executed tr = [] ∧ s.workQueue.tasks = [.user 7, .noOp])) rfl (by decide +kernel)
  simpa only [decide_eq_true_eq] using h

/-- The worker is in `Take` when the flag goes down: it executes the task. -/
theorem run_executed_one : ∃ tr s, (machine Nat 1 Unit).Run tr s ∧ s.calls () = .returned ∧
    ((log executed tr).filterMap Task.user?).Perm [7] := by
  have h := exists_run (m := machine Nat 1 Unit) (s := {})
    (l := [.work 0, .work 0, .submit 7 none, .shutdown (), .run () none, .run () none, .run () none, .work 0, .work 0,
      .work 0, .work 0, .run () none, .run () none])
    (p := fun tr s => decide (Along SubmitsFirst tr ∧ Along Drained tr ∧ s.calls () = .returned ∧ log submitted tr = [7]))
    rfl (by decide +kernel)
  obtain ⟨tr, s, hr, hp⟩ := h
  simp only [decide_eq_true_eq] at hp
  obtain ⟨hfirst, hdrained, hret, hsub⟩ := hp
  exact ⟨tr, s, hr, hret, hsub ▸ (run_executed hr hfirst hret).2 hdrained⟩

end Dxpool.Workers
