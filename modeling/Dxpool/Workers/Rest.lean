/-
A worker pool comes to rest. Every task costs the workers a bounded number of
steps and every call of `Shutdown` itself so many, so the pool's own steps are
bounded by what it is asked to do (`run_settles`). At rest, nobody having called
`Shutdown`, all tasks are executed and all workers sleep; once somebody has,
however many calls there are and however they overlap, no worker is left in its
loop. A call is left in a join only if another was in the same one (`run_shutsDown`).
-/
import Dxpool.Workers.Order
import Dxpool.Cost

namespace Dxpool.Workers

open Machine

/-- The steps that a worker has yet to take before it sleeps or exits. -/
def Worker.effort {τ : Type} (taker : Taker) : Worker τ → Nat
  | .notStarted => 3
  | .check => 2
  | .taking => if taker = .asleep then 0 else 1
  | .took _ => 4
  | .running _ => 3
  | .exited => 0

/-- The steps that a call of `Shutdown` has yet to take, or makes workers take:
each no-op that it submits is itself a step, wakes a worker and keeps one busy. -/
def Call.effort {numThreads : Nat} : Call numThreads → Nat
  | .idle | .returned | .failed => 0
  | .read => 8 * numThreads + 2
  | .write => 8 * numThreads + 1
  | .adding i => 6 * (numThreads - i) + 2 * numThreads
  | .joining i => 2 * (numThreads - i)
  | .inJoin i => 2 * (numThreads - i) - 1

/-- Between calls, or at the end of one. -/
def Call.over {numThreads : Nat} : Call numThreads → Bool
  | .idle | .returned | .failed => true
  | .read | .write | .adding _ | .joining _ | .inJoin _ => false

section
variable {τ C : Type} {numThreads : Nat}

/-- A step of a worker, or of a call of `Shutdown`. -/
def moves (_ : State τ numThreads C) : Act τ numThreads C → Bool
  | .work _ | .run _ _ => true
  | .submit _ _ | .hasWork | .wake _ | .shutdown _ => false

/-- A step that submits a task. -/
def submits (_ : State τ numThreads C) : Act τ numThreads C → Bool
  | .submit _ _ => true
  | .work _ | .run _ _ | .hasWork | .wake _ | .shutdown _ => false

/-- A worker wakes for no reason. -/
def wakes (_ : State τ numThreads C) : Act τ numThreads C → Bool
  | .wake _ => true
  | .work _ | .run _ _ | .hasWork | .submit _ _ | .shutdown _ => false

/-- A step that calls `Shutdown`. -/
def shuts (_ : State τ numThreads C) : Act τ numThreads C → Bool
  | .shutdown _ => true
  | .work _ | .run _ _ | .hasWork | .submit _ _ | .wake _ => false

/-- A step that asks for `HasWork`. -/
def asks (_ : State τ numThreads C) : Act τ numThreads C → Bool
  | .hasWork => true
  | .work _ | .run _ _ | .shutdown _ | .submit _ _ | .wake _ => false

/-- What a step is given. -/
def given (s : State τ numThreads C) (a : Act τ numThreads C) : Nat :=
  (if submits s a then 6 else 0) + (if wakes s a then 2 else 0) + (if shuts s a then 8 * numThreads + 3 else 0) +
    if asks s a then 1 else 0

/-- What the workers have yet to do. -/
def laboured (s : State τ numThreads C) : Nat := ∑ w, (s.workers w).effort (s.workQueue.takers w)

/-- What the pool has yet to do: four steps for each task in the queue. -/
def effort [Fintype C] (s : State τ numThreads C) : Nat :=
  laboured s + 4 * s.workQueue.tasks.length + ∑ c, (s.calls c).effort

end

/-! ## Every step is paid for -/

section
variable {numThreads i : Nat}

theorem joinFrom_effort : (joinFrom numThreads i).effort = 2 * (numThreads - i) := by
  unfold joinFrom
  split
  · rfl
  · simp only [Call.effort]
    omega

theorem addFrom_effort : (addFrom numThreads i).effort = 6 * (numThreads - i) + 2 * numThreads := by
  unfold addFrom
  split
  · rfl
  · rw [joinFrom_effort]
    omega

end

section
variable {τ C : Type} {numThreads : Nat} {s s' : State τ numThreads C} {tr : Trace (State τ numThreads C) (Act τ numThreads C)}

/-- A worker goes on, wherever its consumer stands then. -/
theorem laboured_setWorker (s : State τ numThreads C) (tasks : List (Task τ)) (w : Fin numThreads) (taker : Taker)
    (k : Worker τ) :
    laboured ({ s with workQueue := ({ s.workQueue with tasks } : WorkQueue _ _).set w taker }.setWorker w k) +
        (s.workers w).effort (s.workQueue.takers w) =
      laboured s + k.effort taker := by
  have h := Tally.sum_update (fun v => (s.workers v, s.workQueue.takers v)) (fun e => e.1.effort e.2) w (k, taker)
  simp only [laboured, State.setWorker, WorkQueue.set]
  rw [← h]
  congr 1
  refine Finset.sum_congr rfl fun v _ => ?_
  by_cases hv : v = w
  · subst hv
    simp
  · simp [hv]

/-- The same, the consumer left where it stands. -/
theorem laboured_keep (s : State τ numThreads C) (w : Fin numThreads) (k : Worker τ) :
    laboured (s.setWorker w k) + (s.workers w).effort (s.workQueue.takers w) =
      laboured s + k.effort (s.workQueue.takers w) := by
  have h := laboured_setWorker s s.workQueue.tasks w (s.workQueue.takers w) k
  rwa [show ({ s.workQueue with tasks := s.workQueue.tasks } : WorkQueue _ _).set w (s.workQueue.takers w) = s.workQueue by
    simp [WorkQueue.set]] at h

/-- A sleeper that is woken has one step to take. -/
theorem laboured_wake (s : State τ numThreads C) (tasks : List (Task τ)) {w : Fin numThreads}
    (hw : s.workQueue.takers w = .asleep) :
    laboured { s with workQueue := ({ s.workQueue with tasks } : WorkQueue _ _).set w .woken } ≤ laboured s + 1 := by
  have h := laboured_setWorker s tasks w .woken (s.workers w)
  have hle : (s.workers w).effort .woken ≤ (s.workers w).effort (s.workQueue.takers w) + 1 := by
    cases s.workers w <;> simp [Worker.effort, hw]
  rw [show State.setWorker _ w (s.workers w) =
    { s with workQueue := ({ s.workQueue with tasks } : WorkQueue _ _).set w .woken } by simp [State.setWorker]] at h
  omega

/-- A task added wakes one sleeper at most. -/
theorem laboured_add (s : State τ numThreads C) (task : Task τ) {n : Option (Fin numThreads)}
    (hn : Notifies s.workQueue.takers n) :
    laboured { s with workQueue := s.workQueue.add task n } ≤ laboured s + 1 := by
  cases n with
  | none => exact Nat.le_succ _
  | some w => exact laboured_wake s _ hn

/-- A worker goes on outside `Take`. -/
theorem effort_work [Fintype C] {w : Fin numThreads} {k : Worker τ}
    (h : k.effort (s.workQueue.takers w) + 1 ≤ (s.workers w).effort (s.workQueue.takers w)) :
    effort (s.setWorker w k) + 1 ≤ effort s := by
  have hset := laboured_keep s w k
  show laboured _ + 4 * s.workQueue.tasks.length + (∑ c, (s.calls c).effort) + 1 ≤ effort s
  simp only [effort]
  omega

/-- A worker goes into `Take`. -/
theorem effort_goOn [Fintype C] {w : Fin numThreads} (hw : s.workers w = .check) :
    effort ({ s with workQueue := s.workQueue.set w .locking }.setWorker w .taking) + 1 ≤ effort s := by
  have hset : laboured ({ s with workQueue := s.workQueue.set w .locking }.setWorker w .taking) + _ = _ :=
    laboured_setWorker s s.workQueue.tasks w .locking .taking
  rw [hw] at hset
  simp only [Worker.effort, reduceCtorEq, if_false] at hset
  show laboured _ + 4 * s.workQueue.tasks.length + (∑ c, (s.calls c).effort) + 1 ≤ effort s
  simp only [effort]
  omega

/-- A worker has the lock: it sleeps, or takes a task and leaves `Take`. -/
theorem effort_lock [Fintype C] {w : Fin numThreads} (hw : s.workers w = .taking)
    (ht : s.workQueue.takers w = .locking ∨ s.workQueue.takers w = .woken) :
    effort ({ s with workQueue := s.workQueue.take w }.setWorker w (s.workQueue.tasks.head?.elim .taking .took)) + 1 ≤
      effort s := by
  have hone : (s.workers w).effort (s.workQueue.takers w) = 1 := by
    rcases ht with ht | ht <;> simp [hw, ht, Worker.effort]
  show laboured _ + 4 * (s.workQueue.take w).tasks.length + (∑ c, (s.calls c).effort) + 1 ≤ effort s
  rw [take_tasks]
  simp only [effort]
  cases hq : s.workQueue.tasks with
  | nil =>
    have hset := laboured_setWorker s [] w .asleep .taking
    rw [hone] at hset
    have htake : s.workQueue.take w = ({ s.workQueue with tasks := [] } : WorkQueue _ _).set w .asleep := by
      simp [WorkQueue.take, WorkQueue.set, hq]
    rw [htake]
    simp only [Worker.effort, if_true, List.head?_nil, Option.elim_none, List.tail_nil] at hset ⊢
    omega
  | cons task rest =>
    have hset := laboured_setWorker s rest w .out (.took task)
    rw [hone] at hset
    have htake : s.workQueue.take w = ({ s.workQueue with tasks := rest } : WorkQueue _ _).set w .out := by
      rw [WorkQueue.take, hq]
    rw [htake]
    simp only [Worker.effort, List.head?_cons, Option.elim_some, List.tail_cons, List.length_cons] at hset ⊢
    omega

variable [DecidableEq C]

/-- A call goes on. -/
theorem effort_setCall [Fintype C] (s : State τ numThreads C) (c : C) (k : Call numThreads) :
    effort (s.setCall c k) + (s.calls c).effort = effort s + k.effort := by
  have h := Tally.sum_update s.calls Call.effort c k
  simp only [effort, laboured, State.setCall] at h ⊢
  omega

theorem effort_call [Fintype C] {c : C} {k : Call numThreads} (h : k.effort + 1 ≤ (s.calls c).effort) :
    effort (s.setCall c k) + 1 ≤ effort s := by
  have hset := effort_setCall s c k
  omega

/-- **Every step is paid for.** -/
theorem Step.effort [Fintype C] {a : Act τ numThreads C} (hs : Step s a s') :
    Workers.effort s' + 1 ≤ Workers.effort s + given s a := by
  cases hs with
  | @submit x n hn =>
    have hadd := laboured_add s (.user x) hn
    have htasks := congrArg List.length (add_tasks s.workQueue (.user x) n)
    rw [List.length_append, List.length_singleton] at htasks
    simp only [Workers.effort, given, submits, wakes, shuts, asks, if_true]
    omega
  | hasWork => exact Nat.le_refl _
  | wake hw =>
    have hwake : laboured { s with workQueue := s.workQueue.set _ .woken } ≤ laboured s + 1 :=
      laboured_wake s s.workQueue.tasks hw
    simp only [Workers.effort, set_tasks, given, submits, wakes, shuts, asks, if_true]
    omega
  | start hw | invoke hw | finish hw | exit hw => exact effort_work (by simp [hw, Worker.effort])
  | goOn hw => exact effort_goOn hw
  | lock hw ht => exact effort_lock hw ht
  | @shutdown c hc =>
    have hset := effort_setCall s c .read
    rw [hc] at hset
    simp only [Call.effort] at hset
    simp only [given, submits, wakes, shuts, asks, if_true]
    omega
  | readAlive hc | readDead hc => exact Nat.le_add_right_of_le (effort_call (by rw [hc]; simp [Call.effort]))
  | @startJoin c w n hc | @joinFailed c w n hc =>
    have hlt := w.isLt
    refine Nat.le_add_right_of_le (effort_call ?_)
    rw [hc]
    simp only [Call.effort]
    omega
  | write hc =>
    refine Nat.le_add_right_of_le (effort_call (s := { s with isAlive := false }) ?_)
    rw [hc, addFrom_effort]
    simp only [Call.effort]
    omega
  | @add c i n hc hn =>
    have hadd := laboured_add s .noOp hn
    have hset := effort_setCall { s with workQueue := s.workQueue.add .noOp n } c (addFrom numThreads (i + 1))
    have htasks := congrArg List.length (add_tasks s.workQueue .noOp n)
    rw [List.length_append, List.length_singleton] at htasks
    rw [addFrom_effort, hc] at hset
    have hlt := i.isLt
    simp only [Call.effort] at hset
    refine Nat.le_add_right_of_le ?_
    simp only [Workers.effort] at hset ⊢
    omega
  | @join c w n hc =>
    have hlt := w.isLt
    refine Nat.le_add_right_of_le (effort_call (s := { s with joinable := Function.update s.joinable w false }) ?_)
    rw [hc, joinFrom_effort]
    simp only [Call.effort]
    omega

end

/-! ## At rest -/

section
variable {τ C : Type} {numThreads : Nat} [DecidableEq C] {s s' : State τ numThreads C}
  {tr : Trace (State τ numThreads C) (Act τ numThreads C)}

/-- No worker and no call of `Shutdown` has a step to take. -/
def AtRest (s : State τ numThreads C) : Prop := (∀ w, work s w = none) ∧ ∀ c n, runCall s c n = none

instance [Fintype C] (s : State τ numThreads C) : Decidable (AtRest s) :=
  decidable_of_iff ((∀ w, (work s w).isNone = true) ∧ ∀ c n, (runCall s c n).isNone = true) (by simp [AtRest])

/-- While the flag is up no worker has exited and no call has put it down. Once
it is down, the workers in `Take` have the tasks of the queue to take, up to the
no-ops still to come from the call that put it down. -/
structure Ending (s : State τ numThreads C) : Prop where
  up : s.isAlive = true → (∀ w, s.workers w ≠ .exited) ∧ ∀ c, (s.calls c).early = true
  down : s.isAlive = false → ∃ c, (s.calls c).early = false ∧
    (s.calls c).added + waiting s ≤ s.workQueue.tasks.length + numThreads

/-- What a call does after the flag is down. -/
theorem Ending.setCall {c : C} {k : Call numThreads} (hdown : s.isAlive = false)
    (h : ∃ d, (s.calls d).early = false ∧ (s.calls d).added + waiting s ≤ s.workQueue.tasks.length + numThreads)
    (hk : (s.calls c).early = false → k.early = false ∧ k.added ≤ (s.calls c).added) : Ending (s.setCall c k) := by
  refine ⟨fun hup => ?_, fun _ => ?_⟩
  · rw [show (s.setCall c k).isAlive = s.isAlive from rfl, hdown] at hup
    cases hup
  · obtain ⟨d, hearly, hle⟩ := h
    refine ⟨d, ?_⟩
    by_cases hd : d = c
    · subst hd
      obtain ⟨hk, hadded⟩ := hk hearly
      rw [setCall_self]
      exact ⟨hk, Nat.le_trans (Nat.add_le_add_right hadded _) hle⟩
    · rw [setCall_ne hd]
      exact ⟨hearly, hle⟩

omit [DecidableEq C] in
/-- A worker goes on, in `Take` or out of it. -/
theorem Ending.work {q : WorkQueue (Task τ) (Fin numThreads)} {w : Fin numThreads} {k : Worker τ} (h : Ending s)
    (hexit : s.isAlive = true → k ≠ .exited)
    (hwaits : s.isAlive = false → s.workQueue.tasks.length + k.waits ≤ q.tasks.length + (s.workers w).waits) :
    Ending ({ s with workQueue := q }.setWorker w k) := by
  refine ⟨fun halive => ⟨fun v => ?_, (h.up halive).2⟩, fun hdead => ?_⟩
  · by_cases hv : v = w
    · subst hv
      rw [setWorker_self]
      exact hexit halive
    · rw [setWorker_ne hv]
      exact (h.up halive).1 v
  · obtain ⟨c, hearly, hle⟩ := h.down hdead
    have hset := waiting_setWorker (s := s) q w k
    have hmore := hwaits hdead
    refine ⟨c, hearly, ?_⟩
    show (s.calls c).added + waiting _ ≤ q.tasks.length + numThreads
    omega

/-- A call goes on before the flag is down. -/
theorem Ending.early {c : C} {k : Call numThreads} (h : Ending s) (hk : k.early = true) (hc : (s.calls c).early = true) :
    Ending (s.setCall c k) := by
  by_cases halive : s.isAlive = true
  · refine ⟨fun _ => ⟨(h.up halive).1, fun d => ?_⟩, fun hdead => ?_⟩
    · by_cases hd : d = c
      · subst hd
        rw [setCall_self]
        exact hk
      · rw [setCall_ne hd]
        exact (h.up halive).2 d
    · rw [show (s.setCall c k).isAlive = s.isAlive from rfl, halive] at hdead
      cases hdead
  · rw [Bool.not_eq_true] at halive
    exact .setCall halive (h.down halive) fun hlate => by rw [hc] at hlate; cases hlate

omit [DecidableEq C] in
/-- A call is past the write of the flag only if it is down. -/
theorem Ending.late {c : C} (h : Ending s) (hc : (s.calls c).early = false) : s.isAlive = false := by
  by_contra halive
  rw [Bool.not_eq_false] at halive
  rw [(h.up halive).2 c] at hc
  cases hc

/-- The call that put the flag down adds a no-op. -/
theorem Ending.add {c : C} {i : Fin numThreads} {n : Option (Fin numThreads)} (h : Ending s) (hc : s.calls c = .adding i) :
    Ending ({ s with workQueue := s.workQueue.add .noOp n }.setCall c (addFrom numThreads (i + 1))) := by
  have hdead := h.late (c := c) (by rw [hc]; rfl)
  obtain ⟨d, hearly, hle⟩ := h.down hdead
  refine ⟨fun halive => absurd (hdead.symm.trans halive) Bool.false_ne_true, fun _ => ⟨d, ?_⟩⟩
  have hmore : (s.workQueue.add (Task.noOp : Task τ) n).tasks.length = s.workQueue.tasks.length + 1 := by simp
  show _ ∧ _ + waiting s ≤ (s.workQueue.add Task.noOp n).tasks.length + numThreads
  by_cases hd : d = c
  · subst hd
    rw [hc] at hle
    rw [setCall_self, addFrom_early, addFrom_added i.isLt, hmore]
    simp only [Call.added] at hle
    exact ⟨rfl, by omega⟩
  · rw [setCall_ne hd]
    refine ⟨hearly, ?_⟩
    show (s.calls d).added + waiting s ≤ _
    omega

theorem Ending.step {a : Act τ numThreads C} (h : Ending s) (hs : Step s a s') : Ending s' := by
  cases hs with
  | submit hn =>
    refine ⟨h.up, fun hdead => ?_⟩
    obtain ⟨c, hearly, hle⟩ := h.down hdead
    refine ⟨c, hearly, Nat.le_trans hle ?_⟩
    simp
  | hasWork | wake => exact ⟨h.up, h.down⟩
  | start hw | invoke hw | finish hw =>
    exact h.work (q := s.workQueue) (by simp) fun _ => by simp [hw, Worker.waits]
  | exit hw hdead => exact h.work (q := s.workQueue) (by simp [hdead]) fun _ => by simp [hw, Worker.waits]
  | goOn hw halive => exact h.work (by simp) fun hdead => by rw [halive] at hdead; cases hdead
  | @lock w hw ht =>
    refine h.work ?_ fun _ => ?_
    · cases s.workQueue.tasks <;> simp
    · rw [take_tasks]
      cases hq : s.workQueue.tasks <;> simp [hw, Worker.waits]
  | shutdown hc => exact h.early rfl (by rw [hc]; rfl)
  | readAlive hc => exact h.early rfl (by rw [hc]; rfl)
  | readDead hc hdead => exact .setCall hdead (h.down hdead) fun hlate => by rw [hc] at hlate; cases hlate
  | @write c n hc =>
    refine ⟨fun halive => absurd halive Bool.false_ne_true, fun _ => ⟨c, ?_, ?_⟩⟩
    · rw [setCall_self, addFrom_early]
    · have hle : waiting s ≤ numThreads := waiting_le
      rw [setCall_self, addFrom_added (Nat.zero_le _)]
      show 0 + waiting s ≤ s.workQueue.tasks.length + numThreads
      omega
  | add hc hn => exact h.add hc
  | join hc =>
    have hdead := h.late (c := _) (by rw [hc]; rfl)
    exact .setCall (s := { s with joinable := _ }) hdead (h.down hdead) fun _ => by
      simp only [hc]
      exact ⟨joinFrom_early, by rw [joinFrom_added]; exact Nat.le_refl _⟩
  | startJoin hc | joinFailed hc =>
    have hdead := h.late (c := _) (by rw [hc]; rfl)
    exact .setCall hdead (h.down hdead) fun _ => by rw [hc]; exact ⟨rfl, Nat.le_refl _⟩

theorem ending_of_run (hr : (machine τ numThreads C).Run tr s) : Ending s :=
  hr.invariant' (fun s h => by subst h; exact ⟨fun _ => ⟨fun _ => by simp, fun _ => rfl⟩, fun hdead => by cases hdead⟩)
    (fun _ _ _ hi h => hi.step (step_cases h))

/-- At rest a worker sleeps in `Take`, or has exited. -/
theorem AtRest.worker (h : AtRest s) (hr : (machine τ numThreads C).Run tr s) (w : Fin numThreads) :
    s.workers w = .taking ∧ s.workQueue.takers w = .asleep ∨ s.workers w = .exited ∧ s.isAlive = false := by
  have hconsume := consume_of_run hr w
  have hending := ending_of_run hr
  have hstep := h.1 w
  unfold work at hstep
  cases hw : s.workers w with
  | notStarted | took | running =>
    rw [hw] at hstep
    cases hstep
  | check =>
    have hout : s.workQueue.takers w = .out := by
      by_contra hne
      have := hconsume.2 hne
      rw [hw] at this
      cases this
    rw [hw] at hstep
    cases halive : s.isAlive <;> simp [halive, WorkQueue.step, hout] at hstep
  | taking =>
    refine .inl ⟨rfl, ?_⟩
    have hin := hconsume.1 hw
    rw [hw] at hstep
    cases ht : s.workQueue.takers w with
    | out => exact absurd ht hin
    | asleep => rfl
    | locking | woken => simp [WorkQueue.step, ht] at hstep
  | exited =>
    refine .inr ⟨rfl, ?_⟩
    by_contra halive
    rw [Bool.not_eq_false] at halive
    exact (hending.up halive).1 w hw

omit [DecidableEq C] in
/-- `notify_one` can always do something. -/
theorem exists_notifies (takers : Fin numThreads → Taker) : ∃ n, Notifies takers n := by
  by_cases h : ∃ w, takers w = .asleep
  · obtain ⟨w, hw⟩ := h
    exact ⟨some w, hw⟩
  · exact ⟨none, fun w hw => h ⟨w, hw⟩⟩

/-- At rest a call is over, or waits for a worker that has not exited or is not its
to join. -/
theorem AtRest.call (h : AtRest s) (c : C) : (s.calls c).over = true ∨
    ∃ w, s.calls c = .inJoin w ∧ (s.workers w = .exited → s.joinable w = false) := by
  have hstep := h.2 c
  unfold runCall at hstep
  cases hc : s.calls c with
  | idle | returned | failed => exact .inl rfl
  | read | write | joining =>
    rw [hc] at hstep
    cases hstep none
  | adding i =>
    obtain ⟨n, hn⟩ := exists_notifies s.workQueue.takers
    have := hstep n
    rw [hc] at this
    simp [WorkQueue.step, hn] at this
  | inJoin w =>
    refine .inr ⟨w, rfl, fun hw => ?_⟩
    have := hstep none
    rw [hc] at this
    cases hj : s.joinable w
    · rfl
    · simp [hj, hw] at this

/-- At rest the queue is empty while anybody sleeps. -/
theorem AtRest.tasks (h : AtRest s) (hr : (machine τ numThreads C).Run tr s) {w : Fin numThreads}
    (hw : s.workQueue.takers w = .asleep) : s.workQueue.tasks = [] := by
  have hle := attended_queue hr (count_pos.2 ⟨w, hw⟩)
  have hnone : s.workQueue.count .woken = 0 := by
    by_contra hpos
    obtain ⟨v, hv⟩ := count_pos.1 (Nat.pos_of_ne_zero hpos)
    rcases h.worker hr v with hk | hk
    · rw [hk.2] at hv
      cases hv
    · have := (consume_of_run hr v).2 (by rw [hv]; simp)
      rw [hk.1] at this
      cases this
  exact List.length_eq_zero_iff.1 (by omega)

/-- At rest no worker has a task in hand. -/
theorem AtRest.hands (h : AtRest s) (hr : (machine τ numThreads C).Run tr s) : hands s = 0 :=
  Finset.sum_eq_zero fun w _ => by rcases h.worker hr w with hk | hk <;> rw [hk.1] <;> rfl

/-- At rest all tasks that were taken have been executed. -/
theorem AtRest.executed (h : AtRest s) (hr : (machine τ numThreads C).Run tr s) :
    (log executed tr).Perm (log takenTask tr) := by
  have hhands := executed_add_hands hr
  rw [h.hands hr, add_zero] at hhands
  exact Multiset.coe_eq_coe.1 hhands

/-- At rest, and `Shutdown` not called, all workers sleep. -/
theorem AtRest.asleep (h : AtRest s) (hr : (machine τ numThreads C).Run tr s) (hidle : ∀ c, s.calls c = .idle)
    (w : Fin numThreads) : s.workQueue.takers w = .asleep := by
  rcases h.worker hr w with hw | hw
  · exact hw.2
  · obtain ⟨c, hearly, -⟩ := (ending_of_run hr).down hw.2
    rw [hidle c] at hearly
    cases hearly

omit [DecidableEq C] in
/-- A step is the pool's own, or is asked of it. -/
theorem length_eq (tr : Trace (State τ numThreads C) (Act τ numThreads C)) :
    tr.length = count moves tr + count submits tr + count wakes tr + count shuts tr + count asks tr := by
  induction tr with
  | nil => rfl
  | cons e tr ih =>
    obtain ⟨s, a⟩ := e
    have hstep : (if moves s a then 1 else 0) + (if submits s a then 1 else 0) + (if wakes s a then 1 else 0) +
        (if shuts s a then 1 else 0) + (if asks s a then 1 else 0) = 1 := by
      cases a <;> rfl
    simp only [count, List.countP_cons, List.length_cons] at ih ⊢
    omega

/-- **The pool comes to rest.** In every run the workers and the calls of
`Shutdown` take at most three steps for each worker, five for each task
submitted, one for each spurious wake-up, and so many for each call. When they
have none to take and `Shutdown` was not called, and there is a worker, the queue is
empty, every worker sleeps, and the tasks executed are those submitted, each once. -/
theorem run_settles [Fintype C] (hr : (machine τ numThreads C).Run tr s) :
    count moves tr ≤ 3 * numThreads + 5 * count submits tr + count wakes tr + (8 * numThreads + 2) * count shuts tr ∧
    (AtRest s → 0 < numThreads → (∀ c, s.calls c = .idle) →
      s.workQueue.tasks = [] ∧ (∀ w, s.workQueue.takers w = .asleep) ∧
      ((log executed tr).filterMap Task.user?).Perm (log submitted tr)) := by
  constructor
  · have hpaid := hr.length_le (μ := effort) (c := given) (Q := fun _ _ => True) (I := fun _ => True)
      (b := 3 * numThreads)
      (fun s h => by
        subst h
        simp [effort, laboured, Worker.effort, Call.effort, Nat.mul_comm]) (fun _ _ _ _ _ _ => trivial)
      (fun _ _ _ _ _ h => (step_cases h).effort) (fun _ _ => trivial)
    have htotal : total given tr = 6 * count submits tr + 2 * count wakes tr + (8 * numThreads + 3) * count shuts tr +
        1 * count asks tr := by
      rw [← total_ite, ← total_ite, ← total_ite, ← total_ite, ← total_add, ← total_add, ← total_add]
      rfl
    have hlength := length_eq tr
    have hone : (8 * numThreads + 3) * count shuts tr = (8 * numThreads + 2) * count shuts tr + count shuts tr :=
      Nat.succ_mul _ _
    omega
  · intro hrest hpos hidle
    have hempty := hrest.tasks hr (hrest.asleep hr hidle ⟨0, hpos⟩)
    refine ⟨hempty, hrest.asleep hr hidle, ?_⟩
    have htaken := taken_append hr
    rw [hempty, List.append_nil] at htaken
    rw [← users_added, ← htaken]
    exact (hrest.executed hr).filterMap _

/-- A call calls `join` on a worker only while no other is inside the join of it. -/
def JoinsApart (s : State τ numThreads C) : Act τ numThreads C → Prop
  | .run c _ => ∀ w, s.calls c = .joining w → ∀ d, s.calls d ≠ .inJoin w
  | .submit _ _ | .hasWork | .work _ | .wake _ | .shutdown _ => True

instance [Fintype C] (s : State τ numThreads C) (a : Act τ numThreads C) : Decidable (JoinsApart s a) :=
  match a with
  | .run c _ => inferInstanceAs (Decidable (∀ w, s.calls c = .joining w → ∀ d, s.calls d ≠ .inJoin w))
  | .submit _ _ | .hasWork | .work _ | .wake _ | .shutdown _ => .isTrue trivial

/-- A call inside the join of a worker is alone there, and the worker is its to join. -/
def JoinedApart (s : State τ numThreads C) : Prop :=
  ∀ c w, s.calls c = .inJoin w → s.joinable w = true ∧ ∀ d, s.calls d = .inJoin w → d = c

theorem joinFrom_ne {i : Nat} {w : Fin numThreads} : joinFrom numThreads i ≠ .inJoin w := by
  unfold joinFrom
  split <;> simp

theorem addFrom_ne {i : Nat} {w : Fin numThreads} : addFrom numThreads i ≠ .inJoin w := by
  unfold addFrom
  split
  · simp
  · exact joinFrom_ne

theorem JoinedApart.step {a : Act τ numThreads C} (h : JoinedApart s) (hok : JoinsApart s a) (hs : Step s a s') :
    JoinedApart s' := by
  -- a call goes on, and not into a join
  have hset : ∀ {s₁ : State τ numThreads C} {c k}, s₁.calls = s.calls → s₁.joinable = s.joinable → (∀ w, k ≠ .inJoin w) →
      JoinedApart (s₁.setCall c k) := by
    intro s₁ c k hcalls hj hk
    have hold : ∀ {d w}, (s₁.setCall c k).calls d = .inJoin w → s.calls d = .inJoin w := by
      intro d w hd
      by_cases hdc : d = c
      · subst hdc
        rw [setCall_self] at hd
        exact absurd hd (hk w)
      · rwa [setCall_ne hdc, hcalls] at hd
    intro d w hd
    obtain ⟨hw, hone⟩ := h d w (hold hd)
    exact ⟨(congrFun hj w).trans hw, fun e he => hone e (hold he)⟩
  cases hs with
  | shutdown | readAlive | readDead | joinFailed => exact hset rfl rfl (by simp)
  | write => exact hset rfl rfl fun _ => addFrom_ne
  | add => exact hset rfl rfl fun _ => addFrom_ne
  | @startJoin c w n hc hj =>
    have hnone := hok w hc
    intro d v hd
    by_cases hdc : d = c
    · subst hdc
      rw [setCall_self] at hd
      cases hd
      refine ⟨hj, fun e he => ?_⟩
      by_contra hne
      rw [setCall_ne hne] at he
      exact hnone e he
    · rw [setCall_ne hdc] at hd
      obtain ⟨hv, hone⟩ := h d v hd
      refine ⟨hv, fun e he => ?_⟩
      by_cases hec : e = c
      · subst hec
        rw [setCall_self] at he
        cases he
        exact absurd hd (hnone d)
      · rw [setCall_ne hec] at he
        exact hone e he
  | @join c w n hc hj hw =>
    have hold : ∀ {d v}, (({ s with joinable := Function.update s.joinable w false } : State τ numThreads C).setCall c
        (joinFrom numThreads (w + 1))).calls d = .inJoin v → d ≠ c ∧ s.calls d = .inJoin v := by
      intro d v hd
      by_cases hdc : d = c
      · subst hdc
        rw [setCall_self] at hd
        exact absurd hd joinFrom_ne
      · rw [setCall_ne hdc] at hd
        exact ⟨hdc, hd⟩
    intro d v hd
    obtain ⟨hdc, hd⟩ := hold hd
    obtain ⟨hv, hone⟩ := h d v hd
    have hvw : v ≠ w := by
      rintro rfl
      exact hdc (hone c hc).symm
    refine ⟨?_, fun e he => hone e (hold he).2⟩
    show Function.update s.joinable w false v = true
    rw [Function.update_of_ne hvw]
    exact hv
  | _ => exact h

theorem joinedApart_of_run (hr : (machine τ numThreads C).Run tr s) (hok : Along JoinsApart tr) : JoinedApart s :=
  hr.invariant (fun s h c w hc => by subst h; cases hc) (fun _ _ _ hi hok h => hi.step hok (step_cases h)) hok

/-- **Shutdown ends.** When workers and calls have no step to take and `Shutdown`
was called, by however many threads and in whatever overlap, every worker has
exited, and the tasks executed are the first ones added. A call that is not over is
inside the join of a worker that another has joined; there is none if no two are
ever inside one join. -/
theorem run_shutsDown (hr : (machine τ numThreads C).Run tr s) (hrest : AtRest s) (hcalled : ∃ c, s.calls c ≠ .idle) :
    (∀ w, s.workers w = .exited) ∧
    (∀ c, (s.calls c).over = true ∨ ∃ w, s.calls c = .inJoin w ∧ s.joinable w = false) ∧
    (Along JoinsApart tr → ∀ c, (s.calls c).over = true) ∧
    ∃ d, (log executed tr).Perm ((log addedTask tr).take d) := by
  have hending := ending_of_run hr
  have hdead : s.isAlive = false := by
    by_contra halive
    rw [Bool.not_eq_false] at halive
    obtain ⟨c, hc⟩ := hcalled
    have hearly := (hending.up halive).2 c
    rcases hrest.call c with hk | ⟨w, hk, -⟩
    · cases hcall : s.calls c <;> simp_all [Call.over, Call.early]
    · rw [hk] at hearly
      cases hearly
  obtain ⟨c, hearly, hle⟩ := hending.down hdead
  have hall : (s.calls c).added = numThreads := by
    rcases hrest.call c with hk | ⟨w, hk, -⟩
    · cases hcall : s.calls c <;> simp_all [Call.over, Call.early, Call.added]
    · rw [hk]
      rfl
  have hexited : ∀ w, s.workers w = .exited := by
    intro w
    rcases hrest.worker hr w with hw | hw
    · have hpos := waiting_pos.2 ⟨w, hw.1⟩
      have hempty := congrArg List.length (hrest.tasks hr hw.2)
      rw [List.length_nil] at hempty
      omega
    · exact hw.1
  have hover : ∀ d, (s.calls d).over = true ∨ ∃ w, s.calls d = .inJoin w ∧ s.joinable w = false := by
    intro d
    rcases hrest.call d with hk | ⟨w, hk, hj⟩
    · exact .inl hk
    · exact .inr ⟨w, hk, hj (hexited w)⟩
  refine ⟨hexited, hover, fun hapart d => ?_, (log takenTask tr).length, ?_⟩
  · rcases hover d with hk | ⟨w, hk, hj⟩
    · exact hk
    · have hown := (joinedApart_of_run hr hapart d w hk).1
      rw [hj] at hown
      cases hown
  · rw [← taken_append hr, List.take_left]
    exact hrest.executed hr

end

/-- Two workers and a task that neither of them waited for. -/
theorem run_settles_two : ∃ tr s, (machine Nat 2 Unit).Run tr s ∧ log submitted tr = [7] ∧ count moves tr = 10 ∧
    count moves tr ≤ 11 ∧ s.workQueue.tasks = [] ∧ ((log executed tr).filterMap Task.user?).Perm [7] := by
  have h := exists_run (m := machine Nat 2 Unit) (s := {})
    (l := [.submit 7 none, .work 0, .work 0, .work 0, .work 0, .work 0, .work 1, .work 1, .work 1, .work 0, .work 0])
    (p := fun tr s => decide (AtRest s ∧ s.calls () = .idle ∧ log submitted tr = [7] ∧ count moves tr = 10 ∧
      count submits tr = 1 ∧ count wakes tr = 0 ∧ count shuts tr = 0)) rfl (by decide +kernel)
  obtain ⟨tr, s, hr, hp⟩ := h
  simp only [decide_eq_true_eq] at hp
  obtain ⟨hrest, hidle, hsub, hmoves, hsubmits, hwakes, hshuts⟩ := hp
  obtain ⟨hle, hdone⟩ := run_settles hr
  obtain ⟨hempty, -, hperm⟩ := hdone hrest (by decide) fun _ => hidle
  rw [hsubmits, hwakes, hshuts] at hle
  exact ⟨tr, s, hr, hsub, hmoves, hle, hempty, hsub ▸ hperm⟩

/-- Both calls are inside the join of the worker when it exits. -/
def bothInJoin {C : Type} (c d : C) (w : Fin 1) : List (Act Nat 1 C) :=
  [.shutdown c, .shutdown d, .run c none, .run d none, .run c none, .run d none, .run c none, .run d none,
    .run c none, .run d none, .work w, .work w, .run c none]

/-- Two calls that both pass the guard: one joins the worker, and the other fails if it
comes after that, or stays in its join if it came before. -/
theorem run_shutsDown_both : (∃ tr s, (machine Nat 1 (Fin 2)).Run tr s ∧ s.calls 0 = .returned ∧ s.calls 1 = .failed ∧
      (∀ w, s.workers w = .exited) ∧ ∀ c, (s.calls c).over = true) ∧
    ∃ tr s, (machine Nat 1 (Fin 2)).Run tr s ∧ s.calls 0 = .returned ∧ s.calls 1 = .inJoin 0 ∧ ∀ w, s.workers w = .exited := by
  constructor
  · have h := exists_run (m := machine Nat 1 (Fin 2)) (s := {}) (l := bothJoin 0 1 0)
      (p := fun tr s => decide (AtRest s ∧ Along JoinsApart tr ∧ s.calls 0 = .returned ∧ s.calls 1 = .failed)) rfl
      (by decide +kernel)
    obtain ⟨tr, s, hr, hp⟩ := h
    simp only [decide_eq_true_eq] at hp
    obtain ⟨hrest, hapart, hret, hfailed⟩ := hp
    obtain ⟨hexited, -, hover, -⟩ := run_shutsDown hr hrest ⟨0, by rw [hret]; simp⟩
    exact ⟨tr, s, hr, hret, hfailed, hexited, hover hapart⟩
  · have h := exists_run (m := machine Nat 1 (Fin 2)) (s := {}) (l := bothInJoin 0 1 0)
      (p := fun _ s => decide (AtRest s ∧ s.calls 0 = .returned ∧ s.calls 1 = .inJoin 0)) rfl (by decide +kernel)
    obtain ⟨tr, s, hr, hp⟩ := h
    simp only [decide_eq_true_eq] at hp
    obtain ⟨hrest, hret, hin⟩ := hp
    exact ⟨tr, s, hr, hret, hin, (run_shutsDown hr hrest ⟨0, by rw [hret]; simp⟩).1⟩

end Dxpool.Workers
