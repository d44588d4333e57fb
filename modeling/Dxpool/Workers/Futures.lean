/-
`Submit<Callable, Result, Args...>` (src/WorkerPool.h): a closure that calls the
task and sets its result as the value of a promise, shared with the future that
the caller gets; and the end of the pool, which destroys the closures left in
the queue.

A closure is in one place at a time, so a promise is set once at most, by the
task it was made for (`run_fulfilled`); and no future stays pending: it has its
value when the pool comes to rest, and a value or a broken promise when the
pool is gone (`run_resolved`).
-/
import Dxpool.Workers.Rest

namespace Dxpool.Workers

open Machine

section
variable {τ C : Type} {numThreads : Nat}

/-- The tasks that the queue and the workers have. -/
def places (s : State τ numThreads C) : Multiset (Task τ) := (s.workQueue.tasks : Multiset (Task τ)) + hands s

variable [DecidableEq C] {s s' : State τ numThreads C}

/-- What a step takes from the queue and adds to it. -/
theorem Step.tasks {a : Act τ numThreads C} (hs : Step s a s') :
    (takenTask s a).toList ++ s'.workQueue.tasks = s.workQueue.tasks ++ (addedTask s a).toList := by
  cases hs with
  | submit | hasWork | wake | shutdown => simp [takenTask, addedTask, queueAct, taken, added, State.setCall]
  | start hw | exit hw | invoke hw | finish hw => simp_all [takenTask, addedTask, queueAct, State.setWorker]
  | goOn hw ha => simp [takenTask, addedTask, queueAct, hw, ha, taken, added, State.setWorker]
  | lock hw =>
    cases hq : s.workQueue.tasks <;> simp [takenTask, addedTask, queueAct, hw, taken, added, State.setWorker, hq]
  | add hc => simp [takenTask, addedTask, queueAct, hc, taken, added, State.setCall]
  | readAlive hc | readDead hc | write hc | startJoin hc | join hc | joinFailed hc =>
    simp [takenTask, addedTask, queueAct, hc, State.setCall]

/-- A task stays in its place until it is executed. -/
theorem Step.place {a : Act τ numThreads C} (hs : Step s a s') :
    ((executed s a).toList : Multiset (Task τ)) + places s' = places s + (addedTask s a).toList := by
  have htasks := congrArg (Multiset.ofList) hs.tasks
  rw [← Multiset.coe_add, ← Multiset.coe_add] at htasks
  have hhands := hs.hands
  calc ((executed s a).toList : Multiset (Task τ)) + (s'.workQueue.tasks + Workers.hands s')
      = s'.workQueue.tasks + ((executed s a).toList + Workers.hands s') := by ac_rfl
    _ = (takenTask s a).toList + s'.workQueue.tasks + Workers.hands s := by rw [hhands]; ac_rfl
    _ = s.workQueue.tasks + Workers.hands s + (addedTask s a).toList := by rw [htasks]; ac_rfl

end

namespace Futures

/-- What a promise and its future share. -/
inductive Shared (ρ : Type)
  | pending
  | value (res : ρ)
  | broken
  deriving DecidableEq, Repr

/-- What clients submit: a task, or a `threadTask` with its promise. -/
inductive Closure (τ : Type)
  | plain (task : τ)
  | threadTask (taskPromise : Nat) (task : τ)
  deriving DecidableEq, Repr

/-- The promise that a task in the queue has a copy of. -/
def promise? {τ : Type} : Task (Closure τ) → Option Nat
  | .user (.threadTask taskPromise _) => some taskPromise
  | .user (.plain _) | .noOp => none

/-- A pool, the promises made by `Submit` so far, and whether an exception has
left a worker's thread, or the pool is destroyed. -/
structure State (ρ τ : Type) (numThreads : Nat) where
  pool : Workers.State (Closure τ) numThreads Unit := {}
  promises : List (Shared ρ) := []
  terminated : Bool := false
  destroyed : Bool := false

/-- What can happen next. `outcome` is what a task returns that the step ends,
`none` if it throws. -/
inductive Act (ρ τ : Type) (numThreads : Nat)
  | submit (task : τ) (notified : Option (Fin numThreads))
  | submitFor (task : τ) (notified : Option (Fin numThreads))
  | hasWork
  | work (w : Fin numThreads) (outcome : Option ρ)
  | wake (w : Fin numThreads)
  | shutdown
  | run (notified : Option (Fin numThreads))
  | destroy
  deriving DecidableEq, Repr

section
variable {ρ τ : Type} {numThreads : Nat}

/-- The end of a task in a worker: the promises after it, or none if an
exception leaves the closure. A promise that has a value already throws
`std::future_error`. -/
def invoke (promises : List (Shared ρ)) (outcome : Option ρ) : Task (Closure τ) → Option (List (Shared ρ))
  | .noOp => some promises
  | .user (.plain _) => outcome.map fun _ => promises
  | .user (.threadTask taskPromise _) =>
    outcome.bind fun res =>
      match promises[taskPromise]? with
      | some .pending => some (promises.set taskPromise (.value res))
      | _ => none

/-- The last copy of a promise goes without a value. -/
def Shared.abandon : Shared ρ → Shared ρ
  | .pending => .broken
  | .value res => .value res
  | .broken => .broken

/-- The closures left in the queue are destroyed, and the promises with them:
the workers have exited, and have no copies. -/
def destroyTasks (tasks : List (Task (Closure τ))) (promises : List (Shared ρ)) : List (Shared ρ) :=
  (tasks.filterMap promise?).foldl (fun promises p => promises.modify p Shared.abandon) promises

/-- A step of the pool that makes and sets no promise. -/
def State.step (s : State ρ τ numThreads) (a : Workers.Act (Closure τ) numThreads Unit) : Option (State ρ τ numThreads) :=
  (Workers.step s.pool a).map fun pool => { s with pool }

def step (s : State ρ τ numThreads) (a : Act ρ τ numThreads) : Option (State ρ τ numThreads) :=
  if s.terminated || s.destroyed then none
  else
    match a with
    | .submit task notified => s.step (.submit (.plain task) notified)
    | .submitFor task notified =>
      (Workers.step s.pool (.submit (.threadTask s.promises.length task) notified)).map fun pool =>
        { s with pool, promises := s.promises ++ [.pending] }
    | .hasWork => s.step .hasWork
    | .work w outcome =>
      match executed s.pool (.work w) with
      | none => s.step (.work w)
      | some task =>
        match invoke s.promises outcome task with
        | none => some { s with terminated := true }
        | some promises => (Workers.step s.pool (.work w)).map fun pool => { s with pool, promises }
    | .wake w => s.step (.wake w)
    | .shutdown => s.step (.shutdown ())
    | .run notified => s.step (.run () notified)
    | .destroy =>
      if s.pool.calls () = .returned then
        some { s with destroyed := true, promises := destroyTasks s.pool.workQueue.tasks s.promises }
      else none

/-- A pool from when it is constructed, through its only `Shutdown`, to its end. -/
def machine (ρ τ : Type) (numThreads : Nat) : Machine (State ρ τ numThreads) (Act ρ τ numThreads) where
  init s := s = {}
  step := step

/-- The task for which a step makes a promise. -/
def submittedFor (_ : State ρ τ numThreads) : Act ρ τ numThreads → Option τ
  | .submitFor task _ => some task
  | _ => none

/-- A task for a promise that returns, the promise, and what it returns. -/
def returned (s : State ρ τ numThreads) : Act ρ τ numThreads → Option (Nat × τ × ρ)
  | .work w outcome =>
    match executed s.pool (.work w) with
    | some (.user (.threadTask taskPromise task)) => outcome.map fun res => (taskPromise, task, res)
    | _ => none
  | _ => none

/-- A task throws. -/
def throws (s : State ρ τ numThreads) : Act ρ τ numThreads → Bool
  | .work w outcome =>
    match executed s.pool (.work w) with
    | some (.user _) => outcome.isNone
    | _ => false
  | _ => false

end

/-! ## Steps -/

section
variable {ρ τ : Type} {numThreads : Nat}

/-- One step, by what it does to the promises. -/
inductive Step (s : State ρ τ numThreads) : Act ρ τ numThreads → State ρ τ numThreads → Prop
  | quiet {a b pool} : Workers.step s.pool b = some pool → (addedTask s.pool b).bind promise? = none →
      (executed s.pool b).bind promise? = none → submittedFor s a = none → returned s a = none → throws s a = false →
      Step s a { s with pool }
  | create {task n pool} : Workers.step s.pool (.submit (.threadTask s.promises.length task) n) = some pool →
      Step s (.submitFor task n) { s with pool, promises := s.promises ++ [.pending] }
  | fulfil {w p task res pool} : Workers.step s.pool (.work w) = some pool →
      executed s.pool (.work w) = some (.user (.threadTask p task)) → s.promises[p]? = some .pending →
      Step s (.work w (some res)) { s with pool, promises := s.promises.set p (.value res) }
  | throws {w task} : executed s.pool (.work w) = some (.user task) → Step s (.work w none) { s with terminated := true }
  | twice {w p task res} : executed s.pool (.work w) = some (.user (.threadTask p task)) → s.promises[p]? ≠ some .pending →
      Step s (.work w (some res)) { s with terminated := true }
  | destroy : s.pool.calls () = .returned → Step s .destroy
      { s with destroyed := true, promises := destroyTasks s.pool.workQueue.tasks s.promises }

theorem work_added (s : Workers.State (Closure τ) numThreads Unit) (w : Fin numThreads) : addedTask s (.work w) = none := by
  simp only [addedTask, queueAct]
  split
  · split <;> rfl
  · rfl
  · rfl

theorem step_cases {s s' : State ρ τ numThreads} {a : Act ρ τ numThreads} (h : step s a = some s') :
    s.destroyed = false ∧ s.terminated = false ∧ Step s a s' := by
  unfold step at h
  split at h
  · cases h
  rename_i hgo
  simp only [Bool.or_eq_true, not_or, Bool.not_eq_true] at hgo
  refine ⟨hgo.2, hgo.1, ?_⟩
  have hquiet : ∀ {b}, s.step b = some s' → (addedTask s.pool b).bind promise? = none →
      (executed s.pool b).bind promise? = none → submittedFor s a = none → returned s a = none → throws s a = false →
      Step s a s' := by
    intro b hb h₁ h₂ h₃ h₄ h₅
    simp only [State.step, Option.map_eq_some_iff] at hb
    obtain ⟨pool, hpool, rfl⟩ := hb
    exact .quiet hpool h₁ h₂ h₃ h₄ h₅
  cases a with
  | submit | hasWork | wake | shutdown => exact hquiet h rfl rfl rfl rfl rfl
  | run notified =>
    refine hquiet h ?_ rfl rfl rfl rfl
    simp only [addedTask, queueAct]
    split <;> rfl
  | submitFor task notified =>
    simp only [Option.map_eq_some_iff] at h
    obtain ⟨pool, hpool, rfl⟩ := h
    exact .create hpool
  | work w outcome =>
    have hadded : (addedTask s.pool (.work w)).bind promise? = none := by rw [work_added]; rfl
    simp only at h
    cases he : executed s.pool (.work w) with
    | none =>
      rw [he] at h
      exact hquiet h hadded (by rw [he]; rfl) rfl (by simp [returned, he]) (by simp [Futures.throws, he])
    | some task =>
      simp only [he] at h
      -- what the task was, and whether it returned
      rcases task with (x | ⟨p, x⟩) | _
      · cases outcome with
        | none => cases h; exact .throws he
        | some res => exact hquiet h hadded (by rw [he]; rfl) rfl (by simp [returned, he]) (by simp [Futures.throws, he])
      · cases outcome with
        | none => cases h; exact .throws he
        | some res =>
          simp only [invoke, Option.bind_some] at h
          split at h
          · rename_i hnone
            cases h
            refine .twice he fun hp => ?_
            rw [hp] at hnone
            cases hnone
          · rename_i promises hsome
            split at hsome
            · rename_i hp
              cases hsome
              simp only [Option.map_eq_some_iff] at h
              obtain ⟨pool, hpool, rfl⟩ := h
              exact .fulfil hpool he hp
            · cases hsome
      · refine hquiet h hadded (by rw [he]; rfl) rfl (by simp [returned, he]) (by simp [Futures.throws, he])
  | destroy =>
    simp only [Option.ite_none_right_eq_some, Option.some.injEq] at h
    obtain ⟨hret, rfl⟩ := h
    exact .destroy hret

/-! ## The end of the queue -/

theorem abandon_abandon (st : Shared ρ) : st.abandon.abandon = st.abandon := by cases st <;> rfl

/-- A promise in the queue is abandoned, however often. -/
theorem destroyTasks_getElem (tasks : List (Task (Closure τ))) (promises : List (Shared ρ)) (p : Nat) :
    (destroyTasks tasks promises)[p]? =
      if p ∈ tasks.filterMap promise? then promises[p]?.map Shared.abandon else promises[p]? := by
  unfold destroyTasks
  induction tasks.filterMap promise? generalizing promises with
  | nil => simp
  | cons q l ih =>
    rw [List.foldl_cons, ih, List.getElem?_modify]
    by_cases hq : q = p
    · subst hq
      by_cases hl : q ∈ l <;> simp [hl, Function.comp_def, abandon_abandon]
    · have hne : p ≠ q := fun h => hq h.symm
      simp [hq, hne]

theorem destroyTasks_length (tasks : List (Task (Closure τ))) (promises : List (Shared ρ)) :
    (destroyTasks tasks promises).length = promises.length := by
  unfold destroyTasks
  induction tasks.filterMap promise? generalizing promises with
  | nil => rfl
  | cons q l ih => rw [List.foldl_cons, ih, List.length_modify]

/-! ## One place at a time -/

/-- The promises whose closures the queue and the workers have. -/
def live (s : Workers.State (Closure τ) numThreads Unit) : Multiset Nat := (places s).filterMap promise?

/-- What holds of the promises all along a run. -/
structure Kept (tr : Trace (State ρ τ numThreads) (Act ρ τ numThreads)) (s : State ρ τ numThreads) : Prop where
  pool : ∃ tr', (Workers.machine (Closure τ) numThreads Unit).Run tr' s.pool
  length : s.promises.length = (log submittedFor tr).length
  /-- Until the pool is destroyed a pending promise has one closure, and the others
  have none. -/
  one : s.destroyed = false → (live s.pool).Nodup ∧ ∀ p, p ∈ live s.pool ↔ s.promises[p]? = some .pending
  /-- A closure has the task that its promise was made for. -/
  task : ∀ p x, .user (.threadTask p x) ∈ places s.pool → (log submittedFor tr)[p]? = some x
  value : ∀ p res, s.promises[p]? = some (.value res) ↔ ∃ x, (p, x, res) ∈ log returned tr
  made : ∀ p x res, (p, x, res) ∈ log returned tr → (log submittedFor tr)[p]? = some x
  once : ((log returned tr).map Prod.fst).Nodup
  broken : ∀ p, s.promises[p]? = some .broken ↔
    s.destroyed = true ∧ ∃ x, .user (.threadTask p x) ∈ s.pool.workQueue.tasks
  resolved : s.destroyed = true → ∀ p : Nat, s.promises[p]? ≠ some .pending
  thrown : s.terminated = true ↔ ∃ e ∈ tr, throws e.1 e.2 = true

theorem executed_mem {s : Workers.State (Closure τ) numThreads Unit} {w : Fin numThreads} {task : Task (Closure τ)}
    (h : executed s (.work w) = some task) : task ∈ places s := by
  have hw : s.workers w = .running task := by
    simp only [executed] at h
    split at h
    · cases h; assumption
    · cases h
  refine Multiset.mem_add.2 (.inr (Multiset.mem_sum.2 ⟨w, Finset.mem_univ w, ?_⟩))
  rw [hw]
  exact Multiset.mem_singleton_self task

theorem promise?_eq {task : Task (Closure τ)} {p : Nat} : promise? task = some p ↔ ∃ x, task = .user (.threadTask p x) := by
  rcases task with (x | ⟨q, x⟩) | _ <;> simp [promise?]

/-- A promise is that of some closure. -/
theorem exists_closure {P : Task (Closure τ) → Prop} {p : Nat} :
    (∃ task, P task ∧ promise? task = some p) ↔ ∃ x, P (.user (.threadTask p x)) := by
  simp only [promise?_eq]
  constructor
  · intro h
    obtain ⟨_, htask, x, rfl⟩ := h
    exact ⟨x, htask⟩
  · intro h
    obtain ⟨x, hx⟩ := h
    exact ⟨_, hx, x, rfl⟩

theorem filterMap_toList (o : Option (Task (Closure τ))) :
    (o.toList : Multiset (Task (Closure τ))).filterMap promise? = ((o.bind promise?).toList : Multiset Nat) := by
  cases o with
  | none => rfl
  | some task =>
    rw [Option.toList_some, Multiset.filterMap_coe, List.filterMap_cons, List.filterMap_nil, Option.bind_some]
    cases promise? task <;> rfl

/-- What a step of the pool does to the closures with promises. -/
theorem live_step {s s' : Workers.State (Closure τ) numThreads Unit} {b : Workers.Act (Closure τ) numThreads Unit}
    (hs : Workers.Step s b s') :
    (((executed s b).bind promise?).toList : Multiset Nat) + live s' = live s + ((addedTask s b).bind promise?).toList := by
  have h := congrArg (Multiset.filterMap promise?) hs.place
  rwa [Multiset.filterMap_add, Multiset.filterMap_add, filterMap_toList, filterMap_toList] at h

/-- A closure that a step leaves somewhere was there, or is the one it adds. -/
theorem mem_places_step {s s' : Workers.State (Closure τ) numThreads Unit} {b : Workers.Act (Closure τ) numThreads Unit}
    (hs : Workers.Step s b s') {task : Task (Closure τ)} (h : task ∈ places s') :
    task ∈ places s ∨ addedTask s b = some task := by
  have hmem : task ∈ ((executed s b).toList : Multiset (Task (Closure τ))) + places s' := Multiset.mem_add.2 (.inr h)
  rw [hs.place, Multiset.mem_add, Multiset.mem_coe, Option.mem_toList] at hmem
  exact hmem

/-- Where the workers have exited, the closures left are those in the queue. -/
theorem places_exited {s : Workers.State (Closure τ) numThreads Unit} (h : ∀ w, s.workers w = .exited) :
    places s = s.workQueue.tasks := by
  rw [places, show hands s = 0 by simp [hands, h, Worker.hand], add_zero]

section
variable {tr : Trace (State ρ τ numThreads) (Act ρ τ numThreads)} {s s' : State ρ τ numThreads} {a : Act ρ τ numThreads}

theorem Kept.not_broken (h : Kept tr s) (hdestroyed : s.destroyed = false) (p : Nat) : s.promises[p]? ≠ some .broken := by
  intro hp
  have hgone := ((h.broken p).1 hp).1
  rw [hdestroyed] at hgone
  cases hgone

/-- No task has thrown so far. -/
theorem Kept.throws_cons (h : Kept tr s) (hterminated : s.terminated = false) :
    (∃ e ∈ (s, a) :: tr, throws e.1 e.2 = true) ↔ throws s a = true := by
  have hnone := h.thrown.not.1 (by rw [hterminated]; simp)
  simp only [List.mem_cons, exists_eq_or_imp]
  exact or_iff_left hnone

/-- Nothing happens to a promise. -/
theorem Kept.quiet {b : Workers.Act (Closure τ) numThreads Unit} {pool : Workers.State (Closure τ) numThreads Unit}
    (h : Kept tr s) (hdestroyed : s.destroyed = false) (hterminated : s.terminated = false)
    (hs : Workers.step s.pool b = some pool) (hadded : (addedTask s.pool b).bind promise? = none)
    (hexec : (executed s.pool b).bind promise? = none) (hfor : submittedFor s a = none) (hret : returned s a = none)
    (hno : throws s a = false) : Kept ((s, a) :: tr) { s with pool } := by
  obtain ⟨tr', hpool⟩ := h.pool
  obtain ⟨hnodup, hlive⟩ := h.one hdestroyed
  have hsame : live pool = live s.pool := by
    have hstep := live_step (Workers.step_cases hs)
    rwa [hadded, hexec, Option.toList_none, Multiset.coe_nil, zero_add, add_zero] at hstep
  have htask : ∀ p x, .user (.threadTask p x) ∈ places pool → .user (.threadTask p x) ∈ places s.pool := by
    intro p x hx
    rcases mem_places_step (Workers.step_cases hs) hx with hx | hx
    · exact hx
    · rw [hx] at hadded
      cases hadded
  refine ⟨⟨_, hpool.step hs⟩, ?_, fun _ => ?_, fun p x hx => ?_, ?_, ?_, ?_, fun p => ?_, fun hd => ?_, ?_⟩
  · rw [log_none hfor]; exact h.length
  · rw [hsame]; exact ⟨hnodup, hlive⟩
  · rw [log_none hfor]; exact h.task p x (htask p x hx)
  · rw [log_none hret]; exact h.value
  · rw [log_none hret, log_none hfor]; exact h.made
  · rw [log_none hret]; exact h.once
  · exact iff_of_false (h.not_broken hdestroyed p) (by simp [hdestroyed])
  · simp [hdestroyed] at hd
  · rw [h.throws_cons hterminated, hno]; simp [hterminated]

/-- A promise is made, with its closure. -/
theorem Kept.create {task : τ} {n : Option (Fin numThreads)} {pool : Workers.State (Closure τ) numThreads Unit}
    (h : Kept tr s) (hdestroyed : s.destroyed = false) (hterminated : s.terminated = false)
    (hs : Workers.step s.pool (.submit (.threadTask s.promises.length task) n) = some pool) :
    Kept ((s, .submitFor task n) :: tr) { s with pool, promises := s.promises ++ [.pending] } := by
  obtain ⟨tr', hpool⟩ := h.pool
  obtain ⟨hnodup, hlive⟩ := h.one hdestroyed
  have hadd : live pool = s.promises.length ::ₘ live s.pool := by
    have hstep := live_step (Workers.step_cases hs)
    rw [← Multiset.singleton_add, add_comm]
    rwa [show executed s.pool (.submit _ _) = none from rfl, Option.bind_none, Option.toList_none, Multiset.coe_nil,
      zero_add] at hstep
  have hlen := h.length
  have hnew : ∀ st p, (s.promises ++ [Shared.pending])[p]? = some st ↔
      s.promises[p]? = some st ∨ p = s.promises.length ∧ st = .pending := by
    intro st p
    rw [List.getElem?_append]
    split
    · rename_i hp
      exact ⟨.inl, fun h => h.resolve_right fun h => absurd h.1 (Nat.ne_of_lt hp)⟩
    · rename_i hp
      rw [List.getElem?_eq_none (Nat.not_lt.1 hp)]
      by_cases heq : p = s.promises.length
      · subst heq; simp [eq_comm]
      · have hne : p - s.promises.length ≠ 0 := by omega
        simp [heq, hne]
  have hfor : log submittedFor ((s, .submitFor task n) :: tr) = log submittedFor tr ++ [task] := log_some rfl
  have hrun : (Workers.machine (Closure τ) numThreads Unit).Run
      ((s.pool, .submit (.threadTask s.promises.length task) n) :: tr') pool := hpool.step hs
  refine ⟨⟨_, hrun⟩, ?_, fun _ => ⟨?_, fun p => ?_⟩, fun p x hx => ?_, fun p res => ?_, fun p x res hmem => ?_,
    ?_, fun p => ?_, fun hd => ?_, ?_⟩
  · rw [hfor, List.length_append, List.length_append, hlen]; rfl
  · rw [hadd, Multiset.nodup_cons, hlive]
    exact ⟨by simp, hnodup⟩
  · rw [hadd, Multiset.mem_cons, hlive, hnew]
    tauto
  · rw [hfor]
    rcases mem_places_step (Workers.step_cases hs) hx with hx | hx
    · have hin := h.task p x hx
      rwa [List.getElem?_append_left (List.getElem?_eq_some_iff.1 hin).1]
    · cases hx
      rw [hlen, List.getElem?_append_right (Nat.le_refl _), Nat.sub_self]
      rfl
  · rw [hnew, log_none rfl, ← h.value]
    simp
  · rw [log_none rfl] at hmem
    have hin := h.made p x res hmem
    rwa [hfor, List.getElem?_append_left (List.getElem?_eq_some_iff.1 hin).1]
  · rw [log_none rfl]; exact h.once
  · refine iff_of_false (fun hp => ?_) (by simp [hdestroyed])
    rcases (hnew _ p).1 hp with hp | hp
    · exact h.not_broken hdestroyed p hp
    · cases hp.2
  · simp [hdestroyed] at hd
  · rw [h.throws_cons hterminated]; simp [hterminated, Futures.throws]

/-- A task returns: its promise was pending. -/
theorem Kept.fulfil {w : Fin numThreads} {p : Nat} {task : τ} {res : ρ} {pool : Workers.State (Closure τ) numThreads Unit}
    (h : Kept tr s) (hdestroyed : s.destroyed = false) (hterminated : s.terminated = false)
    (hs : Workers.step s.pool (.work w) = some pool)
    (he : executed s.pool (.work w) = some (.user (.threadTask p task))) (hp : s.promises[p]? = some .pending) :
    Kept ((s, .work w (some res)) :: tr) { s with pool, promises := s.promises.set p (.value res) } := by
  obtain ⟨tr', hpool⟩ := h.pool
  obtain ⟨hnodup, hlive⟩ := h.one hdestroyed
  have htake : live s.pool = p ::ₘ live pool := by
    have hstep := live_step (Workers.step_cases hs)
    rw [he, work_added] at hstep
    exact (hstep.trans (add_zero _)).symm
  rw [htake, Multiset.nodup_cons] at hnodup
  have hlt := (List.getElem?_eq_some_iff.1 hp).1
  have hrun : (Workers.machine (Closure τ) numThreads Unit).Run ((s.pool, .work w) :: tr') pool := hpool.step hs
  have hset : ∀ q st, (s.promises.set p (.value res))[q]? = some st ↔
      if q = p then st = .value res else s.promises[q]? = some st := by
    intro q st
    rw [List.getElem?_set]
    by_cases hq : p = q
    · subst hq; simp [hlt, eq_comm]
    · rw [if_neg hq, if_neg fun h => hq h.symm]
  have hret : log returned ((s, .work w (some res)) :: tr) = log returned tr ++ [(p, task, res)] :=
    log_some (by simp [returned, he])
  have hfirst : ∀ x r, (p, x, r) ∉ log returned tr := by
    intro x r hmem
    have hval := (h.value p r).2 ⟨x, hmem⟩
    rw [hp] at hval
    cases hval
  refine ⟨⟨_, hrun⟩, ?_, fun _ => ⟨hnodup.2, fun q => ?_⟩, fun q x hx => ?_, fun q r => ?_,
    fun q x r hmem => ?_, ?_, fun q => ?_, fun hd => ?_, ?_⟩
  · rw [log_none rfl, List.length_set]; exact h.length
  · have hq := hlive q
    rw [htake, Multiset.mem_cons] at hq
    rw [hset]
    by_cases hqp : q = p
    · subst hqp
      rw [if_pos rfl]
      exact iff_of_false hnodup.1 (by simp)
    · rw [if_neg hqp, ← hq, or_iff_right hqp]
  · rcases mem_places_step (Workers.step_cases hs) hx with hx | hx
    · rw [log_none rfl]; exact h.task q x hx
    · rw [work_added] at hx; cases hx
  · rw [hset, hret]
    simp only [List.mem_append, List.mem_singleton, Prod.mk.injEq]
    by_cases hqp : q = p
    · subst hqp
      rw [if_pos rfl]
      constructor
      · intro hr
        cases hr
        exact ⟨task, .inr ⟨rfl, rfl, rfl⟩⟩
      · intro hex
        obtain ⟨x, hmem | ⟨-, -, rfl⟩⟩ := hex
        · exact absurd hmem (hfirst x r)
        · rfl
    · simp [hqp, h.value]
  · rw [log_none rfl]
    rw [hret] at hmem
    simp only [List.mem_append, List.mem_singleton, Prod.mk.injEq] at hmem
    rcases hmem with hmem | ⟨rfl, rfl, -⟩
    · exact h.made q x r hmem
    · exact h.task q x (executed_mem he)
  · rw [hret, List.map_append, List.map_singleton]
    refine List.nodup_append.2 ⟨h.once, List.nodup_singleton _, ?_⟩
    intro q hq q' hq' heq
    simp only [List.mem_singleton] at hq'
    obtain ⟨e, hmem, rfl⟩ := List.mem_map.1 hq
    refine hfirst e.2.1 e.2.2 ?_
    rw [← hq', ← heq]
    exact hmem
  · refine iff_of_false (fun hq => ?_) (by simp [hdestroyed])
    rw [hset] at hq
    split at hq
    · cases hq
    · exact h.not_broken hdestroyed q hq
  · simp [hdestroyed] at hd
  · rw [h.throws_cons hterminated]; simp [hterminated, Futures.throws, he]

/-- A task throws. -/
theorem Kept.throw {w : Fin numThreads} {task : Closure τ} (h : Kept tr s) (hterminated : s.terminated = false)
    (he : executed s.pool (.work w) = some (.user task)) :
    Kept ((s, .work w none) :: tr) { s with terminated := true } := by
  have hret : returned s (.work w none) = none := by
    simp only [returned]
    split <;> rfl
  refine ⟨h.pool, ?_, h.one, ?_, ?_, ?_, ?_, h.broken, h.resolved, ?_⟩
  · rw [log_none rfl]; exact h.length
  · rw [log_none rfl]; exact h.task
  · rw [log_none hret]; exact h.value
  · rw [log_none hret, log_none rfl]; exact h.made
  · rw [log_none hret]; exact h.once
  · rw [h.throws_cons hterminated]; simp [Futures.throws, he]

/-- The queue goes with the pool: every worker has exited, so the closures are there. -/
theorem Kept.destroy (h : Kept tr s) (hdestroyed : s.destroyed = false) (hterminated : s.terminated = false)
    (hcall : s.pool.calls () = .returned) : Kept ((s, .destroy) :: tr)
      { s with destroyed := true, promises := destroyTasks s.pool.workQueue.tasks s.promises } := by
  obtain ⟨tr', hpool⟩ := h.pool
  obtain ⟨-, hlive⟩ := h.one hdestroyed
  have hplaces := places_exited (exited_of_returned hpool hcall)
  have hmem : ∀ p : Nat, p ∈ s.pool.workQueue.tasks.filterMap promise? ↔ s.promises[p]? = some .pending := by
    intro p
    rw [← hlive, live, hplaces, Multiset.filterMap_coe, Multiset.mem_coe]
  have hget : ∀ (p : Nat) st, (destroyTasks s.pool.workQueue.tasks s.promises)[p]? = some st ↔
      s.promises[p]? = some .pending ∧ st = .broken ∨ s.promises[p]? = some st ∧ st ≠ .pending := by
    intro p st
    rw [destroyTasks_getElem]
    by_cases hp : s.promises[p]? = some .pending
    · rw [if_pos ((hmem p).2 hp), hp]
      simp only [Option.map_some, Option.some.injEq, Shared.abandon, true_and, eq_comm]
      tauto
    · rw [if_neg fun h => hp ((hmem p).1 h)]
      simp only [hp, false_and, false_or]
      refine (and_iff_left_of_imp fun h hst => ?_).symm
      rw [hst] at h
      exact hp h
  have hret : returned s .destroy = none := rfl
  have hfor : submittedFor s .destroy = none := rfl
  refine ⟨⟨_, hpool⟩, ?_, fun hd => absurd hd (by simp), fun p x hx => ?_, fun p res => ?_, ?_, ?_, fun p => ?_,
    fun _ p => ?_, ?_⟩
  · rw [log_none hfor, ← h.length]
    exact destroyTasks_length _ _
  · rw [log_none hfor]; exact h.task p x hx
  · rw [hget, log_none hret, ← h.value]
    simp
  · rw [log_none hret, log_none hfor]; exact h.made
  · rw [log_none hret]; exact h.once
  · rw [hget, ← hmem]
    simp only [h.not_broken hdestroyed p, and_true, false_and, or_false, true_and, List.mem_filterMap]
    exact exists_closure
  · rw [Ne, hget]
    simp
  · rw [h.throws_cons hterminated]; simp [hterminated, Futures.throws]

theorem Kept.step (h : Kept tr s) (hdestroyed : s.destroyed = false) (hterminated : s.terminated = false)
    (hs : Step s a s') : Kept ((s, a) :: tr) s' := by
  cases hs with
  | quiet hs hadded hexec hfor hret hno => exact h.quiet hdestroyed hterminated hs hadded hexec hfor hret hno
  | create hs => exact h.create hdestroyed hterminated hs
  | fulfil hs he hp => exact h.fulfil hdestroyed hterminated hs he hp
  | throws he => exact h.throw hterminated he
  | @twice w p task res he hp =>
    refine absurd (((h.one hdestroyed).2 p).1 ?_) hp
    exact (Multiset.mem_filterMap _ _).2 ⟨_, executed_mem he, rfl⟩
  | destroy hcall => exact h.destroy hdestroyed hterminated hcall

end

theorem kept_of_run {tr : Trace (State ρ τ numThreads) (Act ρ τ numThreads)} {s : State ρ τ numThreads}
    (hr : (machine ρ τ numThreads).Run tr s) : Kept tr s :=
  hr.invariantT (I := Kept) (Q := fun _ _ => True)
    (fun s h => by
      subst h
      refine ⟨⟨_, .init rfl⟩, rfl, fun _ => ⟨?_, ?_⟩, ?_, ?_, ?_, ?_, ?_, ?_, ?_⟩ <;>
        simp [live, places, hands, Worker.hand])
    (fun _ _ _ _ _ _ hi _ h => hi.step (step_cases h).1 (step_cases h).2.1 (step_cases h).2.2) (fun _ _ => trivial)

/-! ## The futures -/

variable {tr : Trace (State ρ τ numThreads) (Act ρ τ numThreads)} {s : State ρ τ numThreads}

/-- **A future has the result of its task.** In every run: a promise has a value
if and only if the task it was made for has returned, that value and no other,
once; it is pending, until the pool is destroyed, as long as its closure is in
the queue or with a worker; and no exception leaves a worker's thread but one
that a task throws: `set_value` is never called on a promise that has a value. -/
theorem run_fulfilled (hr : (machine ρ τ numThreads).Run tr s) :
    (∀ p res, s.promises[p]? = some (.value res) ↔ ∃ task, (p, task, res) ∈ log returned tr) ∧
    (∀ p task res, (p, task, res) ∈ log returned tr → (log submittedFor tr)[p]? = some task) ∧
    ((log returned tr).map Prod.fst).Nodup ∧
    (s.destroyed = false → ∀ p, s.promises[p]? = some .pending ↔ ∃ task, .user (.threadTask p task) ∈ places s.pool) ∧
    (s.terminated = true ↔ ∃ e ∈ tr, throws e.1 e.2 = true) := by
  have h : Kept tr s := kept_of_run hr
  refine ⟨h.value, h.made, h.once, fun hd p => ?_, h.thrown⟩
  rw [← (h.one hd).2 p, live, Multiset.mem_filterMap]
  exact exists_closure

/-- **No future stays pending.** When a pool with workers is at rest and alive, every
future has its value. When it has been destroyed, every future has a value or a broken
promise, and broken are those whose closures were left in the queue. -/
theorem run_resolved (hr : (machine ρ τ numThreads).Run tr s) :
    (s.destroyed = false → AtRest s.pool → 0 < numThreads → s.pool.calls () = .idle →
      ∀ p < (log submittedFor tr).length, ∃ res, s.promises[p]? = some (.value res)) ∧
    (s.destroyed = true → ∀ p < (log submittedFor tr).length,
      (∃ res, s.promises[p]? = some (.value res)) ∨ s.promises[p]? = some .broken) ∧
    (s.destroyed = true → ∀ p, s.promises[p]? = some .broken ↔
      ∃ task, .user (.threadTask p task) ∈ s.pool.workQueue.tasks) := by
  have h : Kept tr s := kept_of_run hr
  have hsome : ∀ p < (log submittedFor tr).length, s.promises[p]? ≠ some .pending →
      (∃ res, s.promises[p]? = some (.value res)) ∨ s.promises[p]? = some .broken := by
    intro p hp hno
    rw [← h.length] at hp
    rw [List.getElem?_eq_getElem hp] at hno ⊢
    cases hst : s.promises[p] with
    | pending => rw [hst] at hno; exact absurd rfl hno
    | value res => exact .inl ⟨res, rfl⟩
    | broken => exact .inr rfl
  refine ⟨fun hd hrest hpos hidle p hp => ?_, fun hd p hp => hsome p hp (h.resolved hd p), fun hd p => ?_⟩
  · obtain ⟨tr', hpool⟩ := h.pool
    have hempty := hrest.tasks hpool (hrest.asleep hpool (fun _ => hidle) ⟨0, hpos⟩)
    have hnone : live s.pool = 0 := by rw [live, places, hempty, hrest.hands hpool]; rfl
    have hno : s.promises[p]? ≠ some .pending := by
      rw [Ne, ← (h.one hd).2 p, hnone]
      simp
    refine (hsome p hp hno).resolve_right fun hbroken => ?_
    have := ((h.broken p).1 hbroken).1
    rw [hd] at this
    cases this
  · rw [h.broken, hd]
    simp

end

/-- Two tasks with results on one worker: the first returns, the second throws. -/
theorem run_fulfilled_throw : ∃ tr s, (machine Nat Nat 1).Run tr s ∧ s.promises = [.value 42, .pending] ∧
    s.terminated = true ∧ (log submittedFor tr)[0]? = some 7 ∧ ∃ e ∈ tr, throws e.1 e.2 = true := by
  have h := exists_run (m := machine Nat Nat 1) (s := {})
    (l := [.submitFor 7 none, .submitFor 8 none, .work 0 none, .work 0 none, .work 0 none, .work 0 none,
      .work 0 (some 42), .work 0 none, .work 0 none, .work 0 none, .work 0 none])
    (p := fun tr s => decide (s.promises = [.value 42, .pending] ∧ s.terminated = true ∧ (0, 7, 42) ∈ log returned tr))
    rfl (by decide +kernel)
  obtain ⟨tr, s, hr, hp⟩ := h
  simp only [decide_eq_true_eq] at hp
  obtain ⟨hpromises, hterminated, hret⟩ := hp
  obtain ⟨-, hmade, -, -, hthrown⟩ := run_fulfilled hr
  exact ⟨tr, s, hr, hpromises, hterminated, hmade 0 7 42 hret, hthrown.1 hterminated⟩

/-- The only worker starts after the flag is down: the promise is broken. -/
theorem run_resolved_broken : ∃ tr s, (machine Nat Nat 1).Run tr s ∧ s.destroyed = true ∧ s.promises[0]? = some .broken ∧
    ∃ task, .user (.threadTask 0 task) ∈ s.pool.workQueue.tasks := by
  have h := exists_run (m := machine Nat Nat 1) (s := {})
    (l := [.submitFor 7 none, .shutdown, .run none, .run none, .run none, .run none, .work 0 none, .work 0 none, .run none,
      .destroy])
    (p := fun _ s => decide (s.destroyed = true ∧ s.promises[0]? = some .broken)) rfl (by decide +kernel)
  obtain ⟨tr, s, hr, hp⟩ := h
  simp only [decide_eq_true_eq] at hp
  exact ⟨tr, s, hr, hp.1, hp.2, ((run_resolved hr).2.2 hp.1 0).1 hp.2⟩

end Futures

end Dxpool.Workers
