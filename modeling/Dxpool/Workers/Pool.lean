/-
`WorkerPool` (src/WorkerPool.h): workers that take tasks from the queue while
the pool is alive, threads that submit tasks, and calls of `Shutdown`.

Each atomic access of `isAlive` and each critical section of the queue is one
step, and so is the end of a task; a join is two, the test that the thread is
joinable and the return. `Shutdown` is called by threads that are not workers; a
task can submit others. The workers are the queue's only consumers.
-/
import Dxpool.Workers.Queue

namespace Dxpool.Workers

open Machine

/-- A submitted task, or one of those that `Shutdown` submits. -/
inductive Task (τ : Type)
  | user (x : τ)
  | noOp
  deriving DecidableEq, Repr

/-- Where a worker stands in `startThread`. -/
inductive Worker (τ : Type)
  | notStarted
  /- `while(this->isAlive)` -/
  | check
  /- in `this->workQueue.Take()` -/
  | taking
  | took (task : Task τ)
  | running (task : Task τ)
  | exited
  deriving DecidableEq, Repr

/-- Where a call of `Shutdown` stands: between calls, at the read of `isAlive`,
its write, the next `Submit` of a no-op, the next join, or inside that. `failed`:
it called `join` on a thread that was joined before. -/
inductive Call (numThreads : Nat)
  | idle
  | read
  | write
  | adding (i : Fin numThreads)
  | joining (i : Fin numThreads)
  | inJoin (i : Fin numThreads)
  | returned
  | failed
  deriving DecidableEq, Repr

/-- The pool, its workers, and the calls of `Shutdown`, named by `C`. -/
structure State (τ : Type) (numThreads : Nat) (C : Type) where
  isAlive : Bool := true
  workQueue : WorkQueue (Task τ) (Fin numThreads) := {}
  joinable : Fin numThreads → Bool := fun _ => true
  workers : Fin numThreads → Worker τ := fun _ => .notStarted
  calls : C → Call numThreads := fun _ => .idle

/-- What can happen next: a thread submits a task or asks for `HasWork`; a
worker takes its next step, or wakes for no reason; a thread calls `Shutdown`,
or takes the next step of a call. `notified` is the worker that `notify_one`
wakes, where the step adds a task. -/
inductive Act (τ : Type) (numThreads : Nat) (C : Type)
  | submit (x : τ) (notified : Option (Fin numThreads))
  | hasWork
  | work (w : Fin numThreads)
  | wake (w : Fin numThreads)
  | shutdown (c : C)
  | run (c : C) (notified : Option (Fin numThreads))
  deriving DecidableEq, Repr

/-- The joining loop of `Shutdown` at `i`, or past its end. -/
def joinFrom (numThreads i : Nat) : Call numThreads := if h : i < numThreads then .joining ⟨i, h⟩ else .returned

/-- The adding loop of `Shutdown` at `i`, or past its end. -/
def addFrom (numThreads i : Nat) : Call numThreads := if h : i < numThreads then .adding ⟨i, h⟩ else joinFrom numThreads 0

section
variable {τ C : Type} {numThreads : Nat}

/-- The state with worker `w` elsewhere. -/
def State.setWorker (s : State τ numThreads C) (w : Fin numThreads) (worker : Worker τ) : State τ numThreads C :=
  { s with workers := Function.update s.workers w worker }

/-- `HasWork()` -/
def State.hasWork (s : State τ numThreads C) : Bool := !s.workQueue.tasks.isEmpty

variable [DecidableEq C]

/-- The state with call `c` elsewhere. -/
def State.setCall (s : State τ numThreads C) (c : C) (call : Call numThreads) : State τ numThreads C :=
  { s with calls := Function.update s.calls c call }

/-- The next step of a worker. -/
def work (s : State τ numThreads C) (w : Fin numThreads) : Option (State τ numThreads C) :=
  match s.workers w with
  | .notStarted => some (s.setWorker w .check)
  | .check =>
    if s.isAlive then
      (s.workQueue.step (.take w)).map fun workQueue => { s with workQueue }.setWorker w .taking
    else some (s.setWorker w .exited)
  | .taking =>
    (s.workQueue.step (.lock w)).map fun workQueue =>
      { s with workQueue }.setWorker w (s.workQueue.tasks.head?.elim .taking .took)
  | .took task => some (s.setWorker w (.running task))
  | .running _ => some (s.setWorker w .check)
  | .exited => none

/-- The next step of a call of `Shutdown`. -/
def runCall (s : State τ numThreads C) (c : C) (notified : Option (Fin numThreads)) : Option (State τ numThreads C) :=
  match s.calls c with
  | .idle | .returned | .failed => none
  | .read => some (s.setCall c (if s.isAlive then .write else .returned))
  | .write => some ({ s with isAlive := false }.setCall c (addFrom numThreads 0))
  | .adding i =>
    (s.workQueue.step (.add .noOp notified)).map fun workQueue =>
      { s with workQueue }.setCall c (addFrom numThreads (i + 1))
  | .joining w => some (s.setCall c (if s.joinable w then .inJoin w else .failed))
  /- Of two calls inside the join of one thread, one returns and the other stays. -/
  | .inJoin w =>
    match s.joinable w, s.workers w with
    | true, .exited =>
      some ({ s with joinable := Function.update s.joinable w false }.setCall c (joinFrom numThreads (w + 1)))
    | _, _ => none

def step (s : State τ numThreads C) : Act τ numThreads C → Option (State τ numThreads C)
  | .submit x notified => (s.workQueue.step (.add (.user x) notified)).map fun workQueue => { s with workQueue }
  | .hasWork => some s
  | .work w => work s w
  | .wake w => (s.workQueue.step (.wake w)).map fun workQueue => { s with workQueue }
  | .shutdown c => if s.calls c = .idle then some (s.setCall c .read) else none
  | .run c notified => runCall s c notified

/-- A worker pool from when it is constructed. -/
def machine (τ : Type) (numThreads : Nat) (C : Type) [DecidableEq C] :
    Machine (State τ numThreads C) (Act τ numThreads C) where
  init s := s = {}
  step := step

/-! ## Steps -/

/-- One step of the machine, by case. -/
inductive Step (s : State τ numThreads C) : Act τ numThreads C → State τ numThreads C → Prop
  | submit {x n} : Notifies s.workQueue.takers n →
      Step s (.submit x n) { s with workQueue := s.workQueue.add (.user x) n }
  | hasWork : Step s .hasWork s
  | wake {w} : s.workQueue.takers w = .asleep → Step s (.wake w) { s with workQueue := s.workQueue.set w .woken }
  | start {w} : s.workers w = .notStarted → Step s (.work w) (s.setWorker w .check)
  | goOn {w} : s.workers w = .check → s.isAlive = true → s.workQueue.takers w = .out →
      Step s (.work w) ({ s with workQueue := s.workQueue.set w .locking }.setWorker w .taking)
  | exit {w} : s.workers w = .check → s.isAlive = false → Step s (.work w) (s.setWorker w .exited)
  | lock {w} : s.workers w = .taking → s.workQueue.takers w = .locking ∨ s.workQueue.takers w = .woken →
      Step s (.work w) ({ s with workQueue := s.workQueue.take w }.setWorker w
        (s.workQueue.tasks.head?.elim .taking .took))
  | invoke {w task} : s.workers w = .took task → Step s (.work w) (s.setWorker w (.running task))
  | finish {w task} : s.workers w = .running task → Step s (.work w) (s.setWorker w .check)
  | shutdown {c} : s.calls c = .idle → Step s (.shutdown c) (s.setCall c .read)
  | readAlive {c n} : s.calls c = .read → s.isAlive = true → Step s (.run c n) (s.setCall c .write)
  | readDead {c n} : s.calls c = .read → s.isAlive = false → Step s (.run c n) (s.setCall c .returned)
  | write {c n} : s.calls c = .write → Step s (.run c n) ({ s with isAlive := false }.setCall c (addFrom numThreads 0))
  | add {c i n} : s.calls c = .adding i → Notifies s.workQueue.takers n → Step s (.run c n)
      ({ s with workQueue := s.workQueue.add .noOp n }.setCall c (addFrom numThreads (i + 1)))
  | startJoin {c w n} : s.calls c = .joining w → s.joinable w = true → Step s (.run c n) (s.setCall c (.inJoin w))
  | join {c w n} : s.calls c = .inJoin w → s.joinable w = true → s.workers w = .exited → Step s (.run c n)
      ({ s with joinable := Function.update s.joinable w false }.setCall c (joinFrom numThreads (w + 1)))
  | joinFailed {c w n} : s.calls c = .joining w → s.joinable w = false → Step s (.run c n) (s.setCall c .failed)

theorem step_cases {s s' : State τ numThreads C} {a : Act τ numThreads C} (h : step s a = some s') : Step s a s' := by
  cases a with
  | submit x n =>
    simp only [step, WorkQueue.step, Option.map_eq_some_iff, Option.ite_none_right_eq_some, Option.some.injEq] at h
    obtain ⟨_, ⟨hn, rfl⟩, rfl⟩ := h
    exact .submit hn
  | hasWork => cases h; exact .hasWork
  | work w =>
    simp only [step, work] at h
    split at h
    · cases h; exact .start ‹_›
    · split at h
      · simp only [WorkQueue.step, Option.map_eq_some_iff, Option.ite_none_right_eq_some, Option.some.injEq] at h
        obtain ⟨_, ⟨hw, rfl⟩, rfl⟩ := h
        exact .goOn ‹_› ‹_› hw
      · cases h; exact .exit ‹_› (Bool.eq_false_iff.2 ‹_›)
    · simp only [WorkQueue.step, Option.map_eq_some_iff, Option.ite_none_right_eq_some, Option.some.injEq] at h
      obtain ⟨_, ⟨hw, rfl⟩, rfl⟩ := h
      exact .lock ‹_› hw
    · cases h; exact .invoke ‹_›
    · cases h; exact .finish ‹_›
    · cases h
  | wake w =>
    simp only [step, WorkQueue.step, Option.map_eq_some_iff, Option.ite_none_right_eq_some, Option.some.injEq] at h
    obtain ⟨_, ⟨hw, rfl⟩, rfl⟩ := h
    exact .wake hw
  | shutdown c =>
    simp only [step, Option.ite_none_right_eq_some, Option.some.injEq] at h
    obtain ⟨hc, rfl⟩ := h
    exact .shutdown hc
  | run c n =>
    simp only [step, runCall] at h
    split at h
    · cases h
    · cases h
    · cases h
    · cases h
      split
      · exact .readAlive ‹_› ‹_›
      · exact .readDead ‹_› (Bool.eq_false_iff.2 ‹_›)
    · cases h; exact .write ‹_›
    · simp only [WorkQueue.step, Option.map_eq_some_iff, Option.ite_none_right_eq_some, Option.some.injEq] at h
      obtain ⟨_, ⟨hn, rfl⟩, rfl⟩ := h
      exact .add ‹_› hn
    · cases h
      split
      · exact .startJoin ‹_› ‹_›
      · exact .joinFailed ‹_› (Bool.eq_false_iff.2 ‹_›)
    · split at h <;> cases h
      exact .join ‹_› ‹_› ‹_›

omit [DecidableEq C] in
@[simp] theorem setWorker_self (s : State τ numThreads C) (w : Fin numThreads) (k : Worker τ) :
    (s.setWorker w k).workers w = k := by simp [State.setWorker]

omit [DecidableEq C] in
theorem setWorker_ne {s : State τ numThreads C} {w v : Fin numThreads} {k : Worker τ} (h : v ≠ w) :
    (s.setWorker w k).workers v = s.workers v := by simp [State.setWorker, h]

@[simp] theorem setCall_self (s : State τ numThreads C) (c : C) (k : Call numThreads) : (s.setCall c k).calls c = k := by
  simp [State.setCall]

theorem setCall_ne {s : State τ numThreads C} {c d : C} {k : Call numThreads} (h : d ≠ c) :
    (s.setCall c k).calls d = s.calls d := by simp [State.setCall, h]

/-! ## The queue of the pool -/

omit [DecidableEq C] in
/-- The part that the queue has in a step. -/
def queueAct (s : State τ numThreads C) : Act τ numThreads C → Option (QueueAct (Task τ) (Fin numThreads))
  | .submit x notified => some (.add (.user x) notified)
  | .wake w => some (.wake w)
  | .work w =>
    match s.workers w with
    | .check => if s.isAlive then some (.take w) else none
    | .taking => some (.lock w)
    | _ => none
  | .run c notified =>
    match s.calls c with
    | .adding _ => some (.add .noOp notified)
    | _ => none
  | .hasWork | .shutdown _ => none

/-- The queue of the pool is a `WorkQueue` with its workers for consumers. -/
theorem queue_of_run {tr : Trace (State τ numThreads C) (Act τ numThreads C)} {s : State τ numThreads C}
    (hr : (machine τ numThreads C).Run tr s) :
    (queueMachine (Task τ) (Fin numThreads)).Run (project State.workQueue queueAct tr) s.workQueue := by
  refine hr.project (fun s h => ?_) fun s a s' h => ?_
  · rw [show s = {} from h]
    exact ⟨rfl, fun _ => rfl⟩
  · cases step_cases h with
    | submit hn => simp [queueAct, queueMachine, WorkQueue.step, hn]
    | add hc hn => simp [queueAct, queueMachine, WorkQueue.step, hc, hn, State.setCall]
    | wake hw => simp [queueAct, queueMachine, WorkQueue.step, hw]
    | goOn hw ha ht => simp [queueAct, queueMachine, WorkQueue.step, hw, ha, ht, State.setWorker]
    | lock hw ht => simp [queueAct, queueMachine, WorkQueue.step, hw, ht, State.setWorker]
    | hasWork | shutdown => rfl
    | exit hw ha => simp [queueAct, hw, ha, State.setWorker]
    | start hw | invoke hw | finish hw => simp [queueAct, hw, State.setWorker]
    | readAlive hc | readDead hc | write hc | startJoin hc | join hc | joinFailed hc => simp [queueAct, hc, State.setCall]

end

end Dxpool.Workers
