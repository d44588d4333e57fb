/-
`WorkQueue` (src/WorkQueue.h): a queue of tasks under a mutex, and consumers
that sleep on its condition variable while it is empty.

A critical section is one step. `notify_one` wakes a sleeper if there is one,
any of them; a sleeper can also wake for no reason. A consumer that was woken
takes the mutex again and looks again.
-/
import Dxpool.Machine
import Dxpool.Tally

namespace Dxpool.Workers

open Machine

/-- Where a consumer stands: in no `Take`, before the critical section of one,
asleep in `wait`, or woken and about to lock the mutex again. -/
inductive Taker
  | out
  | locking
  | asleep
  | woken
  deriving DecidableEq, Repr

structure WorkQueue (Task C : Type) where
  tasks : List Task := []
  takers : C → Taker := fun _ => .out

/-- What can happen next: `Add`, whose `notify_one` wakes the consumer given;
a call of `Take`; its critical section, up to where it returns or sleeps; a
spurious wake-up. -/
inductive QueueAct (Task C : Type)
  | add (task : Task) (notified : Option C)
  | take (c : C)
  | lock (c : C)
  | wake (c : C)
  deriving DecidableEq, Repr

/-- What `notify_one` can do: it wakes a sleeper, and none only if there is none. -/
def Notifies {C : Type} (takers : C → Taker) : Option C → Prop
  | some c => takers c = .asleep
  | none => ∀ c, takers c ≠ .asleep

instance {C : Type} [Fintype C] (takers : C → Taker) (notified : Option C) : Decidable (Notifies takers notified) :=
  match notified with
  | some c => inferInstanceAs (Decidable (takers c = .asleep))
  | none => inferInstanceAs (Decidable (∀ c, takers c ≠ .asleep))

section
variable {Task C : Type} [DecidableEq C]

/-- The queue with consumer `c` elsewhere. -/
def WorkQueue.set (q : WorkQueue Task C) (c : C) (taker : Taker) : WorkQueue Task C :=
  { q with takers := Function.update q.takers c taker }

/-- `Add(task)` -/
def WorkQueue.add (q : WorkQueue Task C) (task : Task) (notified : Option C) : WorkQueue Task C :=
  let q := { q with tasks := q.tasks ++ [task] }
  match notified with
  | none => q
  | some c => q.set c .woken

/-- The critical section of `Take()`: its consumer sleeps, or returns the front. -/
def WorkQueue.take (q : WorkQueue Task C) (c : C) : WorkQueue Task C :=
  match q.tasks with
  | [] => q.set c .asleep
  | _ :: rest => { q with tasks := rest }.set c .out

variable [Fintype C]

def WorkQueue.step (q : WorkQueue Task C) : QueueAct Task C → Option (WorkQueue Task C)
  | .add task notified => if Notifies q.takers notified then some (q.add task notified) else none
  | .take c => if q.takers c = .out then some (q.set c .locking) else none
  | .lock c => if q.takers c = .locking ∨ q.takers c = .woken then some (q.take c) else none
  | .wake c => if q.takers c = .asleep then some (q.set c .woken) else none

/-- A queue, its consumers, and producers without number. -/
def queueMachine (Task C : Type) [DecidableEq C] [Fintype C] : Machine (WorkQueue Task C) (QueueAct Task C) where
  init q := q.tasks = [] ∧ ∀ c, q.takers c = .out
  step := WorkQueue.step

/-- The task that a step adds. -/
def added (_ : WorkQueue Task C) : QueueAct Task C → Option Task
  | .add task _ => some task
  | .take _ | .lock _ | .wake _ => none

/-- The task that a step takes. -/
def taken (q : WorkQueue Task C) : QueueAct Task C → Option Task
  | .lock _ => q.tasks.head?
  | .add _ _ | .take _ | .wake _ => none

/-- The number of consumers that stand at `taker`. -/
def WorkQueue.count (q : WorkQueue Task C) (taker : Taker) : Nat := ∑ c, if q.takers c = taker then 1 else 0

end

/-! ## First in, first out -/

section
variable {Task C : Type} [DecidableEq C]

@[simp] theorem set_tasks (q : WorkQueue Task C) (c : C) (k : Taker) : (q.set c k).tasks = q.tasks := rfl

@[simp] theorem add_tasks (q : WorkQueue Task C) (task : Task) (notified : Option C) :
    (q.add task notified).tasks = q.tasks ++ [task] := by
  cases notified <;> rfl

@[simp] theorem take_tasks (q : WorkQueue Task C) (c : C) : (q.take c).tasks = q.tasks.tail := by
  unfold WorkQueue.take
  split <;> simp_all

variable [Fintype C] {q : WorkQueue Task C} {tr : Trace (WorkQueue Task C) (QueueAct Task C)}

/-- What was taken, and then what is left, is what was added. -/
theorem fifo_of_run (hr : (queueMachine Task C).Run tr q) : log taken tr ++ q.tasks = log added tr := by
  induction hr with
  | init h => simpa using h.1
  | @step tr q a q' hr hs ih =>
    cases a with
    | add task notified =>
      simp only [queueMachine, WorkQueue.step, Option.ite_none_right_eq_some, Option.some.injEq] at hs
      obtain ⟨-, rfl⟩ := hs
      rw [log_none rfl, log_some (b := task) rfl, add_tasks, ← ih, List.append_assoc]
    | lock c =>
      simp only [queueMachine, WorkQueue.step, Option.ite_none_right_eq_some, Option.some.injEq] at hs
      obtain ⟨-, rfl⟩ := hs
      rw [log_none (f := added) rfl, ← ih, take_tasks]
      cases hq : q.tasks with
      | nil => rw [log_none (f := taken) (by rw [taken, hq]; rfl)]; rfl
      | cons task rest =>
        rw [log_some (f := taken) (b := task) (by rw [taken, hq]; rfl), List.append_assoc]
        rfl
    | take c | wake c =>
      simp only [queueMachine, WorkQueue.step, Option.ite_none_right_eq_some, Option.some.injEq] at hs
      obtain ⟨-, rfl⟩ := hs
      rw [log_none rfl, log_none rfl]
      exact ih

end

/-! ## Sleepers -/

section
variable {Task C : Type} [Fintype C] {q q' : WorkQueue Task C}

@[simp] theorem count_tasks (q : WorkQueue Task C) (tasks : List Task) (k : Taker) :
    ({ q with tasks } : WorkQueue Task C).count k = q.count k := rfl

theorem count_pos {k : Taker} : 0 < q.count k ↔ ∃ c, q.takers c = k := by
  constructor
  · intro h
    obtain ⟨c, hc⟩ := Tally.exists_of_sum_pos q.takers (fun taker => if taker = k then 1 else 0) h
    exact ⟨c, by by_contra hn; simp [hn] at hc⟩
  · rintro ⟨c, hc⟩
    have := Tally.le_sum q.takers (fun taker => if taker = k then 1 else 0) c
    simp only [hc, if_true] at this
    exact this

variable [DecidableEq C]

theorem count_set (q : WorkQueue Task C) (c : C) (k j : Taker) :
    (q.set c k).count j + (if q.takers c = j then 1 else 0) = q.count j + if k = j then 1 else 0 :=
  Tally.sum_update q.takers (fun taker => if taker = j then 1 else 0) c k

/-- While anybody sleeps, every task in the queue has a consumer that was woken. -/
def Attended (q : WorkQueue Task C) : Prop := 0 < q.count .asleep → q.tasks.length ≤ q.count .woken

theorem Attended.step {a : QueueAct Task C} (h : Attended q) (hs : q.step a = some q') : Attended q' := by
  cases a with
  | add task notified =>
    simp only [WorkQueue.step, Option.ite_none_right_eq_some, Option.some.injEq] at hs
    obtain ⟨hn, rfl⟩ := hs
    intro hasleep
    rw [add_tasks, List.length_append, List.length_singleton]
    cases notified with
    | none =>
      obtain ⟨c, hc⟩ := count_pos.1 hasleep
      exact absurd hc (hn c)
    | some c =>
      have hc : q.takers c = .asleep := hn
      have := h (count_pos.2 ⟨c, hc⟩)
      have hw := count_set { q with tasks := q.tasks ++ [task] } c .woken .woken
      simp only [hc, reduceCtorEq, if_false, if_true, count_tasks] at hw
      rw [WorkQueue.add]
      omega
  | take c =>
    simp only [WorkQueue.step, Option.ite_none_right_eq_some, Option.some.injEq] at hs
    obtain ⟨hc, rfl⟩ := hs
    have ha := count_set q c .locking .asleep
    have hw := count_set q c .locking .woken
    simp only [hc, reduceCtorEq, if_false] at ha hw
    intro hasleep
    have := h (by omega)
    rw [set_tasks]
    omega
  | lock c =>
    simp only [WorkQueue.step, Option.ite_none_right_eq_some, Option.some.injEq] at hs
    obtain ⟨hc, rfl⟩ := hs
    intro hasleep
    cases hq : q.tasks with
    | nil => simp [take_tasks, hq]
    | cons task rest =>
      have htake : q.take c = { q with tasks := rest }.set c .out := by rw [WorkQueue.take, hq]
      have ha := count_set { q with tasks := rest } c .out .asleep
      have hw := count_set { q with tasks := rest } c .out .woken
      rw [htake] at hasleep ⊢
      rw [set_tasks]
      show rest.length ≤ _
      simp only [reduceCtorEq, if_false, count_tasks] at ha hw
      have hlen := congrArg List.length hq
      rw [List.length_cons] at hlen
      rcases hc with hc | hc <;> simp only [hc, reduceCtorEq, if_false, if_true] at ha hw
      · have := h (by omega); omega
      · have := h (by omega); omega
  | wake c =>
    simp only [WorkQueue.step, Option.ite_none_right_eq_some, Option.some.injEq] at hs
    obtain ⟨hc, rfl⟩ := hs
    have ha := count_set q c .woken .asleep
    have hw := count_set q c .woken .woken
    simp only [hc, reduceCtorEq, if_false, if_true] at ha hw
    intro hasleep
    have := h (by omega)
    rw [set_tasks]
    omega

theorem attended_of_run {tr : Trace (WorkQueue Task C) (QueueAct Task C)} (hr : (queueMachine Task C).Run tr q) :
    Attended q :=
  hr.invariant' (fun q h hasleep => by obtain ⟨c, hc⟩ := count_pos.1 hasleep; rw [h.2 c] at hc; cases hc)
    (fun _ _ _ hi h => hi.step h)

/-- **No lost wake-up.** While some consumer is asleep, at least as many have
been woken and are yet to lock the mutex as there are tasks; so a task is
never left with all that could take it asleep. -/
theorem run_attended {tr : Trace (WorkQueue Task C) (QueueAct Task C)} (hr : (queueMachine Task C).Run tr q)
    (hasleep : ∃ c, q.takers c = .asleep) :
    q.tasks.length ≤ q.count .woken ∧
    ¬(q.tasks ≠ [] ∧ ∀ c, q.takers c ≠ .out → q.takers c = .asleep) := by
  have hle := attended_of_run hr (count_pos.2 hasleep)
  refine ⟨hle, fun ⟨htasks, hall⟩ => ?_⟩
  have hpos := List.length_pos_iff.2 htasks
  obtain ⟨c, hc⟩ := count_pos.1 (show 0 < q.count .woken by omega)
  have := hall c (by rw [hc]; simp)
  rw [hc] at this
  cases this

end

/-- Two consumers asleep, a task for one of them, and a third that takes the
task before it. -/
theorem run_attended_three : ∃ tr q, (queueMachine Nat (Fin 3)).Run tr q ∧ q.takers 0 = .woken ∧ q.takers 1 = .asleep ∧
    log taken tr = [7] ∧ q.tasks.length ≤ q.count .woken := by
  have h := exists_run (m := queueMachine Nat (Fin 3)) (s := {})
    (l := [.take 0, .take 1, .lock 0, .lock 1, .add 7 (some 0), .take 2, .lock 2])
    (p := fun tr q => decide (q.takers 0 = .woken ∧ q.takers 1 = .asleep ∧ log taken tr = [7]))
    ⟨rfl, fun _ => rfl⟩ (by decide +kernel)
  obtain ⟨tr, q, hr, hp⟩ := h
  simp only [decide_eq_true_eq] at hp
  obtain ⟨hwoken, hasleep, htaken⟩ := hp
  exact ⟨tr, q, hr, hwoken, hasleep, htaken, (run_attended hr ⟨1, hasleep⟩).1⟩

end Dxpool.Workers
