/-
The C memory pool is lock-free. A compare-and-swap of `pool_mem_acquire` or
`pool_mem_return` that does not fail spuriously fails because another one
changed the head in between, and that one ends its loop. So each call can make
every other thread go round its loop once more, and no interleaving keeps the
threads busy without calls being answered (`run_lockFree`).
-/
import Dxpool.Simple.Ownership
import Dxpool.Cost

namespace Dxpool.Simple

open Machine

/-- What a call at its next atomic operation has to do yet, where `k` pays for
the other threads that its compare-and-swap delays: more if the head it read is
the head no longer. -/
def Pc.effort (k : Nat) (h : Heap) : Pc → Nat
  | .idle | .crashed => 0
  | .acquireLoadHead _ | .returnLoadHead _ _ => k + 3
  | .acquireLoadNext p a | .returnStoreNext _ p a => if h.headOf p = a then k + 2 else k + 5
  | .acquireCas p a _ | .returnCas _ p a => if h.headOf p = a then k + 1 else k + 4
  | .acquireAlloc _ => 2
  | .acquireTrack _ _ | .acquireTrackAlloc _ _ | .returnTrack _ => 1

section
variable {T : Type}

/-- A step that calls a function. -/
def starts (_ : State T) : Act T → Bool
  | .run _ _ _ => false
  | .acquire _ _ | .multiAcquire _ _ | .ret _ _ => true

/-- An atomic operation whose compare-and-swap fails spuriously. -/
def spurious (_ : State T) : Act T → Bool
  | .run _ sp _ => sp
  | .acquire _ _ | .multiAcquire _ _ | .ret _ _ => false

/-- An atomic operation of a call. -/
def moves (s : State T) : Act T → Bool
  | .run t _ _ => (s.threads t).pc != .crashed
  | .acquire _ _ | .multiAcquire _ _ | .ret _ _ => false

/-- The last atomic operation of a call. -/
def answers (s : State T) : Act T → Bool
  | .run t sp ms => (s.threads t).pc != .crashed && (advance s.heap sp ms (s.threads t).pc).2.1 == .idle
  | .acquire _ _ | .multiAcquire _ _ | .ret _ _ => false

/-- A step of a thread that has no more to do. -/
def stays (s : State T) : Act T → Bool
  | .run t _ _ => (s.threads t).pc == .crashed
  | .acquire _ _ | .multiAcquire _ _ | .ret _ _ => false

end

/-! ## Effort -/

section
variable {h h' : Heap} {k : Nat} {pc pc' : Pc}

@[simp] theorem effort_idle : Pc.idle.effort k h = 0 := rfl

@[simp] theorem effort_crashed : Pc.crashed.effort k h = 0 := rfl

/-- Another head costs a call one round more. -/
theorem effort_le (k : Nat) (h h' : Heap) (pc : Pc) : pc.effort k h' ≤ pc.effort k h + 3 := by
  cases pc <;> simp only [Pc.effort] <;> (repeat' split) <;> omega

theorem effort_congr (hh : ∀ p, h'.headOf p = h.headOf p) (pc : Pc) : pc.effort k h' = pc.effort k h := by
  cases pc <;> simp only [Pc.effort, hh]

/-- An atomic operation leaves the heads alone and brings its call further, or
it is the compare-and-swap the call is about. -/
theorem Move.effort {sp ms d} (k : Nat) (hm : Move h sp ms pc h' pc' d) (hne : pc ≠ .crashed) :
    (∀ p, h'.headOf p = h.headOf p) ∧ pc'.effort k h + 1 ≤ pc.effort k h + (if sp then 3 else 0) ∨
      pc'.effort k h' ≤ 1 ∧ k + 1 ≤ pc.effort k h' := by
  cases hm with
  | stay => exact absurd rfl hne
  | crash hf =>
    refine .inl ⟨fun _ => rfl, ?_⟩
    have hpos : 1 ≤ pc.effort k h := by
      cases pc <;> simp only [Pc.effort] <;> (repeat' split) <;> first | omega | skip
      · obtain ⟨p, hp, -⟩ | ⟨a, ha, -⟩ | ⟨p, q, hpc, -⟩ := hf
        · cases hp
        · cases ha
        · cases hpc
      · exact absurd rfl hne
    rw [effort_crashed]
    omega
  | acquireEmpty hq => exact .inl ⟨fun _ => rfl, by simp only [Pc.effort]; omega⟩
  | acquireHead hq | returnHead hq =>
    refine .inl ⟨fun _ => rfl, ?_⟩
    simp only [Pc.effort, headOf_eq hq, if_true]
    omega
  | acquireNext | returnStore =>
    refine .inl ⟨fun _ => rfl, ?_⟩
    simp only [Pc.effort]
    split <;> omega
  | acquireTake hq hhead | returnPut hq hhead =>
    refine .inr ⟨by simp [Pc.effort], ?_⟩
    simp only [Pc.effort]
    split <;> omega
  | acquireFail hq hfail | returnFail hq hfail =>
    refine .inl ⟨fun _ => rfl, ?_⟩
    simp only [Pc.effort, headOf_eq hq]
    cases sp with
    | true => simp only [if_true]; split <;> omega
    | false =>
      rw [if_neg fun hhead => hfail ⟨hhead, rfl⟩]
      simp
  | acquireDone hq | allocDone hq | returnDone hq =>
    exact .inl ⟨fun _ => setPool_headOf_eq hq rfl, by simp [Pc.effort]⟩
  | allocFail | alloc => exact .inl ⟨fun _ => rfl, by simp only [Pc.effort]; omega⟩

theorem acquireEntry_effort (p : Addr) : (acquireEntry p).effort k h ≤ k + 3 := by
  unfold acquireEntry
  split <;> simp [Pc.effort]

theorem acquireEntry_ne (p : Addr) : acquireEntry p ≠ .idle := by
  unfold acquireEntry
  split <;> simp

theorem returnEntry_ne (d : Addr) : returnEntry h d ≠ .idle := by
  unfold returnEntry
  split
  · simp
  · split
    · simp
    · split <;> simp

theorem returnEntry_effort (d : Addr) : (returnEntry h d).effort k h ≤ k + 3 := by
  unfold returnEntry
  split
  · simp [Pc.effort]
  · split
    · simp [Pc.effort]
    · split <;> simp [Pc.effort]

end

section
variable {T : Type} [Fintype T] {mp : MultiPool} {h₀ : Heap} {s s' : State T} {tr : Trace (State T) (Act T)}

/-- What all calls have to do yet. -/
def effort (s : State T) : Nat := ∑ t, (s.threads t).pc.effort (3 * Fintype.card T + 1) s.heap

/-- What a step is given. -/
def given (s : State T) (a : Act T) : Nat :=
  (if starts s a then 3 * Fintype.card T + 5 else 0) + (if spurious s a then 3 else 0) + if stays s a then 1 else 0

/-- The threads in a call, or past a failed assertion. -/
def busy (s : State T) : Nat := ∑ t, if (s.threads t).pc = .idle then 0 else 1

variable [DecidableEq T]

theorem effort_set (s : State T) (h : Heap) (t : T) (th : Thread) :
    effort ({ s with heap := h }.set t th) + (s.threads t).pc.effort (3 * Fintype.card T + 1) h =
      effort { s with heap := h } + th.pc.effort (3 * Fintype.card T + 1) h :=
  Tally.sum_update s.threads (fun th => th.pc.effort (3 * Fintype.card T + 1) h) t th

/-- The effort of all calls after an operation of one. -/
theorem effort_run (s : State T) (h : Heap) (t : T) (pc : Pc) (held : List Addr) :
    effort ({ s with heap := h }.set t { s.threads t with pc, held }) +
      (s.threads t).pc.effort (3 * Fintype.card T + 1) h =
      effort { s with heap := h } + pc.effort (3 * Fintype.card T + 1) h :=
  effort_set s h t _

/-- Whatever the operation did to the heads. -/
theorem effort_run_le (s : State T) (h : Heap) (t : T) (pc : Pc) (held : List Addr) :
    effort ({ s with heap := h }.set t { s.threads t with pc, held }) +
      (s.threads t).pc.effort (3 * Fintype.card T + 1) h ≤
      effort s + 3 * Fintype.card T + pc.effort (3 * Fintype.card T + 1) h :=
  Tally.sum_update_le s.threads (fun th => effort_le (3 * Fintype.card T + 1) s.heap h th.pc) t _

theorem busy_set (s : State T) (t : T) (th : Thread) :
    busy (s.set t th) + (if (s.threads t).pc = .idle then 0 else 1) = busy s + if th.pc = .idle then 0 else 1 :=
  Tally.sum_update s.threads (fun th => if th.pc = .idle then 0 else 1) t th

/-- The threads in a call after an operation of one. -/
theorem busy_run (s : State T) (h : Heap) (t : T) (pc : Pc) (held : List Addr) :
    busy ({ s with heap := h }.set t { s.threads t with pc, held }) + (if (s.threads t).pc = .idle then 0 else 1) =
      busy s + if pc = .idle then 0 else 1 :=
  busy_set { s with heap := h } t _

/-- **Every step is paid for.** -/
theorem Step.effort {a : Act T} (hs : Step mp s a s') : effort s' + 1 ≤ effort s + given s a := by
  -- a call starts
  have hstart : ∀ {t : T} {th : Thread}, (s.threads t).pc = .idle →
      th.pc.effort (3 * Fintype.card T + 1) s.heap ≤ 3 * Fintype.card T + 4 → starts s a = true →
      Simple.effort (s.set t th) + 1 ≤ Simple.effort s + given s a := by
    intro t th hpc hle hstarts
    have hset : Simple.effort (s.set t th) + _ = Simple.effort s + _ := effort_set s s.heap t th
    rw [hpc, effort_idle] at hset
    rw [given, hstarts, if_pos rfl]
    omega
  cases hs with
  | acquire hpc => exact hstart hpc (acquireEntry_effort _) rfl
  | @multiAcquire t size hpc =>
    refine hstart hpc ?_ rfl
    cases mp.pick size with
    | none => simp [Pc.effort]
    | some p => exact acquireEntry_effort p
  | ret hpc => exact hstart hpc (returnEntry_effort _) rfl
  | @run t sp ms h' pc' d hms hm =>
    have hset := effort_run s h' t pc' (gain d ++ (s.threads t).held)
    by_cases hcrashed : (s.threads t).pc = .crashed
    · have hstays : 1 ≤ given s (.run t sp ms) := by simp [given, stays, hcrashed]
      rw [hcrashed] at hm
      obtain ⟨rfl, rfl⟩ : s.heap = h' ∧ pc' = .crashed := by cases hm <;> exact ⟨rfl, rfl⟩
      rw [hcrashed, effort_crashed] at hset
      change _ + 0 = Simple.effort s + 0 at hset
      omega
    · have hgiven : (if sp then 3 else 0) ≤ given s (.run t sp ms) :=
        Nat.le_trans (Nat.le_add_left _ _) (Nat.le_add_right _ _)
      rcases hm.effort (3 * Fintype.card T + 1) hcrashed with ⟨hheads, hle⟩ | ⟨hdone, hlate⟩
      · have hsum : Simple.effort { s with heap := h' } = Simple.effort s :=
          Finset.sum_congr rfl fun u _ => effort_congr hheads _
        rw [effort_congr hheads, effort_congr hheads] at hset
        omega
      · have hlose := effort_run_le s h' t pc' (gain d ++ (s.threads t).held)
        omega

/-- A call that starts is answered, or keeps a thread busy. -/
theorem Step.busy {a : Act T} (hs : Step mp s a s') :
    Simple.busy s + (if starts s a then 1 else 0) ≤ Simple.busy s' + if answers s a then 1 else 0 := by
  have hstart : ∀ {t : T} {th : Thread}, (s.threads t).pc = .idle → th.pc ≠ .idle →
      Simple.busy s + 1 ≤ Simple.busy (s.set t th) := by
    intro t th hpc hne
    have hset := busy_set s t th
    rw [if_pos hpc, if_neg hne] at hset
    omega
  cases hs with
  | acquire hpc => exact Nat.le_add_right_of_le (hstart hpc (acquireEntry_ne _))
  | @multiAcquire t size hpc =>
    refine Nat.le_add_right_of_le (hstart hpc ?_)
    cases mp.pick size with
    | none => simp
    | some p => exact acquireEntry_ne p
  | ret hpc => exact Nat.le_add_right_of_le (hstart hpc (returnEntry_ne _))
  | @run t sp ms h' pc' d hms hm =>
    have hset := busy_run s h' t pc' (gain d ++ (s.threads t).held)
    have hle : (if (s.threads t).pc = .idle then 0 else 1) ≤ 1 := by split <;> simp
    rw [show starts s (.run t sp ms) = false from rfl, if_neg Bool.false_ne_true]
    by_cases hidle : pc' = .idle
    · have hans : answers s (.run t sp ms) = true := by
        have hne : (s.threads t).pc ≠ .crashed := by
          intro hc
          rw [hc] at hm
          cases hm <;> cases hidle
        simp [answers, hne, hm.advance_eq, hidle]
      rw [hans, if_pos rfl]
      omega
    · rw [if_neg hidle] at hset
      refine Nat.le_add_right_of_le ?_
      omega

omit [Fintype T] [DecidableEq T] in
/-- A step calls a function, belongs to a call, or to a thread that has no more
to do. -/
theorem length_eq (tr : Trace (State T) (Act T)) : tr.length = count moves tr + count starts tr + count stays tr := by
  induction tr with
  | nil => rfl
  | cons e tr ih =>
    obtain ⟨s, a⟩ := e
    have hstep : (if moves s a then 1 else 0) + (if starts s a then 1 else 0) + (if stays s a then 1 else 0) = 1 := by
      cases a with
      | run t => by_cases hc : (s.threads t).pc = .crashed <;> simp [moves, starts, stays, hc]
      | _ => rfl
    simp only [count, List.countP_cons, List.length_cons] at ih ⊢
    omega

omit [DecidableEq T] in
theorem busy_le (s : State T) : busy s ≤ Fintype.card T := by
  have h := Finset.sum_le_sum fun t (_ : t ∈ Finset.univ) =>
    show (if (s.threads t).pc = .idle then 0 else 1) ≤ 1 by split <;> simp
  simpa [busy] using h

/-- **Lock freedom.** In every run the atomic operations of all calls are at most
so many for each call, and three for each compare-and-swap that fails spuriously;
and all calls but one for each thread have been answered. So no interleaving
keeps the threads going round their loops without calls being answered. -/
theorem run_lockFree (hr : (machine h₀ mp T).Run tr s) :
    count moves tr ≤ (3 * Fintype.card T + 4) * count starts tr + 3 * count spurious tr ∧
    count starts tr ≤ count answers tr + Fintype.card T := by
  constructor
  · have hpaid := hr.length_le (μ := effort) (c := given) (Q := fun _ _ => True) (I := fun _ => True) (b := 0)
      (fun s h => ⟨trivial, by simp [effort, h.2]⟩) (fun _ _ _ _ _ _ => trivial)
      (fun _ _ _ _ _ h => (step_cases h).effort) (fun _ _ => trivial)
    have htotal : total given tr =
        (3 * Fintype.card T + 5) * count starts tr + 3 * count spurious tr + 1 * count stays tr := by
      rw [← total_ite, ← total_ite, ← total_ite, ← total_add, ← total_add]
      rfl
    have hlength := length_eq tr
    have hone : (3 * Fintype.card T + 5) * count starts tr = (3 * Fintype.card T + 4) * count starts tr + count starts tr :=
      Nat.succ_mul _ _
    omega
  · have hbusy : count starts tr ≤ count answers tr + busy s := by
      induction hr with
      | init => exact Nat.zero_le _
      | @step tr s a s' hr hs ih =>
        have hstep := (step_cases hs).busy
        simp only [count, List.countP_cons] at ih ⊢
        omega
    exact Nat.le_trans hbusy (Nat.add_le_add_left (busy_le s) _)

end

/-- Thread 1 returns its block between the load of the head and the
compare-and-swap of thread 0, which goes round its loop again. -/
theorem run_lockFree_two : ∃ tr s, (machine onePool noMultiPool (Fin 2)).Run tr s ∧ count starts tr = 4 ∧
    count moves tr = 17 ∧ count moves tr ≤ 40 := by
  have h := exists_run (m := machine onePool noMultiPool (Fin 2)) (s := ⟨onePool, fun _ => {}⟩)
    (l := [acquireNew 0 (10, 20), acquireNew 1 (11, 40), [.ret 0 28, .ret 1 48], runs 0 2, runs 1 4,
      runs 0 5].flatten)
    (p := fun tr _ => decide (count starts tr = 4 ∧ count moves tr = 17 ∧ count spurious tr = 0))
    ⟨rfl, fun _ => rfl⟩ (by decide +kernel)
  obtain ⟨tr, s, hr, hp⟩ := h
  simp only [decide_eq_true_eq] at hp
  obtain ⟨hstarts, hmoves, hspurious⟩ := hp
  have hle := (run_lockFree hr).1
  rw [hstarts, hspurious, Fintype.card_fin] at hle
  exact ⟨tr, s, hr, hstarts, hmoves, hle⟩

end Dxpool.Simple
