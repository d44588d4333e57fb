/-
`ConcurrentIndexer` is lock-free but for its two busy waits. A compare-and-swap
on a counter that does not fail spuriously fails because another thread claimed
a position or wrapped the counter; a claim ends the loop of its call, and a
counter is wrapped only after a claim took it to its largest value. So what is
not paid for by the calls are the rounds of the waits on a slot (`run_paid`).
-/
import Dxpool.Indexer.Counters
import Dxpool.Indexer.Fifo
import Dxpool.Cost

namespace Dxpool.Indexer

open ConcurrentIndexer Machine

/-- What a call at its next atomic operation has to do yet, where `k` pays for
the other threads that its claim delays: more if the counter is no longer what
it read. -/
def Pc.effort (k : Nat) (ix : ConcurrentIndexer) : Pc → Nat
  | .idle => 0
  | .nextLoadRead | .returnLoadWrite _ => k + 6
  | .nextWrapLoad => if ix.readPos = ix.maxPositionSize then k + 5 else k + 7
  | .nextWrapCas => if ix.readPos = ix.maxPositionSize then k + 4 else k + 8
  | .nextLoadWrite c => if ix.readPos = c then k + 5 else k + 9
  | .nextCheckSlot c => if ix.readPos = c then k + 4 else k + 8
  | .nextCas c => if ix.readPos = c then k + 3 else k + 7
  | .returnWrapLoad _ => if ix.writePos = ix.maxPositionSize then k + 5 else k + 7
  | .returnWrapCas _ => if ix.writePos = ix.maxPositionSize then k + 4 else k + 8
  | .returnCas _ c => if ix.writePos = c then k + 3 else k + 7
  | .nextLoadSlot _ | .returnLoadSlot _ _ => 2
  | .nextClear _ _ | .returnFill _ _ => 1

/-- What is kept for the wrap of a counter that has come to its largest value. -/
def fund (k : Nat) (ix : ConcurrentIndexer) : Nat :=
  (if ix.readPos = ix.maxPositionSize then k else 0) + if ix.writePos = ix.maxPositionSize then k else 0

/-- An atomic load in a busy wait after which the wait goes on. -/
def Pc.waits (ix : ConcurrentIndexer) : Pc → Bool
  | .nextLoadSlot c => ix.load (c % ix.size) == UnusedPosition
  | .returnLoadSlot _ c => ix.load (c % ix.size) != UnusedPosition
  | _ => false

section
variable {T : Type}

/-- A step that calls a function. -/
def starts (_ : State T) : Act T → Bool
  | .next _ | .ret _ _ => true
  | .give _ _ _ | .run _ _ => false

/-- A step that hands an index over. -/
def gives (_ : State T) : Act T → Bool
  | .give _ _ _ => true
  | .next _ | .ret _ _ | .run _ _ => false

/-- An atomic operation. -/
def moves (_ : State T) : Act T → Bool
  | .run _ _ => true
  | .next _ | .ret _ _ | .give _ _ _ => false

/-- An atomic operation whose compare-and-swap fails spuriously. -/
def spurious (_ : State T) : Act T → Bool
  | .run _ sp => sp
  | .next _ | .ret _ _ | .give _ _ _ => false

/-- A round of a busy wait. -/
def waits (s : State T) : Act T → Bool
  | .run t _ => (s.threads t).pc.waits s.indexer
  | .next _ | .ret _ _ | .give _ _ _ => false

/-- The last atomic operation of a call. -/
def answers (bits : Nat) (s : State T) : Act T → Bool
  | .run t sp => (advance bits s.indexer sp (s.threads t).pc).2.1 == .idle
  | .next _ | .ret _ _ | .give _ _ _ => false

end

/-! ## Effort -/

section
variable {bits k : Nat} {ix ix' : ConcurrentIndexer} {pc pc' : Pc}

@[simp] theorem effort_idle : Pc.idle.effort k ix = 0 := rfl

/-- Other counters cost a call one round more. -/
theorem effort_le (hmax : ix'.maxPositionSize = ix.maxPositionSize) (pc : Pc) :
    pc.effort k ix' ≤ pc.effort k ix + 4 := by
  cases pc <;> simp only [Pc.effort, hmax] <;> (repeat' split) <;> omega

theorem effort_congr (hread : ix'.readPos = ix.readPos) (hwrite : ix'.writePos = ix.writePos)
    (hmax : ix'.maxPositionSize = ix.maxPositionSize) (pc : Pc) : pc.effort k ix' = pc.effort k ix := by
  cases pc <;> simp only [Pc.effort, hread, hwrite, hmax]

theorem fund_congr (hread : ix'.readPos = ix.readPos) (hwrite : ix'.writePos = ix.writePos)
    (hmax : ix'.maxPositionSize = ix.maxPositionSize) : fund k ix' = fund k ix := by
  simp only [fund, hread, hwrite, hmax]

/-- What an atomic operation does to the counters and to what its call has to
do yet: it leaves the counters alone, claims a position, or wraps a counter. -/
inductive Pays (k : Nat) (ix : ConcurrentIndexer) (sp : Bool) (pc : Pc) (ix' : ConcurrentIndexer) (pc' : Pc) : Prop
  | quiet : ix'.readPos = ix.readPos → ix'.writePos = ix.writePos →
      pc'.effort k ix + 1 ≤ pc.effort k ix + (if sp then 4 else 0) + (if pc.waits ix then 1 else 0) →
      Pays k ix sp pc ix' pc'
  | claim : pc'.effort k ix' ≤ 2 → k + 3 ≤ pc.effort k ix' → (∀ j, fund j ix' ≤ fund j ix + j) → Pays k ix sp pc ix' pc'
  | wrap : pc'.effort k ix' + 2 ≤ pc.effort k ix' → (∀ j, fund j ix' + j ≤ fund j ix) → Pays k ix sp pc ix' pc'

theorem Move.pays {sp h} (hm : Move bits ix sp pc ix' pc' h) (hmax : 0 < ix.maxPositionSize) (k : Nat) :
    Pays k ix sp pc ix' pc' := by
  have hzero : 0 ≠ ix.maxPositionSize := Nat.ne_of_lt hmax
  cases hm with
  | nextWrap hpos | returnWrap hpos =>
    refine .wrap ?_ fun j => ?_
    · simp only [Pc.effort, if_neg hzero]
      omega
    · simp only [fund, if_pos hpos, if_neg hzero]
      omega
  | nextClaim hpos | returnClaim hpos =>
    refine .claim (by simp [Pc.effort]) ?_ fun j => ?_
    · simp only [Pc.effort]
      split <;> omega
    · simp only [fund]
      (repeat' split) <;> omega
  | nextClaimFail hfail | returnClaimFail hfail | nextWrapFail hfail | returnWrapFail hfail =>
    refine .quiet rfl rfl ?_
    simp only [Pc.effort]
    cases sp with
    | true => simp only [if_true]; (repeat' split) <;> omega
    | false =>
      have hne : ¬_ := fun hpos => hfail ⟨hpos, rfl⟩
      simp only [if_neg hne]
      omega
  | nextWait hslot | returnWait hslot => exact .quiet rfl rfl (by simp [Pc.effort, Pc.waits, hslot])
  | nextNoMore | nextUnused | nextGrab | nextClear | returnReady | returnFill | nextUsed | nextMore =>
    refine .quiet rfl rfl ?_
    simp only [Pc.effort]
    (repeat' split) <;> omega
  | nextAtMax hpos | nextBelow hpos | nextStillMax hpos | nextWrapped hpos | returnAtMax hpos | returnBelow hpos
  | returnStillMax hpos | returnWrapped hpos =>
    refine .quiet rfl rfl ?_
    simp only [Pc.effort, hpos, if_true, if_false]
    omega

end

section
variable {T : Type} [Fintype T] {bits n : Nat} {s s' : State T} {tr : Trace (State T) (Act T)}

/-- What all calls have to do yet, and what is kept for the next wraps. -/
def effort (s : State T) : Nat :=
  (∑ t, (s.threads t).pc.effort (8 * Fintype.card T) s.indexer) + fund (4 * Fintype.card T) s.indexer

/-- What a step is given. -/
def given (s : State T) (a : Act T) : Nat :=
  (if starts s a then 8 * Fintype.card T + 7 else 0) + (if gives s a then 1 else 0) + (if spurious s a then 4 else 0) +
    if waits s a then 1 else 0

/-- The threads in a call. -/
def busy (s : State T) : Nat := ∑ t, if (s.threads t).pc = .idle then 0 else 1

variable [DecidableEq T]

/-- The effort of all calls after one thread is replaced. -/
theorem effort_set (s : State T) (t : T) (pc : Pc) (held : List Nat) :
    effort (s.set t { pc, held }) + (s.threads t).pc.effort (8 * Fintype.card T) s.indexer =
      effort s + pc.effort (8 * Fintype.card T) s.indexer := by
  have h := Tally.sum_update s.threads (fun th => th.pc.effort (8 * Fintype.card T) s.indexer) t { pc, held }
  simp only [effort, State.set] at h ⊢
  omega

/-- After an operation that leaves the counters alone. -/
theorem effort_run (s : State T) {ix : ConcurrentIndexer} (hread : ix.readPos = s.indexer.readPos)
    (hwrite : ix.writePos = s.indexer.writePos) (hmax : ix.maxPositionSize = s.indexer.maxPositionSize) (t : T) (pc : Pc)
    (held : List Nat) :
    effort ({ s with indexer := ix }.set t { pc, held }) + (s.threads t).pc.effort (8 * Fintype.card T) s.indexer =
      effort s + pc.effort (8 * Fintype.card T) s.indexer := by
  have h := effort_set { s with indexer := ix } t pc held
  simp only [effort, effort_congr hread hwrite hmax, fund_congr hread hwrite hmax] at h ⊢
  exact h

/-- Whatever the operation did to the counters. -/
theorem effort_run_le (s : State T) {ix : ConcurrentIndexer} (hmax : ix.maxPositionSize = s.indexer.maxPositionSize)
    (t : T) (pc : Pc) (held : List Nat) :
    effort ({ s with indexer := ix }.set t { pc, held }) + (s.threads t).pc.effort (8 * Fintype.card T) ix +
        fund (4 * Fintype.card T) s.indexer ≤
      effort s + 4 * Fintype.card T + pc.effort (8 * Fintype.card T) ix + fund (4 * Fintype.card T) ix := by
  have h := Tally.sum_update_le s.threads (fun th => effort_le (k := 8 * Fintype.card T) hmax th.pc) t { pc, held }
  simp only [effort, State.set] at h ⊢
  omega

/-- The threads in a call after an operation of one. -/
theorem busy_run (s : State T) (ix : ConcurrentIndexer) (t : T) (pc : Pc) (held : List Nat) :
    busy ({ s with indexer := ix }.set t { pc, held }) + (if (s.threads t).pc = .idle then 0 else 1) =
      busy s + if pc = .idle then 0 else 1 :=
  Tally.sum_update s.threads (fun th => if th.pc = .idle then 0 else 1) t { pc, held }

/-- **Every step is paid for.** -/
theorem Step.effort {a : Act T} (hmax : 0 < s.indexer.maxPositionSize) (hs : Step bits s a s') :
    effort s' + 1 ≤ effort s + given s a := by
  cases hs with
  | @next t hpc =>
    have hset := effort_set s t .nextLoadRead (s.threads t).held
    rw [hpc, effort_idle] at hset
    simp only [Pc.effort] at hset
    simp only [given, starts, if_true]
    omega
  | @ret t i hpc =>
    have hset := effort_set s t (.returnLoadWrite i) ((s.threads t).held.erase i)
    rw [hpc, effort_idle] at hset
    simp only [Pc.effort] at hset
    simp only [given, starts, if_true]
    omega
  | @give t u i hne hi =>
    have hsame : Indexer.effort ((s.set t { s.threads t with held := (s.threads t).held.erase i }).set u
        { s.threads u with held := i :: (s.threads u).held }) = Indexer.effort s := by
      simp only [Indexer.effort, give_pc, set_indexer]
    rw [hsame]
    simp only [given, gives, if_true]
    omega
  | @run t sp ix' pc' h hm =>
    have hkeep := hm.maxPositionSize
    cases hm.pays hmax (8 * Fintype.card T) with
    | quiet hread hwrite hle =>
      have hset := effort_run s hread hwrite hkeep t pc' (gain h ++ (s.threads t).held)
      have hgiven : (if sp then 4 else 0) + (if (s.threads t).pc.waits s.indexer then 1 else 0) ≤ given s (.run t sp) :=
        Nat.add_le_add_right (Nat.le_add_left _ _) _
      omega
    | claim hdone hlate hfund =>
      have hset := effort_run_le s hkeep t pc' (gain h ++ (s.threads t).held)
      have hfund := hfund (4 * Fintype.card T)
      omega
    | wrap hle hfund =>
      have hset := effort_run_le s hkeep t pc' (gain h ++ (s.threads t).held)
      have hfund := hfund (4 * Fintype.card T)
      omega

/-- A call that starts is answered, or keeps a thread busy. -/
theorem Step.busy {a : Act T} (hs : Step bits s a s') :
    Indexer.busy s + (if starts s a then 1 else 0) ≤ Indexer.busy s' + if answers bits s a then 1 else 0 := by
  cases hs with
  | @next t hpc =>
    have hset := busy_run s s.indexer t .nextLoadRead (s.threads t).held
    rw [if_pos hpc, if_neg (by simp)] at hset
    change Indexer.busy (s.set t _) + 0 = _ at hset
    simp only [starts, if_true]
    omega
  | @ret t i hpc =>
    have hset := busy_run s s.indexer t (.returnLoadWrite i) ((s.threads t).held.erase i)
    rw [if_pos hpc, if_neg (by simp)] at hset
    change Indexer.busy (s.set t _) + 0 = _ at hset
    simp only [starts, if_true]
    omega
  | give => simp only [Indexer.busy, give_pc]; exact Nat.le_add_right _ _
  | @run t sp ix' pc' h hm =>
    have hset := busy_run s ix' t pc' (gain h ++ (s.threads t).held)
    have hle : (if (s.threads t).pc = .idle then 0 else 1) ≤ 1 := by split <;> simp
    rw [show starts s (.run t sp) = false from rfl, if_neg Bool.false_ne_true]
    by_cases hidle : pc' = .idle
    · have hans : answers bits s (.run t sp) = true := by simp [answers, hm.advance_eq, hidle]
      rw [hans, if_pos rfl]
      omega
    · rw [if_neg hidle] at hset
      refine Nat.le_add_right_of_le ?_
      omega

omit [Fintype T] [DecidableEq T] in
/-- A step calls a function, hands an index over, or belongs to a call. -/
theorem length_eq (tr : Trace (State T) (Act T)) : tr.length = count moves tr + count starts tr + count gives tr := by
  induction tr with
  | nil => rfl
  | cons e tr ih =>
    obtain ⟨s, a⟩ := e
    have hstep : (if moves s a then 1 else 0) + (if starts s a then 1 else 0) + (if gives s a then 1 else 0) = 1 := by
      cases a <;> rfl
    simp only [count, List.countP_cons, List.length_cons] at ih ⊢
    omega

omit [DecidableEq T] in
theorem busy_le (s : State T) : busy s ≤ Fintype.card T := by
  have h := Finset.sum_le_sum fun t (_ : t ∈ Finset.univ) =>
    show (if (s.threads t).pc = .idle then 0 else 1) ≤ 1 by split <;> simp
  simpa [busy] using h

/-- At first no call is in progress, and no counter is at its largest value. -/
theorem effort_init (hbits : n < 2 ^ bits) (h : (machine bits n T).init s) :
    0 < s.indexer.maxPositionSize ∧ effort s ≤ 0 := by
  have hn : 0 < n := by
    by_contra hn
    obtain rfl : n = 0 := by omega
    simp [machine, construct] at h
  obtain ⟨hread, hwrite, -, hsized⟩ := construct_ok hn (construct_lt hn hbits h.1) h.1
  have hsize := hsized.size
  have hle := hsized.le
  refine ⟨by omega, ?_⟩
  have hfund : fund (4 * Fintype.card T) s.indexer = 0 := by
    rw [fund, hread, hwrite, if_neg (by omega), if_neg (by omega)]
  have hcalls : ∀ t, (s.threads t).pc.effort (8 * Fintype.card T) s.indexer = 0 := by
    intro t
    rw [h.2 t]
    rfl
  simp [effort, hfund, hcalls]

/-- **Lock freedom but for the waits.** In every run the atomic operations of all
calls are at most so many for each call, four for each compare-and-swap that
fails spuriously, and the rounds of the busy waits; and all calls but one for
each thread have been answered. -/
theorem run_paid (hbits : n < 2 ^ bits) (hr : (machine bits n T).Run tr s) :
    count moves tr ≤ (8 * Fintype.card T + 6) * count starts tr + 4 * count spurious tr + count waits tr ∧
    count starts tr ≤ count (answers bits) tr + Fintype.card T := by
  constructor
  · have hpaid := hr.length_le (μ := effort) (c := given) (Q := fun _ _ => True)
      (I := fun s => 0 < s.indexer.maxPositionSize) (fun s h => effort_init hbits h)
      (fun s a s' hpos _ h => (step_cases h).maxPositionSize ▸ hpos)
      (fun _ _ _ hpos _ h => (step_cases h).effort hpos) (fun _ _ => trivial)
    have htotal : total given tr =
        (8 * Fintype.card T + 7) * count starts tr + 1 * count gives tr + 4 * count spurious tr + 1 * count waits tr := by
      rw [← total_ite, ← total_ite, ← total_ite, ← total_ite, ← total_add, ← total_add, ← total_add]
      rfl
    have hlength := length_eq tr
    have hone : (8 * Fintype.card T + 7) * count starts tr = (8 * Fintype.card T + 6) * count starts tr + count starts tr :=
      Nat.succ_mul _ _
    omega
  · have hbusy : count starts tr ≤ count (answers bits) tr + busy s := by
      induction hr with
      | init => exact Nat.zero_le _
      | @step tr s a s' hr hs ih =>
        have hstep := (step_cases hs).busy
        simp only [count, List.countP_cons] at ih ⊢
        omega
    exact Nat.le_trans hbusy (Nat.add_le_add_left (busy_le s) _)

end

/-- Counters of two bits: thread 0 wraps `readPos` between the load and the
wrap of thread 1, whose compare-and-swap then fails. -/
theorem run_paid_wrap : ∃ tr s, (machine 2 1 (Fin 2)).Run tr s ∧ count starts tr = 6 ∧ count waits tr = 0 ∧
    count moves tr = 38 ∧ count moves tr ≤ 132 := by
  have h := exists_run (m := machine 2 1 (Fin 2)) (s := initial 1 2)
    (l := [[.next 0], runs 0 6, [.ret 0 0], runs 0 4, [.next 0], runs 0 6, [.next 1], runs 1 2, [.ret 0 0], runs 0 7,
      [.next 0], runs 0 9, runs 1 4].flatten)
    (p := fun tr _ => decide (count starts tr = 6 ∧ count waits tr = 0 ∧ count moves tr = 38 ∧ count spurious tr = 0))
    ⟨rfl, fun _ => rfl⟩ (by decide +kernel)
  obtain ⟨tr, s, hr, hp⟩ := h
  simp only [decide_eq_true_eq] at hp
  obtain ⟨hstarts, hwaits, hmoves, hspurious⟩ := hp
  have hle := (run_paid (by decide) hr).1
  rw [hstarts, hwaits, hspurious, Fintype.card_fin] at hle
  exact ⟨tr, s, hr, hstarts, hwaits, hmoves, hle⟩

end Dxpool.Indexer
