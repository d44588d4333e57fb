/-
What the C memory pool allocates when many threads use it. A call allocates only
after it found no node to take: then every node is held or with a call. So a
pool never has more nodes than blocks were held and calls were in progress on
it at one moment (`run_demand`), as long as ownership is exclusive.
-/
import Dxpool.Simple.Calm

namespace Dxpool.Simple

open Machine

section
variable {T : Type}

/-- The node that a step allocates for pool `p`. -/
def allocates (p : Addr) (s : State T) : Act T → Option Addr
  | .run t _ mallocs =>
    match (s.threads t).pc with
    | .acquireAlloc q =>
      if q = p ∧ mallocs.1 ≠ NULL ∧ mallocs.2 ≠ NULL ∧ ((s.heap.pools p).any fun q => q.memSize != 0) then some mallocs.1
      else none
    | _ => none
  | .acquire _ _ | .multiAcquire _ _ | .ret _ _ => none

/-- A block of pool `p`. -/
def ofPool (h : Heap) (p : Addr) (data : Addr) : Bool :=
  ((h.getMemnodeInData data).bind h.nodes).any fun m => m.pool == p

/-- The blocks of pool `p` that a thread holds, and one for a call in progress on it. -/
def Thread.demand (h : Heap) (p : Addr) (th : Thread) : Nat :=
  th.held.countP (ofPool h p) + if th.pc.pool = some p then 1 else 0

variable [Fintype T]

/-- The blocks of pool `p` held, and the calls in progress on it. -/
def demand (p : Addr) (s : State T) : Nat := ∑ t, (s.threads t).demand s.heap p

/-- The largest demand on pool `p` so far. -/
def peakDemand (p : Addr) : Trace (State T) (Act T) → State T → Nat
  | [], s => demand p s
  | (s, _) :: tr, s' => max (peakDemand p tr s) (demand p s')

/-- The calls that found no node to take, and are about to allocate. -/
def allocating (p : Addr) (s : State T) : Nat := ∑ t, if (s.threads t).pc = .acquireAlloc p then 1 else 0

end

/-! ## Where there is nothing to take -/

section
variable {h : Heap} {p : Addr} {pc : Pc} {nodes : Finset Addr}

theorem PcPure.inHand_pool (hpc : PcPure h pc) {a : Addr} (ha : a ∈ Simple.inHand pc) : ∃ p, pc.pool = some p ∧ NodeOf h p a := by
  cases pc <;> simp only [Simple.inHand, List.mem_singleton, List.not_mem_nil] at ha <;> subst ha
  case acquireTrack | acquireTrackAlloc | returnLoadHead => exact ⟨_, rfl, hpc⟩
  case returnStoreNext | returnCas => exact ⟨_, rfl, hpc.1⟩

theorem inHand_length (p : Addr) (pc : Pc) : (inHand pc).length + (if pc = .acquireAlloc p then 1 else 0) ≤ 1 := by
  cases pc <;> simp [inHand]
  split <;> simp

/-- A call has one of the nodes of its pool at most, and none while it is about
to allocate. -/
theorem PcPure.inHand_le (hpc : PcPure h pc) (hnodes : ∀ a, a ∈ nodes ↔ NodeOf h p a) :
    (∑ a ∈ nodes, (Simple.inHand pc).count a) + (if pc = .acquireAlloc p then 1 else 0) ≤ if pc.pool = some p then 1 else 0 := by
  have hle := Tally.sum_count_le (s := nodes) (f := id) (Set.injOn_id _) (p := fun a => decide (a ∈ nodes)) (by simp) (Simple.inHand pc)
  have hlen := inHand_length p pc
  have hcount := List.countP_le_length (p := fun a => decide (a ∈ nodes)) (l := Simple.inHand pc)
  simp only [id] at hle
  by_cases hpool : pc.pool = some p
  · rw [if_pos hpool]
    omega
  · have hnone : (Simple.inHand pc).countP (fun a => decide (a ∈ nodes)) = 0 := by
      rw [List.countP_eq_zero]
      intro a ha hmem
      obtain ⟨q, hq, m, hm, hmq⟩ := hpc.inHand_pool ha
      obtain ⟨m', hm', hmp⟩ := (hnodes a).1 (of_decide_eq_true hmem)
      cases hm.symm.trans hm'
      exact hpool (by rw [hq, ← hmq, hmp])
    have hno : pc ≠ .acquireAlloc p := by
      rintro rfl
      exact hpool rfl
    rw [if_neg hno, if_neg hpool]
    omega

/-- A call about to allocate for a pool that is there and has a size. -/
theorem not_faulty_alloc {q : MemPool} (hq : h.pools p = some q) (hsize : q.memSize ≠ 0) :
    ¬Faulty h (.acquireAlloc p) := by
  intro hf
  obtain ⟨_, hp, hnone⟩ | ⟨_, ha, -⟩ | ⟨_, _, hp, hq', hzero⟩ := hf
  · cases hp
    cases hq.symm.trans hnone
  · cases ha
  · cases hp
    cases hq.symm.trans hq'
    exact hsize hzero

/-- The data of the pool's nodes are blocks of the pool. -/
theorem HeapPure.ofPool (h0 : HeapPure h) {a : Addr} {m : MemNode} (ha : h.nodes a = some m) (hp : m.pool = p) :
    Simple.ofPool h p m.data = true := by
  obtain ⟨-, q, -, hb⟩ := h0.node a m ha
  simp [Simple.ofPool, Heap.getMemnodeInData, hb.block, ha, hp]

end

section
variable {T : Type} [Fintype T] {mp : MultiPool} {s s' : State T} {p : Addr} {act : Act T} {tr : Trace (State T) (Act T)}
  {nodes : Finset Addr}

/-- Where the chain of a pool is empty, its nodes are held or with calls. -/
theorem Conserved.demand (h : Conserved s) (hp : IsPool s.heap p) (hempty : s.heap.headOf p = NULL)
    (hnodes : ∀ a, a ∈ nodes ↔ NodeOf s.heap p a) : nodes.card + allocating p s ≤ Simple.demand p s := by
  obtain ⟨chain, hl, hone⟩ := h.exclusive p hp
  rw [hempty] at hl
  cases hl.of_null
  -- each node has its place, with one of the threads
  have hplace : ∀ a ∈ nodes, (∑ t, ((s.threads t).held.count (s.heap.dataOf a) + (inHand (s.threads t).pc).count a)) = 1 := by
    intro a ha
    obtain ⟨m, hm, hmp⟩ := (hnodes a).1 ha
    have h₁ := hone a m hm hmp
    have hdata : s.heap.dataOf a = m.data := by rw [Heap.dataOf, hm]; rfl
    rw [hdata]
    simpa [places, share] using h₁
  have hdata : Set.InjOn s.heap.dataOf nodes := by
    intro a ha b hb hab
    obtain ⟨m, hm, -⟩ := (hnodes a).1 ha
    obtain ⟨n, hn, -⟩ := (hnodes b).1 hb
    simp only [Heap.dataOf, hm, hn, Option.elim_some] at hab
    exact h.pure.heap.data_inj hm hn hab
  have hof : ∀ a ∈ nodes, ofPool s.heap p (s.heap.dataOf a) = true := by
    intro a ha
    obtain ⟨m, hm, hmp⟩ := (hnodes a).1 ha
    rw [Heap.dataOf, hm]
    exact h.pure.heap.ofPool hm hmp
  have hthread : ∀ t, (∑ a ∈ nodes, ((s.threads t).held.count (s.heap.dataOf a) + (inHand (s.threads t).pc).count a)) +
      (if (s.threads t).pc = .acquireAlloc p then 1 else 0) ≤ (s.threads t).demand s.heap p := by
    intro t
    have hheld := Tally.sum_count_le hdata hof (s.threads t).held
    have hhand := (h.pure.pc t).inHand_le hnodes
    rw [Finset.sum_add_distrib, Thread.demand]
    omega
  calc nodes.card + allocating p s
      = (∑ a ∈ nodes, ∑ t, ((s.threads t).held.count (s.heap.dataOf a) + (inHand (s.threads t).pc).count a)) +
          allocating p s := by rw [Finset.sum_congr rfl hplace, Finset.card_eq_sum_ones]
    _ = ∑ t, ((∑ a ∈ nodes, ((s.threads t).held.count (s.heap.dataOf a) + (inHand (s.threads t).pc).count a)) +
          if (s.threads t).pc = .acquireAlloc p then 1 else 0) := by
        rw [Finset.sum_comm, allocating, Finset.sum_add_distrib]
    _ ≤ Simple.demand p s := Finset.sum_le_sum fun t _ => hthread t

theorem demand_le_peak : demand p s ≤ peakDemand p tr s := by
  cases tr with
  | nil => exact Nat.le_refl _
  | cons e tr => exact Nat.le_max_right _ _

theorem peakDemand_le : peakDemand p tr s ≤ peakDemand p ((s, act) :: tr) s' := Nat.le_max_left _ _

variable [DecidableEq T]

/-- The calls about to allocate, after one of a thread. -/
theorem allocating_set (s : State T) (h : Heap) (t : T) (th : Thread) :
    allocating p ({ s with heap := h }.set t th) + (if (s.threads t).pc = .acquireAlloc p then 1 else 0) =
      allocating p s + if th.pc = .acquireAlloc p then 1 else 0 :=
  Tally.sum_update s.threads (fun th => if th.pc = .acquireAlloc p then 1 else 0) t th

omit [Fintype T] [DecidableEq T] in
theorem allocates_alloc {t : T} {sp : Bool} {ms : Addr × Addr} {q : Addr} {r : MemPool}
    (hpc : (s.threads t).pc = .acquireAlloc q) (hq : s.heap.pools q = some r) (hsize : r.memSize ≠ 0) (h₁ : ms.1 ≠ NULL)
    (h₂ : ms.2 ≠ NULL) : allocates p s (.run t sp ms) = if q = p then some ms.1 else none := by
  simp only [allocates, hpc]
  by_cases hqp : q = p
  · subst hqp
    simp [h₁, h₂, hq, hsize]
  · simp [hqp]

omit [Fintype T] [DecidableEq T] in
/-- A step that does not allocate, of a call that is not about to, or whose
`malloc` fails. -/
theorem allocates_none {t : T} {sp : Bool} {ms : Addr × Addr} (h : ∀ q r, (s.threads t).pc = .acquireAlloc q →
    s.heap.pools q = some r → r.memSize ≠ 0 → ms.1 = NULL ∨ ms.2 = NULL) : allocates p s (.run t sp ms) = none := by
  simp only [allocates]
  split
  · rename_i q hpc
    refine if_neg fun hc => ?_
    obtain ⟨rfl, h₁, h₂, hany⟩ := hc
    rw [Option.any_eq_true] at hany
    obtain ⟨r, hr, hsize⟩ := hany
    rcases h q r hpc hr (bne_iff_ne.1 hsize) with hn | hn
    · exact h₁ hn
    · exact h₂ hn
  · rfl

omit [Fintype T] in
/-- What a step of a call allocates, and the nodes of the pool after it. -/
theorem Step.nodeOf (hs : Step mp s act s') (a : Addr) :
    NodeOf s'.heap p a ↔ NodeOf s.heap p a ∨ allocates p s act = some a := by
  cases hs with
  | acquire | multiAcquire | ret => simp [allocates]
  | @run t sp ms h' pc' d hms hm =>
    rw [set_heap]
    generalize hpc : (s.threads t).pc = pc at hm
    have hquiet : (∀ q, pc ≠ .acquireAlloc q) → (NodeOf h' p a ↔ NodeOf s.heap p a) →
        (NodeOf h' p a ↔ NodeOf s.heap p a ∨ allocates p s (.run t sp ms) = some a) := by
      intro hne hiff
      rw [allocates_none fun q r hq => absurd (hpc.symm.trans hq) (hne q), hiff]
      simp
    cases hm with
    | crash hf =>
      rw [allocates_none fun q r hq hr hsize => ?_]
      · simp
      obtain rfl : pc = .acquireAlloc q := hpc.symm.trans hq
      exact absurd hf (not_faulty_alloc hr hsize)
    | allocFail hq hsize hnull =>
      rw [allocates_none fun _ _ _ _ _ => hnull]
      simp
    | @alloc q r hq hsize h₁ h₂ =>
      rw [allocates_alloc hpc hq hsize h₁ h₂]
      have hfree := (hms.1 h₁).1.1
      unfold NodeOf
      rw [alloc_nodes]
      by_cases ha : a = ms.1
      · subst ha
        simp [hfree]
      · have hne : ms.1 ≠ a := fun h => ha h.symm
        simp [ha, hne]
    | @returnStore b q c m hb =>
      refine hquiet (by simp) ?_
      unfold NodeOf
      rw [setNode_nodes]
      by_cases ha : a = b
      · subst ha
        simp [hb]
      · rw [if_neg ha]
    | _ => exact hquiet (by simp) Iff.rfl

omit [Fintype T] in
/-- A node allocated is a new one. -/
theorem Step.fresh (hs : Step mp s act s') {a : Addr} (h : allocates p s act = some a) : s.heap.nodes a = none := by
  cases hs with
  | acquire | multiAcquire | ret => cases h
  | run hms hm =>
    simp only [allocates] at h
    split at h
    · rw [Option.ite_none_right_eq_some] at h
      obtain ⟨⟨-, hne, -⟩, ha⟩ := h
      cases ha
      exact (hms.1 hne).1.1
    · cases h

/-- A call begins. -/
theorem allocating_call {t : T} {th : Thread} (hidle : (s.threads t).pc = .idle) (hne : th.pc ≠ .acquireAlloc p) :
    allocating p (s.set t th) = allocating p s := by
  have hset : allocating p (s.set t th) + _ = _ := allocating_set s s.heap t th
  rw [hidle, if_neg hne, if_neg (by simp)] at hset
  exact hset

/-- No more calls are about to allocate, but for one that has just found no node
to take. -/
theorem Step.allocating (hs : Step mp s act s') :
    (allocates p s act).toList.length + Simple.allocating p s' ≤ Simple.allocating p s ∨
      IsPool s'.heap p ∧ s'.heap.headOf p = NULL := by
  cases hs with
  | acquire hidle =>
    rw [allocating_call hidle (by simp only [acquireEntry]; split <;> simp)]
    exact .inl (Nat.le_of_eq (Nat.zero_add _))
  | @multiAcquire t size hidle =>
    refine .inl ?_
    rw [allocating_call hidle]
    · exact Nat.le_of_eq (Nat.zero_add _)
    cases mp.pick size with
    | none => simp
    | some q => simp only [Option.elim_some, acquireEntry]; split <;> simp
  | ret hidle =>
    refine .inl ?_
    rw [allocating_call hidle]
    · exact Nat.le_of_eq (Nat.zero_add _)
    simp only [returnEntry]
    split
    · simp
    · split
      · simp
      · split <;> simp
  | @run t sp ms h' pc' d hms hm =>
    have hset := allocating_set (p := p) s h' t { s.threads t with pc := pc', held := gain d ++ (s.threads t).held }
    generalize Simple.allocating p (State.set _ t _) = k at hset ⊢
    simp only at hset
    generalize hpc : (s.threads t).pc = pc at hm hset
    have hquiet : pc' ≠ .acquireAlloc p → allocates p s (.run t sp ms) = none →
        (allocates p s (.run t sp ms)).toList.length + k ≤ Simple.allocating p s := by
      intro hne hnone
      rw [if_neg hne] at hset
      rw [hnone, Option.toList_none, List.length_nil]
      omega
    have hother : (∀ q, pc ≠ .acquireAlloc q) → allocates p s (.run t sp ms) = none := fun hne =>
      allocates_none fun q _ hq => absurd (hpc.symm.trans hq) (hne q)
    cases hm with
    | @acquireEmpty q r hq hnull =>
      by_cases hqp : q = p
      · subst hqp
        exact .inr ⟨⟨r, hq⟩, (headOf_eq hq).trans hnull⟩
      · exact .inl (hquiet (by simp [hqp]) (hother (by simp)))
    | crash hf =>
      refine .inl (hquiet (by simp) (allocates_none fun q r hq hr hsize => ?_))
      obtain rfl : pc = .acquireAlloc q := hpc.symm.trans hq
      exact absurd hf (not_faulty_alloc hr hsize)
    | allocFail _ _ hnull => exact .inl (hquiet (by simp) (allocates_none fun _ _ _ _ _ => hnull))
    | @alloc q r hq hsize h₁ h₂ =>
      rw [allocates_alloc hpc hq hsize h₁ h₂]
      refine .inl ?_
      by_cases hqp : q = p
      · subst hqp
        rw [if_pos rfl, if_neg (by simp)] at hset
        rw [if_pos rfl, Option.toList_some, List.length_singleton]
        omega
      · rw [if_neg (by simp [hqp]), if_neg (by simp)] at hset
        rw [if_neg hqp, Option.toList_none, List.length_nil]
        omega
    | _ => exact .inl (hquiet (by simp) (hother (by simp)))

/-- The nodes that pool `p` has are those allocated for it, and it has no more
than the largest demand was. -/
structure Supplied (p : Addr) (tr : Trace (State T) (Act T)) (s : State T) : Prop where
  nodup : (log (allocates p) tr).Nodup
  nodes : ∀ a, a ∈ log (allocates p) tr ↔ NodeOf s.heap p a
  le : (log (allocates p) tr).length + allocating p s ≤ peakDemand p tr s

theorem Supplied.step (h : Supplied p tr s) (hc : Conserved s') (hs : Step mp s act s') : Supplied p ((s, act) :: tr) s' := by
  have hnodes : ∀ a, a ∈ log (allocates p) ((s, act) :: tr) ↔ NodeOf s'.heap p a := by
    intro a
    rw [log, List.mem_append, h.nodes, hs.nodeOf, Option.mem_toList]
  have hnodup : (log (allocates p) ((s, act) :: tr)).Nodup := by
    rw [log]
    cases hnew : allocates p s act with
    | none => simpa using h.nodup
    | some a =>
      refine List.nodup_append.2 ⟨h.nodup, by simp, fun b hb c hmem heq => ?_⟩
      obtain rfl : c = a := by simpa using hmem
      subst heq
      obtain ⟨m, hm, -⟩ := (h.nodes b).1 hb
      rw [hs.fresh hnew] at hm
      cases hm
  refine ⟨hnodup, hnodes, ?_⟩
  rcases hs.allocating (p := p) with hle | ⟨hp, hnull⟩
  · have hpeak := h.le
    have hmono : peakDemand p tr s ≤ peakDemand p ((s, act) :: tr) s' := peakDemand_le
    rw [log, List.length_append]
    omega
  · have hdemand := hc.demand hp hnull fun a => List.mem_toFinset.trans (hnodes a)
    rw [List.toFinset_card_of_nodup hnodup] at hdemand
    exact Nat.le_trans hdemand demand_le_peak

theorem supplied_of_run {h₀ : Heap} (hb : Blank h₀) (hr : (machine h₀ mp T).Run tr s) (hown : Along (Owned mp) tr)
    (hno : Along NoAba tr) : Supplied p tr s := by
  induction hr with
  | init h =>
    refine ⟨List.nodup_nil, fun a => ?_, ?_⟩
    · have hnone : ¬NodeOf h₀ p a := fun ⟨m, hm, _⟩ => by rw [hb.nodes] at hm; cases hm
      rw [h.1]
      simp [hnone]
    · simp [allocating, h.2]
  | step hr hs ih =>
    have hc := conserved_of_run hb (hr.step hs) hown hno
    rw [along_cons] at hown hno
    exact (ih hown.2 hno.2).step hc (step_cases hs)

/-- **No more than the peak demand**, for any number of threads: as long as no
acquire meets an ABA, the nodes allocated for a pool are at most as many as
blocks of it were held and calls were in progress on it at one moment. -/
theorem run_demand {h₀ : Heap} (hb : Blank h₀) (hr : (machine h₀ mp T).Run tr s) (hown : Along (Owned mp) tr)
    (hno : Along NoAba tr) :
    (log (allocates p) tr).Nodup ∧ (∀ a, a ∈ log (allocates p) tr ↔ NodeOf s.heap p a) ∧
    (log (allocates p) tr).length ≤ peakDemand p tr s := by
  have h : Supplied p tr s := supplied_of_run hb hr hown hno
  exact ⟨h.nodup, h.nodes, Nat.le_trans (Nat.le_add_right _ _) h.le⟩

end

/-- Two threads that find the chain empty at the same moment, and a third call
that takes the block one of them has returned. -/
theorem run_demand_two : ∃ tr s, (machine onePool noMultiPool (Fin 2)).Run tr s ∧ log (allocates 1) tr = [10, 11] ∧
    (s.threads 0).held = [28] ∧ 2 ≤ peakDemand 1 tr s := by
  have h := exists_run (m := machine onePool noMultiPool (Fin 2)) (s := ⟨onePool, fun _ => {}⟩)
    (l := [[.acquire 0 1, .acquire 1 1], runs 0 1, runs 1 1, [.run 0 false (10, 20), .run 1 false (11, 40)],
      runs 0 1, runs 1 1, [.ret 0 28], runs 0 4, [.acquire 0 1], runs 0 4].flatten)
    (p := fun tr s => decide (Along (Owned noMultiPool) tr ∧ Along NoAba tr ∧ log (allocates 1) tr = [10, 11] ∧
      (s.threads 0).held = [28])) ⟨rfl, fun _ => rfl⟩ (by decide +kernel)
  obtain ⟨tr, s, hr, hp⟩ := h
  simp only [decide_eq_true_eq] at hp
  obtain ⟨hown, hno, hlog, hheld⟩ := hp
  obtain ⟨-, -, hle⟩ := run_demand (p := 1) onePool_blank hr hown hno
  rw [hlog] at hle
  exact ⟨tr, s, hr, hlog, hheld, hle⟩

end Dxpool.Simple
