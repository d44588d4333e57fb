/-
The usage counters of a pool (`track_pool_usage_*`). Each is changed by a step
of its own, after the step that takes a block off the chain or puts it on; so
another thread can take and count a block before its return has counted it,
and `num_available` goes below zero (`underflow`).

What holds in every run is that `num_available` and the blocks out of the pool
add up to `num_allocs`, modulo 2^32 (`Tracked`); where a block is out from
when an acquire has counted it until its return has. So `num_available` is at
most `num_allocs` all along if and only if no acquire counts its block when as
many are out as were ever allocated (`available_iff_covered`).
-/
import Dxpool.Simple.Ownership

namespace Dxpool.Simple

open Machine

/-- At the update of `num_available` in an acquire from pool `p`. -/
def Pc.taken (p : Addr) : Pc → Nat
  | .acquireTrack pool _ => if pool = p then 1 else 0
  | _ => 0

/-- At the update of `num_allocs` in an acquire from pool `p`. -/
def Pc.allocated (p : Addr) : Pc → Nat
  | .acquireTrackAlloc pool _ => if pool = p then 1 else 0
  | _ => 0

/-- At the update of `num_available` in a return to pool `p`. -/
def Pc.returned (p : Addr) : Pc → Nat
  | .returnTrack pool => if pool = p then 1 else 0
  | _ => 0

/-- In a return to pool `p`. -/
def Pc.returning (p : Addr) : Pc → Nat
  | .returnLoadHead _ pool | .returnStoreNext _ pool _ | .returnCas _ pool _ | .returnTrack pool =>
    if pool = p then 1 else 0
  | _ => 0

/-- How many of these blocks belong to pool `p`. -/
def Heap.blocksOf (h : Heap) (p : Addr) (held : List Addr) : Nat := held.countP fun d => h.poolOf d = some p

/-- The blocks of pool `p` that a thread has as a client or in a return. -/
def Heap.out (h : Heap) (p : Addr) (th : Thread) : Nat := h.blocksOf p th.held + th.pc.returning p

section
variable {T : Type}

/-- The blocks of pool `p` that clients hold, and the returns of such blocks
in progress. -/
def outstanding [Fintype T] (s : State T) (p : Addr) : Nat := ∑ t, s.heap.out p (s.threads t)

/-- The node that a step allocates for pool `p`. -/
def newNode (p : Addr) (s : State T) : Act T → Option Addr
  | .run t sp ms =>
    match (advance s.heap sp ms (s.threads t).pc).2.1 with
    | .acquireTrackAlloc pool node => if pool = p then some node else none
    | _ => none
  | _ => none

/-- How many blocks were allocated for pool `p`. -/
def allocs (p : Addr) (tr : Trace (State T) (Act T)) : Nat := (log (newNode p) tr).length

/-- An acquire counts a block as unavailable only while fewer blocks of its
pool are out than were allocated (or while `num_allocs` is the largest number). -/
def Covered [Fintype T] (s : State T) : Act T → Prop
  | .run t _ _ =>
    match (s.threads t).pc with
    | .acquireTrack p _ => ∀ q ∈ s.heap.pools p, outstanding s p < q.numAllocs.toNat ∨ q.numAllocs.toNat = 2 ^ 32 - 1
    | _ => True
  | _ => True

instance [Fintype T] (s : State T) (a : Act T) : Decidable (Covered s a) :=
  match a with
  | .run t sp ms =>
    match h : (s.threads t).pc with
    | .acquireTrack p _ => decidable_of_iff
        (∀ q ∈ s.heap.pools p, outstanding s p < q.numAllocs.toNat ∨ q.numAllocs.toNat = 2 ^ 32 - 1)
        (by simp only [Covered, h])
    | .idle | .crashed | .acquireLoadHead _ | .acquireLoadNext _ _ | .acquireCas _ _ _ | .acquireAlloc _
    | .acquireTrackAlloc _ _ | .returnLoadHead _ _ | .returnStoreNext _ _ _ | .returnCas _ _ _ | .returnTrack _ =>
      isTrue (by simp only [Covered, h])
  | .acquire _ _ | .multiAcquire _ _ | .ret _ _ => isTrue trivial

/-- `num_available` is at most `num_allocs` in every pool. -/
def AvailableLe (s : State T) : Prop := ∀ p q, s.heap.pools p = some q → q.numAvailable ≤ q.numAllocs

end

/-! ## What a move does to the counters -/

section
variable {h h' : Heap} {p : Addr} {q : MemPool}

theorem HeapPure.poolOf (h0 : HeapPure h) {a m} (ha : h.nodes a = some m) : h.poolOf m.data = some m.pool := by
  rw [Heap.poolOf, h0.memnode ha, Option.bind_some, ha, Option.map_some]

theorem IsData.poolOf_grows {d} (hd : IsData h d) (h0 : HeapPure h) (h0' : HeapPure h') (hg : Grows h h') :
    h'.poolOf d = h.poolOf d := by
  obtain ⟨a, m, ha, rfl⟩ := hd
  obtain ⟨m', ha', hdata, hpool⟩ := hg.node ha
  rw [← hdata, h0'.poolOf ha', hdata, h0.poolOf ha, hpool]

/-- The blocks that clients hold stay those of their pools. -/
theorem HeapPure.blocksOf_grows (h0 : HeapPure h) (h0' : HeapPure h') (hg : Grows h h') {held : List Addr}
    (hheld : ∀ d ∈ held, IsData h d) : h'.blocksOf p held = h.blocksOf p held := by
  unfold Heap.blocksOf
  refine List.countP_congr fun d hd => ?_
  rw [(hheld d hd).poolOf_grows h0 h0' hg]

theorem HeapPure.blocksOf_data (h0 : HeapPure h) {a m} (ha : h.nodes a = some m) :
    h.blocksOf p [m.data] = if m.pool = p then 1 else 0 := by
  simp [Heap.blocksOf, List.countP_cons, h0.poolOf ha]

/-- From `q` to `q'` pool `p` counts what a thread takes, allocates and
returns as it moves on from `pc`, which it then has, or has no more. -/
structure Counts (h' : Heap) (p : Addr) (pc pc' : Pc) (d : Option Addr) (q q' : MemPool) : Prop where
  allocs : q'.numAllocs.toNat = (q.numAllocs.toNat + pc.allocated p) % 2 ^ 32
  available : (q'.numAvailable.toNat + pc.taken p) % 2 ^ 32 = (q.numAvailable.toNat + pc.returned p) % 2 ^ 32
  out : h'.blocksOf p (gain d) + pc'.returning p + pc.returned p = pc.returning p + pc.taken p + pc.allocated p

/-- A step that leaves pool `p` as it is and counts nothing of it. -/
theorem Counts.keep {pc pc' d} (hallocated : pc.allocated p = 0) (htaken : pc.taken p = 0) (hreturned : pc.returned p = 0)
    (hd : gain d = []) (hreturning : pc'.returning p = pc.returning p) : Counts h' p pc pc' d q q := by
  refine ⟨?_, ?_, ?_⟩
  · rw [hallocated]
    exact (Nat.mod_eq_of_lt q.numAllocs.toNat_lt).symm
  · rw [htaken, hreturned]
  · rw [hallocated, htaken, hreturned, hd, hreturning]
    simp [Heap.blocksOf]

/-- A step that changes one pool, `p` or another. -/
theorem counts_setPool {p' : Addr} {r' : MemPool} {pc pc' d} (hq : h.pools p = some q)
    (hsame : p' = p → r'.numAllocs.toNat = (q.numAllocs.toNat + pc.allocated p) % 2 ^ 32 ∧
      (r'.numAvailable.toNat + pc.taken p) % 2 ^ 32 = (q.numAvailable.toNat + pc.returned p) % 2 ^ 32)
    (hother : p' ≠ p → pc.allocated p = 0 ∧ pc.taken p = 0 ∧ pc.returned p = 0)
    (hout : (h.setPool p' r').blocksOf p (gain d) + pc'.returning p + pc.returned p =
      pc.returning p + pc.taken p + pc.allocated p) :
    ∃ q', (h.setPool p' r').pools p = some q' ∧ Counts (h.setPool p' r') p pc pc' d q q' := by
  by_cases hp : p' = p
  · exact ⟨r', by rw [setPool_pools, if_pos hp.symm], (hsame hp).1, (hsame hp).2, hout⟩
  · obtain ⟨hallocated, htaken, hreturned⟩ := hother hp
    refine ⟨q, by rw [setPool_pools, if_neg (Ne.symm hp)]; exact hq, ?_, by rw [htaken, hreturned], hout⟩
    rw [hallocated]
    exact (Nat.mod_eq_of_lt q.numAllocs.toNat_lt).symm

theorem Move.counts {sp ms pc pc' d} (hm : Move h sp ms pc h' pc' d) (h0 : HeapPure h) (hpc : PcPure h pc)
    (hms : h.Mallocs ms) (hq : h.pools p = some q) : ∃ q', h'.pools p = some q' ∧ Counts h' p pc pc' d q q' := by
  have hallocs := Nat.mod_eq_of_lt q.numAllocs.toNat_lt
  have hlt := q.numAvailable.toNat_lt
  have hpure := (hm.pure h0 hpc hms).1
  cases hm with
  | crash hf =>
    obtain ⟨_, _, rfl, -⟩ := hpc.faulty h0 hf
    exact ⟨q, hq, .keep rfl rfl rfl rfl rfl⟩
  | acquireTake hr | returnPut hr =>
    refine counts_setPool hq (fun hp => ?_) (fun _ => ⟨rfl, rfl, rfl⟩) (by simp [gain, Heap.blocksOf, Pc.taken, Pc.allocated,
      Pc.returned, Pc.returning])
    subst hp
    cases hq.symm.trans hr
    exact ⟨hallocs.symm, rfl⟩
  | @acquireDone p' a r m hr ha =>
    obtain ⟨m', ha', hmp⟩ := hpc
    cases ha.symm.trans ha'
    refine counts_setPool hq (fun hp => ?_) (fun hp => by simp [Pc.taken, Pc.allocated, Pc.returned, hp]) ?_
    · subst hp
      cases hq.symm.trans hr
      refine ⟨hallocs.symm, ?_⟩
      simp only [Pc.taken, Pc.returned, if_true, UInt32.toNat_sub, UInt32.toNat_one]
      omega
    · rw [gain_some (h0.data_ne ha), hpure.blocksOf_data (a := a) ha, hmp]
      simp [Pc.taken, Pc.allocated, Pc.returned, Pc.returning]
  | @allocDone p' a r m hr ha =>
    obtain ⟨m', ha', hmp⟩ := hpc
    cases ha.symm.trans ha'
    refine counts_setPool hq (fun hp => ?_) (fun hp => by simp [Pc.taken, Pc.allocated, Pc.returned, hp]) ?_
    · subst hp
      cases hq.symm.trans hr
      refine ⟨?_, rfl⟩
      simp only [Pc.allocated, if_true, UInt32.toNat_add, UInt32.toNat_one]
    · rw [gain_some (h0.data_ne ha), hpure.blocksOf_data (a := a) ha, hmp]
      simp [Pc.taken, Pc.allocated, Pc.returned, Pc.returning]
  | @returnDone p' r hr =>
    refine counts_setPool hq (fun hp => ?_) (fun hp => by simp [Pc.taken, Pc.allocated, Pc.returned, hp])
      (by simp [Pc.taken, Pc.allocated, Pc.returned, Pc.returning, Heap.blocksOf])
    subst hp
    cases hq.symm.trans hr
    refine ⟨hallocs.symm, ?_⟩
    simp only [Pc.taken, Pc.returned, if_true, UInt32.toNat_add, UInt32.toNat_one]
    omega
  | _ => exact ⟨q, hq, .keep rfl rfl rfl rfl rfl⟩

end

/-! ## The balance -/

section
variable {T : Type} [DecidableEq T] {mp : MultiPool} {s s' : State T} {tr : Trace (State T) (Act T)} {p : Addr}

theorem pure_of_owned {h₀} (hb : Blank h₀) (hr : (machine h₀ mp T).Run tr s) (hown : Along (Owned mp) tr) : Pure s :=
  hr.invariant (Q := Owned mp) (fun _ h => .init hb h) (fun _ _ _ hi ha h => hi.step (ha.obtained hi) (step_cases h)) hown

/-- The stage that a step moves a call on from. -/
def stage (s : State T) : Act T → Pc
  | .run t _ _ => (s.threads t).pc
  | _ => .idle

omit [DecidableEq T] in
/-- Only the allocation of a node comes to the update of `num_allocs`. -/
theorem newNode_length {t : T} {sp ms h' pc' d} (hm : Move s.heap sp ms (s.threads t).pc h' pc' d) :
    (newNode p s (.run t sp ms)).toList.length = pc'.allocated p := by
  unfold newNode
  simp only [hm.advance_eq]
  cases pc' with
  | acquireTrackAlloc pool node => by_cases hp : pool = p <;> simp [Pc.allocated, hp]
  | _ => rfl

theorem acquireEntry_counts {h : Heap} {th : Thread} {pool : Addr} {request : Option UInt32} (hpc : th.pc = .idle) :
    (acquireEntry pool).allocated p = 0 ∧ h.out p { th with pc := acquireEntry pool, request } = h.out p th := by
  rw [Heap.out, Heap.out, hpc, acquireEntry]
  split <;> exact ⟨rfl, rfl⟩

omit [DecidableEq T] in
/-- A block that is returned stays out. -/
theorem returnEntry_counts (hpure : Pure s) {t : T} {d : Addr} (hd : d ∈ (s.threads t).held) (hpc : (s.threads t).pc = .idle) :
    (returnEntry s.heap d).allocated p = 0 ∧
    s.heap.out p { pc := returnEntry s.heap d, held := (s.threads t).held.erase d } = s.heap.out p (s.threads t) := by
  obtain ⟨a, m, ha, rfl⟩ := hpure.held t d hd
  have hentry := hpure.heap.returnEntry ha
  have hperm := (List.perm_cons_erase hd).countP_eq fun d => decide (s.heap.poolOf d = some p)
  rw [List.countP_cons, hpure.heap.poolOf ha] at hperm
  refine ⟨by rw [hentry]; rfl, ?_⟩
  simp only [Heap.out, Heap.blocksOf, hentry, hpc, Pc.returning, hperm, decide_eq_true_eq, Option.some.injEq]
  omega

variable [Fintype T]

/-- The calls that have allocated a node of pool `p` and not counted it. -/
def uncounted (s : State T) (p : Addr) : Nat := ∑ t, (s.threads t).pc.allocated p

theorem uncounted_set (k : Heap) (t : T) (th : Thread) :
    uncounted (({ s with heap := k } : State T).set t th) p + (s.threads t).pc.allocated p =
      uncounted s p + th.pc.allocated p :=
  Tally.sum_update s.threads (fun th => th.pc.allocated p) t th

/-- The blocks out of pool `p` after a step of thread `t`. -/
theorem outstanding_set (h : Pure s) {k : Heap} (hk : HeapPure k) (hg : Grows s.heap k) (t : T) (th : Thread) :
    outstanding (({ s with heap := k } : State T).set t th) p + s.heap.out p (s.threads t) =
      outstanding s p + k.out p th := by
  have hout : ∀ u, k.out p (s.threads u) = s.heap.out p (s.threads u) := fun u => by
    rw [Heap.out, h.heap.blocksOf_grows hk hg (h.held u), Heap.out]
  have hsum := Tally.sum_update s.threads (k.out p) t th
  rw [hout, Finset.sum_congr rfl fun u _ => hout u] at hsum
  exact hsum

/-- What a step does to the counters of pool `p`, to the blocks out and to the
nodes not counted yet. -/
structure Flow (p : Addr) (s : State T) (a : Act T) (s' : State T) (q q' : MemPool) : Prop where
  allocs : q'.numAllocs.toNat = (q.numAllocs.toNat + (stage s a).allocated p) % 2 ^ 32
  available : (q'.numAvailable.toNat + (stage s a).taken p) % 2 ^ 32 =
    (q.numAvailable.toNat + (stage s a).returned p) % 2 ^ 32
  out : outstanding s' p + (stage s a).returned p = outstanding s p + (stage s a).taken p + (stage s a).allocated p
  pending : uncounted s' p + (stage s a).allocated p = uncounted s p + (newNode p s a).toList.length

/-- An acquire or a return is called. -/
theorem Flow.call (hpure : Pure s) {t : T} {th : Thread} {a : Act T} {q : MemPool} (hstage : stage s a = .idle)
    (hnew : newNode p s a = none) (hpc : (s.threads t).pc = .idle)
    (hth : th.pc.allocated p = 0 ∧ s.heap.out p th = s.heap.out p (s.threads t)) : Flow p s a (s.set t th) q q := by
  have h₁ : uncounted (s.set t th) p + _ = _ := uncounted_set s.heap t th
  have h₂ : outstanding (s.set t th) p + _ = _ := outstanding_set hpure hpure.heap (.refl _) t th
  have hlt := q.numAllocs.toNat_lt
  rw [hpc] at h₁
  have h₃ : Pc.allocated p .idle = 0 := rfl
  refine ⟨?_, ?_, ?_, ?_⟩ <;> rw [hstage]
  · exact (Nat.mod_eq_of_lt hlt).symm
  · rfl
  · show outstanding (s.set t th) p + 0 = outstanding s p + 0 + 0
    omega
  · rw [hnew]
    show uncounted (s.set t th) p + 0 = uncounted s p + 0
    omega

theorem Step.flow {a : Act T} (hs : Step mp s a s') (hpure : Pure s) (hown : Owned mp s a) {q' : MemPool}
    (hq' : s'.heap.pools p = some q') : ∃ q, s.heap.pools p = some q ∧ Flow p s a s' q q' := by
  cases hs with
  | @acquire t pool hpc => exact ⟨q', hq', .call hpure rfl rfl hpc (acquireEntry_counts hpc)⟩
  | @multiAcquire t size hpc =>
    obtain ⟨pool, hpick, -⟩ := hown
    refine ⟨q', hq', .call hpure rfl rfl hpc ?_⟩
    rw [hpick]
    exact acquireEntry_counts hpc
  | @ret t d hpc => exact ⟨q', hq', .call hpure rfl rfl hpc (returnEntry_counts hpure hown hpc)⟩
  | @run t sp ms h' pc' d hms hm =>
    have hg := hm.grows hms
    obtain ⟨hk, -⟩ := hm.pure hpure.heap (hpure.pc t) hms
    obtain ⟨q, hq, -⟩ := hg.pool_of hq'
    obtain ⟨r, hr, hcounts⟩ := hm.counts hpure.heap (hpure.pc t) hms hq
    cases hq'.symm.trans hr
    have hblocks : h'.blocksOf p (gain d ++ (s.threads t).held) =
        h'.blocksOf p (gain d) + s.heap.blocksOf p (s.threads t).held := by
      rw [← hpure.heap.blocksOf_grows hk hg (hpure.held t), Heap.blocksOf, List.countP_append]
      rfl
    have hset : ∀ th : Thread, th.pc = pc' → th.held = gain d ++ (s.threads t).held →
        Flow p s (.run t sp ms) (({ s with heap := h' } : State T).set t th) q q' := by
      intro th hpc hheld
      have h₁ := uncounted_set (s := s) (p := p) h' t th
      have h₂ := outstanding_set (p := p) hpure hk hg t th
      have h₃ := hcounts.out
      rw [Heap.out, Heap.out, hheld, hblocks, hpc] at h₂
      rw [hpc] at h₁
      refine ⟨hcounts.allocs, hcounts.available, ?_, by rw [newNode_length hm]; exact h₁⟩
      show _ + (s.threads t).pc.returned p = _ + (s.threads t).pc.taken p + (s.threads t).pc.allocated p
      omega
    exact ⟨q, hq, hset _ rfl rfl⟩

/-- The counters of pool `p` after a run. -/
structure Tracked (p : Addr) (tr : Trace (State T) (Act T)) (s : State T) : Prop where
  allocs : allocs p tr < 2 ^ 32 → ∀ q, s.heap.pools p = some q → q.numAllocs.toNat + uncounted s p = allocs p tr
  available : ∀ q, s.heap.pools p = some q →
    (q.numAvailable.toNat + outstanding s p) % 2 ^ 32 = q.numAllocs.toNat

omit [Fintype T] [DecidableEq T] in
theorem allocs_cons {a : Act T} : allocs p ((s, a) :: tr) = allocs p tr + (newNode p s a).toList.length := by
  rw [allocs, log, List.length_append, allocs]

omit [DecidableEq T] in
theorem stage_le {a : Act T} : (stage s a).allocated p ≤ uncounted s p := by
  cases a with
  | run t sp ms => exact Tally.le_sum s.threads (fun th => th.pc.allocated p) t
  | _ => exact Nat.zero_le _

theorem Tracked.step {a : Act T} (h : Tracked p tr s) (hpure : Pure s) (hown : Owned mp s a) (hs : Step mp s a s') :
    Tracked p ((s, a) :: tr) s' := by
  refine ⟨fun hfew q' hq' => ?_, fun q' hq' => ?_⟩
  · obtain ⟨q, hq, hflow⟩ := hs.flow hpure hown hq'
    rw [allocs_cons] at hfew ⊢
    have h₁ := h.allocs (by omega) q hq
    have h₂ := hflow.allocs
    have h₃ := hflow.pending
    have h₄ := stage_le (s := s) (a := a) (p := p)
    omega
  · obtain ⟨q, hq, hflow⟩ := hs.flow hpure hown hq'
    have h₁ := h.available q hq
    have h₂ := hflow.available
    have h₃ := hflow.out
    have h₄ := hflow.allocs
    omega

/-- Pools that have counted nothing yet. -/
structure Unused (h : Heap) : Prop where
  blank : Blank h
  allocs : ∀ p q, h.pools p = some q → q.numAllocs = 0
  available : ∀ p q, h.pools p = some q → q.numAvailable = 0

theorem Tracked.init {h₀} (hu : Unused h₀) (h : (machine h₀ mp T).init s) : Tracked p [] s := by
  obtain ⟨rfl, ht⟩ := h
  refine ⟨fun _ q hq => ?_, fun q hq => ?_⟩
  · rw [hu.allocs p q hq]
    simp [uncounted, ht, Pc.allocated, Simple.allocs]
  · rw [hu.allocs p q hq, hu.available p q hq]
    simp [outstanding, ht, Heap.out, Heap.blocksOf, Pc.returning]

/-- **The balance of a pool**: what is available and what is out add up to what
was allocated. -/
theorem tracked_of_run {h₀} (hu : Unused h₀) (hr : (machine h₀ mp T).Run tr s) (hown : Along (Owned mp) tr) :
    Tracked p tr s := by
  induction hr with
  | init h => exact .init hu h
  | step hr hs ih =>
    rw [along_cons] at hown
    exact (ih hown.2).step (pure_of_owned hu.blank hr hown.2) hown.1 (step_cases hs)

/-! ## Below zero or not -/

/-- No more blocks of pool `p` are out than were allocated (or `num_allocs` is
the largest number). -/
def Settled (p : Addr) (s : State T) : Prop :=
  ∀ q, s.heap.pools p = some q → outstanding s p ≤ q.numAllocs.toNat ∨ q.numAllocs.toNat = 2 ^ 32 - 1

omit [DecidableEq T] in
theorem Covered.out {a : Act T} (h : Covered s a) (ht : (stage s a).taken p ≠ 0) {q : MemPool}
    (hq : s.heap.pools p = some q) : outstanding s p < q.numAllocs.toNat ∨ q.numAllocs.toNat = 2 ^ 32 - 1 := by
  cases a with
  | run t sp ms =>
    simp only [stage] at ht
    simp only [Covered] at h
    cases hpc : (s.threads t).pc with
    | acquireTrack pool a =>
      rw [hpc] at ht h
      simp only [Pc.taken, ne_eq, ite_eq_right_iff, one_ne_zero, imp_false, Decidable.not_not] at ht
      subst ht
      exact h q hq
    | _ => rw [hpc] at ht; exact absurd rfl ht
  | _ => exact absurd rfl ht

theorem Settled.step {a : Act T} (h : Settled p s) (hpure : Pure s) (hown : Owned mp s a) (htr : Tracked p tr s)
    (hfew : allocs p tr < 2 ^ 32) (hcov : Covered s a) (hs : Step mp s a s') : Settled p s' := by
  intro q' hq'
  obtain ⟨q, hq, hflow⟩ := hs.flow hpure hown hq'
  have h₁ := htr.allocs hfew q hq
  have h₂ := hflow.allocs
  have h₃ := hflow.out
  have h₄ := stage_le (s := s) (a := a) (p := p)
  have htaken : (stage s a).taken p ≤ 1 := by
    cases stage s a with
    | acquireTrack pool a => simp only [Pc.taken]; split <;> omega
    | _ => exact Nat.zero_le _
  by_cases ht : (stage s a).taken p = 0
  · rcases h q hq with hle | hmax <;> omega
  · rcases hcov.out ht hq with hlt | hmax <;> omega

omit [DecidableEq T] in
/-- Where no more are out than were allocated, at most that many are available. -/
theorem Settled.le (h : Settled p s) (htr : Tracked p tr s) {q : MemPool} (hq : s.heap.pools p = some q) :
    q.numAvailable ≤ q.numAllocs := by
  have h₁ := htr.available q hq
  have h₂ := q.numAvailable.toNat_lt
  rw [UInt32.le_iff_toNat_le]
  rcases h q hq with hle | hmax <;> omega

/-- An acquire that counts its block when all are out takes the counter below
zero. -/
theorem covered_of_le {a : Act T} (hsettled : ∀ p, Settled p s) (htr : ∀ p, Tracked p tr s) (hpure : Pure s)
    (hown : Owned mp s a) (hs : Step mp s a s') (hle : AvailableLe s') : Covered s a := by
  cases a with
  | run t sp ms =>
    simp only [Covered]
    cases hpc : (s.threads t).pc with
    | acquireTrack p b =>
      intro q hq
      obtain ⟨q', hq', -⟩ := hs.grows.pool hq
      obtain ⟨r, hr, hflow⟩ := hs.flow hpure hown hq'
      cases Option.some.inj (hr.symm.trans hq)
      have h₁ := (htr p).available q hq
      have h₂ := hflow.allocs
      have h₃ := hflow.available
      have h₄ := UInt32.le_iff_toNat_le.1 (hle p q' hq')
      have h₅ := q.numAvailable.toNat_lt
      have h₆ := q'.numAvailable.toNat_lt
      have h₇ := q.numAllocs.toNat_lt
      simp only [stage, hpc, Pc.taken, Pc.allocated, Pc.returned, if_true] at h₂ h₃
      by_contra hno
      rw [not_or] at hno
      rcases hsettled p q hq with hle | hmax <;> omega
    | _ => trivial
  | _ => trivial

omit [Fintype T] [DecidableEq T] in
theorem few_of_cons {a : Act T} (h : ∀ p, allocs p ((s, a) :: tr) < 2 ^ 32) (p : Addr) : allocs p tr < 2 ^ 32 := by
  have := h p
  rw [allocs_cons] at this
  omega

theorem settled_of_run {h₀} (hu : Unused h₀) (hr : (machine h₀ mp T).Run tr s) (hown : Along (Owned mp) tr)
    (hfew : ∀ p, allocs p tr < 2 ^ 32) (hcov : Along Covered tr) : Settled p s := by
  induction hr with
  | init h =>
    intro q hq
    rw [h.1] at hq
    exact .inl (by simp [outstanding, h.2, Heap.out, Heap.blocksOf, Pc.returning])
  | step hr hs ih =>
    have hfew' := few_of_cons hfew
    rw [along_cons] at hown hcov
    exact (ih hown.2 hfew' hcov.2).step (pure_of_owned hu.blank hr hown.2) hown.1 (tracked_of_run hu hr hown.2)
      (hfew' p) hcov.1 (step_cases hs)

/-- **The counter stays in range** in all states of a run if and only if no
acquire counts its block as unavailable when as many are out as were allocated. -/
theorem available_iff_covered {h₀} (hu : Unused h₀) (hr : (machine h₀ mp T).Run tr s) (hown : Along (Owned mp) tr)
    (hfew : ∀ p, allocs p tr < 2 ^ 32) : Always AvailableLe tr s ↔ Along Covered tr := by
  induction hr with
  | init h =>
    refine iff_of_true ⟨by simp, fun p q hq => ?_⟩ along_nil
    rw [h.1] at hq
    rw [hu.available p q hq, hu.allocs p q hq]
    exact UInt32.le_refl 0
  | step hr hs ih =>
    have hfew' := few_of_cons hfew
    have hown' := along_cons.1 hown
    have hpure := pure_of_owned hu.blank hr hown'.2
    rw [always_step, ih hown'.2 hfew', along_cons]
    constructor
    · rintro ⟨hcov, hle⟩
      exact ⟨covered_of_le (fun p => settled_of_run hu hr hown'.2 hfew' hcov) (fun p => tracked_of_run hu hr hown'.2)
        hpure hown'.1 (step_cases hs) hle, hcov⟩
    · rintro ⟨hcov, hrest⟩
      have hrun := hr.step hs
      exact ⟨hrest, fun p q hq => (settled_of_run hu hrun hown hfew (along_cons.2 ⟨hcov, hrest⟩)).le
        (tracked_of_run hu hrun hown) hq⟩

end

theorem onePool_unused : Unused onePool := by
  have hq : ∀ {p q}, onePool.pools p = some q → q = { memSize := 8 } := by
    intro p q h
    simp only [onePool, setPool_pools, Option.ite_none_right_eq_some, Option.some.injEq] at h
    exact h.2.symm
  exact ⟨onePool_blank, fun p q h => by rw [hq h], fun p q h => by rw [hq h]⟩

/-- Thread `t` returns a block, and thread `u` acquires it before it is counted. -/
def uncountedReturn {T : Type} (t u : T) : List (Act T) :=
  acquireNew t (10, 20) ++ [.ret t 28] ++ runs t 3 ++ [.acquire u 1] ++ runs u 4

/-- **Below zero**: one block was allocated, and `num_available` is the largest
number there is. -/
theorem underflow : ∃ tr s, (machine onePool noMultiPool (Fin 2)).Run tr s ∧ Along (Owned noMultiPool) tr ∧
    allocs 1 tr = 1 ∧ s.heap.pools 1 = some { head := 0, memSize := 8, numAllocs := 1, numAvailable := 4294967295 } ∧
    ¬AvailableLe s := by
  have h := exists_run (m := machine onePool noMultiPool (Fin 2)) (s := ⟨onePool, fun _ => {}⟩)
    (l := uncountedReturn 0 1)
    (p := fun tr s => decide (Along (Owned noMultiPool) tr ∧ allocs 1 tr = 1 ∧
      s.heap.pools 1 = some { head := 0, memSize := 8, numAllocs := 1, numAvailable := 4294967295 }))
    ⟨rfl, fun _ => rfl⟩ (by decide +kernel)
  obtain ⟨tr, s, hr, hp⟩ := h
  simp only [decide_eq_true_eq] at hp
  obtain ⟨hown, hallocs, hpool⟩ := hp
  exact ⟨tr, s, hr, hown, hallocs, hpool, fun hle => absurd (hle 1 _ hpool) (by decide)⟩

/-- Of two blocks the first is returned and acquired again, before its return
has counted it: the second is available meanwhile. -/
theorem available_two : ∃ tr s, (machine onePool noMultiPool (Fin 2)).Run tr s ∧ (s.threads 0).pc = .returnTrack 1 ∧
    (s.threads 1).held = [28] ∧ Always AvailableLe tr s := by
  have h := exists_run (m := machine onePool noMultiPool (Fin 2)) (s := ⟨onePool, fun _ => {}⟩)
    (l := acquireNew 0 (10, 20) ++ acquireNew 0 (11, 40) ++ [.ret 0 48] ++ runs 0 4 ++ [.ret 0 28] ++ runs 0 3 ++
      [.acquire 1 1] ++ runs 1 4)
    (p := fun tr s => decide (Along (Owned noMultiPool) tr ∧ Along Covered tr ∧ (s.threads 0).pc = .returnTrack 1 ∧
      (s.threads 1).held = [28] ∧ tr.length < 2 ^ 32)) ⟨rfl, fun _ => rfl⟩ (by decide +kernel)
  obtain ⟨tr, s, hr, hp⟩ := h
  simp only [decide_eq_true_eq] at hp
  obtain ⟨hown, hcov, hpc, hheld, hlen⟩ := hp
  have hfew : ∀ p, allocs p tr < 2 ^ 32 := fun p => Nat.lt_of_le_of_lt (log_length_le _ _) hlen
  exact ⟨tr, s, hr, hpc, hheld, (available_iff_covered onePool_unused hr hown hfew).2 hcov⟩

end Dxpool.Simple
