/-
A program that uses one multipool, whichever of its calls of `malloc` fail.
`multipool_create` stores what `alloc_mem_pool` gives it, NULL included; so the
program survives if and only if the creation gets nothing or everything
(`survives_iff`). Later failures do no harm: an acquire answers NULL and
changes nothing.
-/
import Dxpool.Simple.Multipool
import Dxpool.Simple.Session

namespace Dxpool.Simple

open Machine

/-! ## A client -/

/-- A program that uses one multipool, and the blocks it holds. -/
structure MultiSession where
  mem : MultiMem := {}
  stage : Stage := .noPool
  held : List Addr := []

inductive MultiCall
  | acquire (multipool : Addr) (size : UInt32) (failures : List Bool)
  | ret (data : Addr) (failures : List Bool)
  | free (multipool : Addr)
  deriving DecidableEq, Repr

namespace MultiSession

/-- The client's contract: a call is about its multipool, until that is freed;
a size asked for is one that some pool has, and a block returned is one that it
holds. -/
def Allows (s : MultiSession) : MultiCall → Prop
  | .acquire multipool size _ => s.stage = .pool multipool ∧ 1 ≤ size.toNat ∧ size.toNat ≤ 2 ^ 22
  | .ret data _ => data ∈ s.held ∧ ∃ multipool, s.stage = .pool multipool
  | .free multipool => s.stage = .pool multipool

instance (s : MultiSession) (c : MultiCall) : Decidable (s.Allows c) :=
  match c with
  | .acquire _ _ _ => inferInstanceAs (Decidable (_ ∧ _))
  | .free _ => inferInstanceAs (Decidable (_ = _))
  | .ret data _ =>
    match h : s.stage with
    | .pool multipool => decidable_of_iff (data ∈ s.held) (by simp [Allows, h])
    | .noPool | .freed => isFalse (by simp [Allows, h])

/-- After `multipool_create` in an empty memory. -/
def created (malloc : Malloc) : MultiSession :=
  let (multipool, mem) := MultiMem.multipoolCreate malloc {}
  { mem, stage := if multipool = NULL then .noPool else .pool multipool }

def exec (malloc : Malloc) (s : MultiSession) : MultiCall → Except Fault MultiSession
  | .acquire multipool size failures => do
    let (data, mem) ← MultiMem.multipoolMemAcquire malloc s.mem multipool size failures
    return { s with mem, held := if data = NULL then s.held else data :: s.held }
  | .ret data failures => do
    let mem ← poolMemReturn s.mem.toMem data failures
    return { s with mem := { s.mem with toMem := mem }, held := s.held.erase data }
  | .free multipool => do
    let mem ← MultiMem.multipoolFree s.mem multipool
    return { s with mem, stage := .freed }

end MultiSession

/-- The program: its calls one after another, until one faults. -/
def multiProgram (malloc : Malloc) : Machine (Except Fault MultiSession) MultiCall where
  init r := r = .ok (.created malloc)
  step r c :=
    match r with
    | .error _ => none
    | .ok s => if s.Allows c then some (s.exec malloc c) else none

/-- What the first calls of `malloc` give, latest first, if nothing is freed between them. -/
def Malloc.given (malloc : Malloc) : Nat → List Addr
  | 0 => []
  | k + 1 => malloc k (given malloc k) :: given malloc k

/-- `multipool_create` gets nothing at all, or its record and every pool. -/
def Malloc.Complete (malloc : Malloc) : Prop :=
  malloc 0 [] = NULL ∨ ∀ k < multipoolEntryCount + 1, malloc k (malloc.given k) ≠ NULL

instance (malloc : Malloc) : Decidable malloc.Complete := inferInstanceAs (Decidable (_ ∨ _))

/-- The multipool survives failures: NULL is the answer when nothing is live,
no call faults, and an acquire answers NULL and changes nothing, or answers a
live block. -/
structure Survives (malloc : Malloc) : Prop where
  create : (MultiMem.multipoolCreate malloc {}).1 = NULL → (MultiMem.multipoolCreate malloc {}).2.ledger = []
  run : ∀ tr e, ¬(multiProgram malloc).Run tr (.error e)
  acquire : ∀ tr s multipool size failures, (multiProgram malloc).Run tr (.ok s) →
    s.Allows (.acquire multipool size failures) → ∃ data m,
      MultiMem.multipoolMemAcquire malloc s.mem multipool size failures = .ok (data, m) ∧
      (data = NULL → m.heap = s.mem.heap ∧ m.ledger = s.mem.ledger ∧ m.multipools = s.mem.multipools) ∧
      (data ≠ NULL → data - headerSize ∈ m.ledger)

/-! ## Creation -/

section
variable {malloc : Malloc} {mp : MultiPool} {m : Mem} {shelves : List Shelf} {rest : List Addr}
  {l : List (Fin multipoolEntryCount)}

variable (malloc mp m) in
/-- The loop of `multipool_create` gets everything, or leaves NULL in an entry. -/
theorem createLoop_given (hnd : l.Nodup) (hgiven : m.ledger = malloc.given m.calls) :
    ((∀ k, m.calls ≤ k → k < m.calls + l.length → malloc k (malloc.given k) ≠ NULL) ∧
      ∀ i ∈ l, (MultiMem.createLoop malloc l mp m).1.pools i ≠ NULL) ∨
    (∃ k, m.calls ≤ k ∧ k < m.calls + l.length ∧ malloc k (malloc.given k) = NULL) ∧
      ∃ i ∈ l, (MultiMem.createLoop malloc l mp m).1.pools i = NULL := by
  induction l generalizing mp m with
  | nil => exact .inl ⟨fun k hk hk' => absurd hk' (by simpa using hk), by simp⟩
  | cons i l ih =>
    obtain ⟨hi, hnd⟩ := List.nodup_cons.1 hnd
    have hentry := @createLoop_entry malloc mp m l i hi
    by_cases hnull : malloc m.calls m.ledger = NULL
    · exact .inr ⟨⟨m.calls, Nat.le_refl _, by simp, hgiven ▸ hnull⟩, i, List.mem_cons_self, hentry.trans hnull⟩
    · obtain ⟨m', hledger, hcalls, hloop⟩ : ∃ m', m'.ledger = malloc m.calls m.ledger :: m.ledger ∧ m'.calls = m.calls + 1 ∧
          MultiMem.createLoop malloc (i :: l) mp m =
            MultiMem.createLoop malloc l ⟨Function.update mp.pools i (malloc m.calls m.ledger)⟩ m' := by
        simp only [MultiMem.createLoop, allocMemPool, Mem.alloc, if_neg hnull]
        exact ⟨_, rfl, rfl, rfl⟩
      have hgiven' : m'.ledger = malloc.given m'.calls := by rw [hledger, hcalls, hgiven]; rfl
      rcases ih ⟨Function.update mp.pools i (malloc m.calls m.ledger)⟩ m' hnd hgiven' with
        ⟨hall, hpools⟩ | ⟨⟨k, hk, hk', hbad⟩, j, hj, hjnull⟩
      · refine .inl ⟨fun k hk hk' => ?_, List.forall_mem_cons.2 ⟨hentry ▸ hnull, hloop ▸ hpools⟩⟩
        rcases Nat.eq_or_lt_of_le hk with rfl | hk
        · exact hgiven ▸ hnull
        · exact hall k (by omega) (by rw [List.length_cons] at hk'; omega)
      · rw [hloop]
        exact .inr ⟨⟨k, by omega, by rw [List.length_cons]; omega, hbad⟩, j, List.mem_cons_of_mem _ hj, hjnull⟩

/-! ## The invariant -/

/-- The client has the multipool, and holds what is out on its shelves. -/
structure Tended (s : MultiSession) (multipool : Addr) (mp : MultiPool) (shelves : List Shelf) : Prop where
  stage : s.stage = .pool multipool
  record : s.mem.multipools multipool = some mp
  pools : (shelves.map Shelf.pool).Perm ((List.finRange multipoolEntryCount).map mp.pools)
  shelved : Shelved s.mem.toMem shelves [multipool]
  held : s.held.Perm (shelves.flatMap (·.blocks s.mem.heap))

inductive Stocked (s : MultiSession) : Prop
  | noPool : s.stage = .noPool → s.held = [] → Stocked s
  | pool {multipool mp shelves} : Tended s multipool mp shelves → Stocked s
  | freed : s.stage = .freed → (s.held = [] → s.mem.ledger = []) → Stocked s

/-- What `multipool_create` leaves: nothing, a multipool in order, or one with
a pool that is NULL. -/
theorem created_cases (hmalloc : malloc.Fresh) :
    (malloc 0 [] = NULL ∧ MultiSession.created malloc = { mem := { calls := 1 } }) ∨
    (malloc.Complete ∧ malloc 0 [] ≠ NULL ∧ ∃ multipool mp shelves, Tended (.created malloc) multipool mp shelves) ∨
    ¬malloc.Complete ∧ ∃ multipool mp i, multipool ≠ NULL ∧ (MultiSession.created malloc).stage = .pool multipool ∧
      (MultiSession.created malloc).mem.multipools multipool = some mp ∧ mp.pools i = NULL := by
  by_cases hnull : malloc 0 [] = NULL
  · refine .inl ⟨hnull, ?_⟩
    rw [MultiSession.created, multipoolCreate_null hnull]
    rfl
  · have hcreated : MultiSession.created malloc =
        { mem := (MultiMem.multipoolCreate malloc {}).2, stage := .pool (malloc 0 []) } := by
      rw [MultiSession.created, multipoolCreate_ne hnull]
      simp only [if_neg hnull]
    rw [hcreated, multipoolCreate_ne hnull]
    have hmem : Shelved { ledger := [malloc 0 []], calls := 1 } [] [malloc 0 []] :=
      ⟨by simp, .refl _, by simp, by simpa using Ne.symm hnull, fun a _ => ⟨rfl, rfl, rfl⟩⟩
    obtain ⟨shelves, hs, hperm, hout, -⟩ := hmem.createLoop malloc ⟨fun _ => NULL⟩ hmalloc (List.nodup_finRange _)
    have hgiven := createLoop_given malloc ⟨fun _ => NULL⟩ { ledger := [malloc 0 []], calls := 1 }
      (List.nodup_finRange multipoolEntryCount) rfl
    simp only [List.length_finRange, List.append_nil] at hgiven hs
    generalize MultiMem.createLoop malloc (List.finRange multipoolEntryCount) ⟨fun _ => NULL⟩ _ = r at *
    have hrecord : Function.update (fun _ => none) (malloc 0 []) (some r.1) (malloc 0 []) = some r.1 :=
      Function.update_self ..
    rcases hgiven with ⟨hall, hpools⟩ | ⟨⟨k, -, hk, hbad⟩, i, -, hi⟩
    · refine .inr (.inl ⟨.inr fun k hk => ?_, hnull, _, _, shelves, rfl, hrecord, made_eq hpools ▸ hperm, hs, ?_⟩)
      · rcases Nat.eq_zero_or_pos k with rfl | hpos
        · exact hnull
        · exact hall k hpos (by omega)
      · rw [List.flatMap_eq_nil_iff.2 fun s hs => by rw [Shelf.blocks, hout s hs]; rfl]
    · refine .inr (.inr ⟨?_, _, _, i, hnull, rfl, hrecord, hi⟩)
      intro hcomplete
      rcases hcomplete with hnull' | hall
      · exact hnull hnull'
      · exact hall k (by omega) hbad

/-- After a creation that gets everything. -/
theorem created_tended (hmalloc : malloc.Fresh) (hcomplete : malloc.Complete) (hne : malloc 0 [] ≠ NULL) :
    ∃ mp shelves, Tended (.created malloc) (malloc 0 []) mp shelves := by
  have hstage : (MultiSession.created malloc).stage = .pool (malloc 0 []) := by
    rw [MultiSession.created, multipoolCreate_ne hne]
    simp only [if_neg hne]
  rcases created_cases hmalloc with ⟨hnull, -⟩ | ⟨-, -, multipool, mp, shelves, h⟩ | ⟨hnot, -⟩
  · exact absurd hnull hne
  · cases hstage.symm.trans h.stage
    exact ⟨mp, shelves, h⟩
  · exact absurd hcomplete hnot

/-! ## Calls -/

variable {s : MultiSession} {multipool : Addr}

theorem Tended.ne (h : Tended s multipool mp shelves) : multipool ≠ NULL := fun he =>
  h.shelved.null (he ▸ h.shelved.ledger.mem_iff.2 (List.mem_append_right _ (List.mem_singleton_self _)))

theorem Tended.perm {shelves' : List Shelf} (h : Tended s multipool mp shelves) (hperm : shelves.Perm shelves') :
    Tended s multipool mp shelves' :=
  ⟨h.stage, h.record, (hperm.map _).symm.trans h.pools, h.shelved.perm hperm, h.held.trans (hperm.flatMap_right _)⟩

/-- `multipool_mem_acquire` answers NULL and changes nothing, or hands out a block. -/
theorem Tended.acquire (h : Tended s multipool mp shelves) (hmalloc : malloc.Fresh) {size : UInt32}
    (hpos : 1 ≤ size.toNat) (hmax : size.toNat ≤ 2 ^ 22) (failures : List Bool) : ∃ data m,
      MultiMem.multipoolMemAcquire malloc s.mem multipool size failures = .ok (data, m) ∧
      (data = NULL ∧ m.heap = s.mem.heap ∧ m.ledger = s.mem.ledger ∧ m.multipools = s.mem.multipools ∨
        data ≠ NULL ∧ data - headerSize ∈ m.ledger ∧
          ∃ shelves', Tended { s with mem := m, held := data :: s.held } multipool mp shelves') := by
  obtain ⟨pool, hpick⟩ := pick_of_le mp hpos hmax
  obtain ⟨i, -, hi⟩ := pick_some hpick
  obtain ⟨shelf, others, rfl, hperm⟩ := exists_shelf (h.pools.mem_iff.2 (List.mem_map.2 ⟨i, List.mem_finRange i, hi⟩))
  replace h := h.perm hperm
  simp only [MultiMem.multipoolMemAcquire, assert, if_pos h.ne, ok_bind, h.record, access, hpick]
  rcases h.shelved.acquire hmalloc failures with
    ⟨m', hacquire, hheap, hledger⟩ | ⟨a, chain, m', hacquire, hne, hshelved, hblocks, -⟩
  · rw [hacquire]
    exact ⟨NULL, _, rfl, .inl ⟨rfl, hheap, hledger, rfl⟩⟩
  · rw [hacquire]
    have hlive := (hshelved.stock.mem_parts (List.mem_append_right _ List.mem_cons_self)).2
    refine ⟨_, _, rfl, .inr ⟨hne, hlive, { pool := shelf.pool, chain, out := a :: shelf.out } :: others, h.stage,
      h.record, h.pools, hshelved, ?_⟩⟩
    rw [hblocks]
    exact h.held.cons _

/-- `pool_mem_return` takes a block back. -/
theorem Tended.ret (h : Tended s multipool mp shelves) {data : Addr} (hd : data ∈ s.held) (failures : List Bool) :
    ∃ m shelves', poolMemReturn s.mem.toMem data failures = .ok m ∧
      Tended { s with mem := { s.mem with toMem := m }, held := s.held.erase data } multipool mp shelves' := by
  obtain ⟨m', shelves', hreturn, hshelved, hpools, hblocks, -⟩ := h.shelved.takeBack (h.held.mem_iff.1 hd) failures
  refine ⟨m', shelves', hreturn, h.stage, h.record, hpools ▸ h.pools, hshelved, ?_⟩
  exact (List.cons_perm_iff_perm_erase.1 (hblocks.trans h.held.symm)).2.symm

/-- `multipool_free` leaves what the client holds. -/
theorem Tended.free (h : Tended s multipool mp shelves) : ∃ m, MultiMem.multipoolFree s.mem multipool = .ok m ∧
    (s.held = [] → m.ledger = []) := by
  have hshelved : Shelved s.mem.toMem (shelves ++ []) [multipool] := by
    rw [List.append_nil]
    exact h.shelved
  obtain ⟨m, hfree, -, hleft, -⟩ := hshelved.multipoolFree h.record h.pools
  refine ⟨m, hfree, fun hheld => ?_⟩
  have hblocks := h.held
  rw [hheld] at hblocks
  have hout : ∀ t ∈ shelves, t.out = [] := fun t ht =>
    List.map_eq_nil_iff.1 (List.flatMap_eq_nil_iff.1 hblocks.symm.eq_nil t ht)
  have hledger := hleft.ledger
  rw [List.flatMap_nil, List.flatMap_eq_nil_iff.2 fun t ht => by rw [hout t ht]; rfl] at hledger
  exact hledger.eq_nil

/-! ## Runs -/

/-- One call faults nowhere, whatever `malloc` gives it. -/
theorem Stocked.step (h : Stocked s) (hmalloc : malloc.Fresh) {c : MultiCall} (hc : s.Allows c) :
    ∃ s', s.exec malloc c = .ok s' ∧ Stocked s' := by
  cases h with
  | noPool hstage hheld =>
    cases c with
    | acquire => exact absurd (hstage.symm.trans hc.1) (by simp)
    | ret => rw [MultiSession.Allows, hheld] at hc; cases hc.1
    | free => exact absurd (hstage.symm.trans hc) (by simp)
  | @pool multipool mp shelves h =>
    cases c with
    | acquire multipool' size failures =>
      obtain ⟨hstage, hpos, hmax⟩ := hc
      cases h.stage.symm.trans hstage
      obtain ⟨data, m, hacquire, ⟨rfl, hheap, hledger, hmultipools⟩ | ⟨hne, -, shelves', h'⟩⟩ :=
        h.acquire hmalloc hpos hmax failures
      · simp only [MultiSession.exec, hacquire, ok_bind, if_true]
        refine ⟨_, rfl, .pool ⟨h.stage, hmultipools ▸ h.record, h.pools, h.shelved.of_eq hheap hledger, ?_⟩⟩
        simp only [hheap]
        exact h.held
      · simp only [MultiSession.exec, hacquire, ok_bind, if_neg hne]
        exact ⟨_, rfl, .pool h'⟩
    | ret data failures =>
      obtain ⟨m, shelves', hreturn, h'⟩ := h.ret hc.1 failures
      simp only [MultiSession.exec, hreturn, ok_bind]
      exact ⟨_, rfl, .pool h'⟩
    | free multipool' =>
      cases h.stage.symm.trans hc
      obtain ⟨m, hfree, hempty⟩ := h.free
      simp only [MultiSession.exec, hfree, ok_bind]
      exact ⟨_, rfl, .freed rfl hempty⟩
  | freed hstage =>
    cases c with
    | acquire => exact absurd (hstage.symm.trans hc.1) (by simp)
    | ret =>
      obtain ⟨-, multipool, hp⟩ := hc
      exact absurd (hstage.symm.trans hp) (by simp)
    | free => exact absurd (hstage.symm.trans hc) (by simp)

theorem created_stocked (hmalloc : malloc.Fresh) (hcomplete : malloc.Complete) : Stocked (.created malloc) := by
  rcases created_cases hmalloc with ⟨-, hcreated⟩ | ⟨-, -, multipool, mp, shelves, h⟩ | ⟨hnot, -⟩
  · rw [hcreated]
    exact .noPool rfl rfl
  · exact .pool h
  · exact absurd hcomplete hnot

/-- Every run of a complete multipool. -/
theorem stocked_of_run {tr : Trace (Except Fault MultiSession) MultiCall} {r : Except Fault MultiSession}
    (hmalloc : malloc.Fresh) (hcomplete : malloc.Complete) (hr : (multiProgram malloc).Run tr r) :
    ∃ s, r = .ok s ∧ Stocked s := by
  induction hr with
  | init h => exact ⟨_, h, created_stocked hmalloc hcomplete⟩
  | step _ hs ih =>
    obtain ⟨s, rfl, h⟩ := ih
    simp only [multiProgram, Option.ite_none_right_eq_some, Option.some.injEq] at hs
    obtain ⟨hc, rfl⟩ := hs
    exact h.step hmalloc hc

/-- The index of the size that the blocks of a pool have. -/
theorem pick_classSize (mp : MultiPool) (i : Fin multipoolEntryCount) :
    mp.pick (1 <<< (dynPoolMinMultiPoolMemNodeSizeBits + UInt32.ofNat i)) = some (mp.pools i) := by
  have hindex : ∀ i : Fin multipoolEntryCount, (findMultipoolIndexForSize
      (1 <<< (dynPoolMinMultiPoolMemNodeSizeBits + UInt32.ofNat i))).toNat = i := by decide
  simp only [MultiPool.pick, hindex, i.isLt, dif_pos]

/-- A pool that is NULL fails the assertion of the first acquire of its size. -/
theorem acquire_null {s : MultiSession} {i : Fin multipoolEntryCount} (hne : multipool ≠ NULL)
    (hrecord : s.mem.multipools multipool = some mp) (hi : mp.pools i = NULL) (failures : List Bool) :
    s.exec malloc (.acquire multipool (1 <<< (dynPoolMinMultiPoolMemNodeSizeBits + UInt32.ofNat i)) failures) =
      .error .assertion := by
  simp only [MultiSession.exec, MultiMem.multipoolMemAcquire, assert, if_pos hne, ok_bind, hrecord, access,
    pick_classSize, hi, poolMemAcquire, ne_eq, not_true, if_false]
  rfl

theorem fails_of_incomplete (hmalloc : malloc.Fresh) (hnot : ¬malloc.Complete) :
    ∃ tr, (multiProgram malloc).Run tr (.error .assertion) := by
  rcases created_cases hmalloc with ⟨hnull, -⟩ | ⟨hcomplete, -⟩ | ⟨-, multipool, mp, i, hne, hstage, hrecord, hi⟩
  · exact absurd (.inl hnull) hnot
  · exact absurd hcomplete hnot
  · have hsize := classSize_toNat i
    have hallows : (MultiSession.created malloc).Allows
        (.acquire multipool (1 <<< (dynPoolMinMultiPoolMemNodeSizeBits + UInt32.ofNat i)) []) := by
      refine ⟨hstage, ?_, ?_⟩
      · rw [hsize]; exact Nat.pow_pos (by decide)
      · have := i.isLt
        unfold multipoolEntryCount at this
        rw [hsize]
        exact Nat.pow_le_pow_right (by decide) (by omega)
    have hstep : (multiProgram malloc).step (.ok (.created malloc))
        (.acquire multipool (1 <<< (dynPoolMinMultiPoolMemNodeSizeBits + UInt32.ofNat i)) []) =
        some (.error .assertion) := by
      simp only [multiProgram, if_pos hallows, acquire_null hne hrecord hi]
    exact ⟨_, .step (.init rfl) hstep⟩

/-- **Survival.** Whichever later calls of `malloc` fail, a multipool survives
if and only if its creation gets nothing or everything; if it does not, some
program fails an assertion. -/
theorem survives_iff (hmalloc : malloc.Fresh) : (Survives malloc ↔ malloc.Complete) ∧
    (¬malloc.Complete → ∃ tr, (multiProgram malloc).Run tr (.error .assertion)) := by
  refine ⟨⟨fun h => ?_, fun hcomplete => ⟨fun hnull => ?_, fun tr e hr => ?_, ?_⟩⟩, fails_of_incomplete hmalloc⟩
  · by_contra hnot
    obtain ⟨tr, hr⟩ := fails_of_incomplete hmalloc hnot
    exact h.run tr _ hr
  · by_cases hne : malloc 0 [] = NULL
    · rw [multipoolCreate_null hne]
    · rw [multipoolCreate_ne hne] at hnull
      exact absurd hnull hne
  · obtain ⟨s, hs, -⟩ := stocked_of_run hmalloc hcomplete hr
    cases hs
  · intro tr s multipool size failures hr ⟨hstage, hpos, hmax⟩
    obtain ⟨s', hs, hstocked⟩ := stocked_of_run hmalloc hcomplete hr
    cases hs
    cases hstocked with
    | noPool hstage' => exact absurd (hstage'.symm.trans hstage) (by simp)
    | freed hstage' => exact absurd (hstage'.symm.trans hstage) (by simp)
    | pool h =>
      cases h.stage.symm.trans hstage
      obtain ⟨data, m, hacquire, ⟨rfl, hsame⟩ | ⟨hne, hlive, -⟩⟩ := h.acquire hmalloc hpos hmax failures
      · exact ⟨NULL, m, hacquire, fun _ => hsame, fun hne => absurd rfl hne⟩
      · exact ⟨data, m, hacquire, fun hnull => absurd hnull hne, fun _ => hlive⟩

end

/-- The creation gets all its calls, and the first acquire no data area. -/
theorem survives_aboveBut : Survives (aboveBut 16) := ((survives_iff (aboveBut_fresh 16)).1).2 (.inr (by decide +kernel))

/-- The `malloc` of the third pool fails, and the first acquire of 2048 bytes asserts. -/
theorem null_pool : (aboveBut 3).Fresh ∧ ¬Survives (aboveBut 3) := by
  refine ⟨aboveBut_fresh 3, fun h => ?_⟩
  have hrun := exists_run (m := multiProgram (aboveBut 3)) (s := .ok (.created (aboveBut 3)))
    (l := [.acquire 16 512 [], .acquire 16 2048 []])
    (p := fun _ r => match r with | .error e => decide (e = .assertion) | .ok _ => false) rfl (by decide +kernel)
  obtain ⟨tr, r, hr, hp⟩ := hrun
  cases r with
  | error e => exact h.run tr e hr
  | ok => cases hp

end Dxpool.Simple
