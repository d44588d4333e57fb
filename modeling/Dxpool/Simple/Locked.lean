/-
A multipool behind a lock: threads that make their calls one at a time, each
with the functions that one thread runs, over `malloc` and the ledger. Every run of
it is a run of the threads that step one atomic operation at a time, in
which no call is interrupted and no acquire meets an ABA (`run_locked`).
-/
import Dxpool.Refine
import Dxpool.Simple.Global
import Dxpool.Simple.Teardown

namespace Dxpool.Simple

open Machine

/-- The memory, and the blocks that each thread holds. -/
structure Locked (T : Type) where
  mem : MultiMem
  held : T → List Addr := fun _ => []

inductive LockedCall (T : Type)
  | acquire (t : T) (size : UInt32) (failures : List Bool)
  | ret (t : T) (data : Addr) (failures : List Bool)
  deriving DecidableEq, Repr

section
variable {T : Type} [DecidableEq T]

/-- The clients' contract: a size asked for is one that some pool has, and a
thread returns a block that it holds. -/
def Locked.Allows (s : Locked T) : LockedCall T → Prop
  | .acquire _ size _ => 1 ≤ size.toNat ∧ size.toNat ≤ 2 ^ 22
  | .ret t data _ => data ∈ s.held t

instance (s : Locked T) (c : LockedCall T) : Decidable (s.Allows c) :=
  match c with
  | .acquire _ _ _ => inferInstanceAs (Decidable (_ ∧ _))
  | .ret _ _ _ => inferInstanceAs (Decidable (_ ∈ _))

def Locked.exec (malloc : Malloc) (multipool : Addr) (s : Locked T) : LockedCall T → Except Fault (Locked T)
  | .acquire t size failures => do
    let (data, mem) ← MultiMem.multipoolMemAcquire malloc s.mem multipool size failures
    return { mem, held := Function.update s.held t (gain (some data) ++ s.held t) }
  | .ret t data failures => do
    let mem ← poolMemReturn s.mem.toMem data failures
    return { mem := { s.mem with toMem := mem }, held := Function.update s.held t ((s.held t).erase data) }

/-- The threads' calls one after another, until one faults, on a multipool just created. -/
def lockedProgram (malloc : Malloc) (T : Type) [DecidableEq T] : Machine (Except Fault (Locked T)) (LockedCall T) where
  init r := r = .ok { mem := (MultiMem.multipoolCreate malloc {}).2 }
  step r c :=
    match r with
    | .error _ => none
    | .ok s => if s.Allows c then some (s.exec malloc (MultiMem.multipoolCreate malloc {}).1 c) else none

end

/-! ## A call without interruption -/

/-- The step of a call that runs alone: the client keeps its contract, and no head
has changed. -/
def Alone {T : Type} (mp : MultiPool) (s : State T) (a : Act T) : Prop := Owned mp s a ∧ NoAba s a

section
variable {T : Type} [DecidableEq T] {h₀ h h' : Heap} {mp : MultiPool} {threads : T → Thread} {t : T}
  {request : Option UInt32} {held : List Addr} {p a : Addr} {q : MemPool} {n : MemNode} {s : State T}

/-- Thread `t` in a call, beside the others. -/
def calling (threads : T → Thread) (t : T) (request : Option UInt32) (h : Heap) (pc : Pc) (held : List Addr) : State T :=
  ⟨h, Function.update threads t { pc, held, request }⟩

/-- A step of the call, and the rest of it. -/
theorem Move.reaches {sp : Bool} {ms : Addr × Addr} {pc pc' : Pc} {d : Option Addr} (hm : Move h sp ms pc h' pc' d)
    (hidle : pc ≠ .idle) (hms : h.Mallocs ms) (hno : ∀ p a b, pc = .acquireCas p a b → h.nextOf a = b)
    (hrest : (machine h₀ mp T).Reaches (Alone mp) (calling threads t request h' pc' (gain d ++ held)) s) :
    (machine h₀ mp T).Reaches (Alone mp) (calling threads t request h pc held) s := by
  refine Reaches.cons (a := .run t sp ms) ⟨trivial, ?_⟩ ?_ hrest
  · simp only [NoAba, calling, Function.update_self]
    cases pc with
    | acquireCas p a b => exact fun _ => hno p a b rfl
    | _ => trivial
  · simp only [machine, step, calling, Function.update_self, if_neg (not_or.2 ⟨hidle, not_not.2 hms⟩), hm.advance_eq,
      State.set, Function.update_idem]
    rfl

theorem mallocs_null : h.Mallocs (NULL, NULL) := by simp [Heap.Mallocs]

/-- The same, for a step that does not compare and swap, nor allocate. -/
theorem Move.reaches' {pc pc' : Pc} {d : Option Addr} (hm : Move h false (NULL, NULL) pc h' pc' d)
    (hidle : pc ≠ .idle) (hcas : ∀ p a b, pc ≠ .acquireCas p a b)
    (hrest : (machine h₀ mp T).Reaches (Alone mp) (calling threads t request h' pc' (gain d ++ held)) s) :
    (machine h₀ mp T).Reaches (Alone mp) (calling threads t request h pc held) s :=
  hm.reaches hidle mallocs_null (fun p a b hpc => absurd hpc (hcas p a b)) hrest

/-- **An acquire that finds a node**, however often its compare-and-swap fails. -/
theorem acquire_alone (hq : h.pools p = some q) (hne : q.head ≠ NULL) (hn : h.nodes q.head = some n) (failures : List Bool) :
    (machine h₀ mp T).Reaches (Alone mp) (calling threads t request h (.acquireLoadHead p) held)
      (calling threads t request (h.setPool p { q with head := n.next, numAvailable := q.numAvailable - 1 }) .idle
        (gain (some n.data) ++ held)) := by
  have htake : (machine h₀ mp T).Reaches (Alone mp) (calling threads t request h (.acquireCas p q.head n.next) held)
      (calling threads t request (h.setPool p { q with head := n.next, numAvailable := q.numAvailable - 1 }) .idle
        (gain (some n.data) ++ held)) := by
    have hm : Move h false (NULL, NULL) (.acquireCas p q.head n.next) _ (.acquireTrack p q.head) none := .acquireTake hq rfl rfl
    refine hm.reaches (by simp) mallocs_null ?_ ?_
    · intro p' a b hpc
      cases hpc
      exact nextOf_eq hn
    · have hq' : (h.setPool p { q with head := n.next }).pools p = some { q with head := n.next } := by
        rw [setPool_pools, if_pos rfl]
      have hdone : Move _ false (NULL, NULL) (.acquireTrack p q.head) _ .idle (some n.data) := .acquireDone hq' hn
      rw [Heap.setPool, Heap.setPool, Function.update_idem] at hdone
      exact hdone.reaches' (by simp) (by simp) (.refl _)
  have hload : ∀ {s : State T}, (machine h₀ mp T).Reaches (Alone mp) (calling threads t request h (.acquireCas p q.head n.next) held) s →
      (machine h₀ mp T).Reaches (Alone mp) (calling threads t request h (.acquireLoadHead p) held) s := fun hrest =>
    (Move.acquireHead hq hne).reaches' (by simp) (by simp) ((Move.acquireNext hn).reaches' (by simp) (by simp) hrest)
  induction failures with
  | nil => exact hload htake
  | cons b failures ih =>
    cases b with
    | false => exact hload htake
    | true =>
      have hm : Move h true (NULL, NULL) (.acquireCas p q.head n.next) h (.acquireLoadHead p) none := .acquireFail hq (by simp)
      refine hload (hm.reaches (by simp) mallocs_null ?_ ih)
      intro p' a b hpc
      cases hpc
      exact nextOf_eq hn

/-- **An acquire that allocates**, or fails to. -/
theorem alloc_alone {malloc : Malloc} {m m' : Mem} {data : Addr} (hmalloc : malloc.Fresh)
    (hfree : ∀ a, a ∉ m.ledger → m.heap.Free a) (hp : p ≠ NULL) (hq : m.heap.pools p = some q) (hsize : q.memSize ≠ 0)
    (hnull : q.head = NULL) (hrun : poolMemTryAllocData malloc m p = .ok (data, m')) :
    (machine h₀ mp T).Reaches (Alone mp) (calling threads t request m.heap (.acquireLoadHead p) held)
      (calling threads t request m'.heap .idle (gain (some data) ++ held)) := by
  refine (Move.acquireEmpty hq hnull).reaches' (by simp) (by simp) ?_
  have hfail : (machine h₀ mp T).Reaches (Alone mp) (calling threads t request m.heap (.acquireAlloc p) held)
      (calling threads t request m.heap .idle (gain (some NULL) ++ held)) := by
    have hm : Move m.heap false (NULL, NULL) (.acquireAlloc p) m.heap .idle (some NULL) := .allocFail hq hsize (.inl rfl)
    exact hm.reaches' (by simp) (by simp) (.refl _)
  simp only [poolMemTryAllocData, allocPoolableMem, assert, if_pos hp, ok_bind, access, hq, if_pos hsize, Mem.alloc] at hrun
  by_cases hnode : malloc m.calls m.ledger = NULL
  · simp only [hnode, if_true] at hrun
    cases hrun
    exact hfail
  · have hnew := hmalloc _ _ hnode
    simp only [if_neg hnode, mem_setNode_ledger] at hrun
    generalize malloc m.calls m.ledger = node at hnode hnew hrun
    by_cases hptr : malloc (m.calls + 1) (node :: m.ledger) = NULL
    · simp only [Mem.setNode, hptr, if_true] at hrun
      rw [free_eq hnode List.mem_cons_self] at hrun
      cases hrun
      simp only [release_setNode (hfree node hnew)]
      exact hfail
    · have hnew' := hmalloc _ _ hptr
      simp only [Mem.setNode, hptr, if_false] at hrun
      generalize malloc (m.calls + 1) (node :: m.ledger) = ptrData at hptr hnew' hrun
      rw [List.mem_cons, not_or] at hnew'
      have hheap : ((m.heap.setNode node { next := NULL, data := NULL, pool := NULL }).setBlock ptrData
          { word := node, bytes := q.memSize.toNat + headerSize }).setNode node
          { next := NULL, data := ptrData + headerSize, pool := p } = m.heap.allocPoolableMem p q node ptrData := by
        simp only [Heap.allocPoolableMem, Heap.setNode, Heap.setBlock, Function.update_idem]
      simp only [pure_bind, Mem.setBlock, hheap, if_neg hnode, trackPoolUsageAllocs] at hrun
      have hq' : (m.heap.allocPoolableMem p q node ptrData).pools p = some q := hq
      have hn' : (m.heap.allocPoolableMem p q node ptrData).nodes node =
          some { next := NULL, data := ptrData + headerSize, pool := p } := by rw [alloc_nodes, if_pos rfl]
      rw [trackPoolUsage_eq (m := ⟨m.heap.allocPoolableMem p q node ptrData, ptrData :: node :: m.ledger, m.calls + 1 + 1⟩)
        hq'] at hrun
      simp only [ok_bind, mem_setPool_heap, setPool_nodes, hn'] at hrun
      cases hrun
      have hms : m.heap.Mallocs (node, ptrData) :=
        ⟨fun _ => ⟨hfree node hnew, fun he => hnew'.1 he.symm⟩, fun _ => hfree ptrData hnew'.2⟩
      have halloc : Move m.heap false (node, ptrData) (.acquireAlloc p) _ (.acquireTrackAlloc p node) none :=
        .alloc hq hsize hnode hptr
      refine halloc.reaches (by simp) hms (by simp) ?_
      have hdone : Move _ false (NULL, NULL) (.acquireTrackAlloc p node) _ .idle (some (ptrData + headerSize)) :=
        .allocDone hq' hn'
      exact hdone.reaches' (by simp) (by simp) (.refl _)

/-- **A return**, however often its compare-and-swap fails. -/
theorem return_alone (hq : h.pools p = some q) (hn : h.nodes a = some n) (failures : List Bool) :
    (machine h₀ mp T).Reaches (Alone mp) (calling threads t request h (.returnLoadHead a p) held)
      (calling threads t request ((h.setNode a { n with next := q.head }).setPool p
        { q with head := a, numAvailable := q.numAvailable + 1 }) .idle held) := by
  have hlink : ∀ {h : Heap} {n : MemNode} {s : State T}, h.pools p = some q → h.nodes a = some n →
      (machine h₀ mp T).Reaches (Alone mp)
        (calling threads t request (h.setNode a { n with next := q.head }) (.returnCas a p q.head) held) s →
      (machine h₀ mp T).Reaches (Alone mp) (calling threads t request h (.returnLoadHead a p) held) s := fun hq hn hrest =>
    (Move.returnHead hq).reaches' (by simp) (by simp) ((Move.returnStore hn).reaches' (by simp) (by simp) hrest)
  have hput : ∀ {h : Heap}, h.pools p = some q → (machine h₀ mp T).Reaches (Alone mp)
      (calling threads t request h (.returnCas a p q.head) held)
      (calling threads t request (h.setPool p { q with head := a, numAvailable := q.numAvailable + 1 }) .idle held) := by
    intro h hq
    have hm : Move h false (NULL, NULL) (.returnCas a p q.head) _ (.returnTrack p) none := .returnPut hq rfl rfl
    refine hm.reaches' (by simp) (by simp) ?_
    have hq' : (h.setPool p { q with head := a }).pools p = some { q with head := a } := by rw [setPool_pools, if_pos rfl]
    have hdone : Move _ false (NULL, NULL) (.returnTrack p) _ .idle none := .returnDone hq'
    rw [Heap.setPool, Heap.setPool, Function.update_idem] at hdone
    exact hdone.reaches' (by simp) (by simp) (.refl _)
  induction failures generalizing h n with
  | nil => exact hlink hq hn (hput hq)
  | cons b failures ih =>
    cases b with
    | false => exact hlink hq hn (hput hq)
    | true =>
      have hm : Move (h.setNode a { n with next := q.head }) true (NULL, NULL) (.returnCas a p q.head) _ (.returnLoadHead a p)
          none := .returnFail hq (by simp)
      have hn' : (h.setNode a { n with next := q.head }).nodes a = some { n with next := q.head } := by
        rw [setNode_nodes, if_pos rfl]
      have hagain : (h.setNode a { n with next := q.head }).setNode a { n with next := q.head } =
          h.setNode a { n with next := q.head } := by simp only [Heap.setNode, Function.update_idem]
      have hrest := ih (h := h.setNode a { n with next := q.head }) hq hn'
      rw [hagain] at hrest
      exact hlink hq hn (hm.reaches (by simp) mallocs_null (by simp) hrest)

/-! ## A call on one of the pools -/

variable {m m' : Mem} {shelf : Shelf} {others shelves : List Shelf} {rest : List Addr}

/-- What `pool_mem_acquire` leaves is what its steps come to. -/
theorem Shelved.acquire_alone {malloc : Malloc} {data : Addr} (hm : Shelved m (shelf :: others) rest) (hmalloc : malloc.Fresh)
    {failures : List Bool} (hrun : poolMemAcquire malloc m shelf.pool failures = .ok (data, m')) :
    (machine h₀ mp T).Reaches (Alone mp) (calling threads t request m.heap (.acquireLoadHead shelf.pool) held)
      (calling threads t request m'.heap .idle (gain (some data) ++ held)) := by
  have hstock := hm.stock
  obtain ⟨q, hq, hsize⟩ := (hm.stands shelf List.mem_cons_self).pool
  simp only [poolMemAcquire, assert, if_pos hstock.ne, ok_bind] at hrun
  by_cases hnull : q.head = NULL
  · rw [acquireLoop_null hq hnull] at hrun
    exact alloc_alone hmalloc hm.outside hstock.ne hq hsize hnull hrun
  · obtain ⟨n, hn⟩ : ∃ n, m.heap.nodes q.head = some n := by
      obtain ⟨chain, hchain, -⟩ := (headOf_eq hq ▸ hstock.linked).of_ne hnull
      obtain ⟨n, hn, -⟩ := (hstock.whole q.head (by rw [hchain]; simp)).node
      exact ⟨n, hn⟩
    rw [acquireLoop_head hq hnull hn failures] at hrun
    cases hrun
    exact Simple.acquire_alone hq hnull hn failures

theorem Shelved.returnEntry_eq (hm : Shelved m (shelf :: others) rest) (ha : a ∈ shelf.out) :
    returnEntry m.heap (m.heap.dataOf a) = .returnLoadHead a shelf.pool := by
  have hw := hm.stock.whole a (List.mem_append_right _ ha)
  obtain ⟨n, hn, hpool, -⟩ := hw.node
  rw [returnEntry, if_neg (by rw [hw.dataOf]; exact Nat.succ_ne_zero _), hw.getMemnodeInData]
  simp only [hn, hpool]

/-- What `pool_mem_return` leaves is what its steps come to. -/
theorem Shelved.return_alone (hm : Shelved m (shelf :: others) rest) (ha : a ∈ shelf.out) {failures : List Bool}
    (hrun : poolMemReturn m (m.heap.dataOf a) failures = .ok m') :
    (machine h₀ mp T).Reaches (Alone mp) (calling threads t request m.heap (.returnLoadHead a shelf.pool) held)
      (calling threads t request m'.heap .idle held) := by
  have hw := hm.stock.whole a (List.mem_append_right _ ha)
  obtain ⟨q, hq, -⟩ := (hm.stands shelf List.mem_cons_self).pool
  obtain ⟨n, hn, hpool, -⟩ := hw.node
  have hdata : m.heap.dataOf a ≠ NULL := by rw [hw.dataOf]; exact Nat.succ_ne_zero _
  simp only [poolMemReturn, assert, if_pos hdata, ok_bind, hw.getMemnodeInData, access, hn] at hrun
  rw [hpool, returnLoop_eq hq hn] at hrun
  cases hrun
  exact Simple.return_alone hq hn failures

end

/-! ## Runs -/

section
variable {T : Type} [DecidableEq T] [Fintype T] {malloc : Malloc} {s : Locked T} {multipool : Addr} {mp : MultiPool}
  {shelves : List Shelf} {h₀ : Heap}

/-- The multipool has all its pools, and the blocks that are out are with the threads. -/
structure Manned (s : Locked T) (multipool : Addr) (mp : MultiPool) (shelves : List Shelf) : Prop where
  record : s.mem.multipools multipool = some mp
  pools : (shelves.map Shelf.pool).Perm ((List.finRange multipoolEntryCount).map mp.pools)
  shelved : Shelved s.mem.toMem shelves [multipool]
  held : ∀ d, ∑ t, (s.held t).count d = (shelves.flatMap (·.blocks s.mem.heap)).count d

/-- Between calls: the same heap, and the same blocks with each thread. -/
structure Same (s : Locked T) (S : State T) : Prop where
  heap : S.heap = s.mem.heap
  thread : ∀ t, (S.threads t).pc = .idle ∧ (S.threads t).held = s.held t

omit [Fintype T] in
/-- The thread whose call is done. -/
theorem Same.set {S : State T} {s' : Locked T} {t : T} {request : Option UInt32} {l : List Addr} (h : Same s S)
    (hheld : s'.held = Function.update s.held t l) : Same s' (calling S.threads t request s'.mem.heap .idle l) := by
  refine ⟨rfl, fun u => ?_⟩
  rw [hheld]
  simp only [calling, Function.update_apply]
  split
  · exact ⟨rfl, rfl⟩
  · exact h.thread u

/-- The blocks with the threads, when one of them has others. -/
theorem count_update (held : T → List Addr) (t : T) (l : List Addr) (d : Addr) :
    ∑ u, (Function.update held t l u).count d + (held t).count d = ∑ u, (held u).count d + l.count d :=
  Tally.sum_update held (fun l => l.count d) t l

omit [DecidableEq T] in
theorem Manned.ne (h : Manned s multipool mp shelves) : multipool ≠ NULL := fun he =>
  h.shelved.null (he ▸ h.shelved.ledger.mem_iff.2 (List.mem_append_right _ (List.mem_singleton_self _)))

/-- An acquire, and the steps it takes. -/
theorem Manned.acquire {S : State T} {t : T} {size : UInt32} (h : Manned s multipool mp shelves) (hS : Same s S)
    (hmalloc : malloc.Fresh) (hpos : 1 ≤ size.toNat) (hmax : size.toNat ≤ 2 ^ 22) (failures : List Bool) :
    ∃ s' shelves' S', s.exec malloc multipool (.acquire t size failures) = .ok s' ∧ Manned s' multipool mp shelves' ∧
      (machine h₀ mp T).Reaches (Alone mp) S S' ∧ Same s' S' := by
  obtain ⟨pool, hpick⟩ := pick_of_le mp hpos hmax
  obtain ⟨i, -, hi⟩ := pick_some hpick
  obtain ⟨shelf, others, hshelf, hperm⟩ : ∃ shelf others, shelf.pool = pool ∧ shelves.Perm (shelf :: others) :=
    exists_shelf (h.pools.mem_iff.2 (List.mem_map.2 ⟨i, List.mem_finRange i, hi⟩))
  subst hshelf
  have hm : Shelved s.mem.toMem (shelf :: others) [multipool] := h.shelved.perm hperm
  have hpools := (hperm.map Shelf.pool).symm.trans h.pools
  have hexec : s.exec malloc multipool (.acquire t size failures) = (do
      let r ← poolMemAcquire malloc s.mem.toMem shelf.pool failures
      return { mem := { s.mem with toMem := r.2 }, held := Function.update s.held t (gain (some r.1) ++ s.held t) }) := by
    simp only [Locked.exec, MultiMem.multipoolMemAcquire, assert, if_pos h.ne, ok_bind, h.record, access, hpick]
    cases poolMemAcquire malloc s.mem.toMem shelf.pool failures <;> rfl
  have hcall : ∀ {data m'}, poolMemAcquire malloc s.mem.toMem shelf.pool failures = .ok (data, m') →
      (machine h₀ mp T).Reaches (Alone mp) S (calling S.threads t (some size) m'.heap .idle (gain (some data) ++ s.held t)) := by
    intro data m' hrun
    refine Reaches.cons (a := .multiAcquire t size) ⟨⟨shelf.pool, hpick, ?_⟩, trivial⟩ ?_ (hm.acquire_alone hmalloc hrun)
    · obtain ⟨q, hq, -⟩ := (hm.stands shelf List.mem_cons_self).pool
      exact ⟨q, hS.heap ▸ hq⟩
    · obtain ⟨hidle, hheld⟩ := hS.thread t
      simp only [machine, step, if_pos hidle, hpick, Option.elim_some, acquireEntry, if_neg hm.stock.ne, State.set, calling,
        hheld, hS.heap]
  rw [hexec]
  rcases hm.acquire hmalloc failures with ⟨m', hrun, hheap, hledger⟩ | ⟨b, chain, m', hrun, hdata, hm', hblocks, -⟩
  · rw [hrun, ok_bind]
    refine ⟨_, shelf :: others, _, rfl, ⟨h.record, hpools, hm.of_eq hheap hledger, fun d => ?_⟩, hcall hrun, hS.set rfl⟩
    have hcount := count_update s.held t (gain (some NULL) ++ s.held t) d
    rw [gain_null, List.nil_append] at hcount
    have hold := h.held d
    rw [(hperm.flatMap_right fun x : Shelf => x.blocks s.mem.heap).count_eq] at hold
    simp only [hheap, gain_null, List.nil_append] at hcount ⊢
    omega
  · rw [hrun, ok_bind]
    refine ⟨_, { pool := shelf.pool, chain, out := b :: shelf.out } :: others, _, rfl, ⟨h.record, hpools, hm', fun d => ?_⟩,
      hcall hrun, hS.set rfl⟩
    have hgain : gain (some (m'.heap.dataOf b)) ++ s.held t = m'.heap.dataOf b :: s.held t := by
      rw [gain_some hdata]
      rfl
    have hcount := count_update s.held t (m'.heap.dataOf b :: s.held t) d
    have hold := h.held d
    rw [(hperm.flatMap_right fun x : Shelf => x.blocks s.mem.heap).count_eq] at hold
    have hnew := congrArg (List.count d) hblocks
    rw [List.count_cons] at hcount hnew
    simp only [hgain, hnew]
    omega

/-- A return, and the steps it takes. -/
theorem Manned.ret {S : State T} {t : T} {data : Addr} (h : Manned s multipool mp shelves) (hS : Same s S)
    (hd : data ∈ s.held t) (failures : List Bool) :
    ∃ s' shelves' S', s.exec malloc multipool (.ret t data failures) = .ok s' ∧ Manned s' multipool mp shelves' ∧
      (machine h₀ mp T).Reaches (Alone mp) S S' ∧ Same s' S' := by
  have hblock : data ∈ shelves.flatMap (·.blocks s.mem.heap) := by
    rw [← List.count_pos_iff, ← h.held data]
    exact Nat.lt_of_lt_of_le (List.count_pos_iff.2 hd) (Tally.le_sum s.held (fun l => l.count data) t)
  obtain ⟨shelf, l₁, l₂, a, rfl, ha, rfl⟩ := shelf_of_block hblock
  have hm : Shelved s.mem.toMem (shelf :: (l₁ ++ l₂)) [multipool] := h.shelved.perm List.perm_middle
  have hpools := ((@List.perm_middle _ _ l₁ l₂).map Shelf.pool).symm.trans h.pools
  obtain ⟨m', hrun, hm', hblocks, -⟩ := hm.ret ha failures
  have hcall : (machine h₀ mp T).Reaches (Alone mp) S
      (calling S.threads t none m'.heap .idle ((s.held t).erase (s.mem.heap.dataOf a))) := by
    obtain ⟨hidle, hheld⟩ := hS.thread t
    have hstep : (machine h₀ mp T).step S (.ret t (s.mem.heap.dataOf a)) =
        some (calling S.threads t none s.mem.heap (.returnLoadHead a shelf.pool) ((s.held t).erase (s.mem.heap.dataOf a))) := by
      simp only [machine, step, if_pos hidle, State.set, calling, hheld, hS.heap, hm.returnEntry_eq ha]
    refine Reaches.cons (a := .ret t (s.mem.heap.dataOf a)) ⟨?_, trivial⟩ hstep (hm.return_alone ha hrun)
    rw [Owned, hheld]
    exact hd
  simp only [Locked.exec, hrun, ok_bind]
  refine ⟨_, { pool := shelf.pool, chain := a :: shelf.chain, out := shelf.out.erase a } :: (l₁ ++ l₂), _, rfl,
    ⟨h.record, hpools, hm', fun d => ?_⟩, hcall, hS.set rfl⟩
  have hcount := count_update s.held t ((s.held t).erase (s.mem.heap.dataOf a)) d
  have hold := h.held d
  have hin := List.count_pos_iff.2 hd
  have hnew := hblocks.count_eq d
  rw [(List.perm_middle.symm.flatMap_right fun x : Shelf => x.blocks s.mem.heap).count_eq, List.count_cons] at hnew
  rw [List.count_erase] at hcount
  simp only [beq_iff_eq] at hcount hnew
  by_cases he : s.mem.heap.dataOf a = d
  · subst he
    simp only [if_true] at hcount hnew
    simp only
    omega
  · simp only [if_neg he] at hcount hnew
    simp only
    omega

omit [DecidableEq T] in
/-- Before the first call. -/
theorem created_manned (hmalloc : malloc.Fresh) (hcomplete : malloc.Complete) (hne : malloc 0 [] ≠ NULL) :
    ∃ mp shelves, Manned ({ mem := (MultiMem.multipoolCreate malloc {}).2 } : Locked T)
      (MultiMem.multipoolCreate malloc {}).1 mp shelves := by
  have hfst : (MultiMem.multipoolCreate malloc {}).1 = malloc 0 [] := by rw [multipoolCreate_ne hne]
  obtain ⟨mp, shelves, h⟩ := created_tended hmalloc hcomplete hne
  refine ⟨mp, shelves, hfst ▸ h.record, h.pools, hfst ▸ h.shelved, fun d => ?_⟩
  have hcount : ([] : List Addr).count d = _ := h.held.count_eq d
  refine Eq.trans ?_ hcount
  simp

omit [DecidableEq T] in
/-- No two threads have one block, and none has it twice. -/
theorem Manned.count_le (h : Manned s multipool mp shelves) (d : Addr) : ∑ t, (s.held t).count d ≤ 1 := by
  have hregions := (List.nodup_append.1 (h.shelved.ledger.nodup_iff.1 h.shelved.nodup)).1
  rw [h.held d]
  exact List.nodup_iff_count_le_one.1 (hregions.sublist (sublist_region ..)).of_map d

/-- The states of the two that belong together. -/
def Matches (multipool : Addr) (mp : MultiPool) (r : Except Fault (Locked T)) (S : State T) : Prop :=
  ∃ s shelves, r = .ok s ∧ Manned s multipool mp shelves ∧ Same s S

/-- A call is a few steps of its thread. -/
theorem lockedProgram_refines (hmalloc : malloc.Fresh)
    (h : Manned ({ mem := (MultiMem.multipoolCreate malloc {}).2 } : Locked T) (MultiMem.multipoolCreate malloc {}).1 mp shelves) :
    Refines (lockedProgram malloc T) (machine (MultiMem.multipoolCreate malloc {}).2.heap mp T) (fun _ _ => True)
      (Alone mp) (Matches (MultiMem.multipoolCreate malloc {}).1 mp) where
  init := by
    intro r hr
    exact ⟨⟨_, fun _ => {}⟩, ⟨rfl, fun _ => rfl⟩, _, shelves, hr, h, rfl, fun _ => ⟨rfl, rfl⟩⟩
  step := by
    intro r c r' S hR _ hs
    obtain ⟨s, shelves, rfl, hm, hS⟩ := hR
    simp only [lockedProgram, Option.ite_none_right_eq_some, Option.some.injEq] at hs
    obtain ⟨hc, rfl⟩ := hs
    cases c with
    | acquire t size failures =>
      obtain ⟨s', shelves', S', hexec, hm', hreaches, hS'⟩ := hm.acquire hS hmalloc hc.1 hc.2 failures
      exact ⟨S', hreaches, s', shelves', hexec, hm', hS'⟩
    | ret t data failures =>
      obtain ⟨s', shelves', S', hexec, hm', hreaches, hS'⟩ := hm.ret hS hc failures
      exact ⟨S', hreaches, s', shelves', hexec, hm', hS'⟩

/-- **A multipool behind a lock** that has all its pools: no call faults, no block is with
two threads, and the threads that step one atomic operation at a time have a run to
the same memory and the same blocks, in which no acquire meets an ABA. -/
theorem run_locked {tr : Trace (Except Fault (Locked T)) (LockedCall T)} {r : Except Fault (Locked T)} (hmalloc : malloc.Fresh)
    (hcomplete : malloc.Complete) (hne : malloc 0 [] ≠ NULL) (hr : (lockedProgram malloc T).Run tr r) :
    ∃ s mp tr' S, r = .ok s ∧ s.mem.multipools (MultiMem.multipoolCreate malloc {}).1 = some mp ∧
      (∀ d, ∑ t, (s.held t).count d ≤ 1) ∧
      (machine (MultiMem.multipoolCreate malloc {}).2.heap mp T).Run tr' S ∧ Along (Owned mp) tr' ∧ Along NoAba tr' ∧
      S.heap = s.mem.heap ∧ ∀ t, (S.threads t).pc = .idle ∧ (S.threads t).held = s.held t := by
  obtain ⟨mp, shelves, h⟩ := created_manned (T := T) hmalloc hcomplete hne
  obtain ⟨tr', S, hr', hok, s, shelves', rfl, hm, hS⟩ := (lockedProgram_refines hmalloc h).run hr fun _ _ => trivial
  obtain ⟨hown, hno⟩ := along_and.1 hok
  exact ⟨s, mp, tr', S, rfl, hm.record, hm.count_le, hr', hown, hno, hS.heap, hS.thread⟩

end

/-- The acquire of the second thread, and the return of the first, go round once. -/
theorem run_locked_two : ∃ mp tr S, (machine (MultiMem.multipoolCreate above {}).2.heap mp (Fin 2)).Run tr S ∧ Along NoAba tr ∧
    (S.threads 1).held = [344, 312] ∧ S.heap.headOf (mp.pools 0) = 256 := by
  have h := exists_run (m := lockedProgram above (Fin 2)) (s := .ok { mem := (MultiMem.multipoolCreate above {}).2 })
    (l := [.acquire 0 512 [], .acquire 1 2000 [true], .acquire 1 512 [], .ret 0 280 [true]])
    (p := fun _ r => r.toOption.any fun s => decide (s.held 1 = [344, 312]) &&
      (s.mem.multipools (MultiMem.multipoolCreate above {}).1).any fun mp => decide (s.mem.heap.headOf (mp.pools 0) = 256))
    rfl (by decide +kernel)
  obtain ⟨tr', r, hr, hp⟩ := h
  obtain ⟨s, mp, tr, S, rfl, hrecord, -, hrun, -, hno, hheap, hthreads⟩ := run_locked above_fresh (.inr (by decide +kernel))
    (by decide) hr
  replace hp : (decide (s.held 1 = [344, 312]) && (s.mem.multipools (MultiMem.multipoolCreate above {}).1).any
      fun mp => decide (s.mem.heap.headOf (mp.pools 0) = 256)) = true := hp
  rw [hrecord, Bool.and_eq_true, decide_eq_true_eq] at hp
  exact ⟨mp, tr, S, hrun, hno, (hthreads 1).2.trans hp.1, hheap ▸ of_decide_eq_true hp.2⟩

end Dxpool.Simple
