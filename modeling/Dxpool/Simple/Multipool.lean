/-
The multipool run by one thread, `malloc` and `free` made explicit
(`MultiMem`), and what it has in memory: one shelf for each pool, that is the
pool, the nodes on its chain and those whose data the client holds
(`Shelved`). What a function does to one shelf leaves the others as they were.
-/
import Dxpool.Simple.SizeClass
import Dxpool.Simple.Stock

namespace Dxpool.Simple

/-- The memory, with the records of the multipools in it. -/
structure MultiMem extends Mem where
  multipools : Addr → Option MultiPool := fun _ => none

namespace MultiMem

/-- The loop of `multipool_create` over the entries still to create, which
fills the record `mp`. -/
def createLoop (malloc : Malloc) : List (Fin multipoolEntryCount) → MultiPool → Mem → MultiPool × Mem
  | [], mp, m => (mp, m)
  | i :: rest, mp, m =>
    let size := 1 <<< (dynPoolMinMultiPoolMemNodeSizeBits + UInt32.ofNat i)
    let (pool, m) := allocMemPool malloc m size
    createLoop malloc rest ⟨Function.update mp.pools i pool⟩ m

def multipoolCreate (malloc : Malloc) (m : MultiMem) : Addr × MultiMem :=
  let (multipool, mem) := m.alloc malloc
  if multipool ≠ NULL then
    -- no entry is set yet
    let (mp, mem) := createLoop malloc (List.finRange multipoolEntryCount) ⟨fun _ => NULL⟩ mem
    (multipool, { toMem := mem, multipools := Function.update m.multipools multipool (some mp) })
  else (multipool, { m with toMem := mem })

/-- The loop of `multipool_free`. -/
def freeLoop (mp : MultiPool) : List (Fin multipoolEntryCount) → Mem → Except Fault Mem
  | [], m => .ok m
  | i :: rest, m => do
    let m ← freeMemPool m.ledger.length m (mp.pools i)
    freeLoop mp rest m

def multipoolFree (m : MultiMem) (multipool : Addr) : Except Fault MultiMem := do
  assert (multipool ≠ NULL)
  let mp ← access (m.multipools multipool)
  let mem ← freeLoop mp (List.finRange multipoolEntryCount) m.toMem
  let mem ← mem.free multipool
  return { toMem := mem, multipools := Function.update m.multipools multipool none }

def multipoolMemAcquire (malloc : Malloc) (m : MultiMem) (multipool : Addr) (size : UInt32) (failures : List Bool) :
    Except Fault (Addr × MultiMem) := do
  assert (multipool ≠ NULL)
  let mp ← access (m.multipools multipool)
  match mp.pick size with
  | none => .error .assertion
  | some pool =>
    let (data, mem) ← poolMemAcquire malloc m.toMem pool failures
    return (data, { m with toMem := mem })

end MultiMem

section
variable {malloc : Malloc} {mp : MultiPool} {m : Mem} {l : List (Fin multipoolEntryCount)}

/-- The loop sets no entry but those of its list. -/
theorem createLoop_other {j : Fin multipoolEntryCount} (hj : j ∉ l) :
    (MultiMem.createLoop malloc l mp m).1.pools j = mp.pools j := by
  induction l generalizing mp m with
  | nil => rfl
  | cons i l ih =>
    obtain ⟨hji, hj⟩ : j ≠ i ∧ j ∉ l := by simpa using hj
    unfold MultiMem.createLoop
    rw [ih hj]
    exact Function.update_of_ne hji ..

/-- An entry is what `malloc` gives for it. -/
theorem createLoop_entry {i : Fin multipoolEntryCount} (hi : i ∉ l) :
    (MultiMem.createLoop malloc (i :: l) mp m).1.pools i = malloc m.calls m.ledger := by
  unfold MultiMem.createLoop
  rw [createLoop_other hi]
  simp only [Function.update_self, allocMemPool, Mem.alloc]
  split <;> simp_all

variable (malloc mp m) in
/-- The pools it makes are those that the threads find. -/
theorem createLoop_heap (hl : l.Nodup) : (MultiMem.createLoop malloc l mp m).2.heap =
    createPools (MultiMem.createLoop malloc l mp m).1.pools l m.heap := by
  induction l generalizing mp m with
  | nil => rfl
  | cons i l ih =>
    obtain ⟨hi, hl⟩ := List.nodup_cons.1 hl
    rw [createPools, createLoop_entry hi]
    unfold MultiMem.createLoop
    rw [ih _ _ hl]
    simp only [allocMemPool, Mem.alloc]
    split <;> rfl

variable (malloc mp m) in
theorem createLoop_nodes (hl : l.Nodup) : (MultiMem.createLoop malloc l mp m).2.heap.nodes = m.heap.nodes ∧
    (MultiMem.createLoop malloc l mp m).2.heap.blocks = m.heap.blocks := by
  rw [createLoop_heap malloc mp m hl]
  exact createPools_nodes _ l m.heap

theorem multipoolCreate_null (hnull : malloc 0 [] = NULL) : MultiMem.multipoolCreate malloc {} = (NULL, { calls := 1 }) := by
  simp only [MultiMem.multipoolCreate, Mem.alloc, hnull, if_true, ne_eq, not_true, if_false]

/-- The memory as the loop finds it. -/
theorem multipoolCreate_ne (hne : malloc 0 [] ≠ NULL) :
    MultiMem.multipoolCreate malloc {} =
      let r := MultiMem.createLoop malloc (List.finRange multipoolEntryCount) ⟨fun _ => NULL⟩
        { ledger := [malloc 0 []], calls := 1 }
      (malloc 0 [], ⟨r.2, Function.update (fun _ => none) (malloc 0 []) (some r.1)⟩) := by
  simp only [MultiMem.multipoolCreate, Mem.alloc, ne_eq, hne, not_false_eq_true, if_true, if_false]

/-- With its record allocated, `multipool_create` makes the heap and the record
that the threads start with. -/
theorem multipoolCreate_eq (hne : malloc 0 [] ≠ NULL) : ∃ mp m, MultiMem.multipoolCreate malloc {} = (malloc 0 [], m) ∧
    m.multipools (malloc 0 []) = some mp ∧ (m.heap, mp) = multipoolCreate mp.pools := by
  rw [multipoolCreate_ne hne]
  have hheap := createLoop_heap malloc ⟨fun _ => NULL⟩ { ledger := [malloc 0 []], calls := 1 }
    (List.nodup_finRange multipoolEntryCount)
  generalize MultiMem.createLoop malloc (List.finRange multipoolEntryCount) ⟨fun _ => NULL⟩ _ = r at hheap
  have hrecord : Function.update (fun _ => none) (malloc 0 []) (some r.1) (malloc 0 []) = some r.1 :=
    Function.update_self ..
  refine ⟨r.1, _, rfl, hrecord, ?_⟩
  rw [multipoolCreate, ← hheap]

end

/-! ## Shelves -/

/-- A pool, the nodes it has to give out, and those that are with the client. -/
structure Shelf where
  pool : Addr
  chain : List Addr := []
  out : List Addr := []

namespace Shelf

/-- Its addresses. -/
def region (h : Heap) (s : Shelf) : List Addr := s.pool :: (s.chain ++ s.out).flatMap h.parts

/-- The data that is with the client. -/
def blocks (h : Heap) (s : Shelf) : List Addr := s.out.map h.dataOf

/-- The heap has the shelf. -/
structure Stands (h : Heap) (s : Shelf) : Prop where
  linked : Linked h.nextOf NULL (h.headOf s.pool) s.chain
  whole : ∀ a ∈ s.chain ++ s.out, Whole h s.pool a
  pool : ∃ q, h.pools s.pool = some q ∧ q.memSize ≠ 0

end Shelf

/-- The shelves, and the rest, are what is live. -/
structure Shelved (m : Mem) (shelves : List Shelf) (rest : List Addr) : Prop where
  stands : ∀ s ∈ shelves, s.Stands m.heap
  ledger : m.ledger.Perm (shelves.flatMap (·.region m.heap) ++ rest)
  nodup : m.ledger.Nodup
  null : NULL ∉ m.ledger
  outside : ∀ a, a ∉ m.ledger → m.heap.Free a

section
variable {h h' : Heap} {m m' : Mem} {s s' : Shelf} {shelves : List Shelf} {rest : List Addr} {q : MemPool} {p a : Addr}

theorem Shelf.mem_region (ha : a ∈ s.chain ++ s.out) : a ∈ s.region h ∧ h.baseOf a ∈ s.region h := by
  have hsub : ∀ b ∈ h.parts a, b ∈ s.region h := fun b hb =>
    List.mem_cons_of_mem _ (List.mem_flatMap.2 ⟨a, ha, hb⟩)
  exact ⟨hsub a (by simp [Heap.parts]), hsub _ (by simp [Heap.parts])⟩

theorem Shelf.out_region (s : Shelf) : s.out.flatMap h.parts ⊆ s.region h := by
  intro b hb
  rw [region, List.flatMap_append]
  exact List.mem_cons_of_mem _ (List.mem_append_right _ hb)

/-- A shelf is where the heap is as it was. -/
theorem Shelf.agree_dataOf (hagree : h.Agree h' (s.region h)) (ha : a ∈ s.chain ++ s.out) : h'.dataOf a = h.dataOf a :=
  dataOf_congr (hagree a (mem_region ha).1).1

theorem Shelf.agree_region (hagree : h.Agree h' (s.region h)) : s.region h' = s.region h := by
  unfold region
  rw [List.flatMap_congr fun a ha => parts_congr (agree_dataOf hagree ha)]

theorem Shelf.agree_blocks (hagree : h.Agree h' (s.region h)) : s.blocks h' = s.blocks h :=
  List.map_congr_left fun _ ha => agree_dataOf hagree (List.mem_append_right _ ha)

theorem Shelf.Stands.agree (hs : s.Stands h) (hagree : h.Agree h' (s.region h)) : s.Stands h' := by
  have hpool := (hagree s.pool List.mem_cons_self).2.1
  refine ⟨?_, fun a ha => ?_, by rw [hpool]; exact hs.pool⟩
  · have hhead : h'.headOf s.pool = h.headOf s.pool := by simp only [Heap.headOf, hpool]
    rw [hhead]
    refine hs.linked.congr fun a ha => ?_
    simp only [Heap.nextOf, (hagree a (mem_region (List.mem_append_left _ ha)).1).1]
  · obtain ⟨hnode, hbase⟩ := Shelf.mem_region (h := h) ha
    exact (hs.whole a ha).congr (hagree a hnode).1 (hagree _ hbase).2.2

/-- So are all of them. -/
theorem agree_each (hagree : h.Agree h' (shelves.flatMap (·.region h) ++ rest)) (hs : s ∈ shelves) :
    h.Agree h' (s.region h) :=
  hagree.mono fun _ ha => List.mem_append_left _ (List.mem_flatMap.2 ⟨s, hs, ha⟩)

theorem agree_regions (hagree : h.Agree h' (shelves.flatMap (·.region h) ++ rest)) :
    shelves.flatMap (·.region h') = shelves.flatMap (·.region h) :=
  List.flatMap_congr fun _ hs => Shelf.agree_region (agree_each hagree hs)

theorem agree_blocks (hagree : h.Agree h' (shelves.flatMap (·.region h) ++ rest)) :
    shelves.flatMap (·.blocks h') = shelves.flatMap (·.blocks h) :=
  List.flatMap_congr fun _ hs => Shelf.agree_blocks (agree_each hagree hs)

theorem Shelved.of_eq (hm : Shelved m shelves rest) (hheap : m'.heap = m.heap) (hledger : m'.ledger = m.ledger) :
    Shelved m' shelves rest := by
  obtain ⟨hs, hp, hnd, hnull, hout⟩ := hm
  rw [← hheap] at hs hp hout
  rw [← hledger] at hp hnd hnull hout
  exact ⟨hs, hp, hnd, hnull, hout⟩

theorem Shelved.perm {shelves' : List Shelf} (hm : Shelved m shelves rest) (hperm : shelves.Perm shelves') :
    Shelved m shelves' rest :=
  ⟨fun s hs => hm.stands s (hperm.mem_iff.2 hs), hm.ledger.trans ((hperm.flatMap_right _).append_right rest), hm.nodup,
    hm.null, hm.outside⟩

/-- The first shelf, beside the others. -/
theorem Shelved.stock (hm : Shelved m (s :: shelves) rest) :
    Stock m s.pool s.chain s.out (shelves.flatMap (·.region m.heap) ++ rest) := by
  obtain ⟨hlinked, hwhole, -⟩ := hm.stands s List.mem_cons_self
  refine ⟨hlinked, hwhole, ?_, hm.nodup, hm.null, hm.outside⟩
  have hledger := hm.ledger
  rw [List.flatMap_cons, Shelf.region, List.cons_append, List.cons_append, List.append_assoc] at hledger
  exact hledger

/-- The first shelf changes. -/
theorem Shelved.set (hm : Shelved m (s :: shelves) rest)
    (hstock : Stock m' s'.pool s'.chain s'.out (shelves.flatMap (·.region m.heap) ++ rest))
    (hagree : m.heap.Agree m'.heap (shelves.flatMap (·.region m.heap) ++ rest))
    (hq : m'.heap.pools s'.pool = some q) (hsize : q.memSize ≠ 0) : Shelved m' (s' :: shelves) rest := by
  refine ⟨List.forall_mem_cons.2 ⟨⟨hstock.linked, hstock.whole, q, hq, hsize⟩, fun t ht => ?_⟩, ?_, hstock.nodup,
    hstock.null, hstock.outside⟩
  · exact (hm.stands t (List.mem_cons_of_mem _ ht)).agree (agree_each hagree ht)
  · rw [List.flatMap_cons, Shelf.region, List.cons_append, List.cons_append, List.append_assoc, agree_regions hagree]
    exact hstock.ledger

/-- `alloc_mem_pool` fails, or a new shelf stands beside the others. -/
theorem Shelved.allocMemPool {malloc : Malloc} (hm : Shelved m shelves rest) (hmalloc : malloc.Fresh) {size : UInt32}
    (hsize : size ≠ 0) (hne : malloc m.calls m.ledger ≠ NULL) : ∃ m',
      allocMemPool malloc m size = (malloc m.calls m.ledger, m') ∧ m'.ledger = malloc m.calls m.ledger :: m.ledger ∧
      m'.calls = m.calls + 1 ∧ Shelved m' ({ pool := malloc m.calls m.ledger } :: shelves) rest := by
  have hnew := hmalloc _ _ hne
  refine ⟨Mem.setPool { m with ledger := malloc m.calls m.ledger :: m.ledger, calls := m.calls + 1 }
    (malloc m.calls m.ledger) { memSize := size }, ?_, rfl, rfl, ?_⟩
  · simp only [Simple.allocMemPool, Mem.alloc, if_neg hne]
  generalize malloc m.calls m.ledger = p at hne hnew
  have hnew' : p ∉ shelves.flatMap (·.region m.heap) ++ rest := fun hin => hnew (hm.ledger.mem_iff.2 hin)
  have hagree : m.heap.Agree (m.heap.setPool p { memSize := size }) (shelves.flatMap (·.region m.heap) ++ rest) :=
    .setPool _ hnew'
  refine ⟨List.forall_mem_cons.2 ⟨⟨?_, by simp, { memSize := size }, setPool_self, hsize⟩, fun t ht => ?_⟩, ?_,
    List.nodup_cons.2 ⟨hnew, hm.nodup⟩, by simpa using ⟨hne.symm, hm.null⟩, fun a ha => ?_⟩
  · rw [mem_setPool_heap, setPool_headOf, if_pos rfl]
    exact .nil
  · exact (hm.stands t ht).agree (agree_each hagree ht)
  · rw [List.flatMap_cons, mem_setPool_heap, agree_regions hagree]
    exact hm.ledger.cons p
  · obtain ⟨hap, hin⟩ : a ≠ p ∧ a ∉ m.ledger := by simpa using ha
    obtain ⟨hn, hp, hb⟩ := hm.outside a hin
    exact ⟨hn, by rw [mem_setPool_heap, setPool_pools, if_neg hap]; exact hp, hb⟩

/-- What is at the addresses of `l` is as it was, and no pool is new. -/
structure Heap.Spares (h h' : Heap) (l : List Addr) : Prop where
  agree : h.Agree h' l
  pools : ∀ p, h.pools p = none → h'.pools p = none

/-- A pool that was there changes. -/
theorem Heap.Agree.spares {l : List Addr} {q' : MemPool} (hagree : h.Agree h' l) (hq : h.pools p = some q)
    (hpools : h'.pools = Function.update h.pools p (some q')) : h.Spares h' l := by
  refine ⟨hagree, fun x hx => ?_⟩
  have hxp : x ≠ p := fun he => by cases (he ▸ hx).symm.trans hq
  rw [hpools, Function.update_of_ne hxp]
  exact hx

/-- Nothing is new but what is live. -/
theorem Shelved.spares (hm' : Shelved m' shelves rest) (hagree : h.Agree m'.heap (shelves.flatMap (·.region h) ++ rest)) :
    h.Spares m'.heap (shelves.flatMap (·.region h) ++ rest) := by
  refine ⟨hagree, fun x hx => ?_⟩
  by_cases hlive : x ∈ m'.ledger
  · have hin := hm'.ledger.mem_iff.1 hlive
    rw [agree_regions hagree] at hin
    exact (hagree x hin).2.1.trans hx
  · exact (hm'.outside x hlive).2.1

theorem Shelved.rest_perm {rest' : List Addr} (hm : Shelved m shelves rest) (hperm : rest.Perm rest') : Shelved m shelves rest' :=
  ⟨hm.stands, hm.ledger.trans (hperm.append_left _), hm.nodup, hm.null, hm.outside⟩

/-- Something more is live. -/
theorem Shelved.record (hm : Shelved m shelves rest) (hne : a ≠ NULL) (hnew : a ∉ m.ledger) (calls : Nat) :
    Shelved { m with ledger := a :: m.ledger, calls } shelves (a :: rest) :=
  ⟨hm.stands, (hm.ledger.cons a).trans List.perm_middle.symm, List.nodup_cons.2 ⟨hnew, hm.nodup⟩,
    by simpa using ⟨hne.symm, hm.null⟩, fun b hb => hm.outside b fun hin => hb (List.mem_cons_of_mem _ hin)⟩

/-- Something else is released. -/
theorem Shelved.release (hm : Shelved m shelves (a :: rest)) : ∃ m', m.free a = .ok m' ∧ Shelved m' shelves rest ∧
    m.heap.Agree m'.heap (shelves.flatMap (·.region m.heap) ++ rest) := by
  have hledger := hm.ledger.trans List.perm_middle
  have hmem : a ∈ m.ledger := hledger.mem_iff.2 List.mem_cons_self
  have hne : a ≠ NULL := fun he => hm.null (he ▸ hmem)
  have hnot : a ∉ shelves.flatMap (·.region m.heap) ++ rest := (List.nodup_cons.1 (hledger.nodup_iff.1 hm.nodup)).1
  have hagree : m.heap.Agree (m.heap.release a) (shelves.flatMap (·.region m.heap) ++ rest) := .release hnot
  refine ⟨_, free_eq hne hmem, ⟨fun t ht => (hm.stands t ht).agree (agree_each hagree ht), ?_, hm.nodup.erase _,
    fun hin => hm.null (List.mem_of_mem_erase hin), fun b hb => release_free ?_⟩, hagree⟩
  · have herase := hledger.erase a
    rw [List.erase_cons_head] at herase
    rw [agree_regions hagree]
    exact herase
  · by_cases hba : b = a
    · exact .inl hba
    · exact .inr (hm.outside b fun hin => hb ((List.mem_erase_of_ne hba).2 hin))

end

/-! ## Calls on one shelf -/

section
variable {malloc : Malloc} {m : Mem} {mp : MultiPool} {s : Shelf} {shelves old : List Shelf} {rest : List Addr} {a : Addr}
  {l : List (Fin multipoolEntryCount)}

/-- The shelf of a pool comes first. -/
theorem exists_shelf {p : Addr} (hp : p ∈ shelves.map Shelf.pool) :
    ∃ s shelves', s.pool = p ∧ shelves.Perm (s :: shelves') := by
  obtain ⟨s, hs, rfl⟩ := List.mem_map.1 hp
  obtain ⟨l₁, l₂, rfl⟩ := List.append_of_mem hs
  exact ⟨s, l₁ ++ l₂, rfl, List.perm_middle⟩

/-- The shelf that a block is from. -/
theorem shelf_of_block {h : Heap} {data : Addr} (hd : data ∈ shelves.flatMap (·.blocks h)) :
    ∃ s l₁ l₂ a, shelves = l₁ ++ s :: l₂ ∧ a ∈ s.out ∧ h.dataOf a = data := by
  obtain ⟨s, hs, hblock⟩ := List.mem_flatMap.1 hd
  obtain ⟨a, ha, hdata⟩ := List.mem_map.1 hblock
  obtain ⟨l₁, l₂, hsplit⟩ := List.append_of_mem hs
  exact ⟨s, l₁, l₂, a, hsplit, ha, hdata⟩

/-- `pool_mem_acquire` answers NULL and changes nothing, or hands out a block. -/
theorem Shelved.acquire (hm : Shelved m (s :: shelves) rest) (hmalloc : malloc.Fresh) (failures : List Bool) :
    (∃ m', poolMemAcquire malloc m s.pool failures = .ok (NULL, m') ∧ m'.heap = m.heap ∧ m'.ledger = m.ledger) ∨
    ∃ b chain m', poolMemAcquire malloc m s.pool failures = .ok (m'.heap.dataOf b, m') ∧ m'.heap.dataOf b ≠ NULL ∧
      Shelved m' ({ pool := s.pool, chain, out := b :: s.out } :: shelves) rest ∧
      ({ pool := s.pool, chain, out := b :: s.out } :: shelves).flatMap (·.blocks m'.heap) =
        m'.heap.dataOf b :: (s :: shelves).flatMap (·.blocks m.heap) ∧
      m.heap.Spares m'.heap (shelves.flatMap (·.region m.heap) ++ rest) := by
  obtain ⟨q, hq, hsize⟩ := (hm.stands s List.mem_cons_self).pool
  rcases hm.stock.poolMemAcquire hmalloc hq (fun _ => hsize) failures with
    ⟨m', hacquire, hheap, hledger, -⟩ | ⟨b, chain, m', q', hacquire, hstock, hagree, hq', hsame, -, hdata⟩
  · exact .inl ⟨m', hacquire, hheap, hledger⟩
  · have hw := hstock.whole b (List.mem_append_right _ List.mem_cons_self)
    refine .inr ⟨b, chain, m', hacquire, by rw [hw.dataOf]; exact Nat.succ_ne_zero _,
      hm.set hstock hagree (pools_update hq') (hsame ▸ hsize), ?_, hagree.spares hq hq'⟩
    rw [List.flatMap_cons, List.flatMap_cons, agree_blocks hagree, Shelf.blocks, Shelf.blocks, List.map_cons,
      List.map_congr_left hdata]
    rfl

/-- `pool_mem_return` of a block of the first pool. -/
theorem Shelved.ret (hm : Shelved m (s :: shelves) rest) (ha : a ∈ s.out) (failures : List Bool) :
    ∃ m', poolMemReturn m (m.heap.dataOf a) failures = .ok m' ∧
      Shelved m' ({ pool := s.pool, chain := a :: s.chain, out := s.out.erase a } :: shelves) rest ∧
      (m.heap.dataOf a :: ({ pool := s.pool, chain := a :: s.chain, out := s.out.erase a } :: shelves).flatMap
        (·.blocks m'.heap)).Perm ((s :: shelves).flatMap (·.blocks m.heap)) ∧
      m.heap.Spares m'.heap (shelves.flatMap (·.region m.heap) ++ rest) := by
  obtain ⟨q, hq, hsize⟩ := (hm.stands s List.mem_cons_self).pool
  have hout := List.perm_cons_erase ha
  obtain ⟨m', q', hreturn, hstock, hagree, hq', hsame, -, -, hdata⟩ := (hm.stock.perm hout).poolMemReturn hq failures
  refine ⟨m', hreturn, hm.set hstock hagree (pools_update hq') (hsame ▸ hsize), ?_, hagree.spares hq hq'⟩
  rw [List.flatMap_cons, List.flatMap_cons, agree_blocks hagree, Shelf.blocks, List.map_congr_left fun x _ => hdata x]
  exact ((hout.map m.heap.dataOf).append_right _).symm

/-- The return of a block, whichever of the pools it is from. -/
theorem Shelved.takeBack {data : Addr} (hm : Shelved m shelves rest) (hd : data ∈ shelves.flatMap (·.blocks m.heap))
    (failures : List Bool) : ∃ m' shelves', poolMemReturn m data failures = .ok m' ∧ Shelved m' shelves' rest ∧
      shelves'.map Shelf.pool = shelves.map Shelf.pool ∧
      (data :: shelves'.flatMap (·.blocks m'.heap)).Perm (shelves.flatMap (·.blocks m.heap)) ∧ m.heap.Spares m'.heap rest := by
  obtain ⟨s, l₁, l₂, a, rfl, ha, rfl⟩ := shelf_of_block hd
  obtain ⟨m', hreturn, hm', hblocks, hspares⟩ := (hm.perm List.perm_middle).ret ha failures
  refine ⟨m', l₁ ++ { pool := s.pool, chain := a :: s.chain, out := s.out.erase a } :: l₂, hreturn,
    hm'.perm List.perm_middle.symm, by simp, ?_, hspares.agree.mono (List.subset_append_right ..), hspares.pools⟩
  exact ((List.perm_middle.flatMap_right _).cons _).trans (hblocks.trans (List.perm_middle.symm.flatMap_right _))

/-- `free_mem_pool` leaves the nodes that are out. -/
theorem Shelved.freeMemPool (hm : Shelved m (s :: shelves) rest) : ∃ m', freeMemPool m.ledger.length m s.pool = .ok m' ∧
    Shelved m' shelves (s.out.flatMap m.heap.parts ++ rest) ∧
    m.heap.Agree m'.heap (shelves.flatMap (·.region m.heap) ++ (s.out.flatMap m.heap.parts ++ rest)) ∧
    m'.heap.pools s.pool = none := by
  obtain ⟨q, hq, -⟩ := (hm.stands s List.mem_cons_self).pool
  have hstock := hm.stock.abandon
  obtain ⟨m', hfree, hledger, hagree, hnd, hnull, hout⟩ := hstock.freeMemPool hq
  have hperm : (s.out.flatMap m.heap.parts ++ (shelves.flatMap (·.region m.heap) ++ rest)).Perm
      (shelves.flatMap (·.region m.heap) ++ (s.out.flatMap m.heap.parts ++ rest)) :=
    List.perm_append_comm_assoc ..
  replace hagree := hagree.mono hperm.symm.subset
  have hgone : s.pool ∉ m'.ledger := fun hin => hstock.pool_rest (hledger.mem_iff.1 hin)
  refine ⟨m', hfree, ⟨fun t ht => ?_, hledger.trans ?_, hnd, hnull, hout⟩, hagree, (hout _ hgone).2.1⟩
  · exact (hm.stands t (List.mem_cons_of_mem _ ht)).agree (agree_each hagree ht)
  · rw [agree_regions hagree]
    exact hperm

/-! ## `multipool_create` -/

/-- The pools of a record that are there. -/
def MultiPool.made (mp : MultiPool) (l : List (Fin multipoolEntryCount)) : List Addr :=
  (l.map mp.pools).filter fun p => decide (p ≠ NULL)

/-- A record without gaps. -/
theorem made_eq (hall : ∀ i ∈ l, mp.pools i ≠ NULL) : mp.made l = l.map mp.pools := by
  rw [MultiPool.made, List.filter_eq_self]
  intro p hp
  obtain ⟨i, hi, rfl⟩ := List.mem_map.1 hp
  simpa using hall i hi

/-- The entry that the loop has just set is there unless it is NULL. -/
theorem made_cons {i : Fin multipoolEntryCount} {p : Addr} (hi : i ∉ l) :
    (MultiMem.createLoop malloc l ⟨Function.update mp.pools i p⟩ m).1.made (i :: l) =
      if p = NULL then (MultiMem.createLoop malloc l ⟨Function.update mp.pools i p⟩ m).1.made l
      else p :: (MultiMem.createLoop malloc l ⟨Function.update mp.pools i p⟩ m).1.made l := by
  have hentry : (MultiMem.createLoop malloc l ⟨Function.update mp.pools i p⟩ m).1.pools i = p := by
    rw [createLoop_other hi]
    exact Function.update_self ..
  rw [MultiPool.made, List.map_cons, hentry, List.filter_cons, ← MultiPool.made]
  by_cases hp : p = NULL
  · rw [if_pos hp, if_neg (by simp [hp])]
  · rw [if_neg hp, if_pos (by simp [hp])]

variable (malloc mp) in
/-- The loop of `multipool_create` makes a shelf for each pool it gets. -/
theorem Shelved.createLoop (hm : Shelved m shelves rest) (hmalloc : malloc.Fresh) (hnd : l.Nodup) :
    ∃ new, Shelved (MultiMem.createLoop malloc l mp m).2 (new ++ shelves) rest ∧
      (new.map Shelf.pool).Perm ((MultiMem.createLoop malloc l mp m).1.made l) ∧ (∀ t ∈ new, t.out = []) ∧
      ∀ p, p ∉ new.map Shelf.pool → (MultiMem.createLoop malloc l mp m).2.heap.pools p = m.heap.pools p := by
  induction l generalizing mp m shelves with
  | nil => exact ⟨[], hm, .refl _, by simp, fun _ _ => rfl⟩
  | cons i l ih =>
    obtain ⟨hi, hnd⟩ := List.nodup_cons.1 hnd
    have hloop : ∀ {p m'}, Simple.allocMemPool malloc m (1 <<< (dynPoolMinMultiPoolMemNodeSizeBits + UInt32.ofNat i)) = (p, m') →
        MultiMem.createLoop malloc (i :: l) mp m = MultiMem.createLoop malloc l ⟨Function.update mp.pools i p⟩ m' := by
      intro p m' halloc
      simp only [MultiMem.createLoop, halloc]
    by_cases hnull : malloc m.calls m.ledger = NULL
    · have halloc : Simple.allocMemPool malloc m (1 <<< (dynPoolMinMultiPoolMemNodeSizeBits + UInt32.ofNat i)) =
          (NULL, { m with calls := m.calls + 1 }) := by
        simp only [Simple.allocMemPool, Mem.alloc, hnull, if_true]
      have hm' : Shelved { m with calls := m.calls + 1 } shelves rest := hm.of_eq rfl rfl
      obtain ⟨new, hs, hperm, hout, hother⟩ := ih ⟨Function.update mp.pools i NULL⟩ hm' hnd
      rw [hloop halloc, made_cons hi, if_pos rfl]
      exact ⟨new, hs, hperm, hout, hother⟩
    · have hsize : (1 : UInt32) <<< (dynPoolMinMultiPoolMemNodeSizeBits + UInt32.ofNat i) ≠ 0 := by
        intro h0
        have h1 := classSize_toNat i
        rw [h0] at h1
        exact absurd h1.symm (Nat.ne_of_gt (Nat.pow_pos (by decide)))
      obtain ⟨m', halloc, -, -, hm'⟩ := hm.allocMemPool hmalloc hsize hnull
      have hheap : m'.heap = m.heap.setPool (malloc m.calls m.ledger)
          { memSize := 1 <<< (dynPoolMinMultiPoolMemNodeSizeBits + UInt32.ofNat i) } := by
        have hset := congrArg (fun r => r.2.heap) halloc
        simp only [Simple.allocMemPool, Mem.alloc, hnull, if_false] at hset
        exact hset.symm
      obtain ⟨new, hs, hperm, hout, hother⟩ := ih ⟨Function.update mp.pools i (malloc m.calls m.ledger)⟩ hm' hnd
      rw [hloop halloc, made_cons hi, if_neg hnull]
      refine ⟨new ++ [{ pool := malloc m.calls m.ledger }], by rw [List.append_assoc]; exact hs, ?_, ?_, fun p hp => ?_⟩
      · rw [List.map_append]
        exact List.perm_append_comm.trans (hperm.cons _)
      · simp only [List.forall_mem_append, List.forall_mem_singleton, and_true]
        exact hout
      · rw [List.map_append, List.mem_append, not_or] at hp
        rw [hother p hp.1, hheap, setPool_pools, if_neg (by simpa using hp.2)]

/-- `multipool_create` in a memory that has other things in it. -/
theorem Shelved.multipoolCreate {m : MultiMem} (hm : Shelved m.toMem shelves rest) (hmalloc : malloc.Fresh) :
    (∃ m', MultiMem.multipoolCreate malloc m = (NULL, m') ∧ m'.heap = m.heap ∧ m'.ledger = m.ledger) ∨
    ∃ a mp new m', MultiMem.multipoolCreate malloc m = (a, m') ∧ a ≠ NULL ∧ m'.multipools a = some mp ∧
      Shelved m'.toMem (new ++ shelves) (a :: rest) ∧ (new.map Shelf.pool).Perm (mp.made (List.finRange multipoolEntryCount)) ∧
      (∀ t ∈ new, t.out = []) ∧ m'.heap.nodes = m.heap.nodes ∧ m'.heap.blocks = m.heap.blocks ∧
      ∀ p, p ∉ new.map Shelf.pool → m'.heap.pools p = m.heap.pools p := by
  by_cases hnull : malloc m.calls m.ledger = NULL
  · refine .inl ⟨{ m with calls := m.calls + 1 }, ?_, rfl, rfl⟩
    simp only [MultiMem.multipoolCreate, Mem.alloc, hnull, if_true, ne_eq, not_true, if_false]
  · have hm' := hm.record hnull (hmalloc _ _ hnull) (m.calls + 1)
    have hnd := List.nodup_finRange multipoolEntryCount
    have hcreate : MultiMem.multipoolCreate malloc m =
        let r := MultiMem.createLoop malloc (List.finRange multipoolEntryCount) ⟨fun _ => NULL⟩
          ⟨m.heap, malloc m.calls m.ledger :: m.ledger, m.calls + 1⟩
        (malloc m.calls m.ledger, ⟨r.2, Function.update m.multipools (malloc m.calls m.ledger) (some r.1)⟩) := by
      simp only [MultiMem.multipoolCreate, Mem.alloc, hnull, ne_eq, not_false_eq_true, if_true, if_false]
    obtain ⟨new, hs, hperm, hout, hother⟩ := hm'.createLoop malloc ⟨fun _ => NULL⟩ hmalloc hnd
    obtain ⟨hnodes, hblocks⟩ := createLoop_nodes malloc ⟨fun _ => NULL⟩
      ⟨m.heap, malloc m.calls m.ledger :: m.ledger, m.calls + 1⟩ hnd
    generalize MultiMem.createLoop malloc (List.finRange multipoolEntryCount) ⟨fun _ => NULL⟩ _ = r at *
    exact .inr ⟨_, r.1, new, _, hcreate, hnull, Function.update_self .., hs, hperm, hout, hnodes, hblocks, hother⟩

/-! ## `multipool_free` -/

/-- **The loop of `multipool_free`** leaves what is with the client, and the rest. -/
theorem Shelved.freeLoop (hm : Shelved m (shelves ++ old) rest) (hperm : (shelves.map Shelf.pool).Perm (l.map mp.pools)) :
    ∃ m', MultiMem.freeLoop mp l m = .ok m' ∧
      Shelved m' old (shelves.flatMap (fun t => t.out.flatMap m.heap.parts) ++ rest) ∧
      m.heap.Agree m'.heap (old.flatMap (·.region m.heap) ++
        (shelves.flatMap (fun t => t.out.flatMap m.heap.parts) ++ rest)) ∧
      ∀ t ∈ shelves, m'.heap.pools t.pool = none := by
  induction l generalizing m shelves rest with
  | nil =>
    obtain rfl := List.map_eq_nil_iff.1 hperm.eq_nil
    exact ⟨m, rfl, hm, .refl _ _, by simp⟩
  | cons i l ih =>
    obtain ⟨shelf, others, hshelf, hothers⟩ := exists_shelf (hperm.mem_iff.2 List.mem_cons_self)
    have hperm' : (others.map Shelf.pool).Perm (l.map mp.pools) := by
      have hcons := (hothers.map Shelf.pool).symm.trans hperm
      rw [List.map_cons, List.map_cons, hshelf] at hcons
      exact hcons.cons_inv
    have hm₀ : Shelved m (shelf :: (others ++ old)) rest := hm.perm (hothers.append_right old)
    obtain ⟨m₁, hfree, hm₁, hagree, hgone⟩ := hm₀.freeMemPool
    obtain ⟨m', hloop, hm', hagree', hgone'⟩ := ih hm₁ hperm'
    have hout : others.flatMap (fun t => t.out.flatMap m₁.heap.parts) = others.flatMap (fun t => t.out.flatMap m.heap.parts) :=
      List.flatMap_congr fun t ht => List.flatMap_congr fun b hb =>
        parts_congr (Shelf.agree_dataOf (agree_each hagree (List.mem_append_left _ ht)) (List.mem_append_right _ hb))
    have hregion : old.flatMap (·.region m₁.heap) = old.flatMap (·.region m.heap) :=
      List.flatMap_congr fun t ht => Shelf.agree_region (agree_each hagree (List.mem_append_right _ ht))
    have hrest : (others.flatMap (fun t => t.out.flatMap m₁.heap.parts) ++ (shelf.out.flatMap m.heap.parts ++ rest)).Perm
        (shelves.flatMap (fun t => t.out.flatMap m.heap.parts) ++ rest) := by
      rw [hout, ← List.append_assoc]
      refine List.Perm.append_right rest ?_
      refine List.Perm.trans ?_ (hothers.flatMap_right fun t : Shelf => t.out.flatMap m.heap.parts).symm
      rw [List.flatMap_cons]
      exact List.perm_append_comm
    have hspares := hm'.spares hagree'
    refine ⟨m', ?_, hm'.rest_perm hrest, ?_, fun t ht => ?_⟩
    · rw [MultiMem.freeLoop, ← hshelf, hfree, ok_bind]
      exact hloop
    · rw [hregion] at hagree'
      replace hagree' := hagree'.mono (hrest.symm.append_left _).subset
      refine (hagree.mono fun x hx => ?_).trans hagree'
      rw [List.flatMap_append, List.append_assoc, List.mem_append]
      rcases List.mem_append.1 hx with hx | hx
      · exact .inr (List.mem_append_left _ hx)
      · rcases List.mem_append.1 (hrest.symm.subset hx) with hx | hx
        · rw [hout] at hx
          obtain ⟨t, ht, hx⟩ := List.mem_flatMap.1 hx
          exact .inl (List.mem_flatMap.2 ⟨t, ht, Shelf.out_region t hx⟩)
        · exact .inr (List.mem_append_right _ hx)
    · rcases List.mem_cons.1 (hothers.mem_iff.1 ht) with rfl | ht
      · exact hspares.pools _ hgone
      · exact hgone' t ht

/-- It fails the assertion of `free_mem_pool` at a pool that is NULL. -/
theorem Shelved.freeLoop_null (hm : Shelved m (shelves ++ old) rest) (hperm : (shelves.map Shelf.pool).Perm (mp.made l))
    (hnull : ∃ i ∈ l, mp.pools i = NULL) : MultiMem.freeLoop mp l m = .error .assertion := by
  induction l generalizing m shelves rest with
  | nil =>
    obtain ⟨i, hi, -⟩ := hnull
    cases hi
  | cons i l ih =>
    rw [MultiMem.freeLoop]
    by_cases hi : mp.pools i = NULL
    · rw [hi, Simple.freeMemPool, assert, if_neg (by simp)]
      rfl
    · rw [MultiPool.made, List.map_cons, List.filter_cons_of_pos (by simp [hi])] at hperm
      obtain ⟨shelf, others, hshelf, hothers⟩ := exists_shelf (hperm.mem_iff.2 List.mem_cons_self)
      have hperm' : (others.map Shelf.pool).Perm (mp.made l) := by
        have hcons := (hothers.map Shelf.pool).symm.trans hperm
        rw [List.map_cons, hshelf] at hcons
        exact hcons.cons_inv
      have hm₀ : Shelved m (shelf :: (others ++ old)) rest := hm.perm (hothers.append_right old)
      obtain ⟨m₁, hfree, hm₁, -, -⟩ := hm₀.freeMemPool
      rw [← hshelf, hfree, ok_bind]
      refine ih hm₁ hperm' ?_
      obtain ⟨j, hj, hjnull⟩ := hnull
      rcases List.mem_cons.1 hj with rfl | hj
      · exact absurd hjnull hi
      · exact ⟨j, hj, hjnull⟩

/-- With its loop goes the record. -/
theorem Shelved.multipoolFree {m : MultiMem} {multipool : Addr} (hm : Shelved m.toMem (shelves ++ old) (multipool :: rest))
    (hrecord : m.multipools multipool = some mp)
    (hperm : (shelves.map Shelf.pool).Perm ((List.finRange multipoolEntryCount).map mp.pools)) :
    ∃ m', MultiMem.multipoolFree m multipool = .ok m' ∧ m'.multipools = Function.update m.multipools multipool none ∧
      Shelved m'.toMem old (shelves.flatMap (fun t => t.out.flatMap m.heap.parts) ++ rest) ∧
      m.heap.Agree m'.heap (old.flatMap (·.region m.heap) ++
        (shelves.flatMap (fun t => t.out.flatMap m.heap.parts) ++ rest)) ∧
      ∀ t ∈ shelves, m'.heap.pools t.pool = none := by
  have hne : multipool ≠ NULL := fun he =>
    hm.null (he ▸ hm.ledger.mem_iff.2 (List.mem_append_right _ List.mem_cons_self))
  obtain ⟨m₁, hloop, hm₁, hagree, hgone⟩ := hm.freeLoop hperm
  obtain ⟨m₂, hfree, hm₂, hagree'⟩ := (hm₁.rest_perm List.perm_middle).release
  have hspares := hm₂.spares hagree'
  refine ⟨⟨m₂, Function.update m.multipools multipool none⟩, ?_, rfl, hm₂, ?_, fun t ht => hspares.pools _ (hgone t ht)⟩
  · simp only [MultiMem.multipoolFree, assert, if_pos hne, ok_bind, hrecord, access, hloop, hfree]
    rfl
  · have hregion : old.flatMap (·.region m₁.heap) = old.flatMap (·.region m.heap) := agree_regions hagree
    rw [hregion] at hagree'
    refine (hagree.mono fun x hx => ?_).trans hagree'
    simp only [List.mem_append, List.mem_cons] at hx ⊢
    tauto

end

end Dxpool.Simple
