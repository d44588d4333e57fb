/-
The C memory pool (simple_pool/dyn_mem_pool.h): nodes chained from the head of
their pool, stepped one atomic operation at a time, and the multipool over it.

As for the indexer, a thread is between two of its atomic operations. The
heap has a map for each kind of allocation, so a pointer is good when its map
has it; following a bad one, or failing an assertion, ends in `crashed`. Reads
of fields that are never written again (`data`, `pool`, `mem_size`, the word
before the data) are part of the step they precede.
-/
import Dxpool.Machine

namespace Dxpool.Simple

abbrev Addr := Nat

abbrev NULL : Addr := 0

structure MemNode where
  next : Addr
  data : Addr
  pool : Addr
  deriving DecidableEq, Repr

structure MemPool where
  head : Addr := NULL
  memSize : UInt32
  numAllocs : UInt32 := 0
  numAvailable : UInt32 := 0
  deriving DecidableEq, Repr

/-- The memory of one `malloc` for data: its first word, and its bytes. -/
structure Block where
  word : Addr
  bytes : Nat
  deriving DecidableEq, Repr

/-- `sizeof(ptrdiff_t)`: the word before the data. -/
def headerSize : Nat := 8

structure Heap where
  nodes : Addr → Option MemNode := fun _ => none
  pools : Addr → Option MemPool := fun _ => none
  blocks : Addr → Option Block := fun _ => none

namespace Heap

def setNode (h : Heap) (node : Addr) (m : MemNode) : Heap :=
  { h with nodes := Function.update h.nodes node (some m) }

def setPool (h : Heap) (pool : Addr) (p : MemPool) : Heap :=
  { h with pools := Function.update h.pools pool (some p) }

def setBlock (h : Heap) (ptrData : Addr) (b : Block) : Heap :=
  { h with blocks := Function.update h.blocks ptrData (some b) }

/-- No allocation is at `a`. -/
def Free (h : Heap) (a : Addr) : Prop := h.nodes a = none ∧ h.pools a = none ∧ h.blocks a = none

instance (h : Heap) (a : Addr) : Decidable (h.Free a) :=
  inferInstanceAs (Decidable (h.nodes a = none ∧ h.pools a = none ∧ h.blocks a = none))

/-- What two calls of `malloc` in a row can give: each NULL or fresh. -/
def Mallocs (h : Heap) (mallocs : Addr × Addr) : Prop :=
  (mallocs.1 ≠ NULL → h.Free mallocs.1 ∧ mallocs.1 ≠ mallocs.2) ∧ (mallocs.2 ≠ NULL → h.Free mallocs.2)

instance (h : Heap) (mallocs : Addr × Addr) : Decidable (h.Mallocs mallocs) :=
  inferInstanceAs (Decidable (_ ∧ _))

/-- `get_memnode_in_data(data)`: the word before the data. -/
def getMemnodeInData (h : Heap) (data : Addr) : Option Addr := (h.blocks (data - headerSize)).map (·.word)

/-- The end of `alloc_poolable_mem(pool)`, both its `malloc` calls done. -/
def allocPoolableMem (h : Heap) (pool : Addr) (p : MemPool) (node ptrData : Addr) : Heap :=
  (h.setNode node { next := NULL, data := ptrData + headerSize, pool }).setBlock ptrData
    { word := node, bytes := p.memSize.toNat + headerSize }

end Heap

/-- Where a thread stands: between calls, at the next atomic operation of
`pool_mem_acquire` or `pool_mem_return`, or past an undefined or aborted one. -/
inductive Pc
  | idle
  | crashed
  | acquireLoadHead (pool : Addr)
  | acquireLoadNext (pool previousHead : Addr)
  | acquireCas (pool previousHead newHead : Addr)
  /- The head is taken: `track_pool_usage_memnode_unavailable`. -/
  | acquireTrack (pool previousHead : Addr)
  /- The head is NULL: `alloc_poolable_mem`, then `track_pool_usage_allocs`. -/
  | acquireAlloc (pool : Addr)
  | acquireTrackAlloc (pool node : Addr)
  | returnLoadHead (newHead pool : Addr)
  | returnStoreNext (newHead pool previousHead : Addr)
  | returnCas (newHead pool previousHead : Addr)
  | returnTrack (pool : Addr)
  deriving DecidableEq, Repr

/-- The next atomic operation of a thread inside a call: the heap after it,
where the thread stands, and the pointer if `pool_mem_acquire` returns.
`spurious` makes a weak compare-and-swap fail. -/
def advance (h : Heap) (spurious : Bool) (mallocs : Addr × Addr) : Pc → Heap × Pc × Option Addr
  | .idle => (h, .idle, none)
  | .crashed => (h, .crashed, none)
  | .acquireLoadHead pool =>
    match h.pools pool with
    | none => (h, .crashed, none)
    | some p => if p.head = NULL then (h, .acquireAlloc pool, none) else (h, .acquireLoadNext pool p.head, none)
  | .acquireLoadNext pool previousHead =>
    match h.nodes previousHead with
    | none => (h, .crashed, none)
    | some m => (h, .acquireCas pool previousHead m.next, none)
  | .acquireCas pool previousHead newHead =>
    match h.pools pool with
    | none => (h, .crashed, none)
    | some p =>
      if p.head = previousHead ∧ spurious = false then
        (h.setPool pool { p with head := newHead }, .acquireTrack pool previousHead, none)
      else (h, .acquireLoadHead pool, none)
  | .acquireTrack pool previousHead =>
    match h.pools pool, h.nodes previousHead with
    | some p, some m => (h.setPool pool { p with numAvailable := p.numAvailable - 1 }, .idle, some m.data)
    | _, _ => (h, .crashed, none)
  | .acquireAlloc pool =>
    match h.pools pool with
    | none => (h, .crashed, none)
    | some p =>
      if p.memSize = 0 then (h, .crashed, none)
      else if mallocs.1 = NULL ∨ mallocs.2 = NULL then (h, .idle, some NULL)
      else (h.allocPoolableMem pool p mallocs.1 mallocs.2, .acquireTrackAlloc pool mallocs.1, none)
  | .acquireTrackAlloc pool node =>
    match h.pools pool, h.nodes node with
    | some p, some m => (h.setPool pool { p with numAllocs := p.numAllocs + 1 }, .idle, some m.data)
    | _, _ => (h, .crashed, none)
  | .returnLoadHead newHead pool =>
    match h.pools pool with
    | none => (h, .crashed, none)
    | some p => (h, .returnStoreNext newHead pool p.head, none)
  | .returnStoreNext newHead pool previousHead =>
    match h.nodes newHead with
    | none => (h, .crashed, none)
    | some m => (h.setNode newHead { m with next := previousHead }, .returnCas newHead pool previousHead, none)
  | .returnCas newHead pool previousHead =>
    match h.pools pool with
    | none => (h, .crashed, none)
    | some p =>
      if p.head = previousHead ∧ spurious = false then
        (h.setPool pool { p with head := newHead }, .returnTrack pool, none)
      else (h, .returnLoadHead newHead pool, none)
  | .returnTrack pool =>
    match h.pools pool with
    | none => (h, .crashed, none)
    | some p => (h.setPool pool { p with numAvailable := p.numAvailable + 1 }, .idle, none)

/-! ## The multipool -/

def dynPoolMinMultiPoolMemNodeSizeBits : UInt32 := 9

/-- `MULTIPOOL_ENTRY_COUNT`. -/
abbrev multipoolEntryCount : Nat := 14

structure MultiPool where
  pools : Fin multipoolEntryCount → Addr

/-- `__builtin_clz`, undefined for zero. -/
def builtinClz (x : UInt32) (_ : x ≠ 0) : UInt32 := ⟨x.toBitVec.clz⟩

def findMultipoolIndexForSize (size : UInt32) : UInt32 :=
  let sizeValue := (size - 1) >>> dynPoolMinMultiPoolMemNodeSizeBits
  if h : sizeValue = 0 then 0 else 32 - builtinClz sizeValue h

/-- `multipool_mem_acquire` up to its call of `pool_mem_acquire`: the pool, or
none where `assert(index < MULTIPOOL_ENTRY_COUNT)` fails. -/
def MultiPool.pick (mp : MultiPool) (size : UInt32) : Option Addr :=
  let index := findMultipoolIndexForSize size
  if h : index.toNat < multipoolEntryCount then some (mp.pools ⟨index.toNat, h⟩) else none

/-- The loop of `multipool_create` over the entries still to create:
`alloc_mem_pool(1 << (bits + i))`, with the pointer its `malloc` gave. -/
def createPools (mallocs : Fin multipoolEntryCount → Addr) : List (Fin multipoolEntryCount) → Heap → Heap
  | [], h => h
  | i :: rest, h =>
    let size := 1 <<< (dynPoolMinMultiPoolMemNodeSizeBits + UInt32.ofNat i)
    createPools mallocs rest (if mallocs i = NULL then h else h.setPool (mallocs i) { memSize := size })

/-- `multipool_create()`, its own `malloc` having succeeded. -/
def multipoolCreate (mallocs : Fin multipoolEntryCount → Addr) : Heap × MultiPool :=
  (createPools mallocs (List.finRange multipoolEntryCount) {}, ⟨mallocs⟩)

/-! ## Threads -/

/-- A thread: where it stands, the blocks it holds as a client, and the size
it asked `multipool_mem_acquire` for. -/
structure Thread where
  pc : Pc := .idle
  held : List Addr := []
  request : Option UInt32 := none

structure State (T : Type) where
  heap : Heap
  threads : T → Thread

/-- What can happen next: a thread calls `pool_mem_acquire`,
`multipool_mem_acquire` or `pool_mem_return`, or performs its next atomic
operation. -/
inductive Act (T : Type)
  | acquire (t : T) (pool : Addr)
  | multiAcquire (t : T) (size : UInt32)
  | ret (t : T) (data : Addr)
  | run (t : T) (spurious : Bool) (mallocs : Addr × Addr)
  deriving DecidableEq, Repr

/-- The entry of `pool_mem_acquire`: `assert(pool != NULL)`. -/
def acquireEntry (pool : Addr) : Pc := if pool = NULL then .crashed else .acquireLoadHead pool

/-- The entry of `pool_mem_return`, up to its loop. -/
def returnEntry (h : Heap) (data : Addr) : Pc :=
  if data = NULL then .crashed
  else
    match h.getMemnodeInData data with
    | none => .crashed
    | some newHead =>
      match h.nodes newHead with
      | none => .crashed
      | some m => .returnLoadHead newHead m.pool

section
variable {T : Type} [DecidableEq T]

/-- The state with thread `t` replaced. -/
def State.set (s : State T) (t : T) (th : Thread) : State T :=
  { s with threads := Function.update s.threads t th }

def step (mp : MultiPool) (s : State T) : Act T → Option (State T)
  | .acquire t pool =>
    if (s.threads t).pc = .idle then
      some (s.set t { s.threads t with pc := acquireEntry pool, request := none })
    else none
  | .multiAcquire t size =>
    if (s.threads t).pc = .idle then
      some (s.set t { s.threads t with pc := (mp.pick size).elim .crashed acquireEntry, request := some size })
    else none
  | .ret t data =>
    if (s.threads t).pc = .idle then
      some (s.set t { pc := returnEntry s.heap data, held := (s.threads t).held.erase data })
    else none
  | .run t spurious mallocs =>
    if (s.threads t).pc = .idle ∨ ¬s.heap.Mallocs mallocs then none
    else
      let (heap, pc, answer) := advance s.heap spurious mallocs (s.threads t).pc
      some ({ s with heap }.set t
        { s.threads t with pc, held := (answer.toList.filter (· ≠ NULL)) ++ (s.threads t).held })

/-- The pools of a heap and their clients: at first no call is in progress and
no block is held. -/
def machine (h₀ : Heap) (mp : MultiPool) (T : Type) [DecidableEq T] : Machine (State T) (Act T) where
  init s := s.heap = h₀ ∧ ∀ t, s.threads t = {}
  step := step mp

end

end Dxpool.Simple
