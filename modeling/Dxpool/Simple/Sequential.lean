/-
The C memory pool (simple_pool/dyn_mem_pool.h) run by one thread, `malloc` and
`free` made explicit. An allocation is in the ledger, by the address `malloc`
gave, until that address is freed; then nothing is left there. A function
gives the memory it leaves, or the fault it ends in.

The address that a call of `malloc` gives, NULL where it fails, depends on how
many calls there were and on what is live.
-/
import Dxpool.Simple.Steps

namespace Dxpool.Simple

inductive Fault
  | assertion
  /- A pointer followed to no allocation of its kind. -/
  | badPointer
  /- `free` of an address that no live allocation has. -/
  | badFree
  | outOfFuel
  deriving DecidableEq, Repr

abbrev Malloc := Nat → List Addr → Addr

/-- `malloc` gives no address that is in use. -/
def Malloc.Fresh (malloc : Malloc) : Prop := ∀ calls ledger, malloc calls ledger ≠ NULL → malloc calls ledger ∉ ledger

structure Mem where
  heap : Heap := {}
  ledger : List Addr := []
  calls : Nat := 0

def assert (p : Prop) [Decidable p] : Except Fault Unit := if p then .ok () else .error .assertion

/-- Follows a pointer. -/
def access {α : Type} (o : Option α) : Except Fault α :=
  match o with
  | none => .error .badPointer
  | some x => .ok x

/-- Nothing is left at `a`. -/
def Heap.release (h : Heap) (a : Addr) : Heap where
  nodes := Function.update h.nodes a none
  pools := Function.update h.pools a none
  blocks := Function.update h.blocks a none

namespace Mem

def alloc (malloc : Malloc) (m : Mem) : Addr × Mem :=
  let a := malloc m.calls m.ledger
  (a, { m with ledger := if a = NULL then m.ledger else a :: m.ledger, calls := m.calls + 1 })

def free (m : Mem) (a : Addr) : Except Fault Mem :=
  if a = NULL then .ok m
  else if a ∈ m.ledger then .ok { m with heap := m.heap.release a, ledger := m.ledger.erase a }
  else .error .badFree

def setNode (m : Mem) (node : Addr) (n : MemNode) : Mem := { m with heap := m.heap.setNode node n }

def setPool (m : Mem) (pool : Addr) (p : MemPool) : Mem := { m with heap := m.heap.setPool pool p }

def setBlock (m : Mem) (ptrData : Addr) (b : Block) : Mem := { m with heap := m.heap.setBlock ptrData b }

end Mem

/-- What `track_pool_usage_*` have in common. -/
def trackPoolUsage (f : MemPool → MemPool) (m : Mem) (pool : Addr) : Except Fault Mem := do
  let p ← access (m.heap.pools pool)
  return m.setPool pool (f p)

def trackPoolUsageAllocs : Mem → Addr → Except Fault Mem :=
  trackPoolUsage fun p => { p with numAllocs := p.numAllocs + 1 }

def trackPoolUsageReturned : Mem → Addr → Except Fault Mem :=
  trackPoolUsage fun p => { p with numAvailable := p.numAvailable + 1 }

def trackPoolUsageMemnodeUnavailable : Mem → Addr → Except Fault Mem :=
  trackPoolUsage fun p => { p with numAvailable := p.numAvailable - 1 }

def allocPoolableMem (malloc : Malloc) (m : Mem) (pool : Addr) : Except Fault (Addr × Mem) := do
  assert (pool ≠ NULL)
  let p ← access (m.heap.pools pool)
  assert (p.memSize ≠ 0)
  let (node, m) := m.alloc malloc
  if node = NULL then
    return (NULL, m)
  -- `data` and `pool` are not set yet
  let m := m.setNode node { next := NULL, data := NULL, pool := NULL }
  let (ptrData, m) := m.alloc malloc
  if ptrData = NULL then
    let m ← m.free node
    return (NULL, m)
  let m := m.setBlock ptrData { word := node, bytes := p.memSize.toNat + headerSize }
  return (node, m.setNode node { next := NULL, data := ptrData + headerSize, pool })

def freePoolableMem (m : Mem) (node : Addr) : Except Fault Mem := do
  assert (node ≠ NULL)
  let n ← access (m.heap.nodes node)
  let m ← m.free (n.data - headerSize)
  m.free node

def allocMemPool (malloc : Malloc) (m : Mem) (size : UInt32) : Addr × Mem :=
  let (pool, m) := m.alloc malloc
  if pool = NULL then (NULL, m) else (pool, m.setPool pool { memSize := size })

/-- The loop of `pool_mem_free_all`. -/
def freeAllLoop (pool : Addr) : (fuel : Nat) → Mem → (node : Addr) → Except Fault Mem
  | 0, m, node => if node = NULL then .ok m else .error .outOfFuel
  | fuel + 1, m, node =>
    if node = NULL then .ok m
    else do
      let n ← access (m.heap.nodes node)
      let p ← access (m.heap.pools pool)
      let m ← freePoolableMem (m.setPool pool { p with head := n.next }) node
      let m ← trackPoolUsageMemnodeUnavailable m pool
      let p ← access (m.heap.pools pool)
      freeAllLoop pool fuel m p.head

def poolMemFreeAll (fuel : Nat) (m : Mem) (pool : Addr) : Except Fault Mem := do
  assert (pool ≠ NULL)
  let p ← access (m.heap.pools pool)
  freeAllLoop pool fuel m p.head

def freeMemPool (fuel : Nat) (m : Mem) (pool : Addr) : Except Fault Mem := do
  assert (pool ≠ NULL)
  let m ← poolMemFreeAll fuel m pool
  m.free pool

def poolMemTryAllocData (malloc : Malloc) (m : Mem) (pool : Addr) : Except Fault (Addr × Mem) := do
  assert (pool ≠ NULL)
  let (node, m) ← allocPoolableMem malloc m pool
  if node = NULL then
    return (NULL, m)
  let m ← trackPoolUsageAllocs m pool
  let n ← access (m.heap.nodes node)
  return (n.data, m)

/-- The loop of `pool_mem_acquire`. Its weak compare-and-swap fails as
`failures` says: nobody else changes the head. -/
def acquireLoop (malloc : Malloc) (m : Mem) (pool : Addr) (failures : List Bool) : Except Fault (Addr × Mem) := do
  let p ← access (m.heap.pools pool)
  if p.head = NULL then
    poolMemTryAllocData malloc m pool
  else
    let n ← access (m.heap.nodes p.head)
    match failures with
    | true :: failures => acquireLoop malloc m pool failures
    | _ =>
      let m ← trackPoolUsageMemnodeUnavailable (m.setPool pool { p with head := n.next }) pool
      return (n.data, m)

def poolMemAcquire (malloc : Malloc) (m : Mem) (pool : Addr) (failures : List Bool) : Except Fault (Addr × Mem) := do
  assert (pool ≠ NULL)
  acquireLoop malloc m pool failures

/-- The loop of `pool_mem_return`. -/
def returnLoop (newHead pool : Addr) (m : Mem) (failures : List Bool) : Except Fault Mem := do
  let p ← access (m.heap.pools pool)
  let n ← access (m.heap.nodes newHead)
  let m := m.setNode newHead { n with next := p.head }
  match failures with
  | true :: failures => returnLoop newHead pool m failures
  | _ => trackPoolUsageReturned (m.setPool pool { p with head := newHead }) pool

def poolMemReturn (m : Mem) (data : Addr) (failures : List Bool) : Except Fault Mem := do
  assert (data ≠ NULL)
  let newHead ← access (m.heap.getMemnodeInData data)
  let n ← access (m.heap.nodes newHead)
  returnLoop newHead n.pool m failures

/-! ## A client -/

/-- Whether the client has a pool. -/
inductive Stage
  | noPool
  | pool (pool : Addr)
  | freed
  deriving DecidableEq, Repr

/-- A program that uses one pool, and the blocks it holds. -/
structure Session where
  mem : Mem := {}
  stage : Stage := .noPool
  held : List Addr := []

inductive Call
  | allocMemPool (size : UInt32)
  | acquire (pool : Addr) (failures : List Bool)
  | ret (data : Addr) (failures : List Bool)
  | freeAll (pool : Addr)
  | freeMemPool (pool : Addr)
  deriving DecidableEq, Repr

/-- The client's contract: a call is about its pool, until that is freed, and
a block returned is one that it holds. -/
def Session.Allows (s : Session) : Call → Prop
  | .allocMemPool _ => s.stage = .noPool
  | .acquire pool _ | .freeAll pool | .freeMemPool pool => s.stage = .pool pool
  | .ret data _ => data ∈ s.held ∧ ∃ pool, s.stage = .pool pool

instance (s : Session) (c : Call) : Decidable (s.Allows c) :=
  match c with
  | .allocMemPool _ | .acquire _ _ | .freeAll _ | .freeMemPool _ => inferInstanceAs (Decidable (_ = _))
  | .ret data _ =>
    match h : s.stage with
    | .pool pool => decidable_of_iff (data ∈ s.held) (by simp [Session.Allows, h])
    | .noPool | .freed => isFalse (by simp [Session.Allows, h])

/-- One call. A list as long as the ledger is fuel enough. -/
def Session.exec (malloc : Malloc) (s : Session) : Call → Except Fault Session
  | .allocMemPool size =>
    let (pool, mem) := Simple.allocMemPool malloc s.mem size
    .ok { s with mem, stage := if pool = NULL then .noPool else .pool pool }
  | .acquire pool failures => do
    let (data, mem) ← poolMemAcquire malloc s.mem pool failures
    return { s with mem, held := if data = NULL then s.held else data :: s.held }
  | .ret data failures => do
    let mem ← poolMemReturn s.mem data failures
    return { s with mem, held := s.held.erase data }
  | .freeAll pool => do
    let mem ← poolMemFreeAll s.mem.ledger.length s.mem pool
    return { s with mem }
  | .freeMemPool pool => do
    let mem ← Simple.freeMemPool s.mem.ledger.length s.mem pool
    return { s with mem, stage := .freed }

/-- The program: its calls one after another, until one faults. -/
def program (malloc : Malloc) : Machine (Except Fault Session) Call where
  init r := r = .ok {}
  step r c :=
    match r with
    | .error _ => none
    | .ok s => if s.Allows c then some (s.exec malloc c) else none

end Dxpool.Simple
