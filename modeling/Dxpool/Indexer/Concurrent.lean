/-
`ConcurrentIndexer` (src/ConcurrentIndexer.h): two counters and a ring of
`2 * poolSize` slots, stepped one atomic operation at a time.

A thread is between two of its atomic operations; its `Pc` holds the locals
it still needs. `advance` performs the next operation of `Next` or `Return`
and runs the code up to the following one, so a call's last operation also
returns from it. `IndexSizeT` is `bits` wide: its arithmetic is `% 2 ^ bits`.
-/
import Mathlib.Algebra.Group.Nat.Defs
import Dxpool.Machine

namespace Dxpool.Indexer

/-- `IndexHolder`: an index, or the empty holder. -/
structure IndexHolder where
  value : Nat := 0
  empty : Bool := true
  deriving DecidableEq, Repr

/-- The holder initialized with an index. -/
def IndexHolder.of (idxValue : Nat) : IndexHolder := { value := idxValue, empty := false }

/-- What a holder gives its client. -/
def IndexHolder.indices (h : IndexHolder) : List Nat := if h.empty then [] else [h.value]

@[simp] theorem IndexHolder.indices_empty : ({} : IndexHolder).indices = [] := rfl
@[simp] theorem IndexHolder.indices_of (i : Nat) : (IndexHolder.of i).indices = [i] := rfl

abbrev UnusedPosition : Nat := 0

structure ConcurrentIndexer where
  readPos : Nat := 0
  writePos : Nat := 0
  indices : List Nat
  size : Nat
  maxPositionSize : Nat

namespace ConcurrentIndexer

/-- `AtomicLoad(&this->indices[k])`. -/
def load (ix : ConcurrentIndexer) (k : Nat) : Nat := ix.indices.getD k UnusedPosition

/-- `AtomicStore(&this->indices[k], value)`. -/
def store (ix : ConcurrentIndexer) (k value : Nat) : ConcurrentIndexer :=
  { ix with indices := ix.indices.set k value }

/-- What undefined behaviour the constructor can run into. -/
inductive Fault
  | divisionByZero
  | outOfBounds
  deriving DecidableEq, Repr

/-- The constructor's loop, from `i` on: `this->indices[i] = i+1`. -/
def fill (bits : Nat) : (todo i : Nat) → List Nat → Except Fault (List Nat)
  | 0, _, indices => .ok indices
  | todo + 1, i, indices =>
    if i < indices.length then fill bits todo (i + 1) (indices.set i ((i + 1) % 2 ^ bits))
    else .error .outOfBounds

/-- `ConcurrentIndexer(poolSize)`: the member initializers in declaration
order, then the body. -/
def construct (bits poolSize : Nat) : Except Fault ConcurrentIndexer :=
  let size := poolSize * 2 % 2 ^ bits
  if size = 0 then .error .divisionByZero
  else
    match fill bits poolSize 0 (List.replicate size UnusedPosition) with
    | .error e => .error e
    | .ok indices =>
      .ok { readPos := 0, writePos := poolSize, indices, size,
            maxPositionSize := (2 ^ bits - 1) / size * size }

end ConcurrentIndexer

/-- Where a thread stands: between calls, or at the next atomic operation of
`Next` or `Return`. -/
inductive Pc
  | idle
  /- `Next`: `this->readPos.load`. -/
  | nextLoadRead
  /- `WrapOnOverflow(this->readPos, ..)`: its load, its compare-and-swap. -/
  | nextWrapLoad
  | nextWrapCas
  | nextLoadWrite (curReadPos : Nat)
  | nextCheckSlot (curReadPos : Nat)
  | nextCas (curReadPos : Nat)
  /- The position is claimed: the busy wait on its slot, then the clearing store. -/
  | nextLoadSlot (curReadPos : Nat)
  | nextClear (curReadPos index : Nat)
  /- `Return(index)`: `this->writePos.load`. -/
  | returnLoadWrite (index : Nat)
  | returnWrapLoad (index : Nat)
  | returnWrapCas (index : Nat)
  | returnCas (index curWritePos : Nat)
  /- The position is claimed: the busy wait on its slot, then the filling store. -/
  | returnLoadSlot (index curWritePos : Nat)
  | returnFill (index curWritePos : Nat)
  deriving DecidableEq, Repr

/-- The next atomic operation of a thread inside a call: the indexer after
it, where the thread stands, and the holder if `Next` returns. `spurious`
makes a weak compare-and-swap fail. -/
def advance (bits : Nat) (ix : ConcurrentIndexer) (spurious : Bool) :
    Pc → ConcurrentIndexer × Pc × Option IndexHolder
  | .idle => (ix, .idle, none)
  | .nextLoadRead =>
    if ix.readPos = ix.maxPositionSize then (ix, .nextWrapLoad, none)
    else (ix, .nextLoadWrite ix.readPos, none)
  | .nextWrapLoad =>
    if ix.readPos = ix.maxPositionSize then (ix, .nextWrapCas, none) else (ix, .nextLoadRead, none)
  | .nextWrapCas =>
    if ix.readPos = ix.maxPositionSize ∧ spurious = false then ({ ix with readPos := 0 }, .nextLoadRead, none)
    else (ix, .nextWrapLoad, none)
  | .nextLoadWrite curReadPos =>
    if curReadPos = ix.writePos then (ix, .idle, some {}) else (ix, .nextCheckSlot curReadPos, none)
  | .nextCheckSlot curReadPos =>
    if ix.load (curReadPos % ix.size) = UnusedPosition then (ix, .idle, some {})
    else (ix, .nextCas curReadPos, none)
  | .nextCas curReadPos =>
    if ix.readPos = curReadPos ∧ spurious = false then
      ({ ix with readPos := (curReadPos + 1) % 2 ^ bits }, .nextLoadSlot curReadPos, none)
    else (ix, .nextLoadRead, none)
  | .nextLoadSlot curReadPos =>
    if ix.load (curReadPos % ix.size) = UnusedPosition then (ix, .nextLoadSlot curReadPos, none)
    else (ix, .nextClear curReadPos (ix.load (curReadPos % ix.size)), none)
  | .nextClear curReadPos index =>
    (ix.store (curReadPos % ix.size) UnusedPosition, .idle, some (.of (index - 1)))
  | .returnLoadWrite index =>
    if ix.writePos = ix.maxPositionSize then (ix, .returnWrapLoad index, none)
    else (ix, .returnCas index ix.writePos, none)
  | .returnWrapLoad index =>
    if ix.writePos = ix.maxPositionSize then (ix, .returnWrapCas index, none)
    else (ix, .returnLoadWrite index, none)
  | .returnWrapCas index =>
    if ix.writePos = ix.maxPositionSize ∧ spurious = false then
      ({ ix with writePos := 0 }, .returnLoadWrite index, none)
    else (ix, .returnWrapLoad index, none)
  | .returnCas index curWritePos =>
    if ix.writePos = curWritePos ∧ spurious = false then
      ({ ix with writePos := (curWritePos + 1) % 2 ^ bits }, .returnLoadSlot index curWritePos, none)
    else (ix, .returnLoadWrite index, none)
  | .returnLoadSlot index curWritePos =>
    if ix.load (curWritePos % ix.size) = UnusedPosition then (ix, .returnFill index curWritePos, none)
    else (ix, .returnLoadSlot index curWritePos, none)
  | .returnFill index curWritePos =>
    (ix.store (curWritePos % ix.size) ((index + 1) % 2 ^ bits), .idle, none)

/-- A thread: where it stands, and the indices it holds as a client. -/
structure Thread where
  pc : Pc := .idle
  held : List Nat := []

structure State (T : Type) where
  indexer : ConcurrentIndexer
  threads : T → Thread

/-- What can happen next: a thread calls `Next` or `Return`, hands an index
it holds to another thread, or performs its next atomic operation. -/
inductive Act (T : Type)
  | next (t : T)
  | ret (t : T) (index : Nat)
  | give (t u : T) (index : Nat)
  | run (t : T) (spurious : Bool)
  deriving DecidableEq, Repr

section
variable {T : Type} [DecidableEq T]

/-- The state with thread `t` replaced. -/
def State.set (s : State T) (t : T) (th : Thread) : State T :=
  { s with threads := Function.update s.threads t th }

def step (bits : Nat) (s : State T) : Act T → Option (State T)
  | .next t =>
    if (s.threads t).pc = .idle then some (s.set t { s.threads t with pc := .nextLoadRead }) else none
  | .ret t index =>
    if (s.threads t).pc = .idle then
      some (s.set t { pc := .returnLoadWrite index, held := (s.threads t).held.erase index })
    else none
  | .give t u index =>
    if t ≠ u ∧ index ∈ (s.threads t).held then
      some ((s.set t { s.threads t with held := (s.threads t).held.erase index }).set u
        { s.threads u with held := index :: (s.threads u).held })
    else none
  | .run t spurious =>
    if (s.threads t).pc = .idle then none
    else
      let (indexer, pc, answer) := advance bits s.indexer spurious (s.threads t).pc
      some ({ s with indexer }.set t
        { pc, held := (answer.elim [] IndexHolder.indices) ++ (s.threads t).held })

/-- The indexer of `n` indices and its clients: at first constructed, with no
call in progress and no index held. -/
def machine (bits n : Nat) (T : Type) [DecidableEq T] : Machine (State T) (Act T) where
  init s := ConcurrentIndexer.construct bits n = .ok s.indexer ∧ ∀ t, s.threads t = {}
  step := step bits

/-- The clients' contract: a thread returns only an index it holds. -/
def Owned (s : State T) : Act T → Prop
  | .ret t index => index ∈ (s.threads t).held
  | _ => True

instance (s : State T) (a : Act T) : Decidable (Owned s a) :=
  match a with
  | .ret t index => inferInstanceAs (Decidable (index ∈ (s.threads t).held))
  | .next _ | .give _ _ _ | .run _ _ => isTrue trivial

end

end Dxpool.Indexer
