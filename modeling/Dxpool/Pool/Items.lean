/-
`Pool` and `PoolItem` (src/Pool.h, src/PoolItem.h): threads that take items,
move them and destroy them.

A thread has a stack of the calls it is in, the innermost first: a destructor
runs the reset of the item, which is client code and can use the pool again.
Between two steps a thread is inside `Take` before or after its call of
`Next`, or inside a destructor before or after the reset. Any thread can move
or destroy any object that lives; objects are numbered as they are constructed.
-/
import Dxpool.Indexer.Mutex

namespace Dxpool.Pool

open Indexer

/-- What a `PoolItem` calls when it is destroyed. -/
inductive OnDestroyCallback
  | noOp
  | returnToPool
  deriving DecidableEq, Repr

/-- `item` is the element of the pool pointed to, if any. -/
structure PoolItem where
  onDestroyCallback : OnDestroyCallback
  item : Option Nat
  index : Nat
  empty : Bool
  deriving DecidableEq, Repr

namespace PoolItem

/-- `PoolItem(onDestroyCb, poolItem, poolIndex)` -/
def construct (onDestroyCb : OnDestroyCallback) (poolItem : Option Nat) (poolIndex : Nat) : PoolItem :=
  { onDestroyCallback := onDestroyCb, item := poolItem, index := poolIndex, empty := poolItem.isNone }

/-- `PoolItem()` -/
def blank : PoolItem := construct .noOp none 0

/-- `PoolItem(PoolItem&& movedPoolItem)`: the new object, and what is left of
the moved one. -/
def move (moved : PoolItem) : PoolItem × PoolItem :=
  (moved, { moved with item := none, empty := true, onDestroyCallback := .noOp })

end PoolItem

/-- What `InvokeReset` runs: `ItemType::Reset`, or `customResetCallback` where
the item type has none. -/
inductive Reset
  | itemReset
  | customResetCallback
  deriving DecidableEq, Repr

/-- A call a thread is in. -/
inductive Frame
  /- `Take`, at `this->indexer.Next()`. -/
  | takeNext
  /- `Take`, at what it does with the holder. -/
  | takeItem (holder : IndexHolder)
  /- `~PoolItem`, in `InvokeReset`. -/
  | resetting (reset : Reset) (obj : PoolItem)
  /- `~PoolItem`, at `this->indexer.Return(item.PoolIndex())`. -/
  | returning (obj : PoolItem)
  /- `items.at(index)` has thrown. -/
  | thrown
  /- Past undefined behaviour. -/
  | undefined
  deriving DecidableEq, Repr

/-- `InvokeReset(item.Get())`, `resetable` being `IsResetableType<ItemType>`. -/
def invokeReset (resetable : Bool) (obj : PoolItem) : Frame :=
  if resetable then if obj.item = none then .undefined else .resetting .itemReset obj
  else .resetting .customResetCallback obj

/-- `~PoolItem()`: the call that it starts, if any. -/
def destroy (resetable : Bool) (obj : PoolItem) : List Frame :=
  match obj.onDestroyCallback with
  | .noOp => []
  | .returnToPool => [invokeReset resetable obj]

/-- What `Take` does with the holder: the object it constructs, or none where
`items.at` throws. -/
def takeItem (numItems : Nat) (holder : IndexHolder) : Option PoolItem :=
  if holder.empty then some .blank
  else if holder.value < numItems then some (.construct .returnToPool (some holder.value) holder.value)
  else none

/-- The indexer, the objects by number, none once destroyed, and the calls
each thread is in. -/
structure State (ι T : Type) where
  indexer : ι
  objects : List (Option PoolItem) := []
  threads : T → List Frame

/-- Client code runs in a thread in no call, and in a reset. -/
def client : List Frame → Bool
  | [] | .resetting _ _ :: _ => true
  | _ => false

/-- What can happen next: client code calls `Take`, moves from object `k`,
destroys it or uses its item; or a thread performs the next step of the call
it is in, a reset its last one. -/
inductive Act (T : Type)
  | take (t : T)
  | move (t : T) (k : Nat)
  | destroy (t : T) (k : Nat)
  | get (t : T) (k : Nat)
  | run (t : T)
  deriving DecidableEq, Repr

def Act.thread {T : Type} : Act T → T
  | .take t | .move t _ | .destroy t _ | .get t _ | .run t => t

section
variable {ι T : Type} [DecidableEq T]

/-- The state with the calls of thread `t` replaced. -/
def State.set (s : State ι T) (t : T) (frames : List Frame) : State ι T :=
  { s with threads := Function.update s.threads t frames }

/-- The object `k`, if it lives. -/
def State.object (s : State ι T) (k : Nat) : Option PoolItem := s.objects[k]?.join

def step (calls : Calls ι) (resetable : Bool) (numItems : Nat) (s : State ι T) : Act T → Option (State ι T)
  | .take t => if client (s.threads t) then some (s.set t (.takeNext :: s.threads t)) else none
  | .move t k =>
    match s.object k with
    | none => none
    | some obj =>
      if client (s.threads t) then
        some { s with objects := s.objects.set k (some obj.move.2) ++ [some obj.move.1] }
      else none
  | .destroy t k =>
    match s.object k with
    | none => none
    | some obj =>
      if client (s.threads t) then
        some ({ s with objects := s.objects.set k none }.set t (destroy resetable obj ++ s.threads t))
      else none
  | .get t k =>
    match s.object k with
    | none => none
    | some obj => if client (s.threads t) ∧ obj.empty = false then some s else none
  | .run t =>
    match s.threads t with
    | [] | .thrown :: _ | .undefined :: _ => none
    | .takeNext :: rest =>
      match calls.next s.indexer with
      | none => some (s.set t (.undefined :: rest))
      | some (holder, indexer) => some ({ s with indexer }.set t (.takeItem holder :: rest))
    | .takeItem holder :: rest =>
      match takeItem numItems holder with
      | none => some (s.set t (.thrown :: rest))
      | some obj => some ({ s with objects := s.objects ++ [some obj] }.set t rest)
    | .resetting _ obj :: rest => some (s.set t (.returning obj :: rest))
    | .returning obj :: rest =>
      match calls.giveBack s.indexer obj.index with
      | none => some (s.set t (.undefined :: rest))
      | some indexer => some ({ s with indexer }.set t rest)

/-- A pool of `numItems` items and its clients. -/
def machine (calls : Calls ι) (start : ι) (resetable : Bool) (numItems : Nat) (T : Type) [DecidableEq T] :
    Machine (State ι T) (Act T) where
  init s := s = { indexer := start, threads := fun _ => [] }
  step := step calls resetable numItems

/-- A pool with `MutexIndexer`. -/
def mutexPool (bits : Nat) (resetable : Bool) (numItems : Nat) (T : Type) [DecidableEq T] :
    Machine (State MutexIndexer T) (Act T) :=
  machine (mutexCalls bits) (.construct numItems) resetable numItems T

/-! ## Steps -/

/-- One step of the machine, by case. -/
inductive Step (calls : Calls ι) (resetable : Bool) (numItems : Nat) (s : State ι T) : Act T → State ι T → Prop
  | take {t} : client (s.threads t) = true →
      Step calls resetable numItems s (.take t) (s.set t (.takeNext :: s.threads t))
  | move {t k obj} : client (s.threads t) = true → s.object k = some obj → Step calls resetable numItems s (.move t k)
      { s with objects := s.objects.set k (some obj.move.2) ++ [some obj.move.1] }
  | destroy {t k obj} : client (s.threads t) = true → s.object k = some obj →
      Step calls resetable numItems s (.destroy t k)
        ({ s with objects := s.objects.set k none }.set t (destroy resetable obj ++ s.threads t))
  | get {t k obj} : client (s.threads t) = true → s.object k = some obj → obj.empty = false →
      Step calls resetable numItems s (.get t k) s
  | next {t rest holder indexer} : s.threads t = .takeNext :: rest → calls.next s.indexer = some (holder, indexer) →
      Step calls resetable numItems s (.run t) ({ s with indexer }.set t (.takeItem holder :: rest))
  | nextUndefined {t rest} : s.threads t = .takeNext :: rest → calls.next s.indexer = none →
      Step calls resetable numItems s (.run t) (s.set t (.undefined :: rest))
  | item {t holder rest obj} : s.threads t = .takeItem holder :: rest → takeItem numItems holder = some obj →
      Step calls resetable numItems s (.run t) ({ s with objects := s.objects ++ [some obj] }.set t rest)
  | itemThrown {t holder rest} : s.threads t = .takeItem holder :: rest → takeItem numItems holder = none →
      Step calls resetable numItems s (.run t) (s.set t (.thrown :: rest))
  | reset {t reset obj rest} : s.threads t = .resetting reset obj :: rest →
      Step calls resetable numItems s (.run t) (s.set t (.returning obj :: rest))
  | giveBack {t obj rest indexer} : s.threads t = .returning obj :: rest →
      calls.giveBack s.indexer obj.index = some indexer →
      Step calls resetable numItems s (.run t) ({ s with indexer }.set t rest)
  | giveBackUndefined {t obj rest} : s.threads t = .returning obj :: rest →
      calls.giveBack s.indexer obj.index = none →
      Step calls resetable numItems s (.run t) (s.set t (.undefined :: rest))

theorem step_cases {calls resetable numItems} {s s' : State ι T} {a : Act T}
    (h : step calls resetable numItems s a = some s') : Step calls resetable numItems s a s' := by
  cases a with
  | take t =>
    simp only [step, Option.ite_none_right_eq_some, Option.some.injEq] at h
    obtain ⟨hc, rfl⟩ := h
    exact .take hc
  | move t k =>
    simp only [step] at h
    split at h
    · cases h
    · simp only [Option.ite_none_right_eq_some, Option.some.injEq] at h
      obtain ⟨hc, rfl⟩ := h
      exact .move hc ‹_›
  | destroy t k =>
    simp only [step] at h
    split at h
    · cases h
    · simp only [Option.ite_none_right_eq_some, Option.some.injEq] at h
      obtain ⟨hc, rfl⟩ := h
      exact .destroy hc ‹_›
  | get t k =>
    simp only [step] at h
    split at h
    · cases h
    · simp only [Option.ite_none_right_eq_some, Option.some.injEq] at h
      obtain ⟨⟨hc, he⟩, rfl⟩ := h
      exact .get hc ‹_› he
  | run t =>
    simp only [step] at h
    split at h
    · cases h
    · cases h
    · cases h
    · split at h <;> cases h
      · exact .nextUndefined ‹_› ‹_›
      · exact .next ‹_› ‹_›
    · split at h <;> cases h
      · exact .itemThrown ‹_› ‹_›
      · exact .item ‹_› ‹_›
    · cases h
      exact .reset ‹_›
    · split at h <;> cases h
      · exact .giveBackUndefined ‹_› ‹_›
      · exact .giveBack ‹_› ‹_›

@[simp] theorem set_indexer (s : State ι T) (t : T) (fs : List Frame) : (s.set t fs).indexer = s.indexer := rfl

@[simp] theorem set_self (s : State ι T) (t : T) (fs : List Frame) : (s.set t fs).threads t = fs := by
  simp [State.set]

theorem set_ne {s : State ι T} {t u : T} {fs : List Frame} (h : u ≠ t) : (s.set t fs).threads u = s.threads u := by
  simp [State.set, h]

end

end Dxpool.Pool
