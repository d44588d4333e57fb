/-
Cores, sets of cores, and NUMA nodes (src/Core.h, src/NUMANode.h). Sets are
ordered by `operator<`, which compares the IDs; two nodes with the same ID are
one element, whatever their cores.
-/
import Dxpool.Keyed
import Mathlib.Algebra.Group.Nat.Defs
import Mathlib.Data.Nat.Basic

namespace Dxpool.Processor

structure Core where
  coreID : UInt32
  deriving DecidableEq, Repr

/-- What `operator<` compares. -/
def Core.key (core : Core) : Nat := core.coreID.toNat

theorem Core.key_injective : Function.Injective Core.key := by
  rintro ⟨a⟩ ⟨b⟩ h
  have hab : a = b := UInt32.toNat_inj.1 h
  rw [hab]

/-- `std::set<Core>`. -/
abbrev CoreSet := Keyed Core.key

/-- A NUMA node. Only the constructor with an ID gives it cores, and that sets
`empty` to false; `SetID` changes neither. -/
structure NUMANode where
  cores : CoreSet := ∅
  numaNodeID : UInt32 := 0
  empty : Bool := true
  cores_of_empty : empty = true → cores = ∅ := by exact fun _ => rfl
  deriving DecidableEq

/-- `NUMANode(nodeID, cpuCores)`. -/
def NUMANode.withID (nodeID : UInt32) (cpuCores : CoreSet) : NUMANode where
  cores := cpuCores
  numaNodeID := nodeID
  empty := false
  cores_of_empty h := nomatch h

/-- What `operator<` compares. -/
def NUMANode.key (node : NUMANode) : Nat := node.numaNodeID.toNat

end Dxpool.Processor
