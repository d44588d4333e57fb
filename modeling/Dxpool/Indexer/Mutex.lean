/-
`MutexIndexer` (src/MutexIndexer.h): a vector of all indices, the free ones
from `indexPos` on.

Its calls hold the mutex from start to end, so each is one step. What they
have in common with any indexer used so is that it is a bag of the indices not
handed out (`Bag`).
-/
import Mathlib.Data.List.Perm.Basic
import Dxpool.Indexer.Concurrent

namespace Dxpool.Indexer

structure MutexIndexer where
  indices : List Nat := []
  indexPos : Nat := 0
  deriving DecidableEq, Repr

namespace MutexIndexer

/-- The constructor's loop, from `i` on: `indices.push_back(i)`. -/
def fill : (todo i : Nat) → List Nat → List Nat
  | 0, _, indices => indices
  | todo + 1, i, indices => fill todo (i + 1) (indices ++ [i])

def construct (maxSize : Nat) : MutexIndexer := { indices := fill maxSize 0 [] }

/-- `Next()`, or none where it reads past the end of `indices`. -/
def next (bits : Nat) (ix : MutexIndexer) : Option (IndexHolder × MutexIndexer) :=
  if ix.indexPos = ix.indices.length then some ({}, ix)
  else
    match ix.indices[ix.indexPos]? with
    | none => none
    | some index => some (.of index, { ix with indexPos := (ix.indexPos + 1) % 2 ^ bits })

/-- `Return(index)`, or none where it writes past the end of `indices`. -/
def giveBack (bits : Nat) (ix : MutexIndexer) (index : Nat) : Option MutexIndexer :=
  let indexPos := (ix.indexPos + 2 ^ bits - 1) % 2 ^ bits
  if indexPos < ix.indices.length then some { indices := ix.indices.set indexPos index, indexPos } else none

/-- The free indices. -/
def free (ix : MutexIndexer) : List Nat := ix.indices.drop ix.indexPos

theorem fill_eq {todo i : Nat} {indices : List Nat} : fill todo i indices = indices ++ List.range' i todo := by
  induction todo generalizing i indices with
  | zero => simp [fill]
  | succ todo ih => rw [fill, ih, List.append_assoc, List.singleton_append, List.range'_succ]

theorem construct_indices (n : Nat) : (construct n).indices = List.range n := by
  rw [construct, fill_eq, List.nil_append, List.range_eq_range']

end MutexIndexer

/-! ## Indexers as bags -/

/-- The calls of an indexer, each one step; none is undefined behaviour. -/
structure Calls (ι : Type) where
  next : ι → Option (IndexHolder × ι)
  giveBack : ι → Nat → Option ι

/-- An indexer of `n` indices is a bag of the free ones: `Next` takes one out
unless there is none, `Return` puts one in that is not there. -/
structure Bag {ι : Type} (calls : Calls ι) (n : Nat) where
  inv : ι → Prop
  free : ι → List Nat
  next : ∀ {x}, inv x → ∃ holder x', calls.next x = some (holder, x') ∧ inv x' ∧
    (free x).Perm (holder.indices ++ free x') ∧ (holder.empty = true ↔ free x = [])
  giveBack : ∀ {x i}, inv x → (i :: free x).Nodup → (∀ j ∈ i :: free x, j < n) →
    ∃ x', calls.giveBack x i = some x' ∧ inv x' ∧ (free x').Perm (i :: free x)

def mutexCalls (bits : Nat) : Calls MutexIndexer := ⟨MutexIndexer.next bits, MutexIndexer.giveBack bits⟩

section
variable {bits n : Nat} {ix : MutexIndexer}

/-- `indices` keeps its size, and `indexPos` stays in it. -/
structure MutexIndexer.Sized (n : Nat) (ix : MutexIndexer) : Prop where
  length : ix.indices.length = n
  pos : ix.indexPos ≤ n

theorem MutexIndexer.Sized.next (hn : n < 2 ^ bits) (h : ix.Sized n) : ∃ holder ix', ix.next bits = some (holder, ix') ∧
    ix'.Sized n ∧ ix.free.Perm (holder.indices ++ ix'.free) ∧ (holder.empty = true ↔ ix.free = []) := by
  have hlen := h.length
  by_cases hend : ix.indexPos = n
  · refine ⟨{}, ix, by rw [MutexIndexer.next, if_pos (hend.trans hlen.symm)], h, .refl _, ?_⟩
    simp [free, hend, hlen]
  · have hlt : ix.indexPos < ix.indices.length := by have := h.pos; omega
    have hmod : (ix.indexPos + 1) % 2 ^ bits = ix.indexPos + 1 := Nat.mod_eq_of_lt (by omega)
    refine ⟨.of ix.indices[ix.indexPos], { ix with indexPos := ix.indexPos + 1 }, ?_, ⟨hlen, ?_⟩, ?_, ?_⟩
    · rw [MutexIndexer.next, if_neg (by omega), List.getElem?_eq_getElem hlt]
      simp only [hmod]
    · show ix.indexPos + 1 ≤ n; omega
    · rw [free, List.drop_eq_getElem_cons hlt]; exact .refl _
    · simp [free, IndexHolder.of]; omega

/-- Indices below `n` without repetition, and one more below `n`: fewer than `n`. -/
theorem length_lt_of_nodup {i : Nat} {l : List Nat} (hnd : (i :: l).Nodup) (hlt : ∀ j ∈ i :: l, j < n) :
    l.length < n := by
  have hsub : (i :: l) ⊆ List.range n := fun j hj => List.mem_range.2 (hlt j hj)
  have := (List.subperm_of_subset hnd hsub).length_le
  rwa [List.length_cons, List.length_range] at this

theorem MutexIndexer.Sized.giveBack {i : Nat} (hn : n < 2 ^ bits) (h : ix.Sized n) (hnd : (i :: ix.free).Nodup)
    (hlt : ∀ j ∈ i :: ix.free, j < n) :
    ∃ ix', ix.giveBack bits i = some ix' ∧ ix'.Sized n ∧ ix'.free.Perm (i :: ix.free) := by
  have hlen := h.length
  have hle := h.pos
  have hfree : ix.free.length = n - ix.indexPos := by rw [free, List.length_drop, hlen]
  have hpos : 0 < ix.indexPos := by have := length_lt_of_nodup hnd hlt; omega
  have hmod : (ix.indexPos + 2 ^ bits - 1) % 2 ^ bits = ix.indexPos - 1 := by
    rw [show ix.indexPos + 2 ^ bits - 1 = ix.indexPos - 1 + 2 ^ bits by omega, Nat.add_mod_right]
    exact Nat.mod_eq_of_lt (by omega)
  refine ⟨{ indices := ix.indices.set (ix.indexPos - 1) i, indexPos := ix.indexPos - 1 }, ?_, ⟨?_, ?_⟩, ?_⟩
  · simp only [MutexIndexer.giveBack, hmod]
    rw [if_pos (by omega)]
  · rw [List.length_set, hlen]
  · show ix.indexPos - 1 ≤ n; omega
  · have hset : ix.indexPos - 1 < (ix.indices.set (ix.indexPos - 1) i).length := by rw [List.length_set]; omega
    rw [free, List.drop_eq_getElem_cons hset, List.getElem_set_self, Nat.sub_add_cancel hpos,
      List.drop_set_of_lt (by omega)]
    exact .refl _

/-- A `MutexIndexer` is a bag of its free indices. -/
def mutexBag (hn : n < 2 ^ bits) : Bag (mutexCalls bits) n where
  inv := MutexIndexer.Sized n
  free := MutexIndexer.free
  next h := h.next hn
  giveBack h := h.giveBack hn

end

end Dxpool.Indexer
