/-
What a step of the `ConcurrentIndexer` machine can be: one case for each
operation and outcome (`Move`), one for each action (`Step`). The later
modules read steps through these and never unfold `step` or `advance`.
-/
import Dxpool.Indexer.Concurrent
import Dxpool.Tally

namespace Dxpool.Indexer

open ConcurrentIndexer

@[simp] theorem store_size (ix : ConcurrentIndexer) (k v : Nat) : (ix.store k v).size = ix.size := rfl
@[simp] theorem store_length (ix : ConcurrentIndexer) (k v : Nat) :
    (ix.store k v).indices.length = ix.indices.length := by simp [store]
@[simp] theorem load_readPos (ix : ConcurrentIndexer) (r k : Nat) :
    ({ ix with readPos := r } : ConcurrentIndexer).load k = ix.load k := rfl
@[simp] theorem load_writePos (ix : ConcurrentIndexer) (w k : Nat) :
    ({ ix with writePos := w } : ConcurrentIndexer).load k = ix.load k := rfl

theorem load_store {ix : ConcurrentIndexer} {k : Nat} (v j : Nat) (hk : k < ix.indices.length) :
    (ix.store k v).load j = if k = j then v else ix.load j := by
  simp only [load, store]
  exact Tally.getD_set v hk

/-- One atomic operation of a thread inside a call, by operation and outcome. -/
inductive Move (bits : Nat) (ix : ConcurrentIndexer) (sp : Bool) :
    Pc → ConcurrentIndexer → Pc → Option IndexHolder → Prop
  | nextAtMax : ix.readPos = ix.maxPositionSize → Move bits ix sp .nextLoadRead ix .nextWrapLoad none
  | nextBelow : ix.readPos ≠ ix.maxPositionSize →
      Move bits ix sp .nextLoadRead ix (.nextLoadWrite ix.readPos) none
  | nextStillMax : ix.readPos = ix.maxPositionSize → Move bits ix sp .nextWrapLoad ix .nextWrapCas none
  | nextWrapped : ix.readPos ≠ ix.maxPositionSize → Move bits ix sp .nextWrapLoad ix .nextLoadRead none
  | nextWrap : ix.readPos = ix.maxPositionSize → sp = false →
      Move bits ix sp .nextWrapCas { ix with readPos := 0 } .nextLoadRead none
  | nextWrapFail : ¬(ix.readPos = ix.maxPositionSize ∧ sp = false) → Move bits ix sp .nextWrapCas ix .nextWrapLoad none
  | nextNoMore {c} : c = ix.writePos → Move bits ix sp (.nextLoadWrite c) ix .idle (some {})
  | nextMore {c} : c ≠ ix.writePos → Move bits ix sp (.nextLoadWrite c) ix (.nextCheckSlot c) none
  | nextUnused {c} : ix.load (c % ix.size) = 0 → Move bits ix sp (.nextCheckSlot c) ix .idle (some {})
  | nextUsed {c} : ix.load (c % ix.size) ≠ 0 → Move bits ix sp (.nextCheckSlot c) ix (.nextCas c) none
  | nextClaim {c} : ix.readPos = c → sp = false →
      Move bits ix sp (.nextCas c) { ix with readPos := (c + 1) % 2 ^ bits } (.nextLoadSlot c) none
  | nextClaimFail {c} : ¬(ix.readPos = c ∧ sp = false) → Move bits ix sp (.nextCas c) ix .nextLoadRead none
  | nextWait {c} : ix.load (c % ix.size) = 0 → Move bits ix sp (.nextLoadSlot c) ix (.nextLoadSlot c) none
  | nextGrab {c} : ix.load (c % ix.size) ≠ 0 →
      Move bits ix sp (.nextLoadSlot c) ix (.nextClear c (ix.load (c % ix.size))) none
  | nextClear {c v} : Move bits ix sp (.nextClear c v) (ix.store (c % ix.size) 0) .idle (some (.of (v - 1)))
  | returnAtMax {i} : ix.writePos = ix.maxPositionSize →
      Move bits ix sp (.returnLoadWrite i) ix (.returnWrapLoad i) none
  | returnBelow {i} : ix.writePos ≠ ix.maxPositionSize →
      Move bits ix sp (.returnLoadWrite i) ix (.returnCas i ix.writePos) none
  | returnStillMax {i} : ix.writePos = ix.maxPositionSize →
      Move bits ix sp (.returnWrapLoad i) ix (.returnWrapCas i) none
  | returnWrapped {i} : ix.writePos ≠ ix.maxPositionSize →
      Move bits ix sp (.returnWrapLoad i) ix (.returnLoadWrite i) none
  | returnWrap {i} : ix.writePos = ix.maxPositionSize → sp = false →
      Move bits ix sp (.returnWrapCas i) { ix with writePos := 0 } (.returnLoadWrite i) none
  | returnWrapFail {i} : ¬(ix.writePos = ix.maxPositionSize ∧ sp = false) →
      Move bits ix sp (.returnWrapCas i) ix (.returnWrapLoad i) none
  | returnClaim {i c} : ix.writePos = c → sp = false →
      Move bits ix sp (.returnCas i c) { ix with writePos := (c + 1) % 2 ^ bits } (.returnLoadSlot i c) none
  | returnClaimFail {i c} : ¬(ix.writePos = c ∧ sp = false) →
      Move bits ix sp (.returnCas i c) ix (.returnLoadWrite i) none
  | returnWait {i c} : ix.load (c % ix.size) ≠ 0 →
      Move bits ix sp (.returnLoadSlot i c) ix (.returnLoadSlot i c) none
  | returnReady {i c} : ix.load (c % ix.size) = 0 →
      Move bits ix sp (.returnLoadSlot i c) ix (.returnFill i c) none
  | returnFill {i c} :
      Move bits ix sp (.returnFill i c) (ix.store (c % ix.size) ((i + 1) % 2 ^ bits)) .idle none

theorem advance_cases {bits ix sp pc ix' pc' h} (hadv : advance bits ix sp pc = (ix', pc', h))
    (hidle : pc ≠ .idle) : Move bits ix sp pc ix' pc' h := by
  cases pc <;> simp only [advance] at hadv <;> (try split at hadv) <;>
    (try simp only [Prod.mk.injEq] at hadv) <;> obtain ⟨rfl, rfl, rfl⟩ := hadv
  case idle => exact absurd rfl hidle
  case nextLoadRead.isTrue h => exact .nextAtMax h
  case nextLoadRead.isFalse h => exact .nextBelow h
  case nextWrapLoad.isTrue h => exact .nextStillMax h
  case nextWrapLoad.isFalse h => exact .nextWrapped h
  case nextWrapCas.isTrue h => exact .nextWrap h.1 h.2
  case nextWrapCas.isFalse h => exact .nextWrapFail h
  case nextLoadWrite.isTrue h => exact .nextNoMore h
  case nextLoadWrite.isFalse h => exact .nextMore h
  case nextCheckSlot.isTrue h => exact .nextUnused h
  case nextCheckSlot.isFalse h => exact .nextUsed h
  case nextCas.isTrue h => exact .nextClaim h.1 h.2
  case nextCas.isFalse h => exact .nextClaimFail h
  case nextLoadSlot.isTrue h => exact .nextWait h
  case nextLoadSlot.isFalse h => exact .nextGrab h
  case nextClear => exact .nextClear
  case returnLoadWrite.isTrue h => exact .returnAtMax h
  case returnLoadWrite.isFalse h => exact .returnBelow h
  case returnWrapLoad.isTrue h => exact .returnStillMax h
  case returnWrapLoad.isFalse h => exact .returnWrapped h
  case returnWrapCas.isTrue h => exact .returnWrap h.1 h.2
  case returnWrapCas.isFalse h => exact .returnWrapFail h
  case returnCas.isTrue h => exact .returnClaim h.1 h.2
  case returnCas.isFalse h => exact .returnClaimFail h
  case returnLoadSlot.isTrue h => exact .returnReady h
  case returnLoadSlot.isFalse h => exact .returnWait h
  case returnFill => exact .returnFill

section
variable {T : Type} [DecidableEq T]

/-- The client's part of a move that ends `Next`. -/
def gain (h : Option IndexHolder) : List Nat := h.elim [] IndexHolder.indices

@[simp] theorem gain_none : gain none = [] := rfl
@[simp] theorem gain_empty : gain (some {}) = [] := rfl
@[simp] theorem gain_of (i : Nat) : gain (some (.of i)) = [i] := rfl

/-- One step of the machine. -/
inductive Step (bits : Nat) (s : State T) : Act T → State T → Prop
  | next {t} : (s.threads t).pc = .idle →
      Step bits s (.next t) (s.set t { s.threads t with pc := .nextLoadRead })
  | ret {t i} : (s.threads t).pc = .idle →
      Step bits s (.ret t i) (s.set t { pc := .returnLoadWrite i, held := (s.threads t).held.erase i })
  | give {t u i} : t ≠ u → i ∈ (s.threads t).held →
      Step bits s (.give t u i) ((s.set t { s.threads t with held := (s.threads t).held.erase i }).set u
        { s.threads u with held := i :: (s.threads u).held })
  | run {t sp ix' pc' h} : Move bits s.indexer sp (s.threads t).pc ix' pc' h →
      Step bits s (.run t sp) ({ s with indexer := ix' }.set t
        { pc := pc', held := gain h ++ (s.threads t).held })

theorem step_cases {bits} {s s' : State T} {a : Act T} (h : step bits s a = some s') : Step bits s a s' := by
  cases a with
  | next t =>
    simp only [step, Option.ite_none_right_eq_some, Option.some.injEq] at h
    obtain ⟨hpc, rfl⟩ := h
    exact .next hpc
  | ret t i =>
    simp only [step, Option.ite_none_right_eq_some, Option.some.injEq] at h
    obtain ⟨hpc, rfl⟩ := h
    exact .ret hpc
  | give t u i =>
    simp only [step, Option.ite_none_right_eq_some, Option.some.injEq] at h
    obtain ⟨⟨hne, hi⟩, rfl⟩ := h
    exact .give hne hi
  | run t sp =>
    simp only [step] at h
    split at h
    · cases h
    · rename_i hpc
      simp only [Option.some.injEq] at h
      subst h
      exact .run (advance_cases rfl hpc)

@[simp] theorem set_indexer (s : State T) (t : T) (th : Thread) : (s.set t th).indexer = s.indexer := rfl

@[simp] theorem set_self (s : State T) (t : T) (th : Thread) : (s.set t th).threads t = th := by
  simp [State.set]

theorem set_ne {s : State T} {t u : T} {th : Thread} (h : u ≠ t) : (s.set t th).threads u = s.threads u := by
  simp [State.set, h]

/-- A hand-over changes no thread's stage. -/
theorem give_pc {s : State T} {t u : T} {l l' : List Nat} (x : T) :
    (((s.set t { s.threads t with held := l }).set u { s.threads u with held := l' }).threads x).pc =
      (s.threads x).pc := by
  by_cases hu : x = u
  · subst hu; rw [set_self]
  · rw [set_ne hu]
    by_cases ht : x = t
    · subst ht; rw [set_self]
    · rw [set_ne ht]

end

/-! ## Stages, where only thread `t` changes its own -/

section
variable {T β : Type} {s s' : State T} {t x : T} (hne : ∀ u, u ≠ t → s'.threads u = s.threads u)
include hne

theorem pc_congr {f : Pc → β} (ht : f (s'.threads t).pc = f (s.threads t).pc) (x : T) :
    f (s'.threads x).pc = f (s.threads x).pc := by
  by_cases hx : x = t
  · rw [hx, ht]
  · rw [hne x hx]

theorem pc_some {f : Pc → Option β} {b c : β} (ht : f (s'.threads t).pc = some c) (hx : f (s'.threads x).pc = some b) :
    x = t ∧ b = c ∨ f (s.threads x).pc = some b := by
  by_cases hxt : x = t
  · subst hxt
    rw [ht, Option.some.injEq] at hx
    exact .inl ⟨rfl, hx.symm⟩
  · rw [hne x hxt] at hx; exact .inr hx

/-- What the stages tell after a step was told before, or is new and of thread `t`. -/
theorem pc_or {f : Pc → Option β} {P : T → β → Prop} {b : β}
    (ht : ∀ c, f (s'.threads t).pc = some c → f (s.threads t).pc = some c ∨ P t c) (hx : f (s'.threads x).pc = some b) :
    f (s.threads x).pc = some b ∨ P x b := by
  by_cases hxt : x = t
  · subst hxt; exact ht b hx
  · rw [hne x hxt] at hx; exact .inl hx

theorem pc_none {f : Pc → Option β} {b : β} (ht : f (s'.threads t).pc = none) (hx : f (s'.threads x).pc = some b) :
    x ≠ t ∧ f (s.threads x).pc = some b := by
  by_cases hxt : x = t
  · subst hxt; rw [ht] at hx; cases hx
  · rw [hne x hxt] at hx; exact ⟨hxt, hx⟩

end

end Dxpool.Indexer
