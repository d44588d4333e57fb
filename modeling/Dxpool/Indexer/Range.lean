/-
The range of the indices of a `ConcurrentIndexer`. Calls that lap each other can
hand out one index twice, but no call hands out an index that is not one of the
pool's: what is in a slot was put there by the constructor or by a `Return`, and
its client has it from a slot.
-/
import Dxpool.Indexer.Slots

namespace Dxpool.Indexer

open ConcurrentIndexer Machine

section
variable {T : Type} {bits n : Nat} {s s' : State T} {tr : Trace (State T) (Act T)}

/-- An index is below `n`, wherever it is. -/
structure Ranged (n : Nat) (s : State T) : Prop where
  slots : ∀ v ∈ s.indexer.indices, v ≤ n
  held : ∀ t, ∀ i ∈ (s.threads t).held, i < n
  carried : ∀ t, ∀ i ∈ carried (s.threads t).pc, i < n

theorem load_le {ix : ConcurrentIndexer} (h : ∀ v ∈ ix.indices, v ≤ n) (k : Nat) : ix.load k ≤ n := by
  rw [load, List.getD_eq_getElem?_getD]
  cases hk : ix.indices[k]? with
  | none => exact Nat.zero_le n
  | some v => exact h v (List.mem_of_getElem? hk)

/-- One atomic operation. -/
theorem Move.ranged {ix ix' : ConcurrentIndexer} {sp : Bool} {pc pc' : Pc} {h : Option IndexHolder}
    (hm : Move bits ix sp pc ix' pc' h) (hn : 0 < n) (hslots : ∀ v ∈ ix.indices, v ≤ n)
    (hc : ∀ i ∈ Indexer.carried pc, i < n) :
    (∀ v ∈ ix'.indices, v ≤ n) ∧ (∀ i ∈ Indexer.carried pc', i < n) ∧ ∀ i ∈ gain h, i < n := by
  cases hm with
  | @nextGrab c hv =>
    have hle := load_le hslots (c % ix.size)
    refine ⟨hslots, fun i hi => ?_, by simp⟩
    rw [List.mem_singleton.1 hi]
    omega
  | nextClear =>
    refine ⟨fun v hv => ?_, by simp [Indexer.carried], by simpa [Indexer.carried] using hc⟩
    rcases List.mem_or_eq_of_mem_set hv with hv | rfl
    · exact hslots v hv
    · exact Nat.zero_le n
  | @returnFill i c =>
    have hi := hc i (List.mem_singleton_self i)
    refine ⟨fun v hv => ?_, by simp [Indexer.carried], by simp⟩
    rcases List.mem_or_eq_of_mem_set hv with hv | rfl
    · exact hslots v hv
    · exact (Nat.mod_le ..).trans hi
  | returnAtMax | returnBelow | returnStillMax | returnWrapped | returnWrap | returnWrapFail | returnClaim
  | returnClaimFail | returnWait | returnReady => exact ⟨hslots, hc, by simp⟩
  | _ => exact ⟨hslots, by simp [Indexer.carried], by simp⟩

variable [DecidableEq T]

theorem Ranged.set (h : Ranged n s) {ix : ConcurrentIndexer} {t : T} {th : Thread} (hslots : ∀ v ∈ ix.indices, v ≤ n)
    (hheld : ∀ i ∈ th.held, i < n) (hcarried : ∀ i ∈ Indexer.carried th.pc, i < n) :
    Ranged n ({ s with indexer := ix }.set t th) := by
  refine ⟨hslots, fun u => ?_, fun u => ?_⟩
  · by_cases hu : u = t
    · subst hu
      rwa [set_self]
    · rw [set_ne hu]
      exact h.held u
  · by_cases hu : u = t
    · subst hu
      rwa [set_self]
    · rw [set_ne hu]
      exact h.carried u

theorem Ranged.step {a : Act T} (h : Ranged n s) (hn : 0 < n) (hown : Owned s a) (hs : Step bits s a s') : Ranged n s' := by
  cases hs with
  | next => exact h.set h.slots (h.held _) (by simp [Indexer.carried])
  | @ret t i =>
    refine h.set h.slots (fun j hj => h.held t j (List.mem_of_mem_erase hj)) fun j hj => ?_
    rw [List.mem_singleton.1 hj]
    exact h.held t i hown
  | @give t u i _ hi =>
    have hleft : Ranged n (s.set t { s.threads t with held := (s.threads t).held.erase i }) :=
      h.set h.slots (fun j hj => h.held t j (List.mem_of_mem_erase hj)) (h.carried t)
    exact hleft.set h.slots (List.forall_mem_cons.2 ⟨h.held t i hi, h.held u⟩) (h.carried u)
  | @run t _ _ _ _ hm =>
    obtain ⟨hslots, hcarried, hgain⟩ := hm.ranged hn h.slots (h.carried t)
    refine h.set hslots (fun i hi => ?_) hcarried
    exact (List.mem_append.1 hi).elim (hgain i) (h.held t i)

theorem Ranged.init (hn : 0 < n) (hmax : 2 * n < 2 ^ bits) (h : (machine bits n T).init s) : Ranged n s := by
  obtain ⟨hc, ht⟩ := h
  obtain ⟨-, -, hs, -⟩ := construct_ok hn hmax hc
  refine ⟨fun v hv => ?_, by simp [ht], by simp [ht, Indexer.carried]⟩
  rw [hs, Indexer.slots, List.mem_append, List.mem_range'_1, List.mem_replicate] at hv
  omega

end

end Dxpool.Indexer
