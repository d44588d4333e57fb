/-
`ConcurrentIndexer` in sequential use: its calls run one after another, each
alone to its end. So used it is a bag of the indices in its slots, as a
`MutexIndexer` is: the used slots are those of the positions from the number
of claims of `Next` to that of `Return`, less than a lap apart.
-/
import Dxpool.Indexer.Mutex
import Dxpool.Indexer.Solo
import Dxpool.Wrap

namespace Dxpool.Indexer

open ConcurrentIndexer

/-- Runs a call to its end. The weak compare-and-swaps fail as `failures` says. -/
def runCall (bits : Nat) (ix : ConcurrentIndexer) (failures : List Bool) (pc : Pc) : Option (Call × List Bool) :=
  drive (Call.advance bits) Call.returned (failures.length + 9) failures { indexer := ix, pc }

/-- The calls of a `ConcurrentIndexer`, beside the failures to come. -/
def concurrentCalls (bits : Nat) : Calls (ConcurrentIndexer × List Bool) where
  next x := (runCall bits x.1 x.2 .nextLoadRead).bind fun r => r.1.answer.map fun holder => (holder, r.1.indexer, r.2)
  giveBack x index := (runCall bits x.1 x.2 (.returnLoadWrite index)).map fun r => (r.1.indexer, r.2)

/-- The indices in the slots. -/
def ConcurrentIndexer.free (ix : ConcurrentIndexer) : List Nat :=
  (ix.indices.filter (· ≠ UnusedPosition)).map (· - 1)

theorem filter_set {l : List Nat} {k : Nat} (hk : k < l.length) (hv : l.getD k 0 ≠ 0) :
    (l.filter (· ≠ 0)).Perm (l.getD k 0 :: (l.set k 0).filter (· ≠ 0)) := by
  rw [List.perm_iff_count]
  intro x
  have h := Tally.count_set 0 x hk
  rw [List.count_cons]
  by_cases hx : x = 0
  · subst hx
    have hnone : ∀ l : List Nat, (l.filter (· ≠ 0)).count 0 = 0 := fun l => List.count_eq_zero.2 (by simp)
    rw [hnone, hnone, if_neg (by simpa using hv)]
  · rw [List.count_filter (by simpa using hx), List.count_filter (by simpa using hx)]
    simp only [beq_iff_eq, if_neg (Ne.symm hx)] at h ⊢
    omega

section
variable {bits n : Nat} {ix : ConcurrentIndexer} {R : Nat}

/-- Clearing a used slot takes its index out. -/
theorem free_clear {k : Nat} (hk : k < ix.indices.length) (hv : ix.load k ≠ 0) :
    ix.free.Perm ((ix.load k - 1) :: (ix.store k 0).free) :=
  (filter_set hk hv).map (· - 1)

/-- Filling an unused slot puts its index in. -/
theorem free_fill {k i : Nat} (hk : k < ix.indices.length) (h0 : ix.load k = 0) :
    (ix.store k (i + 1)).free.Perm (i :: ix.free) := by
  have hload : (ix.store k (i + 1)).load k = i + 1 := by rw [load_store _ _ hk, if_pos rfl]
  have hback : ix.indices.set k 0 = ix.indices := by
    have hget : ix.indices[k] = 0 := by simpa [load, hk] using h0
    rw [← hget, List.set_getElem_self]
  have hk' : k < (ix.store k (i + 1)).indices.length := by simpa using hk
  have h := free_clear hk' (by rw [hload]; omega)
  rw [hload, Nat.add_sub_cancel] at h
  simpa [ConcurrentIndexer.free, store, hback] using h

/-- An indexer in sequential use, `Next` having claimed `R` positions. -/
structure Kept (bits n : Nat) (ix : ConcurrentIndexer) (R : Nat) : Prop where
  sized : Sized bits n ix
  read : Wraps ix.maxPositionSize ix.readPos R
  write : Wraps ix.maxPositionSize ix.writePos (R + ix.free.length)
  room : ix.free.length ≤ n
  used : ∀ k, ix.load k ≠ 0 ↔ ∃ p, R ≤ p ∧ p < R + ix.free.length ∧ p % ix.size = k

theorem Kept.readFrom {ix' : ConcurrentIndexer} (h : Kept bits n ix R) (hix : ReadFrom ix ix') : Kept bits n ix' R := by
  rcases hix with rfl | ⟨hm, rfl⟩
  · exact h
  · have hread := h.read
    rw [hm] at hread
    exact ⟨h.sized.congr rfl rfl rfl, hread.wrap, h.write, h.room, h.used⟩

theorem Kept.writeFrom {ix' : ConcurrentIndexer} (h : Kept bits n ix R) (hix : WriteFrom ix ix') : Kept bits n ix' R := by
  rcases hix with rfl | ⟨hm, rfl⟩
  · exact h
  · have hwrite := h.write
    rw [hm] at hwrite
    exact ⟨h.sized.congr rfl rfl rfl, h.read, hwrite.wrap, h.room, h.used⟩

theorem ReadFrom.free {ix' : ConcurrentIndexer} (hix : ReadFrom ix ix') : ix'.free = ix.free := by
  rcases hix with rfl | ⟨-, rfl⟩ <;> rfl

theorem WriteFrom.free {ix' : ConcurrentIndexer} (hix : WriteFrom ix ix') : ix'.free = ix.free := by
  rcases hix with rfl | ⟨-, rfl⟩ <;> rfl

theorem Kept.maxPos (h : Kept bits n ix R) : 0 < ix.maxPositionSize := by
  have := h.sized.pos
  have := h.sized.size
  have := h.sized.le
  omega

/-- `Next` answers with an index unless there is none. -/
theorem Kept.readable (h : Kept bits n ix R) (hbelow : ix.readPos ≠ ix.maxPositionSize) :
    Readable ix ↔ ix.free ≠ [] := by
  have hplace := h.read.place h.sized.dvd
  have hsize := h.sized.size
  have hn := h.sized.pos
  have hle := h.sized.le
  have hroom := h.room
  constructor
  · intro hr hnil
    obtain ⟨p, hp, hlt, -⟩ := (h.used _).1 hr.used
    rw [hnil, List.length_nil] at hlt
    omega
  · intro hne
    have hpos := List.length_pos_of_ne_nil hne
    refine ⟨hbelow, fun he => ?_, (h.used _).2 ⟨R, Nat.le_refl _, by omega, hplace.symm⟩⟩
    have := h.read.eq_of_le h.write (Nat.le_add_right _ _) (by omega) he
    omega

/-- `Next` takes the index at the oldest position. -/
theorem Kept.take (h : Kept bits n ix R) (hr : Readable ix) :
    Kept bits n ((claimRead bits ix).store (ix.readPos % ix.size) 0) (R + 1) ∧
    ix.free.Perm ((ix.load (ix.readPos % ix.size) - 1) :: ((claimRead bits ix).store (ix.readPos % ix.size) 0).free) := by
  have hk : ix.readPos % ix.size < (claimRead bits ix).indices.length := h.sized.slot_lt _
  have hperm := free_clear hk hr.used
  have hlen := hperm.length_eq
  rw [List.length_cons, show (claimRead bits ix).free = ix.free from rfl] at hlen
  have hplace := h.read.place h.sized.dvd
  have hsize := h.sized.size
  have hn := h.sized.pos
  have hroom := h.room
  have hlt := h.sized.lt
  have hmod : (ix.readPos + 1) % 2 ^ bits = ix.readPos + 1 :=
    Nat.mod_eq_of_lt (by have := h.read.le; have := hr.below; omega)
  refine ⟨⟨h.sized.congr (by rw [store_length]; rfl) rfl rfl, ?_, ?_, by omega, fun k => ?_⟩, hperm⟩
  · show Wraps ix.maxPositionSize ((ix.readPos + 1) % 2 ^ bits) (R + 1)
    rw [hmod]
    exact h.read.advance hr.below
  · show Wraps ix.maxPositionSize ix.writePos _
    rw [show R + 1 + _ = R + ix.free.length by omega]
    exact h.write
  · generalize ((claimRead bits ix).store (ix.readPos % ix.size) 0).free.length = L at hlen ⊢
    rw [load_store 0 k hk, show (claimRead bits ix).load k = ix.load k from rfl, store_size,
      show (claimRead bits ix).size = ix.size from rfl, hplace]
    by_cases hRk : R % ix.size = k
    · rw [if_pos hRk]
      refine iff_of_false (fun h => h rfl) ?_
      rintro ⟨p, hp, hplt, hpk⟩
      have := eq_of_mod_eq (hpk.trans hRk.symm) (by omega) (by omega)
      omega
    · rw [if_neg hRk, h.used k]
      constructor
      · rintro ⟨p, hp, hplt, hpk⟩
        have : p ≠ R := fun he => hRk (he ▸ hpk)
        exact ⟨p, by omega, by omega, hpk⟩
      · rintro ⟨p, hp, hplt, hpk⟩
        exact ⟨p, by omega, by omega, hpk⟩

/-- The slot of the next position is unused. -/
theorem Kept.unused (h : Kept bits n ix R) : ix.load (ix.writePos % ix.size) = 0 := by
  by_contra hne
  obtain ⟨p, hp, hlt, hmod⟩ := (h.used _).1 hne
  rw [h.write.place h.sized.dvd] at hmod
  have hsize := h.sized.size
  have hn := h.sized.pos
  have hroom := h.room
  have := eq_of_mod_eq hmod (by omega) (by omega)
  omega

/-- `Return` puts its index at the next position. -/
theorem Kept.put {i : Nat} (h : Kept bits n ix R) (hbelow : ix.writePos ≠ ix.maxPositionSize)
    (hlen : ix.free.length < n) (hi : i < n) :
    Kept bits n ((claimWrite bits ix).store (ix.writePos % ix.size) ((i + 1) % 2 ^ bits)) R ∧
    ((claimWrite bits ix).store (ix.writePos % ix.size) ((i + 1) % 2 ^ bits)).free.Perm (i :: ix.free) := by
  rw [h.sized.index_mod hi]
  have hk : ix.writePos % ix.size < (claimWrite bits ix).indices.length := h.sized.slot_lt _
  have hperm : ((claimWrite bits ix).store (ix.writePos % ix.size) (i + 1)).free.Perm (i :: ix.free) :=
    free_fill hk h.unused
  have hlen' := hperm.length_eq
  rw [List.length_cons] at hlen'
  have hplace := h.write.place h.sized.dvd
  have hlt := h.sized.lt
  have hmod : (ix.writePos + 1) % 2 ^ bits = ix.writePos + 1 :=
    Nat.mod_eq_of_lt (by have := h.write.le; omega)
  refine ⟨⟨h.sized.congr (by rw [store_length]; rfl) rfl rfl, h.read, ?_, by omega, fun k => ?_⟩, hperm⟩
  · show Wraps ix.maxPositionSize ((ix.writePos + 1) % 2 ^ bits) _
    rw [hmod, hlen', ← Nat.add_assoc]
    exact h.write.advance hbelow
  · rw [hlen', load_store _ k hk, show (claimWrite bits ix).load k = ix.load k from rfl, store_size,
      show (claimWrite bits ix).size = ix.size from rfl, hplace]
    by_cases hWk : (R + ix.free.length) % ix.size = k
    · rw [if_pos hWk]
      exact iff_of_true (Nat.succ_ne_zero i) ⟨_, by omega, by omega, hWk⟩
    · rw [if_neg hWk, h.used k]
      constructor
      · rintro ⟨p, hp, hplt, hpk⟩
        exact ⟨p, hp, by omega, hpk⟩
      · rintro ⟨p, hp, hplt, hpk⟩
        have : p ≠ R + ix.free.length := fun he => hWk (he ▸ hpk)
        exact ⟨p, hp, by omega, hpk⟩

/-! ## The calls -/

theorem runCall_next (h : Kept bits n ix R) (failures : List Bool) : ∃ x rest,
    runCall bits ix failures .nextLoadRead = some (x, rest) ∧ x.pc = .idle ∧ NextAlone bits ix x := by
  have hprogress : Progress (Call.advance bits) Call.returned (NextAlone bits ix) nextLeft := next_progress h.maxPos
  obtain ⟨x, rest, hd, hx, hI⟩ := hprogress.drive_eq (fun x _ => nextLeft_le x) (.loadRead (.inl rfl))
    (Nat.le_refl (failures.length + 9))
  exact ⟨x, rest, hd, of_decide_eq_true hx, hI⟩

theorem runCall_return (h : Kept bits n ix R) (i : Nat) (failures : List Bool) : ∃ x rest,
    runCall bits ix failures (.returnLoadWrite i) = some (x, rest) ∧ x.pc = .idle ∧ ReturnAlone bits i ix x := by
  have hprogress : Progress (Call.advance bits) Call.returned (ReturnAlone bits i ix) returnLeft :=
    return_progress h.maxPos h.sized.dvd h.unused
  obtain ⟨x, rest, hd, hx, hI⟩ := hprogress.drive_eq (fun x _ => returnLeft_le x) (.loadWrite (.inl rfl))
    (Nat.le_refl (failures.length + 9))
  exact ⟨x, rest, hd, of_decide_eq_true hx, hI⟩

/-- Either `Next` found no index, or it took one. -/
theorem Kept.next (h : Kept bits n ix R) {failures : List Bool} : ∃ holder x',
    (concurrentCalls bits).next (ix, failures) = some (holder, x') ∧ (∃ R', Kept bits n x'.1 R') ∧
    ix.free.Perm (holder.indices ++ x'.1.free) ∧ (holder.empty = true ↔ ix.free = []) := by
  obtain ⟨x, rest, hd, hidle, hx⟩ := runCall_next h failures
  have hnext : (concurrentCalls bits).next (ix, failures) = x.answer.map fun holder => (holder, x.indexer, rest) := by
    simp only [concurrentCalls, hd, Option.bind_some]
  cases hx with
  | @empty ix' hix hm hno =>
    have hkept := h.readFrom hix
    have hnil : ix.free = [] := by
      rw [hkept.readable hm, not_not, hix.free] at hno
      exact hno
    exact ⟨_, _, hnext, ⟨R, hkept⟩, by rw [hix.free]; exact .refl _, iff_of_true rfl hnil⟩
  | @taken ix' hix hr =>
    have hkept := h.readFrom hix
    obtain ⟨hkept', hperm⟩ := hkept.take hr
    have hne := (hkept.readable hr.below).1 hr
    rw [hix.free] at hperm hne
    exact ⟨_, _, hnext, ⟨R + 1, hkept'⟩, hperm, iff_of_false Bool.false_ne_true hne⟩
  | _ => cases hidle

theorem Kept.giveBack {i : Nat} (h : Kept bits n ix R) {failures : List Bool} (hnd : (i :: ix.free).Nodup)
    (hlt : ∀ j ∈ i :: ix.free, j < n) : ∃ x', (concurrentCalls bits).giveBack (ix, failures) i = some x' ∧
      (∃ R', Kept bits n x'.1 R') ∧ x'.1.free.Perm (i :: ix.free) := by
  obtain ⟨x, rest, hd, hidle, hx⟩ := runCall_return h i failures
  have hback : (concurrentCalls bits).giveBack (ix, failures) i = some (x.indexer, rest) := by
    simp only [concurrentCalls, hd, Option.map_some]
  cases hx with
  | @done ix' hix hm =>
    obtain ⟨hkept, hperm⟩ := (h.writeFrom hix).put hm (by rw [hix.free]; exact length_lt_of_nodup hnd hlt)
      (hlt i (List.mem_cons_self ..))
    rw [hix.free] at hperm
    exact ⟨_, hback, ⟨R, hkept⟩, hperm⟩
  | _ => cases hidle

/-- A `ConcurrentIndexer` in sequential use is a bag of the indices in its slots. -/
def concurrentBag (bits n : Nat) : Bag (concurrentCalls bits) n where
  inv x := ∃ R, Kept bits n x.1 R
  free x := x.1.free
  next h := h.elim fun _ h => h.next
  giveBack h hnd hlt := h.elim fun _ h => h.giveBack hnd hlt

theorem kept_construct (hn : 0 < n) (hmax : 2 * n < 2 ^ bits) (h : construct bits n = .ok ix) :
    Kept bits n ix 0 ∧ ix.free = List.range n := by
  obtain ⟨hr, hw, hs, hsz⟩ := construct_ok hn hmax h
  have hfree : ix.free = List.range n := by
    have hpos : (List.range' 1 n).filter (· ≠ 0) = List.range' 1 n :=
      List.filter_eq_self.2 fun x hx => by have := (List.mem_range'_1.1 hx).1; simp; omega
    rw [ConcurrentIndexer.free, hs, slots, List.filter_append, hpos, List.filter_replicate_of_neg (by simp),
      List.append_nil, List.map_sub_range' (Nat.le_refl 1), List.range_eq_range']
  have hlen : ix.free.length = n := by rw [hfree, List.length_range]
  have hsize := hsz.size
  have hle := hsz.le
  refine ⟨⟨hsz, by rw [hr]; exact ⟨Nat.zero_le _, rfl⟩, ?_, by omega, fun k => ?_⟩, hfree⟩
  · rw [hw, hlen, Nat.zero_add]
    exact ⟨by omega, rfl⟩
  · have hload : ix.load k = if k < n then k + 1 else 0 := by
      simp only [load, hs]
      exact slots_getD n k
    rw [hload, hlen]
    by_cases hk : k < n
    · rw [if_pos hk]
      exact iff_of_true (Nat.succ_ne_zero k) ⟨k, Nat.zero_le _, by omega, Nat.mod_eq_of_lt (by omega)⟩
    · rw [if_neg hk]
      refine iff_of_false (fun h => h rfl) ?_
      rintro ⟨p, -, hp, hpk⟩
      rw [Nat.mod_eq_of_lt (by omega)] at hpk
      omega

end

end Dxpool.Indexer
