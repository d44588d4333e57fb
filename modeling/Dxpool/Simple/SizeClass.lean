/-
The size classes of a multipool: which pool `find_multipool_index_for_size`
picks for a size, and the pools a successful `multipool_create` makes. The
class is the best fit, for every size there is (`find_bestFit`).
-/
import Dxpool.Simple.Steps
import Mathlib.Algebra.Group.Nat.Defs
import Mathlib.Data.List.FinRange
import Mathlib.Order.Bounds.Basic

namespace Dxpool.Simple

/-! ## The index for a size -/

/-- `x` has `32 - builtinClz x` bits. -/
theorem builtinClz_bits {x : UInt32} (h : x ≠ 0) :
    (builtinClz x h).toNat < 32 ∧ 2 ^ (31 - (builtinClz x h).toNat) ≤ x.toNat ∧
      x.toNat < 2 ^ (32 - (builtinClz x h).toNat) := by
  have hx : x.toBitVec ≠ 0#32 := fun h0 => h (UInt32.toBitVec_inj.1 h0)
  have hlt : x.toBitVec.clz.toNat < 32 := BitVec.lt_def.1 (BitVec.clz_lt_iff_ne_zero.2 hx)
  exact ⟨hlt, BitVec.two_pow_sub_clz_le_toNat_of_ne_zero (by decide) hx, BitVec.toNat_lt_two_pow_sub_clz⟩

/-- The class of a size is the least that holds it. -/
theorem findMultipoolIndexForSize_spec {size : UInt32} (h : 1 ≤ size.toNat) :
    size.toNat ≤ 2 ^ (9 + (findMultipoolIndexForSize size).toNat) ∧
      ((findMultipoolIndexForSize size).toNat = 0 ∨
        2 ^ (8 + (findMultipoolIndexForSize size).toNat) < size.toNat) := by
  have hsub : (size - 1).toNat = size.toNat - 1 := UInt32.toNat_sub_of_le _ _ (UInt32.le_iff_toNat_le.2 h)
  have hshift : ((size - 1) >>> dynPoolMinMultiPoolMemNodeSizeBits).toNat = (size.toNat - 1) / 2 ^ 9 := by
    rw [UInt32.toNat_shiftRight, hsub, Nat.shiftRight_eq_div_pow]; rfl
  simp only [findMultipoolIndexForSize]
  split
  · rename_i h0
    have h0' : (size.toNat - 1) / 2 ^ 9 = 0 := by rw [← hshift, h0]; rfl
    exact ⟨by simp only [UInt32.toNat_zero]; omega, .inl rfl⟩
  · rename_i hne
    obtain ⟨hclz, hlo, hhi⟩ := builtinClz_bits hne
    generalize builtinClz _ hne = clz at hclz hlo hhi
    have hidx : (32 - clz).toNat = 32 - clz.toNat :=
      UInt32.toNat_sub_of_le _ _ (UInt32.le_iff_toNat_le.2 (Nat.le_of_lt hclz))
    rw [hshift] at hlo hhi
    rw [hidx]
    have hpow : 2 ^ (9 + (32 - clz.toNat)) = 2 ^ (32 - clz.toNat) * 2 ^ 9 := by rw [← Nat.pow_add]; congr 1; omega
    have hpow' : 2 ^ (8 + (32 - clz.toNat)) = 2 ^ (31 - clz.toNat) * 2 ^ 9 := by
      rw [← Nat.pow_add]; congr 1; omega
    rw [hpow, hpow']
    refine ⟨?_, .inr ?_⟩
    · have := (Nat.div_lt_iff_lt_mul (by decide)).1 hhi
      omega
    · have := (Nat.le_div_iff_mul_le (by decide)).1 hlo
      omega

/-- The capacity of a class, for a size it is picked for. -/
theorem class_fits {size : UInt32} {i : Nat} (h : 1 ≤ size.toNat) (hi : (findMultipoolIndexForSize size).toNat = i) :
    size.toNat ≤ 2 ^ (9 + i) ∧ (512 < size.toNat → 2 ^ (9 + i) < 2 * size.toNat) := by
  obtain ⟨hle, hlt⟩ := findMultipoolIndexForSize_spec h
  rw [hi] at hle hlt
  refine ⟨hle, fun hbig => ?_⟩
  rcases hlt with rfl | hlt
  · simp only [Nat.add_zero] at hle; omega
  · have : 2 ^ (9 + i) = 2 * 2 ^ (8 + i) := by rw [← Nat.pow_succ']; congr 1; omega
    omega

/-- Every size up to 2^22 has a class. -/
theorem index_lt {size : UInt32} (h : 1 ≤ size.toNat) (hmax : size.toNat ≤ 2 ^ 22) :
    (findMultipoolIndexForSize size).toNat < multipoolEntryCount := by
  obtain ⟨-, h0 | hlt⟩ := findMultipoolIndexForSize_spec h
  · rw [h0]; decide
  · have := (Nat.pow_lt_pow_iff_right (a := 2) (by decide)).1 (Nat.lt_of_lt_of_le hlt hmax)
    unfold multipoolEntryCount
    omega

/-- What is picked for a size is the pool of its class. -/
theorem pick_some {mp : MultiPool} {size : UInt32} {pool : Addr} (h : mp.pick size = some pool) :
    ∃ i : Fin multipoolEntryCount, (findMultipoolIndexForSize size).toNat = i ∧ mp.pools i = pool := by
  simp only [MultiPool.pick] at h
  split at h
  · cases h; exact ⟨_, rfl, rfl⟩
  · cases h

/-- Size 0 wraps around to a size that no class holds. -/
theorem pick_pos {mp : MultiPool} {size : UInt32} {pool : Addr} (h : mp.pick size = some pool) : 1 ≤ size.toNat := by
  by_contra h0
  have hz : size = 0 := UInt32.toNat_inj.1 (by simp only [UInt32.toNat_zero]; omega)
  obtain ⟨i, hi, -⟩ := pick_some h
  rw [hz, show (findMultipoolIndexForSize 0).toNat = 23 by decide] at hi
  have := i.isLt
  unfold multipoolEntryCount at this
  omega

theorem pick_of_le (mp : MultiPool) {size : UInt32} (h : 1 ≤ size.toNat) (hmax : size.toNat ≤ 2 ^ 22) :
    ∃ pool, mp.pick size = some pool := by
  simp only [MultiPool.pick, dif_pos (index_lt h hmax), Option.some.injEq, exists_eq']

/-! ## Creation -/

/-- The `mem_size` of class `i`. -/
theorem classSize_toNat (i : Fin multipoolEntryCount) :
    ((1 : UInt32) <<< (dynPoolMinMultiPoolMemNodeSizeBits + UInt32.ofNat i)).toNat = 2 ^ (9 + i.val) := by
  revert i; decide

theorem createPools_nodes (ms : Fin multipoolEntryCount → Addr) :
    ∀ (l : List (Fin multipoolEntryCount)) (h : Heap),
      (createPools ms l h).nodes = h.nodes ∧ (createPools ms l h).blocks = h.blocks
  | [], _ => ⟨rfl, rfl⟩
  | i :: l, h => by
    unfold createPools
    have := createPools_nodes ms l (if ms i = NULL then h else
      h.setPool (ms i) { memSize := 1 <<< (dynPoolMinMultiPoolMemNodeSizeBits + UInt32.ofNat i) })
    split at this <;> simp_all

theorem createPools_pools {ms : Fin multipoolEntryCount → Addr} (hne : ∀ i, ms i ≠ NULL)
    (hinj : Function.Injective ms) : ∀ {l : List (Fin multipoolEntryCount)} {h : Heap} {a : Addr} {q : MemPool},
      l.Nodup → ((createPools ms l h).pools a = some q ↔
        (∃ i ∈ l, a = ms i ∧ q = { memSize := 1 <<< (dynPoolMinMultiPoolMemNodeSizeBits + UInt32.ofNat i) }) ∨
        (∀ i ∈ l, a ≠ ms i) ∧ h.pools a = some q)
  | [], h, a, q, _ => by simp [createPools]
  | i :: l, h, a, q, hnd => by
    rw [List.nodup_cons] at hnd
    simp only [createPools, if_neg (hne i)]
    rw [createPools_pools hne hinj hnd.2, setPool_pools]
    by_cases ha : a = ms i
    · subst ha
      have hno : ∀ j ∈ l, ms i ≠ ms j := fun j hj he => hnd.1 (hinj he ▸ hj)
      simp only [if_pos, List.mem_cons, exists_eq_or_imp, Option.some.injEq]
      constructor
      · intro ha
        rcases ha with ⟨j, hj, he, -⟩ | ⟨-, hq⟩
        · exact absurd he (hno j hj)
        · exact .inl (.inl ⟨trivial, hq.symm⟩)
      · intro ha
        rcases ha with (⟨-, hq⟩ | ⟨j, hj, he, -⟩) | ⟨hno', -⟩
        · exact .inr ⟨hno, hq.symm⟩
        · exact absurd he (hno j hj)
        · exact absurd rfl (hno' i (.inl rfl))
    · rw [if_neg ha]
      simp only [List.mem_cons, exists_eq_or_imp, forall_eq_or_imp, ne_eq, ha, false_and, false_or,
        not_false_eq_true, true_and]

/-- A successful creation: one pool for each class, empty, and nothing else. -/
theorem multipoolCreate_pools {ms : Fin multipoolEntryCount → Addr} (hne : ∀ i, ms i ≠ NULL)
    (hinj : Function.Injective ms) {a : Addr} {q : MemPool} :
    (multipoolCreate ms).1.pools a = some q ↔
      ∃ i, a = ms i ∧ q = { memSize := 1 <<< (dynPoolMinMultiPoolMemNodeSizeBits + UInt32.ofNat i) } := by
  unfold multipoolCreate
  rw [createPools_pools hne hinj (List.nodup_finRange _)]
  simp

/-! ## Best fit -/

/-- `__builtin_clz`, none where it is undefined. -/
def builtinClzDefined (x : UInt32) : Option UInt32 := if h : x = 0 then none else some (builtinClz x h)

/-- `find_multipool_index_for_size`, none if it calls `__builtin_clz` on zero. -/
def findIndexDefined (size : UInt32) : Option UInt32 :=
  let sizeValue := (size - 1) >>> dynPoolMinMultiPoolMemNodeSizeBits
  if sizeValue = 0 then some 0 else (builtinClzDefined sizeValue).map (32 - ·)

/-- Pool `p` is the smallest that has blocks of `size` bytes. -/
def SmallestFit (h : Heap) (size : UInt32) (p : Addr) : Prop :=
  ∃ q, h.pools p = some q ∧ size ≤ q.memSize ∧
    ∀ p' q', h.pools p' = some q' → size ≤ q'.memSize → q.memSize ≤ q'.memSize

section
variable {size : UInt32} {mp : MultiPool}

theorem findIndexDefined_eq (size : UInt32) : findIndexDefined size = some (findMultipoolIndexForSize size) := by
  unfold findIndexDefined findMultipoolIndexForSize
  by_cases h : (size - 1) >>> dynPoolMinMultiPoolMemNodeSizeBits = 0
  · simp only [h, if_true, dif_pos]
  · simp only [h, if_false, dif_neg, builtinClzDefined, Option.map_some, not_false_eq_true]

/-- A class is at or above that of a size if and only if it holds it. -/
theorem find_le_iff (h : 1 ≤ size.toNat) {i : Nat} :
    (findMultipoolIndexForSize size).toNat ≤ i ↔ size.toNat ≤ 2 ^ (9 + i) := by
  obtain ⟨hle, hlt⟩ := findMultipoolIndexForSize_spec h
  constructor
  · intro hi
    exact Nat.le_trans hle (Nat.pow_le_pow_right (by decide) (by omega))
  · intro hi
    rcases hlt with h0 | hlt
    · rw [h0]; exact Nat.zero_le i
    · have := (Nat.pow_lt_pow_iff_right (a := 2) (by decide)).1 (Nat.lt_of_lt_of_le hlt hi)
      omega

theorem find_mono {size' : UInt32} (h : 1 ≤ size.toNat) (hle : size ≤ size') :
    findMultipoolIndexForSize size ≤ findMultipoolIndexForSize size' := by
  have hle' := UInt32.le_iff_toNat_le.1 hle
  rw [UInt32.le_iff_toNat_le, find_le_iff h]
  exact Nat.le_trans hle' ((find_le_iff (Nat.le_trans h hle')).1 (Nat.le_refl _))

theorem find_lt_iff (h : 1 ≤ size.toNat) : (findMultipoolIndexForSize size).toNat < multipoolEntryCount ↔
    size.toNat ≤ 2 ^ (9 + multipoolEntryCount - 1) :=
  Nat.lt_succ_iff.trans (find_le_iff h)

/-- The entry that is picked is the first whose class holds the size. -/
theorem pick_iff {p : Addr} : mp.pick size = some p ↔ 1 ≤ size.toNat ∧
    ∃ i : Fin multipoolEntryCount, IsLeast {j : Fin multipoolEntryCount | size.toNat ≤ 2 ^ (9 + j.val)} i ∧
      mp.pools i = p := by
  constructor
  · intro hpick
    have h := pick_pos hpick
    obtain ⟨i, hi, hp⟩ := pick_some hpick
    exact ⟨h, i, ⟨(find_le_iff h).1 hi.le, fun j hj => Fin.le_def.2 (hi ▸ (find_le_iff h).2 hj)⟩, hp⟩
  · intro hfit
    obtain ⟨h, i, ⟨hi, hleast⟩, rfl⟩ := hfit
    have hle : (findMultipoolIndexForSize size).toNat ≤ i := (find_le_iff h).2 hi
    have hlt := Nat.lt_of_le_of_lt hle i.isLt
    have hge : i ≤ ⟨_, hlt⟩ := hleast ((find_le_iff h).1 (Nat.le_refl _))
    have heq : i = ⟨_, hlt⟩ := le_antisymm hge hle
    unfold MultiPool.pick
    rw [dif_pos hlt, ← heq]

theorem pick_none_iff : mp.pick size = none ↔ size = 0 ∨ 2 ^ (9 + multipoolEntryCount - 1) < size.toNat := by
  by_cases h : 1 ≤ size.toNat
  · have h0 : size ≠ 0 := by rintro rfl; exact absurd h (by decide)
    rw [← Nat.not_le, ← find_lt_iff h, or_iff_right h0]
    simp only [MultiPool.pick]
    split
    · rename_i hlt; exact iff_of_false (by simp) (not_not_intro hlt)
    · rename_i hge; exact iff_of_true rfl hge
  · have h0 : size = 0 := UInt32.toNat_inj.1 (by simp only [UInt32.toNat_zero]; omega)
    subst h0
    exact iff_of_true rfl (.inl rfl)

end

section
variable {ms : Fin multipoolEntryCount → Addr}

/-- The pool of a class is as large as another's if the class is no greater. -/
theorem class_le_iff {i j : Fin multipoolEntryCount} :
    (1 : UInt32) <<< (dynPoolMinMultiPoolMemNodeSizeBits + UInt32.ofNat i) ≤
      1 <<< (dynPoolMinMultiPoolMemNodeSizeBits + UInt32.ofNat j) ↔ i ≤ j := by
  rw [UInt32.le_iff_toNat_le, classSize_toNat, classSize_toNat, Nat.pow_le_pow_iff_right (by decide), Nat.add_le_add_iff_left]
  rfl

theorem pick_created (hne : ∀ i, ms i ≠ NULL) (hinj : Function.Injective ms) {size : UInt32} (h : 1 ≤ size.toNat)
    {p : Addr} : (multipoolCreate ms).2.pick size = some p ↔ SmallestFit (multipoolCreate ms).1 size p := by
  have hle : ∀ j : Fin multipoolEntryCount,
      size ≤ 1 <<< (dynPoolMinMultiPoolMemNodeSizeBits + UInt32.ofNat j) ↔ size.toNat ≤ 2 ^ (9 + j.val) :=
    fun j => by rw [UInt32.le_iff_toNat_le, classSize_toNat]
  rw [pick_iff, and_iff_right h]
  constructor
  · intro hleast
    obtain ⟨i, ⟨hi, hleast⟩, rfl⟩ := hleast
    refine ⟨_, (multipoolCreate_pools hne hinj).2 ⟨i, rfl, rfl⟩, (hle i).2 hi, fun p' q' hq' hsize => ?_⟩
    obtain ⟨j, -, rfl⟩ := (multipoolCreate_pools hne hinj).1 hq'
    exact class_le_iff.2 (hleast ((hle j).1 hsize))
  · intro hfit
    obtain ⟨q, hq, hsize, hsmallest⟩ := hfit
    obtain ⟨i, rfl, rfl⟩ := (multipoolCreate_pools hne hinj).1 hq
    refine ⟨i, ⟨(hle i).1 hsize, fun j hj => ?_⟩, rfl⟩
    exact class_le_iff.1 (hsmallest _ _ ((multipoolCreate_pools hne hinj).2 ⟨j, rfl, rfl⟩) ((hle j).2 hj))

theorem reject_created (hne : ∀ i, ms i ≠ NULL) (hinj : Function.Injective ms) {size : UInt32} :
    (multipoolCreate ms).2.pick size = none ↔
      size = 0 ∨ ∀ p q, (multipoolCreate ms).1.pools p = some q → q.memSize < size := by
  rw [pick_none_iff]
  refine or_congr_right ⟨fun hbig p q hq => ?_, fun hall => ?_⟩
  · obtain ⟨i, rfl, rfl⟩ := (multipoolCreate_pools hne hinj).1 hq
    rw [UInt32.lt_iff_toNat_lt, classSize_toNat]
    exact Nat.lt_of_le_of_lt (Nat.pow_le_pow_right (by decide) (by have := i.isLt; omega)) hbig
  · have hlast := hall _ _ ((multipoolCreate_pools hne hinj).2 ⟨Fin.last 13, rfl, rfl⟩)
    rw [UInt32.lt_iff_toNat_lt, classSize_toNat] at hlast
    exact hlast

/-- **Best fit.** For every size from 1 on the index is the least class that
holds it, is greater for no smaller size, and is one of the multipool's unless
the size is greater than all of them. So `multipool_mem_acquire` acquires from
the smallest pool that holds the size, and rejects what none holds, and 0. -/
theorem find_bestFit (size : UInt32) :
    findIndexDefined size = some (findMultipoolIndexForSize size) ∧
    (1 ≤ size.toNat →
      IsLeast {i | size.toNat ≤ 2 ^ (9 + i)} (findMultipoolIndexForSize size).toNat ∧
      (∀ size', size ≤ size' → findMultipoolIndexForSize size ≤ findMultipoolIndexForSize size') ∧
      ((findMultipoolIndexForSize size).toNat < multipoolEntryCount ↔
        size.toNat ≤ 2 ^ (9 + multipoolEntryCount - 1))) ∧
    (∀ mp : MultiPool, ∀ p, mp.pick size = some p ↔ 1 ≤ size.toNat ∧ ∃ i : Fin multipoolEntryCount,
      IsLeast {j : Fin multipoolEntryCount | size.toNat ≤ 2 ^ (9 + j.val)} i ∧ mp.pools i = p) ∧
    (∀ mp : MultiPool, mp.pick size = none ↔ size = 0 ∨ 2 ^ (9 + multipoolEntryCount - 1) < size.toNat) ∧
    ∀ ms : Fin multipoolEntryCount → Addr, (∀ i, ms i ≠ NULL) → Function.Injective ms →
      (1 ≤ size.toNat → ∀ p,
        (multipoolCreate ms).2.pick size = some p ↔ SmallestFit (multipoolCreate ms).1 size p) ∧
      ((multipoolCreate ms).2.pick size = none ↔
        size = 0 ∨ ∀ p q, (multipoolCreate ms).1.pools p = some q → q.memSize < size) := by
  refine ⟨findIndexDefined_eq size, fun h => ⟨⟨?_, fun i hi => (find_le_iff h).2 hi⟩, fun size' => find_mono h,
    find_lt_iff h⟩, fun mp p => pick_iff, fun mp => pick_none_iff, fun ms hne hinj => ⟨fun h p => ?_, ?_⟩⟩
  · exact (find_le_iff h).1 (Nat.le_refl _)
  · exact pick_created hne hinj h
  · exact reject_created hne hinj

/-- One byte more than the smallest pool has. -/
theorem find_bestFit_513 : findMultipoolIndexForSize 513 = 1 ∧
    SmallestFit (multipoolCreate fun i => i.val + 1).1 513 2 := by
  obtain ⟨-, -, -, -, hcreated⟩ := find_bestFit 513
  exact ⟨by decide, ((hcreated (fun i => i.val + 1) (by simp) fun i j h => Fin.ext (by simpa using h)).1
    (by decide) 2).1 (by decide)⟩

end

end Dxpool.Simple
