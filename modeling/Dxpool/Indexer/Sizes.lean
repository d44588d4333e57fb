/-
The `ConcurrentIndexer` constructor for every pool size there is. The doubled
size wraps around at half the range, and for 0 and half the range it is the 0
that `maxPositionSize` is divided by; above, the slots are too few for the
indices, unless so few are too many to allocate. For the other sizes the
indexer is well formed (`constructIn_wellFormed`).
-/
import Dxpool.Indexer.Sequential

namespace Dxpool.Indexer

open ConcurrentIndexer

/-- What comes of the constructor. -/
inductive Construction
  | throws
  | undefined (fault : Fault)
  | built (ix : ConcurrentIndexer)

/-- The constructor, when the vector can `reserve` and `assign` as many slots
as `allocates` says, and throws for others. -/
def constructIn (bits : Nat) (allocates : Nat → Bool) (poolSize : Nat) : Construction :=
  let size := poolSize * 2 % 2 ^ bits
  -- `maxPositionSize` is initialized before the body allocates
  if size = 0 then .undefined .divisionByZero
  else if allocates size = false then .throws
  else
    match construct bits poolSize with
    | .error fault => .undefined fault
    | .ok ix => .built ix

/-- An indexer for `n` items: twice as many slots, a largest position that is
the last multiple of that, and the indices below `n` free. -/
structure WellFormed (bits n : Nat) (ix : ConcurrentIndexer) : Prop where
  size : ix.size = 2 * n
  indices : ix.indices.length = ix.size
  dvd : ix.size ∣ ix.maxPositionSize
  pos : 0 < ix.maxPositionSize
  le : ix.maxPositionSize ≤ 2 ^ bits - 1
  largest : 2 ^ bits - 1 - ix.maxPositionSize < ix.size
  free : ix.free = List.range n
  kept : Kept bits n ix 0

section
variable {bits n : Nat} {ix : ConcurrentIndexer}

theorem construct_exists (hn : 0 < n) (hmax : 2 * n < 2 ^ bits) : ∃ ix, construct bits n = .ok ix := by
  have hsize : n * 2 % 2 ^ bits = n + n := by rw [Nat.mod_eq_of_lt (by omega)]; omega
  have hfill : fill bits n 0 (List.range' 1 0 ++ List.replicate (n + n) 0) = _ := fill_eq (by omega)
  simp only [List.range'_zero, List.nil_append] at hfill
  simp only [construct, hsize, if_neg (show ¬n + n = 0 by omega), hfill]
  exact ⟨_, rfl⟩

/-- The largest position is what the constructor makes it. -/
theorem construct_maxPositionSize (h : construct bits n = .ok ix) :
    ix.maxPositionSize = (2 ^ bits - 1) / ix.size * ix.size := by
  simp only [construct] at h
  split at h
  · cases h
  · split at h
    · cases h
    · cases h; rfl

theorem wellFormed_of_construct (hn : 0 < n) (hmax : 2 * n < 2 ^ bits) (h : construct bits n = .ok ix) :
    WellFormed bits n ix := by
  obtain ⟨-, -, -, hsz⟩ := construct_ok hn hmax h
  obtain ⟨hkept, hfree⟩ := kept_construct hn hmax h
  have hmaxPos := construct_maxPositionSize h
  have hdiv := Nat.mod_add_div' (2 ^ bits - 1) ix.size
  have hmod : (2 ^ bits - 1) % ix.size < ix.size := Nat.mod_lt _ (by rw [hsz.size]; omega)
  rw [← hmaxPos] at hdiv
  have hle := hsz.le
  have hsize := hsz.size
  exact ⟨hsize, by rw [hsz.len, hsize], hsz.dvd, by omega, by omega, by omega, hfree, hkept⟩

theorem constructIn_ok {allocates : Nat → Bool} (halloc : allocates (2 * n % 2 ^ bits) = true) (hn : 0 < n)
    (hmax : 2 * n < 2 ^ bits) : ∃ ix, constructIn bits allocates n = .built ix ∧ WellFormed bits n ix := by
  obtain ⟨ix, hix⟩ := construct_exists hn hmax
  refine ⟨ix, ?_, wellFormed_of_construct hn hmax hix⟩
  have hne : ¬2 * n % 2 ^ bits = 0 := by rw [Nat.mod_eq_of_lt hmax]; omega
  simp only [constructIn, hix, Nat.mul_comm n 2, halloc, if_neg hne, Bool.true_eq_false, if_false]

/-- **Every pool size.** The constructor throws or makes a well-formed indexer
exactly where the doubled size is not 0 modulo the range, and either did not
wrap or is refused by the vector. -/
theorem constructIn_wellFormed (allocates : Nat → Bool) (hlt : n < 2 ^ bits) :
    (constructIn bits allocates n = .throws ∨
        ∃ ix, constructIn bits allocates n = .built ix ∧ WellFormed bits n ix) ↔
      2 * n % 2 ^ bits ≠ 0 ∧ (2 * n < 2 ^ bits ∨ allocates (2 * n % 2 ^ bits) = false) := by
  by_cases hzero : 2 * n % 2 ^ bits = 0
  · refine iff_of_false ?_ fun h => h.1 hzero
    have h : constructIn bits allocates n = .undefined .divisionByZero := by
      rw [constructIn, Nat.mul_comm n 2, if_pos hzero]
    rw [h]
    simp
  · have hn : 0 < n := Nat.pos_of_ne_zero (by rintro rfl; exact hzero (Nat.zero_mod _))
    rw [and_iff_right hzero]
    cases halloc : allocates (2 * n % 2 ^ bits) with
    | false =>
      refine iff_of_true (.inl ?_) (.inr rfl)
      rw [constructIn, Nat.mul_comm n 2, if_neg hzero, if_pos halloc]
    | true =>
      by_cases hmax : 2 * n < 2 ^ bits
      · exact iff_of_true (.inr (constructIn_ok halloc hn hmax)) (.inl hmax)
      · refine iff_of_false ?_ (by simp [hmax])
        -- a size that the constructor accepts is one it can double
        cases hc : construct bits n with
        | ok ix => exact absurd (construct_lt hn hlt hc) hmax
        | error fault =>
          have h : constructIn bits allocates n = .undefined fault := by
            simp only [constructIn, Nat.mul_comm n 2, if_neg hzero, halloc, Bool.true_eq_false, if_false, hc]
          rw [h]
          simp

end

/-- A pool of three items, positions of eight bits. -/
theorem constructIn_wellFormed_three : ∃ ix, constructIn 8 (fun _ => true) 3 = .built ix ∧ WellFormed 8 3 ix :=
  ((constructIn_wellFormed (n := 3) (fun _ => true) (by decide)).2 (by decide)).resolve_left (by intro h; cases h)

/-- **No items**: a division by zero. One item more than half the range: the
fill loop leaves the slots. -/
theorem no_items : ¬(constructIn 64 (fun _ => true) 0 = .throws ∨
      ∃ ix, constructIn 64 (fun _ => true) 0 = .built ix ∧ WellFormed 64 0 ix) ∧
    constructIn 64 (fun _ => true) 0 = .undefined .divisionByZero ∧
    constructIn 64 (fun _ => true) 9223372036854775809 = .undefined .outOfBounds := by
  have h : constructIn 64 (fun _ => true) 0 = .undefined .divisionByZero := rfl
  refine ⟨?_, h, rfl⟩
  rw [h]
  simp

end Dxpool.Indexer
