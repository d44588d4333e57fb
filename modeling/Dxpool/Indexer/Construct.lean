/-
What the `ConcurrentIndexer` constructor builds when `2 * poolSize` is
representable: slots `1 .. n` then `n` unused ones, and a largest position
that is a positive multiple of the ring's size.
-/
import Dxpool.Indexer.Steps

namespace Dxpool.Indexer

open ConcurrentIndexer

/-- The slots of a constructed indexer. -/
def slots (n : Nat) : List Nat := List.range' 1 n ++ List.replicate n 0

theorem fill_eq {bits r : Nat} : ∀ {todo i : Nat}, i + todo < 2 ^ bits →
    fill bits todo i (List.range' 1 i ++ List.replicate (todo + r) 0) =
      .ok (List.range' 1 (i + todo) ++ List.replicate r 0)
  | 0, i, _ => by simp [fill]
  | todo + 1, i, h => by
    have hrep : List.replicate (todo + 1 + r) 0 = 0 :: List.replicate (todo + r) 0 := by
      rw [show todo + 1 + r = (todo + r) + 1 by omega, List.replicate_succ]
    have hset : (List.range' 1 i ++ List.replicate (todo + 1 + r) 0).set i ((i + 1) % 2 ^ bits) =
        List.range' 1 (i + 1) ++ List.replicate (todo + r) 0 := by
      rw [hrep, List.set_append_right _ _ (by simp), Nat.mod_eq_of_lt (by omega), List.range'_concat]
      simp [Nat.add_comm]
    unfold fill
    rw [if_pos (by simp), hset, fill_eq (by omega)]
    congr 3
    omega

/-- The size and the largest position of a constructed indexer. -/
structure Sized (bits n : Nat) (ix : ConcurrentIndexer) : Prop where
  pos : 0 < n
  size : ix.size = 2 * n
  len : ix.indices.length = 2 * n
  dvd : ix.size ∣ ix.maxPositionSize
  le : ix.size ≤ ix.maxPositionSize
  lt : ix.maxPositionSize < 2 ^ bits

/-- **The constructor.** For `1 ≤ n` with `2 * n` representable. -/
theorem construct_ok {bits n : Nat} {ix : ConcurrentIndexer} (hn : 0 < n) (hmax : 2 * n < 2 ^ bits)
    (h : construct bits n = .ok ix) :
    ix.readPos = 0 ∧ ix.writePos = n ∧ ix.indices = slots n ∧ Sized bits n ix := by
  have hsize : n * 2 % 2 ^ bits = 2 * n := by rw [Nat.mul_comm, Nat.mod_eq_of_lt hmax]
  have hfill : fill bits n 0 (List.range' 1 0 ++ List.replicate (n + n) 0) = _ := fill_eq (by omega)
  simp only [List.range'_zero, List.nil_append, Nat.zero_add] at hfill
  simp only [construct, hsize, if_neg (show ¬ 2 * n = 0 by omega)] at h
  rw [show 2 * n = n + n by omega, hfill, show n + n = 2 * n by omega] at h
  simp only [Except.ok.injEq] at h
  subst h
  refine ⟨rfl, rfl, rfl, hn, rfl, by simp; omega, ⟨_, Nat.mul_comm _ _⟩, ?_, ?_⟩
  · have : 0 < (2 ^ bits - 1) / (2 * n) := Nat.div_pos (by omega) (by omega)
    exact Nat.le_mul_of_pos_left _ this
  · have := Nat.div_mul_le_self (2 ^ bits - 1) (2 * n)
    have := Nat.one_le_two_pow (n := bits)
    simp only
    omega

theorem fill_le {bits todo : Nat} : ∀ {i : Nat} {l l' : List Nat}, fill bits todo i l = .ok l' →
    todo = 0 ∨ i + todo ≤ l.length := by
  induction todo with
  | zero => exact fun _ => .inl rfl
  | succ todo ih =>
    intro i l l' h
    unfold fill at h
    split at h
    · rename_i hi
      have hle := ih h
      rw [List.length_set] at hle
      omega
    · cases h

/-- A pool size that the constructor accepts is one it can double. -/
theorem construct_lt {bits n : Nat} {ix : ConcurrentIndexer} (hn : 0 < n) (hbits : n < 2 ^ bits)
    (h : construct bits n = .ok ix) : 2 * n < 2 ^ bits := by
  by_contra hge
  have hsize : n * 2 % 2 ^ bits = 2 * n - 2 ^ bits := by
    rw [Nat.mod_eq_sub_mod (by omega), Nat.mod_eq_of_lt (by omega), Nat.mul_comm]
  simp only [construct, hsize] at h
  split at h
  · cases h
  · split at h
    · cases h
    · rename_i hfill
      have hle := fill_le hfill
      rw [List.length_replicate] at hle
      omega

theorem Sized.slot_lt {bits n ix} (h : Sized bits n ix) (c : Nat) : c % ix.size < ix.indices.length := by
  rw [h.size, h.len]
  exact Nat.mod_lt _ (by have := h.pos; omega)

theorem Sized.congr {bits n ix ix'} (h : Sized bits n ix) (hlen : ix'.indices.length = ix.indices.length)
    (hsize : ix'.size = ix.size) (hmax : ix'.maxPositionSize = ix.maxPositionSize) : Sized bits n ix' :=
  ⟨h.pos, hsize ▸ h.size, hlen ▸ h.len, by rw [hsize, hmax]; exact h.dvd, by rw [hsize, hmax]; exact h.le,
    hmax ▸ h.lt⟩

/-- An index of the pool plus one is representable. -/
theorem Sized.index_mod {bits n ix i} (h : Sized bits n ix) (hi : i < n) : (i + 1) % 2 ^ bits = i + 1 := by
  have := h.size; have := h.le; have := h.lt
  exact Nat.mod_eq_of_lt (by omega)

/-- No operation changes the ring's size or the largest position. -/
theorem Move.sized {bits n ix sp pc ix' pc' h} (hm : Move bits ix sp pc ix' pc' h) (hs : Sized bits n ix) :
    Sized bits n ix' := by
  cases hm <;> first | exact hs | exact ⟨hs.1, hs.2, by simp [hs.3], hs.4, hs.5, hs.6⟩

theorem Move.maxPositionSize {bits ix sp pc ix' pc' h} (hm : Move bits ix sp pc ix' pc' h) :
    ix'.maxPositionSize = ix.maxPositionSize := by cases hm <;> rfl

theorem slots_getD (n k : Nat) : (slots n).getD k 0 = if k < n then k + 1 else 0 := by
  simp only [slots, List.getD_eq_getElem?_getD]
  by_cases hk : k < n
  · rw [List.getElem?_append_left (by simpa using hk)]
    simp [hk, Nat.add_comm]
  · rw [List.getElem?_append_right (by simpa using hk)]
    simp only [List.length_range', hk, ite_false]
    by_cases hk' : k - n < n <;> simp [hk']

theorem slots_count (n i : Nat) : (slots n).count (i + 1) = if i < n then 1 else 0 := by
  have hrep : (List.replicate n 0).count (i + 1) = 0 := by simp [List.count_replicate]
  simp only [slots, List.count_append, hrep, Nat.add_zero]
  rw [(List.nodup_range' (s := 1) (n := n)).count]
  simp only [List.mem_range'_1]
  congr 1
  simp only [eq_iff_iff]
  omega

end Dxpool.Indexer
