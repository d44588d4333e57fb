/-
A counter that stands for an ever-growing count `P` modulo `M`, where both
`0` and `M` stand for a multiple of `M`: a counter is advanced by one from
below `M`, and set back from `M` to `0` by a step of its own.
-/
import Mathlib.Data.Nat.ModEq

namespace Dxpool

/-- The counter `pos` stands for the count `P`. -/
structure Wraps (M pos P : Nat) : Prop where
  le : pos ≤ M
  mod : pos % M = P % M

namespace Wraps

variable {M pos P r R w W : Nat}

theorem advance (h : Wraps M pos P) (hne : pos ≠ M) : Wraps M (pos + 1) (P + 1) :=
  ⟨by have := h.le; omega, by rw [Nat.add_mod, h.mod, ← Nat.add_mod]⟩

/-- Setting the counter back does not change the count it stands for. -/
theorem wrap (h : Wraps M M P) : Wraps M 0 P :=
  ⟨Nat.zero_le _, by have := h.mod; simpa using this⟩

/-- The ring place of a counter, for a ring whose size divides `M`. -/
theorem place {size : Nat} (h : Wraps M pos P) (hd : size ∣ M) : pos % size = P % size := by
  rw [← Nat.mod_mod_of_dvd pos hd, h.mod, Nat.mod_mod_of_dvd P hd]

/-- Equal counters less than a cycle apart stand for one count. -/
theorem eq_of_le (hr : Wraps M r R) (hw : Wraps M w W) (hle : R ≤ W) (hlt : W < R + M) (h : r = w) :
    R = W := by
  have hmod : R ≡ W [MOD M] := by rw [Nat.ModEq, ← hr.mod, h, hw.mod]
  obtain ⟨k, hk⟩ := (Nat.modEq_iff_dvd' hle).1 hmod
  rcases Nat.eq_zero_or_pos k with rfl | hk0
  · omega
  · have := Nat.le_mul_of_pos_right M hk0
    omega

end Wraps

/-- Two places of a ring less than a lap apart are one only if the counts are. -/
theorem eq_of_mod_eq {size a b : Nat} (h : a % size = b % size) (h₁ : a < b + size) (h₂ : b < a + size) :
    a = b := by
  have key : ∀ {a b}, a ≤ b → b < a + size → a % size = b % size → a = b := by
    intro a b hle hlt h
    obtain ⟨k, hk⟩ := (Nat.modEq_iff_dvd' hle).1 h
    rcases Nat.eq_zero_or_pos k with rfl | hk0
    · omega
    · have := Nat.le_mul_of_pos_right size hk0
      omega
  rcases Nat.le_total a b with hle | hle
  · exact key hle h₂ h
  · exact (key hle h₁ h.symm).symm

end Dxpool
