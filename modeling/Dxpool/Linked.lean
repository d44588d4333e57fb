/-
Chains of links: the list that following `next` from a place runs through
until `null`. A chain is determined by where it starts and does not depend on links
outside it.
-/
import Mathlib.Data.List.Perm.Basic

namespace Dxpool

/-- Following `next` from `a` runs through `l` and ends at `null`. -/
inductive Linked {α : Type} (next : α → α) (null : α) : α → List α → Prop
  | nil : Linked next null null []
  | cons {a l} : a ≠ null → Linked next null (next a) l → Linked next null a (a :: l)

namespace Linked

variable {α : Type} {next next' : α → α} {null a b : α} {l l' : List α}

/-- A chain from a place other than `null` starts with it. -/
theorem of_ne (h : Linked next null a l) (ha : a ≠ null) : ∃ l', l = a :: l' ∧ Linked next null (next a) l' := by
  cases h with
  | nil => exact absurd rfl ha
  | cons _ h => exact ⟨_, rfl, h⟩

theorem of_null (h : Linked next null null l) : l = [] := by
  cases h with
  | nil => rfl
  | cons ha => exact absurd rfl ha

theorem unique (h : Linked next null a l) (h' : Linked next null a l') : l = l' := by
  induction h generalizing l' with
  | nil => exact h'.of_null.symm
  | cons ha _ ih =>
    obtain ⟨l'', rfl, h''⟩ := h'.of_ne ha
    rw [ih h'']

/-- The chain from one of its places. -/
theorem split (h : Linked next null a l) (hb : b ∈ l) : ∃ l₁ l₂, l = l₁ ++ b :: l₂ ∧ Linked next null b (b :: l₂) := by
  induction h with
  | nil => cases hb
  | @cons c l hc h ih =>
    rcases List.mem_cons.1 hb with rfl | hb
    · exact ⟨[], l, rfl, .cons hc h⟩
    · obtain ⟨l₁, l₂, rfl, h₂⟩ := ih hb
      exact ⟨c :: l₁, l₂, rfl, h₂⟩

/-- Links outside a chain do not matter. -/
theorem congr (h : Linked next null a l) (hnext : ∀ x ∈ l, next' x = next x) : Linked next' null a l := by
  induction h with
  | nil => exact .nil
  | cons ha _ ih =>
    rw [List.forall_mem_cons] at hnext
    exact .cons ha (hnext.1 ▸ ih hnext.2)

/-- Two chains with the same places start at the same one. -/
theorem eq_of_perm (h : Linked next null a l) (h' : Linked next null b l') (hp : l.Perm l') : a = b := by
  cases h' with
  | nil => rw [hp.eq_nil] at h; cases h; rfl
  | @cons _ l'' hb h'' =>
    obtain ⟨l₁, l₂, rfl, h₂⟩ := h.split (hp.mem_iff.2 List.mem_cons_self)
    have heq := h₂.unique (.cons hb h'')
    have hlen := hp.length_eq
    rw [← heq, List.length_append] at hlen
    have hnil : l₁ = [] := List.eq_nil_of_length_eq_zero (by omega)
    subst hnil
    cases h
    rfl

end Linked

end Dxpool
