/-
Counting over the threads of a machine: how a sum over all threads changes
when one thread's record does, and how the count of a value in a list
changes when one entry does. "Each thing is in exactly one place" is then
an equation between such sums that every step keeps.
-/
import Mathlib.Algebra.BigOperators.Group.Finset.Basic
import Mathlib.Algebra.Order.BigOperators.Group.Finset
import Mathlib.Data.Fintype.Basic
import Mathlib.Data.Fintype.BigOperators

namespace Dxpool.Tally

variable {T β : Type} [Fintype T] [DecidableEq T]

/-- A sum over a set when one term of it is replaced. -/
theorem sum_replace {α M : Type} [DecidableEq α] [AddCommMonoid M] {s : Finset α} {f g : α → M} {a : α} (ha : a ∈ s)
    (hf : ∀ b ∈ s, b ≠ a → g b = f b) : (∑ b ∈ s, g b) + f a = (∑ b ∈ s, f b) + g a := by
  rw [← Finset.add_sum_erase s g ha, ← Finset.add_sum_erase s f ha,
    Finset.sum_congr rfl fun b hb => hf b (Finset.mem_of_mem_erase hb) (Finset.ne_of_mem_erase hb)]
  ac_rfl

/-- A sum over all threads when one thread's record is replaced. -/
theorem sum_update {M : Type} [AddCommMonoid M] (f : T → β) (g : β → M) (t : T) (v : β) :
    (∑ u, g (Function.update f t v u)) + g (f t) = (∑ u, g (f u)) + g v := by
  have h := sum_replace (f := fun u => g (f u)) (g := fun u => g (Function.update f t v u)) (Finset.mem_univ t)
    fun u _ hu => by rw [Function.update_of_ne hu]
  rwa [Function.update_self] at h

/-- The same, when what is summed up changes too, by little for each thread. -/
theorem sum_update_le (f : T → β) {g g' : β → Nat} {c : Nat} (hg : ∀ b, g' b ≤ g b + c) (t : T) (v : β) :
    (∑ u, g' (Function.update f t v u)) + g' (f t) ≤ (∑ u, g (f u)) + c * Fintype.card T + g' v := by
  have hsum : (∑ u, g' (f u)) ≤ ∑ u, (g (f u) + c) := Finset.sum_le_sum fun u _ => hg (f u)
  rw [Finset.sum_add_distrib, Finset.sum_const, Finset.card_univ, Nat.nsmul_eq_mul, Nat.mul_comm] at hsum
  rw [sum_update f g' t v]
  exact Nat.add_le_add_right hsum _

omit [DecidableEq T] in
theorem le_sum (f : T → β) (g : β → Nat) (t : T) : g (f t) ≤ ∑ u, g (f u) :=
  Finset.single_le_sum (f := fun u => g (f u)) (fun _ _ => Nat.zero_le _) (Finset.mem_univ t)

theorem add_le_sum (f : T → β) (g : β → Nat) {t u : T} (h : t ≠ u) : g (f t) + g (f u) ≤ ∑ x, g (f x) := by
  have h₁ := Finset.add_sum_erase Finset.univ (fun x => g (f x)) (Finset.mem_univ t)
  have h₂ := Finset.single_le_sum (s := Finset.univ.erase t) (f := fun x => g (f x))
    (fun _ _ => Nat.zero_le _) (Finset.mem_erase.2 ⟨h.symm, Finset.mem_univ u⟩)
  omega

omit [DecidableEq T] in
theorem exists_of_sum_pos (f : T → β) (g : β → Nat) (h : 0 < ∑ u, g (f u)) : ∃ t, 0 < g (f t) := by
  by_contra hn
  simp only [not_exists, Nat.not_lt, Nat.le_zero] at hn
  rw [Finset.sum_eq_zero fun u _ => hn u] at h
  exact absurd h (Nat.lt_irrefl 0)

omit [DecidableEq T] in
/-- A sum in which one thread at most contributes, and that by one. -/
theorem sum_eq_one (g : T → Nat) {t : T} (h : g t = 1) (hu : ∀ u, u ≠ t → g u = 0) : ∑ u, g u = 1 := by
  rw [Finset.sum_eq_single t (fun u _ => hu u) (fun ht => absurd (Finset.mem_univ t) ht), h]

omit [DecidableEq T] in
/-- A sum of one-or-zero terms of which one at most is one. -/
theorem sum_ite_unique (p : T → Prop) [DecidablePred p] (h : ∀ t u, p t → p u → t = u) :
    (∑ t, if p t then 1 else 0) = if ∃ t, p t then 1 else 0 := by
  by_cases hex : ∃ t, p t
  · obtain ⟨t, ht⟩ := hex
    rw [if_pos ⟨t, ht⟩]
    exact sum_eq_one _ (if_pos ht) fun u hu => if_neg fun hpu => hu (h u t hpu ht)
  · rw [if_neg hex]
    exact Finset.sum_eq_zero fun t _ => if_neg fun ht => hex ⟨t, ht⟩

/-! ## Counts in a list -/

theorem countP_range (p : Nat → Bool) (n : Nat) :
    (List.range n).countP p = ∑ k ∈ Finset.range n, if p k = true then 1 else 0 := by
  induction n with
  | zero => rfl
  | succ n ih => rw [List.range_succ, List.countP_append, ih, Finset.sum_range_succ, List.countP_singleton]

theorem count_range (l : List Nat) (x : Nat) :
    l.count x = ∑ k ∈ Finset.range l.length, if l.getD k 0 = x then 1 else 0 := by
  have hl : l = (List.range l.length).map fun k => l.getD k 0 := by
    refine List.ext_getElem (by simp) fun k hk _ => ?_
    simp [hk]
  conv_lhs => rw [hl]
  rw [List.count, List.countP_map, countP_range]
  simp

theorem count_set {l : List Nat} {k : Nat} (v x : Nat) (hk : k < l.length) :
    (l.set k v).count x + (if l.getD k 0 = x then 1 else 0) = l.count x + if v = x then 1 else 0 := by
  have hg : l.getD k 0 = l[k] := by simp [hk]
  rw [hg, List.count_set hk]
  have : (if l[k] = x then 1 else 0) ≤ l.count x := by
    split
    · rename_i h; exact List.count_pos_iff.2 (h ▸ List.getElem_mem hk)
    · exact Nat.zero_le _
  simp only [beq_iff_eq]
  omega

theorem getD_set {l : List Nat} {k j : Nat} (v : Nat) (hk : k < l.length) :
    (l.set k v).getD j 0 = if k = j then v else l.getD j 0 := by
  simp only [List.getD_eq_getElem?_getD, List.getElem?_set]
  by_cases h : k = j
  · subst h; simp [hk]
  · simp [h]

theorem count_erase_of_mem {l : List Nat} {i : Nat} (j : Nat) (h : i ∈ l) :
    (l.erase i).count j + (if i = j then 1 else 0) = l.count j := by
  have hp := List.count_pos_iff.2 h
  by_cases hij : i = j
  · subst hij; simp only [List.count_erase_self, if_true]; omega
  · simp [hij, List.count_erase_of_ne (Ne.symm hij)]

/-- Each value that a list has, counted for what it is the value of, is counted once. -/
theorem sum_count_le {α β : Type} [DecidableEq β] {s : Finset α} {f : α → β} (hf : Set.InjOn f s) {p : β → Bool}
    (hp : ∀ a ∈ s, p (f a) = true) (l : List β) : (∑ a ∈ s, l.count (f a)) ≤ l.countP p := by
  induction l with
  | nil => simp
  | cons b l ih =>
    have hone : (∑ a ∈ s, if b = f a then 1 else 0) ≤ if p b = true then 1 else 0 := by
      rw [← Finset.card_filter]
      by_cases hb : ∃ a ∈ s, b = f a
      · obtain ⟨a, ha, rfl⟩ := hb
        rw [if_pos (hp a ha), Finset.card_le_one]
        intro c hc d hd
        rw [Finset.mem_filter] at hc hd
        exact hf hc.1 hd.1 (hc.2.symm.trans hd.2)
      · rw [Finset.filter_false_of_mem fun a ha he => hb ⟨a, ha, he⟩]
        exact Nat.zero_le _
    simp only [List.count_cons, beq_iff_eq, Finset.sum_add_distrib, List.countP_cons]
    omega

end Dxpool.Tally
