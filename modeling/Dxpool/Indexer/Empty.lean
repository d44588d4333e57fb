/-
When `Next` answers empty. It decides from values read at different times, and
so can answer empty although an index was available all along (`missed_index`):
its unused slot may be one that another `Next` has emptied since, or one whose
`Return` was overtaken by the `Return` of a later position.

With these two and lapped positions out of the way there was a moment with
none available: the one of the answer (`none_available`).
-/
import Dxpool.Indexer.Fifo

namespace Dxpool.Indexer

open ConcurrentIndexer Machine

section
variable {T : Type}

/-- The `Return` that claimed position `p` has not completed. -/
def InProgress (n : Nat) (tr : Trace (State T) (Act T)) (s : State T) (p : Nat) : Prop :=
  ∃ t i, StoredBy n (claims tr) p t i ∧ writeSlot s.indexer.size (s.threads t).pc ≠ none

/-- The operation that last stored index `i` has completed, and no `Next` has
claimed the position since. -/
def Available (n : Nat) (tr : Trace (State T) (Act T)) (s : State T) (i : Nat) : Prop :=
  ∃ p, (stored n tr)[p]? = some i ∧ (∀ q, p < q → (stored n tr)[q]? ≠ some i) ∧ reads tr ≤ p ∧ ¬InProgress n tr s p

/-- No completed `Return` claimed its position after one in progress. -/
def InOrder (n : Nat) (tr : Trace (State T) (Act T)) (s : State T) : Prop :=
  ∀ p q, InProgress n tr s p → p ≤ q → q < n + (claims tr).length → InProgress n tr s q

/-- A `Next` that decides to answer empty does so for the position that is
still the next one and, if its slot is unused, while no `Return` that was
overtaken is in progress. -/
def Prompt (n : Nat) (tr : Trace (State T) (Act T)) (s : State T) : Act T → Prop
  | .run t _ =>
    match (s.threads t).pc with
    | .nextLoadWrite c => c = s.indexer.writePos → s.indexer.readPos = c
    | .nextCheckSlot c => s.indexer.load (c % s.indexer.size) = 0 → s.indexer.readPos = c ∧ InOrder n tr s
    | _ => True
  | _ => True

/-- The constructor's index at a position no `Next` has claimed. -/
theorem available_initial {n i : Nat} {tr : Trace (State T) (Act T)} {s : State T} (hi : i < n) (hr : reads tr ≤ i)
    (hno : ∀ e ∈ claims tr, e.2 ≠ i) : Available n tr s i := by
  refine ⟨i, stored_initial hi, fun q hq hst => ?_, hr, fun ⟨_, _, hst, _⟩ => absurd hst.le (Nat.not_le.2 hi)⟩
  by_cases hqn : q < n
  · rw [stored_initial hqn, Option.some.injEq] at hst; omega
  · rw [stored, List.getElem?_append_right (by simpa using hqn)] at hst
    obtain ⟨e, he, hei⟩ := List.mem_map.1 (List.mem_of_getElem? hst)
    exact hno e he hei

end

section
variable {T : Type} [Fintype T] {bits n : Nat} {tr : Trace (State T) (Act T)} {s : State T}

/-- A live position has its index in its slot, or a `Return` in progress. -/
theorem Ring.settled (h : Ring bits n tr s) (hlag : (claims tr).length ≤ reads tr) {p v : Nat} (hp : reads tr ≤ p)
    (hv : (stored n tr)[p]? = some v) : Filled s (p % s.indexer.size) v ∨ InProgress n tr s p := by
  refine (h.live p v hp hv).imp_right fun ⟨⟨t, i, ht⟩, _⟩ => ?_
  obtain ⟨q, hq, hqk, hqt⟩ := h.writer t i _ ht
  cases h.place_eq hlag hq hp (Nat.le_of_lt hqt.lt) (Nat.le_of_lt (stored_getElem hv)) hqk
  exact ⟨t, i, hqt, by simp [ht]⟩

variable [DecidableEq T]

/-- **No false empty.** In a run whose claims are fresh, a prompt empty answer
has a moment in its call with no index available. -/
theorem none_available (hn : 0 < n) (hmax : 2 * n < 2 ^ bits) (hr : (machine bits n T).Run tr s)
    (hown : Along Owned tr) (hfresh : Along Fresh tr) {a : Act T} {t : T} (ha : answer bits s a = some (t, {}))
    (hprompt : Prompt n tr s a) : ∃ m ∈ (tr, s) :: callOf t tr, ∀ i, ¬Available n m.1 m.2 i := by
  have hring := ring_of_run hn hmax hr hown hfresh
  have hpos := positions_of_run hn hmax hr
  have hlag := claims_le hr hown
  refine ⟨(tr, s), List.mem_cons_self, fun i ⟨p, hp, _, hle, hdone⟩ => ?_⟩
  simp only at hp hle hdone
  have hlt := stored_getElem hp
  obtain ⟨sp, ix', pc', rfl, hm⟩ := answer_move ha
  unfold Prompt at hprompt
  rcases hm.answers with ⟨c, hpc, hc, -⟩ | ⟨c, hpc, h0, -⟩ | ⟨c, v, -, hof⟩
  · simp only [hpc] at hprompt
    have := hpos.sized.size; have := hpos.sized.le; have := hpos.sized.pos
    have := hpos.read.eq_of_le hpos.write hring.ordered (by omega) ((hprompt hc).trans hc)
    omega
  · simp only [hpc] at hprompt
    obtain ⟨hcur, hinorder⟩ := hprompt h0
    rw [← hcur, hpos.read.place hpos.sized.dvd] at h0
    have hhead : reads tr < (stored n tr).length := by rw [stored_length]; omega
    rcases hring.settled hlag (Nat.le_refl _) (List.getElem?_eq_getElem hhead) with hf | hprog
    · rw [hf.load] at h0; omega
    · exact hdone (hinorder _ p hprog hle hlt)
  · exact absurd (congrArg IndexHolder.empty hof) (by simp [IndexHolder.of])

end

/-- Thread `a` loads position 0 and finds it below `writePos`; thread `b` takes
index 0 from it; thread `a` finds its slot unused. -/
def emptiedSlot {T : Type} (a b : T) : List (Act T) := [.next a] ++ runs a 2 ++ [.next b] ++ runs b 6

/-- **A false empty**, in a pool of two: index 1 is available at every moment
of a `Next` that answers empty. -/
theorem missed_index : ∃ tr s, (machine 64 2 (Fin 2)).Run tr s ∧ Along Owned tr ∧
    answer 64 s (.run 0 false) = some (0, {}) ∧ ∀ m ∈ (tr, s) :: callOf 0 tr, Available 2 m.1 m.2 1 := by
  have h := exists_run (m := machine 64 2 (Fin 2)) (s := initial 2 (2 ^ 64 - 4)) (l := emptiedSlot 0 1)
    (p := fun tr s => decide (Along Owned tr ∧ answer 64 s (.run 0 false) = some (0, {}) ∧
      ∀ m ∈ (tr, s) :: callOf (0 : Fin 2) tr, reads m.1 ≤ 1 ∧ claims m.1 = [])) ⟨rfl, fun _ => rfl⟩ (by decide +kernel)
  obtain ⟨tr, s, hr, hp⟩ := h
  simp only [decide_eq_true_eq] at hp
  obtain ⟨hown, hans, hcall⟩ := hp
  refine ⟨tr, s, hr, hown, hans, fun m hm => ?_⟩
  obtain ⟨hreads, hclaims⟩ := hcall m hm
  exact available_initial (by decide) hreads (by simp [hclaims])

/-- A `Next` of thread 1 finds the slot that the only index is on its way to. -/
theorem none_available_one : ∃ tr s, (machine 64 1 (Fin 2)).Run tr s ∧ answer 64 s (.run 1 false) = some (1, {}) ∧
    ∃ m ∈ (tr, s) :: callOf 1 tr, ∀ i, ¬Available 1 m.1 m.2 i := by
  have h := exists_run (m := machine 64 1 (Fin 2)) (s := initial 1 (2 ^ 64 - 2))
    (l := [.next 0] ++ runs 0 6 ++ [.ret 0 0] ++ runs 0 2 ++ [.next 1] ++ runs 1 2)
    (p := fun tr s => decide (Along Owned tr ∧ Along Fresh tr ∧ answer 64 s (.run 1 false) = some (1, {}) ∧
      (s.threads 1).pc = .nextCheckSlot 1 ∧ s.indexer.readPos = 1 ∧ (claims tr).length = 1)) ⟨rfl, fun _ => rfl⟩
    (by decide +kernel)
  obtain ⟨tr, s, hr, hp⟩ := h
  simp only [decide_eq_true_eq] at hp
  obtain ⟨hown, hfresh, hans, hpc, hpos, hlen⟩ := hp
  refine ⟨tr, s, hr, hans, none_available (by decide) (by decide) hr hown hfresh hans ?_⟩
  simp only [Prompt, hpc]
  refine fun _ => ⟨hpos, fun p q hprog hpq hq => ?_⟩
  have hp1 : 1 ≤ p := by
    obtain ⟨_, _, hst, _⟩ := hprog
    exact hst.le
  have hpq : p = q := by omega
  exact hpq ▸ hprog

end Dxpool.Indexer
