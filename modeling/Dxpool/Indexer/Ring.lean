/-
The ring of slots as a queue of positions. The positions from the number of
claims of `Next` up to the number of claims of `Return` are live: each holds
the index stored at it, or has a `Return` that is still to store it. Every
other slot is unused, or has the `Next` that is still to clear it.

This holds as long as a `Next` claims a position only when it is fresh:
when its slot holds an index that no other `Next` has claimed (`Fresh`).
-/
import Dxpool.Indexer.Positions

namespace Dxpool.Indexer

open ConcurrentIndexer Machine

/-- The slot a `Next` has claimed and is still to clear. -/
def readSlot (size : Nat) : Pc → Option Nat
  | .nextLoadSlot c | .nextClear c _ => some (c % size)
  | _ => none

/-- The slot a `Return` has claimed and is still to fill, and the index. -/
def writeSlot (size : Nat) : Pc → Option (Nat × Nat)
  | .returnLoadSlot i c | .returnFill i c => some (i, c % size)
  | _ => none

/-- A `Next` past its claim was there before the move, or claims. -/
theorem Move.readSlot {bits ix sp pc ix' pc' h} (hm : Move bits ix sp pc ix' pc' h) {size k : Nat}
    (hk : readSlot size pc' = some k) : Indexer.readSlot size pc = some k ∧ (∀ c, pc ≠ .nextCas c) ∨
      ∃ c, pc = .nextCas c ∧ (ix.readPos = c ∧ sp = false) ∧ c % size = k := by
  cases hm <;> simp_all [Indexer.readSlot]

/-- So was a `Return`. -/
theorem Move.writeSlot {bits ix sp pc ix' pc' h} (hm : Move bits ix sp pc ix' pc' h) {size i k : Nat}
    (hk : writeSlot size pc' = some (i, k)) : Indexer.writeSlot size pc = some (i, k) ∧ (∀ j c, pc ≠ .returnCas j c) ∨
      ∃ c, pc = .returnCas i c ∧ (ix.writePos = c ∧ sp = false) ∧ c % size = k := by
  cases hm <;> simp_all [Indexer.writeSlot]

section
variable {T : Type}

/-- The indices in the order of their positions: the constructor's, then
those of the `Return` calls as these claimed theirs. -/
def stored (n : Nat) (tr : Trace (State T) (Act T)) : List Nat := List.range n ++ (claims tr).map Prod.snd

/-- Position `p` is the last one that thread `t` claimed, to store index `i` at. -/
structure StoredBy (n : Nat) (cl : List (T × Nat)) (p : Nat) (t : T) (i : Nat) : Prop where
  le : n ≤ p
  claim : cl[p - n]? = some (t, i)
  last : ∀ q j, p - n < q → cl[q]? ≠ some (t, j)

/-- Slot `k` holds index `v`, and no call is to clear or fill it. -/
structure Filled (s : State T) (k v : Nat) : Prop where
  load : s.indexer.load k = v + 1
  reader : ∀ t, readSlot s.indexer.size (s.threads t).pc ≠ some k
  writer : ∀ t i, writeSlot s.indexer.size (s.threads t).pc ≠ some (i, k)

/-- Slot `k` is unused, or is to be cleared. -/
def Vacant (s : State T) (k : Nat) : Prop :=
  s.indexer.load k = 0 ∨ ∃ t, readSlot s.indexer.size (s.threads t).pc = some k

/-- A `Return` is to fill slot `k` once that is unused. -/
def Pending (s : State T) (k : Nat) : Prop :=
  (∃ t i, writeSlot s.indexer.size (s.threads t).pc = some (i, k)) ∧ Vacant s k

/-- A position is claimed by a `Next` only when its slot holds an index that
no other `Next` has claimed. -/
def Fresh (s : State T) : Act T → Prop
  | .run t sp =>
    match (s.threads t).pc with
    | .nextCas c => s.indexer.readPos = c ∧ sp = false → s.indexer.load (c % s.indexer.size) ≠ 0 ∧
        ∀ u, readSlot s.indexer.size (s.threads u).pc ≠ some (c % s.indexer.size)
    | _ => True
  | _ => True

instance [Fintype T] (s : State T) (a : Act T) : Decidable (Fresh s a) :=
  match a with
  | .run t sp =>
    match h : (s.threads t).pc with
    | .nextCas c => decidable_of_iff (s.indexer.readPos = c ∧ sp = false →
        s.indexer.load (c % s.indexer.size) ≠ 0 ∧
        ∀ u, readSlot s.indexer.size (s.threads u).pc ≠ some (c % s.indexer.size)) (by simp only [Fresh, h])
    | .idle | .nextLoadRead | .nextWrapLoad | .nextWrapCas | .nextLoadWrite _ | .nextCheckSlot _ | .nextLoadSlot _
    | .nextClear _ _ | .returnLoadWrite _ | .returnWrapLoad _ | .returnWrapCas _ | .returnCas _ _
    | .returnLoadSlot _ _ | .returnFill _ _ => isTrue (by simp only [Fresh, h])
  | .next _ | .ret _ _ | .give _ _ _ => isTrue trivial

end

section
variable {T : Type} [Fintype T]

/-- The ring over a run: what each slot holds and who is at it. -/
structure Ring (bits n : Nat) (tr : Trace (State T) (Act T)) (s : State T) : Prop where
  placed : Placed bits n s
  ordered : reads tr ≤ n + (claims tr).length
  live : ∀ p v, reads tr ≤ p → (stored n tr)[p]? = some v →
    Filled s (p % s.indexer.size) v ∨ Pending s (p % s.indexer.size)
  rest : ∀ k, (∀ p, reads tr ≤ p → p < n + (claims tr).length → p % s.indexer.size ≠ k) → Vacant s k
  writer : ∀ t i k, writeSlot s.indexer.size (s.threads t).pc = some (i, k) →
    ∃ p, reads tr ≤ p ∧ p % s.indexer.size = k ∧ StoredBy n (claims tr) p t i
  reader : ∀ t k, readSlot s.indexer.size (s.threads t).pc = some k → s.indexer.load k ≠ 0
  readAlone : ∀ t u k, readSlot s.indexer.size (s.threads t).pc = some k →
    readSlot s.indexer.size (s.threads u).pc = some k → t = u

end

section
variable {T : Type} {n : Nat} {tr : Trace (State T) (Act T)}

theorem stored_length : (stored n tr).length = n + (claims tr).length := by simp [stored]

theorem stored_getElem {p v : Nat} (h : (stored n tr)[p]? = some v) : p < n + (claims tr).length := by
  rw [← stored_length]
  exact (List.getElem?_eq_some_iff.1 h).1

theorem stored_initial {p : Nat} (h : p < n) : (stored n tr)[p]? = some p := by
  rw [stored, List.getElem?_append_left (by simpa using h), List.getElem?_range h]

theorem StoredBy.getElem {p i : Nat} {t : T} (h : StoredBy n (claims tr) p t i) : (stored n tr)[p]? = some i := by
  rw [stored, List.getElem?_append_right (by simpa using h.le)]
  simp [h.claim]

theorem StoredBy.lt {cl : List (T × Nat)} {p i : Nat} {t : T} (h : StoredBy n cl p t i) : p < n + cl.length := by
  have := (List.getElem?_eq_some_iff.1 h.claim).1
  have := h.le
  omega

theorem StoredBy.unique {cl : List (T × Nat)} {p i j : Nat} {t u : T} (h : StoredBy n cl p t i)
    (h' : StoredBy n cl p u j) : t = u ∧ i = j := by
  have := h.claim.symm.trans h'.claim
  simpa using this

theorem StoredBy.new {cl : List (T × Nat)} {t : T} {i : Nat} : StoredBy n (cl ++ [(t, i)]) (n + cl.length) t i := by
  refine ⟨by omega, by simp, fun q j hq hcl => ?_⟩
  have := (List.getElem?_eq_some_iff.1 hcl).1
  simp only [List.length_append, List.length_singleton] at this
  omega

theorem StoredBy.append {cl : List (T × Nat)} {p i j : Nat} {t u : T} (h : StoredBy n cl p t i) (hne : t ≠ u) :
    StoredBy n (cl ++ [(u, j)]) p t i := by
  have := (List.getElem?_eq_some_iff.1 h.claim).1
  refine ⟨h.le, by rw [List.getElem?_append_left this]; exact h.claim, fun q k hq hcl => ?_⟩
  by_cases hlt : q < cl.length
  · rw [List.getElem?_append_left hlt] at hcl
    exact h.last q k hq hcl
  · have hmem := List.mem_of_getElem? (List.getElem?_append_right (Nat.not_lt.1 hlt) ▸ hcl)
    simp only [List.mem_singleton, Prod.mk.injEq] at hmem
    exact hne hmem.1

theorem clearsSlot_readSlot {size pc k} (h : clearsSlot size pc k = true) : readSlot size pc = some k := by
  obtain ⟨c, v, rfl, rfl⟩ := clearsSlot_iff.1 h
  rfl

theorem fillsSlot_writeSlot {size pc k} (h : fillsSlot size pc k = true) : ∃ i, writeSlot size pc = some (i, k) := by
  obtain ⟨i, c, rfl, rfl⟩ := fillsSlot_iff.1 h
  exact ⟨i, rfl⟩

end

section
variable {T : Type} [Fintype T] {bits n : Nat} {tr : Trace (State T) (Act T)} {s : State T}

/-- Live positions less than a lap apart have slots of their own. -/
theorem Ring.place_eq (h : Ring bits n tr s) (hlag : (claims tr).length ≤ reads tr) {p q : Nat}
    (hp : reads tr ≤ p) (hq : reads tr ≤ q) (hp' : p ≤ n + (claims tr).length) (hq' : q ≤ n + (claims tr).length)
    (heq : p % s.indexer.size = q % s.indexer.size) : p = q := by
  have := h.placed.sized.pos
  rw [h.placed.sized.size] at heq
  exact eq_of_mod_eq heq (by omega) (by omega)

/-- One `Return` at most is to fill a slot. -/
theorem Ring.writeAlone (h : Ring bits n tr s) (hlag : (claims tr).length ≤ reads tr) {t u i j k}
    (ht : writeSlot s.indexer.size (s.threads t).pc = some (i, k))
    (hu : writeSlot s.indexer.size (s.threads u).pc = some (j, k)) : t = u := by
  obtain ⟨p, hp, hpk, hpt⟩ := h.writer t i k ht
  obtain ⟨q, hq, hqk, hqu⟩ := h.writer u j k hu
  cases h.place_eq hlag hp hq (Nat.le_of_lt hpt.lt) (Nat.le_of_lt hqu.lt) (hpk.trans hqk.symm)
  exact (hpt.unique hqu).1

/-- Every wait ends alone. -/
theorem Ring.slotAlone (h : Ring bits n tr s) (hlag : (claims tr).length ≤ reads tr) (a : Act T) : SlotAlone s a := by
  cases a with
  | next | ret | give => trivial
  | run t sp =>
    simp only [SlotAlone]
    generalize hpc : (s.threads t).pc = pc
    cases pc with
    | nextLoadSlot c =>
      intro _ u
      by_contra hu
      rw [Bool.not_eq_false] at hu
      have := h.readAlone t u (c % s.indexer.size) (by rw [hpc]; rfl) (clearsSlot_readSlot hu)
      subst this
      simp [hpc, clearsSlot] at hu
    | returnLoadSlot i c =>
      intro _ u
      by_contra hu
      rw [Bool.not_eq_false] at hu
      obtain ⟨j, hj⟩ := fillsSlot_writeSlot hu
      have := h.writeAlone hlag (t := t) (i := i) (by rw [hpc]; rfl) hj
      subst this
      simp [hpc, fillsSlot] at hu
    | _ => trivial

/-- A step that claims no position, stores to no slot and leaves every
thread at the slot it is at. -/
theorem Ring.quiet (h : Ring bits n tr s) {s' : State T} {a : Act T} (hp : Placed bits n s')
    (hi : s'.indexer.indices = s.indexer.indices) (hr : readClaim s a = none) (hw : writeClaim s a = none)
    (hread : ∀ x, readSlot s.indexer.size (s'.threads x).pc = readSlot s.indexer.size (s.threads x).pc)
    (hwrite : ∀ x, writeSlot s.indexer.size (s'.threads x).pc = writeSlot s.indexer.size (s.threads x).pc) :
    Ring bits n ((s, a) :: tr) s' := by
  have hsize : s'.indexer.size = s.indexer.size := by rw [hp.sized.size, h.placed.sized.size]
  have hload : ∀ k, s'.indexer.load k = s.indexer.load k := fun k => by simp only [load, hi]
  have hvac : ∀ k, Vacant s' k ↔ Vacant s k := fun k => by simp only [Vacant, hload, hsize, hread]
  refine ⟨hp, ?_, fun p v hp hv => ?_, fun k hk => ?_, fun t i k ht => ?_, fun t k ht => ?_, fun t u k ht hu => ?_⟩
  · rw [reads_none hr, claims_none hw]; exact h.ordered
  · rw [reads_none hr] at hp
    simp only [stored, claims_none hw] at hv
    rw [hsize]
    rcases h.live p v hp hv with hf | ⟨⟨t, i, ht⟩, hvp⟩
    · exact .inl ⟨by rw [hload]; exact hf.load, by simpa only [hsize, hread] using hf.reader,
        by simpa only [hsize, hwrite] using hf.writer⟩
    · exact .inr ⟨⟨t, i, by rw [hsize, hwrite]; exact ht⟩, (hvac _).2 hvp⟩
  · simp only [reads_none hr, claims_none hw, hsize] at hk
    exact (hvac k).2 (h.rest k hk)
  · rw [hsize, hwrite] at ht
    simp only [reads_none hr, claims_none hw, hsize]
    exact h.writer t i k ht
  · rw [hsize, hread] at ht; rw [hload]; exact h.reader t k ht
  · rw [hsize, hread] at ht hu; exact h.readAlone t u k ht hu

/-- The next position to claim, if its slot is not vacant, is live and filled. -/
theorem Ring.fresh (h : Ring bits n tr s) (hv : ¬Vacant s (reads tr % s.indexer.size)) :
    ∃ v, (stored n tr)[reads tr]? = some v ∧ Filled s (reads tr % s.indexer.size) v := by
  have hlt : reads tr < n + (claims tr).length := by
    by_contra hge
    exact hv (h.rest _ fun p hp hp' => by omega)
  obtain ⟨v, hget⟩ : ∃ v, (stored n tr)[reads tr]? = some v :=
    ⟨_, List.getElem?_eq_getElem (by rw [stored_length]; exact hlt)⟩
  rcases h.live _ _ (Nat.le_refl _) hget with hf | ⟨-, hp⟩
  · exact ⟨v, hget, hf⟩
  · exact absurd hp hv

/-- A `Return` claims position `n + (claims tr).length`. -/
theorem Ring.claimWrite {t : T} {sp : Bool} {i c : Nat} {s' : State T} (h : Ring bits n tr s)
    (hlag : (claims tr).length ≤ reads tr) (hp : Placed bits n s')
    (hplace : c % s.indexer.size = (n + (claims tr).length) % s.indexer.size)
    (hpc : (s.threads t).pc = .returnCas i c) (hw : writeClaim s (.run t sp) = some (t, i))
    (hi : s'.indexer.indices = s.indexer.indices) (hpc' : (s'.threads t).pc = .returnLoadSlot i c)
    (hne : ∀ x, x ≠ t → s'.threads x = s.threads x) : Ring bits n ((s, .run t sp) :: tr) s' := by
  have hr : readClaim s (.run t sp) = none := by simp [readClaim, hpc]
  have hsize : s'.indexer.size = s.indexer.size := by rw [hp.sized.size, h.placed.sized.size]
  have hload : ∀ k, s'.indexer.load k = s.indexer.load k := fun k => by simp only [load, hi]
  have hread : ∀ x, readSlot s.indexer.size (s'.threads x).pc = readSlot s.indexer.size (s.threads x).pc :=
    pc_congr hne (by rw [hpc', hpc]; rfl)
  have hwrite : ∀ {x j k}, writeSlot s.indexer.size (s'.threads x).pc = some (j, k) →
      x = t ∧ j = i ∧ k = c % s.indexer.size ∨ writeSlot s.indexer.size (s.threads x).pc = some (j, k) := fun hx => by
    have := pc_some hne (c := (i, c % s.indexer.size)) (by rw [hpc']; rfl) hx
    rwa [Prod.mk.injEq] at this
  have hkeep : ∀ {x j k}, writeSlot s.indexer.size (s.threads x).pc = some (j, k) →
      writeSlot s.indexer.size (s'.threads x).pc = some (j, k) := by
    intro x j k hx
    rw [hne x fun hxt => by subst hxt; simp [hpc, writeSlot] at hx]
    exact hx
  have hvac : ∀ k, Vacant s' k ↔ Vacant s k := fun k => by simp only [Vacant, hload, hsize, hread]
  have hst : stored n ((s, .run t sp) :: tr) = stored n tr ++ [i] := by simp [stored, claims_some hw]
  have hord := h.ordered
  refine ⟨hp, ?_, fun p v hle hv => ?_, fun k hk => ?_, fun x j k hx => ?_, fun x k hx => ?_, fun x y k hx hy => ?_⟩
  · rw [reads_none hr, claims_some hw, List.length_append]; omega
  · rw [reads_none hr] at hle
    rw [hst] at hv
    rw [hsize]
    by_cases hlt : p < n + (claims tr).length
    · rw [List.getElem?_append_left (by rw [stored_length]; exact hlt)] at hv
      rcases h.live p v hle hv with hf | ⟨⟨x, j, hx⟩, hvp⟩
      · refine .inl ⟨by rw [hload]; exact hf.load, by simpa only [hsize, hread] using hf.reader, fun x j hx => ?_⟩
        rw [hsize] at hx
        rcases hwrite hx with ⟨-, -, hk⟩ | hx
        · rw [hplace] at hk
          have := h.place_eq hlag hle hord (Nat.le_of_lt hlt) (Nat.le_refl _) hk
          omega
        · exact hf.writer x j hx
      · exact .inr ⟨⟨x, j, by rw [hsize]; exact hkeep hx⟩, (hvac _).2 hvp⟩
    · have hpe : p = n + (claims tr).length := by
        have := (List.getElem?_eq_some_iff.1 hv).1
        simp only [List.length_append, List.length_singleton, stored_length] at this
        omega
      subst hpe
      refine .inr ⟨⟨t, i, by rw [hpc', hsize, ← hplace]; rfl⟩, (hvac _).2 (h.rest _ fun q hq hq' hk => ?_)⟩
      have := h.place_eq hlag hq hord (Nat.le_of_lt hq') (Nat.le_refl _) hk
      omega
  · simp only [reads_none hr, claims_some hw, List.length_append, hsize] at hk
    exact (hvac k).2 (h.rest k fun p hp hp' => hk p hp (by omega))
  · rw [hsize] at hx ⊢
    simp only [reads_none hr, claims_some hw]
    rcases hwrite hx with ⟨rfl, rfl, rfl⟩ | hx
    · exact ⟨_, hord, hplace.symm, .new⟩
    · obtain ⟨p, hp, hpk, hpt⟩ := h.writer x j k hx
      exact ⟨p, hp, hpk, hpt.append fun hxt => by subst hxt; simp [hpc, writeSlot] at hx⟩
  · rw [hsize, hread] at hx; rw [hload]; exact h.reader x k hx
  · rw [hsize, hread] at hx hy; exact h.readAlone x y k hx hy

/-- A `Next` claims position `reads tr`. -/
theorem Ring.claimRead {t : T} {sp : Bool} {c : Nat} {s' : State T} (h : Ring bits n tr s)
    (hlag : (claims tr).length ≤ reads tr) (hp : Placed bits n s')
    (hplace : c % s.indexer.size = reads tr % s.indexer.size) (hfresh : ¬Vacant s (c % s.indexer.size))
    (hpc : (s.threads t).pc = .nextCas c) (hr : readClaim s (.run t sp) = some t)
    (hi : s'.indexer.indices = s.indexer.indices) (hpc' : (s'.threads t).pc = .nextLoadSlot c)
    (hne : ∀ x, x ≠ t → s'.threads x = s.threads x) : Ring bits n ((s, .run t sp) :: tr) s' := by
  have hw : writeClaim s (.run t sp) = none := by simp [writeClaim, hpc]
  have hsize : s'.indexer.size = s.indexer.size := by rw [hp.sized.size, h.placed.sized.size]
  have hload : ∀ k, s'.indexer.load k = s.indexer.load k := fun k => by simp only [load, hi]
  have hwrite : ∀ x, writeSlot s.indexer.size (s'.threads x).pc = writeSlot s.indexer.size (s.threads x).pc :=
    pc_congr hne (by rw [hpc', hpc]; rfl)
  have hread : ∀ {x k}, readSlot s.indexer.size (s'.threads x).pc = some k →
      x = t ∧ k = c % s.indexer.size ∨ readSlot s.indexer.size (s.threads x).pc = some k :=
    pc_some hne (by rw [hpc']; rfl)
  have hvac : ∀ k, Vacant s k → Vacant s' k := by
    rintro k (h0 | ⟨x, hx⟩)
    · exact .inl (by rw [hload]; exact h0)
    · refine .inr ⟨x, ?_⟩
      rw [hsize, hne x fun hxt => by subst hxt; simp [hpc, readSlot] at hx]
      exact hx
  rw [hplace] at hfresh
  obtain ⟨v₀, hv₀, hf₀⟩ := h.fresh hfresh
  have hlt : reads tr < n + (claims tr).length := stored_getElem hv₀
  have hst : stored n ((s, .run t sp) :: tr) = stored n tr := by simp only [stored, claims_none hw]
  refine ⟨hp, ?_, fun p v hle hv => ?_, fun k hk => ?_, fun x j k hx => ?_, fun x k hx => ?_, fun x y k hx hy => ?_⟩
  · rw [reads_some hr, claims_none hw]; omega
  · rw [reads_some hr] at hle
    rw [hst] at hv
    rw [hsize]
    rcases h.live p v (by omega) hv with hf | ⟨⟨x, j, hx⟩, hvp⟩
    · refine .inl ⟨by rw [hload]; exact hf.load, fun x hx => ?_, by simpa only [hsize, hwrite] using hf.writer⟩
      rw [hsize] at hx
      rcases hread hx with ⟨-, hk⟩ | hx
      · rw [hplace] at hk
        have := h.place_eq hlag (by omega) (Nat.le_refl _) (Nat.le_of_lt (stored_getElem hv)) h.ordered hk
        omega
      · exact hf.reader x hx
    · exact .inr ⟨⟨x, j, by rw [hsize, hwrite]; exact hx⟩, hvac _ hvp⟩
  · simp only [reads_some hr, claims_none hw, hsize] at hk
    by_cases hk₀ : k = reads tr % s.indexer.size
    · exact .inr ⟨t, by rw [hpc', hsize, hk₀, ← hplace]; rfl⟩
    · refine hvac k (h.rest k fun p hp hp' hpk => ?_)
      rcases Nat.lt_or_eq_of_le hp with hlt | rfl
      · exact hk p (by omega) hp' hpk
      · exact hk₀ hpk.symm
  · rw [hsize, hwrite] at hx
    simp only [reads_some hr, claims_none hw, hsize]
    obtain ⟨p, hp, hpk, hpt⟩ := h.writer x j k hx
    rcases Nat.lt_or_eq_of_le hp with hlt | rfl
    · exact ⟨p, by omega, hpk, hpt⟩
    · exact absurd (hpk ▸ hx) (hf₀.writer x j)
  · rw [hsize] at hx
    rw [hload]
    rcases hread hx with ⟨-, rfl⟩ | hx
    · rw [hplace, hf₀.load]; omega
    · exact h.reader x k hx
  · rw [hsize] at hx hy
    rcases hread hx with ⟨rfl, rfl⟩ | hx <;> rcases hread hy with ⟨rfl, hk⟩ | hy
    · rfl
    · exact absurd (hplace ▸ hy) (hf₀.reader y)
    · exact absurd (hplace ▸ hk ▸ hx) (hf₀.reader x)
    · exact h.readAlone x y k hx hy

/-- A `Next` clears its slot. -/
theorem Ring.clear {t : T} {sp : Bool} {c v : Nat} {s' : State T} (h : Ring bits n tr s) (hp : Placed bits n s')
    (hpc : (s.threads t).pc = .nextClear c v) (hi : s'.indexer = s.indexer.store (c % s.indexer.size) 0)
    (hpc' : (s'.threads t).pc = .idle) (hne : ∀ x, x ≠ t → s'.threads x = s.threads x) :
    Ring bits n ((s, .run t sp) :: tr) s' := by
  have hr : readClaim s (.run t sp) = none := by simp [readClaim, hpc]
  have hw : writeClaim s (.run t sp) = none := by simp [writeClaim, hpc]
  have hsize : s'.indexer.size = s.indexer.size := by rw [hi]; rfl
  have hmine : readSlot s.indexer.size (s.threads t).pc = some (c % s.indexer.size) := by rw [hpc]; rfl
  have hload : ∀ k, s'.indexer.load k = if c % s.indexer.size = k then 0 else s.indexer.load k := fun k => by
    rw [hi]; exact load_store 0 k (h.placed.sized.slot_lt c)
  have hwrite : ∀ x, writeSlot s.indexer.size (s'.threads x).pc = writeSlot s.indexer.size (s.threads x).pc :=
    pc_congr hne (by rw [hpc', hpc]; rfl)
  have hread : ∀ {x k}, readSlot s.indexer.size (s'.threads x).pc = some k →
      x ≠ t ∧ readSlot s.indexer.size (s.threads x).pc = some k := pc_none hne (by rw [hpc']; rfl)
  have hvac : ∀ k, Vacant s k → Vacant s' k := by
    rintro k (h0 | ⟨x, hx⟩)
    · exact .inl (by rw [hload]; split <;> first | rfl | exact h0)
    · by_cases hxt : x = t
      · subst hxt
        rw [hmine, Option.some.injEq] at hx
        exact .inl (by rw [hload, if_pos hx])
      · exact .inr ⟨x, by rw [hsize, hne x hxt]; exact hx⟩
  refine ⟨hp, ?_, fun p v hle hv => ?_, fun k hk => ?_, fun x j k hx => ?_, fun x k hx => ?_, fun x y k hx hy => ?_⟩
  · rw [reads_none hr, claims_none hw]; exact h.ordered
  · rw [reads_none hr] at hle
    simp only [stored, claims_none hw] at hv
    rw [hsize]
    rcases h.live p v hle hv with hf | ⟨⟨x, j, hx⟩, hvp⟩
    · refine .inl ⟨?_, fun x hx => hf.reader x (hread (hsize ▸ hx)).2, by simpa only [hsize, hwrite] using hf.writer⟩
      rw [hload, if_neg fun hk : c % s.indexer.size = p % s.indexer.size => hf.reader t (hk ▸ hmine)]
      exact hf.load
    · exact .inr ⟨⟨x, j, by rw [hsize, hwrite]; exact hx⟩, hvac _ hvp⟩
  · simp only [reads_none hr, claims_none hw, hsize] at hk
    exact hvac k (h.rest k hk)
  · rw [hsize, hwrite] at hx
    simp only [reads_none hr, claims_none hw, hsize]
    exact h.writer x j k hx
  · rw [hsize] at hx
    obtain ⟨hxt, hx⟩ := hread hx
    rw [hload, if_neg fun hk : c % s.indexer.size = k => hxt (h.readAlone x t k hx (hk ▸ hmine))]
    exact h.reader x k hx
  · rw [hsize] at hx hy
    exact h.readAlone x y k (hread hx).2 (hread hy).2

/-- A `Return` fills its slot. -/
theorem Ring.fill {t : T} {sp : Bool} {i c : Nat} {s' : State T} (h : Ring bits n tr s)
    (hlag : (claims tr).length ≤ reads tr) (hp : Placed bits n s') (hpc : (s.threads t).pc = .returnFill i c)
    (hi : s'.indexer = s.indexer.store (c % s.indexer.size) (i + 1))
    (hpc' : (s'.threads t).pc = .idle) (hne : ∀ x, x ≠ t → s'.threads x = s.threads x) :
    Ring bits n ((s, .run t sp) :: tr) s' := by
  have hr : readClaim s (.run t sp) = none := by simp [readClaim, hpc]
  have hw : writeClaim s (.run t sp) = none := by simp [writeClaim, hpc]
  have hsize : s'.indexer.size = s.indexer.size := by rw [hi]; rfl
  have hmine : writeSlot s.indexer.size (s.threads t).pc = some (i, c % s.indexer.size) := by rw [hpc]; rfl
  have hunused := h.placed.fills t i c hpc
  have hload : ∀ k, s'.indexer.load k = if c % s.indexer.size = k then i + 1 else s.indexer.load k := fun k => by
    rw [hi]; exact load_store (i + 1) k (h.placed.sized.slot_lt c)
  have hread : ∀ x, readSlot s.indexer.size (s'.threads x).pc = readSlot s.indexer.size (s.threads x).pc :=
    pc_congr hne (by rw [hpc', hpc]; rfl)
  have hnone : ∀ x k, readSlot s.indexer.size (s.threads x).pc = some k → c % s.indexer.size ≠ k := by
    intro x k hx hk
    exact h.reader x k hx (hk ▸ hunused)
  have hwrite : ∀ {x j k}, writeSlot s.indexer.size (s'.threads x).pc = some (j, k) →
      x ≠ t ∧ writeSlot s.indexer.size (s.threads x).pc = some (j, k) := pc_none hne (by rw [hpc']; rfl)
  have hvac : ∀ k, c % s.indexer.size ≠ k → Vacant s k → Vacant s' k := by
    rintro k hk (h0 | ⟨x, hx⟩)
    · exact .inl (by rw [hload, if_neg hk]; exact h0)
    · exact .inr ⟨x, by rw [hsize, hread]; exact hx⟩
  obtain ⟨p₀, hp₀, hpk₀, hpt₀⟩ := h.writer t i _ hmine
  refine ⟨hp, ?_, fun p v hle hv => ?_, fun k hk => ?_, fun x j k hx => ?_, fun x k hx => ?_, fun x y k hx hy => ?_⟩
  · rw [reads_none hr, claims_none hw]; exact h.ordered
  · rw [reads_none hr] at hle
    simp only [stored, claims_none hw] at hv
    rw [hsize]
    by_cases hk : c % s.indexer.size = p % s.indexer.size
    · have hpe : p = p₀ := h.place_eq hlag hle hp₀ (Nat.le_of_lt (stored_getElem hv)) (Nat.le_of_lt hpt₀.lt)
        (hk.symm.trans hpk₀.symm)
      subst hpe
      have hvi : v = i := by
        have := hv.symm.trans hpt₀.getElem
        simpa using this
      subst hvi
      refine .inl ⟨by rw [hload, if_pos hk], fun x hx => ?_, fun x j hx => ?_⟩
      · rw [hsize, hread] at hx; exact hnone x _ hx hk
      · rw [hsize] at hx
        obtain ⟨hxt, hx⟩ := hwrite hx
        exact hxt (h.writeAlone hlag hx (hk ▸ hmine))
    · rcases h.live p v hle hv with hf | ⟨⟨x, j, hx⟩, hvp⟩
      · refine .inl ⟨by rw [hload, if_neg hk]; exact hf.load, by simpa only [hsize, hread] using hf.reader,
          fun x j hx => hf.writer x j (hwrite (hsize ▸ hx)).2⟩
      · refine .inr ⟨⟨x, j, ?_⟩, hvac _ hk hvp⟩
        rw [hsize, hne x fun hxt => ?_]
        · exact hx
        · subst hxt
          rw [hmine] at hx
          simp only [Option.some.injEq, Prod.mk.injEq] at hx
          exact hk hx.2
  · simp only [reads_none hr, claims_none hw, hsize] at hk
    exact hvac k (fun hck => hk p₀ hp₀ hpt₀.lt (hpk₀.trans hck)) (h.rest k hk)
  · rw [hsize] at hx
    simp only [reads_none hr, claims_none hw, hsize]
    exact h.writer x j k (hwrite hx).2
  · rw [hsize, hread] at hx
    rw [hload, if_neg (hnone x k hx)]
    exact h.reader x k hx
  · rw [hsize, hread] at hx hy; exact h.readAlone x y k hx hy

variable [DecidableEq T]

theorem Ring.init (hn : 0 < n) (hmax : 2 * n < 2 ^ bits) (h : (machine bits n T).init s) : Ring bits n [] s := by
  have hp := Placed.init hn hmax h
  obtain ⟨hc, ht⟩ := h
  obtain ⟨-, -, hs, hsz⟩ := construct_ok hn hmax hc
  have hload : ∀ k, s.indexer.load k = if k < n then k + 1 else 0 := fun k => by
    simp only [load, hs]
    exact slots_getD n k
  have hread : ∀ t, readSlot s.indexer.size (s.threads t).pc = none := fun t => by rw [ht]; rfl
  have hwrite : ∀ t, writeSlot s.indexer.size (s.threads t).pc = none := fun t => by rw [ht]; rfl
  refine ⟨hp, by simp [reads, claims], fun p v _ hv => .inl ?_, fun k hk => .inl ?_, ?_, ?_, ?_⟩
  · have hlt : p < n := by have := stored_getElem hv; simpa [claims] using this
    have hmod : p % s.indexer.size = p := Nat.mod_eq_of_lt (by rw [hsz.size]; omega)
    have hpv : p = v := by simpa [stored_initial hlt] using hv
    refine ⟨?_, by simp [hread], by simp [hwrite]⟩
    rw [hmod, hload, if_pos hlt, hpv]
  · rw [hload]
    refine if_neg fun hlt => hk k (by simp [reads]) (by simpa [claims] using hlt) (Nat.mod_eq_of_lt ?_)
    rw [hsz.size]; omega
  all_goals simp [hread, hwrite]

/-- Every step whose claims are fresh keeps the ring. -/
theorem Ring.step {s' : State T} {a : Act T} (h : Ring bits n tr s) (hpos : Positions bits n tr s)
    (hlag : (claims tr).length ≤ reads tr) (hown : Owned s a) (hfresh : Fresh s a) (hs : Step bits s a s') :
    Ring bits n ((s, a) :: tr) s' := by
  have hp := h.placed.step hown (h.slotAlone hlag a) hs
  cases hs with
  | @next t hpc =>
    obtain ⟨hr, hw⟩ := claims_call (s := s) (a := .next t) (by simp)
    exact h.quiet hp rfl hr hw (pc_congr (fun _ => set_ne) (by simp [readSlot, hpc]))
      (pc_congr (fun _ => set_ne) (by simp [writeSlot, hpc]))
  | @ret t i hpc =>
    obtain ⟨hr, hw⟩ := claims_call (s := s) (a := .ret t i) (by simp)
    exact h.quiet hp rfl hr hw (pc_congr (fun _ => set_ne) (by simp [readSlot, hpc]))
      (pc_congr (fun _ => set_ne) (by simp [writeSlot, hpc]))
  | @give t u i hne hi =>
    obtain ⟨hr, hw⟩ := claims_call (s := s) (a := .give t u i) (by simp)
    exact h.quiet hp rfl hr hw (fun x => by rw [give_pc]) fun x => by rw [give_pc]
  | @run t sp ix' pc' hold hm =>
    have hothers : ∀ x, x ≠ t → (({ s with indexer := ix' }.set t
        { pc := pc', held := gain hold ++ (s.threads t).held }).threads x) = s.threads x := fun x hx => set_ne hx
    have hquiet : ix'.indices = s.indexer.indices → readClaim s (.run t sp) = none → writeClaim s (.run t sp) = none →
        readSlot s.indexer.size pc' = readSlot s.indexer.size (s.threads t).pc →
        writeSlot s.indexer.size pc' = writeSlot s.indexer.size (s.threads t).pc → Ring bits n ((s, .run t sp) :: tr)
        ({ s with indexer := ix' }.set t { pc := pc', held := gain hold ++ (s.threads t).held }) := by
      intro hi hr hw hrs hws
      exact h.quiet hp hi hr hw (pc_congr hothers (by rw [set_self]; exact hrs))
        (pc_congr hothers (by rw [set_self]; exact hws))
    simp only [Fresh] at hfresh
    generalize hpc : (s.threads t).pc = pc at hm hfresh
    cases hm with
    | @nextClaim c hc hsp =>
      obtain ⟨hv, hno⟩ := hfresh ⟨hc, hsp⟩
      refine h.claimRead hlag hp ?_ ?_ hpc (by simp [readClaim, hpc, hc, hsp]) rfl (by rw [set_self]) hothers
      · rw [← hc]; exact hpos.read.place hpos.sized.dvd
      · rintro (h0 | ⟨u, hu⟩)
        · exact hv h0
        · exact hno u hu
    | @returnClaim i c hc hsp =>
      refine h.claimWrite hlag hp ?_ hpc (by simp [writeClaim, hpc, hc, hsp]) rfl (by rw [set_self]) hothers
      rw [← hc]; exact hpos.write.place hpos.sized.dvd
    | @nextClear c v => exact h.clear hp hpc rfl (by rw [set_self]) hothers
    | @returnFill i c =>
      have hi : i < n := h.placed.lt (t := t) (by simp [share, loose, carried, hpc])
      have hmod := hpos.sized.index_mod hi
      exact h.fill hlag hp hpc (by rw [set_indexer, hmod]) (by rw [set_self]) hothers
    | nextClaimFail hc =>
      exact hquiet rfl (readClaim_none fun c hpc' => by cases hpc.symm.trans hpc'; exact hc) (by simp [writeClaim, hpc])
        (by rw [hpc]; rfl) (by rw [hpc]; rfl)
    | returnClaimFail hc =>
      exact hquiet rfl (by simp [readClaim, hpc])
        (writeClaim_none fun i c hpc' => by cases hpc.symm.trans hpc'; exact hc) (by rw [hpc]; rfl) (by rw [hpc]; rfl)
    | _ =>
      exact hquiet rfl (by simp [readClaim, hpc]) (by simp [writeClaim, hpc]) (by simp only [hpc, readSlot])
        (by simp only [hpc, writeSlot])

/-- The ring over a run whose claims are fresh. -/
theorem ring_of_run (hn : 0 < n) (hmax : 2 * n < 2 ^ bits) (hr : (machine bits n T).Run tr s)
    (hown : Along Owned tr) (hfresh : Along Fresh tr) : Ring bits n tr s :=
  hr.invariantT (Q := fun s a => Owned s a ∧ Fresh s a) (fun _ h => .init hn hmax h)
    (fun _ _ _ _ hr hok hi ha h => hi.step (positions_of_run hn hmax hr) (claims_le hr (along_and.1 hok).1) ha.1 ha.2
      (step_cases h)) (along_and.2 ⟨hown, hfresh⟩)

end

end Dxpool.Indexer
