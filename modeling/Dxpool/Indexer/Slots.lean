/-
Where the indices of a `ConcurrentIndexer` are: in a slot and not yet read,
held by a client, or carried by a `Next` or `Return` in progress.

The slot checks do not tell one lap of the ring from another, so two slow
`Next` calls can load one index (`lapped_next`). They cannot when every busy
wait ends alone: when a call leaves its wait on a slot only while no other
call of its kind is between its own wait on that slot and its store to it
(`SlotAlone`). The invariant (`Placed`) counts an index a `Next` has loaded
as still in its slot until the clearing store.
-/
import Dxpool.Indexer.Construct

namespace Dxpool.Indexer

open ConcurrentIndexer Machine

/-- The index a call carries. -/
def carried : Pc → List Nat
  | .nextClear _ v => [v - 1]
  | .returnLoadWrite i | .returnWrapLoad i | .returnWrapCas i => [i]
  | .returnCas i _ | .returnLoadSlot i _ | .returnFill i _ => [i]
  | _ => []

/-- Between the last load of the wait on slot `k` and the clearing store. -/
def clearsSlot (size : Nat) (pc : Pc) (k : Nat) : Bool :=
  match pc with
  | .nextClear c _ => c % size == k
  | _ => false

/-- Between the last load of the wait on slot `k` and the filling store. -/
def fillsSlot (size : Nat) (pc : Pc) (k : Nat) : Bool :=
  match pc with
  | .returnFill _ c => c % size == k
  | _ => false

section
variable {T : Type} [DecidableEq T] [Fintype T]

/-- The contents of the slots no `Next` has loaded. -/
def unread (s : State T) : List Nat :=
  ((List.range s.indexer.size).filter fun k =>
    decide (∀ t, clearsSlot s.indexer.size (s.threads t).pc k = false)).map s.indexer.load

/-- In how many places index `i` is. -/
def copies (s : State T) (i : Nat) : Nat :=
  (unread s).count (i + 1) + ∑ t, ((s.threads t).held.count i + (carried (s.threads t).pc).count i)

/-- A call at stage `pc` that leaves its wait on a slot now is the only one of
its kind to have left it and not yet stored to the slot. -/
def LeavesAlone (s : State T) : Pc → Prop
  | .nextLoadSlot c => s.indexer.load (c % s.indexer.size) ≠ 0 →
    ∀ u, clearsSlot s.indexer.size (s.threads u).pc (c % s.indexer.size) = false
  | .returnLoadSlot _ c => s.indexer.load (c % s.indexer.size) = 0 →
    ∀ u, fillsSlot s.indexer.size (s.threads u).pc (c % s.indexer.size) = false
  | _ => True

def SlotAlone (s : State T) : Act T → Prop
  | .run t _ => LeavesAlone s (s.threads t).pc
  | _ => True

instance (s : State T) (pc : Pc) : Decidable (LeavesAlone s pc) :=
  match pc with
  | .nextLoadSlot _ | .returnLoadSlot _ _ => inferInstanceAs (Decidable (_ → ∀ _, _))
  | .idle | .nextLoadRead | .nextWrapLoad | .nextWrapCas | .nextLoadWrite _ | .nextCheckSlot _ | .nextCas _
  | .nextClear _ _ | .returnLoadWrite _ | .returnWrapLoad _ | .returnWrapCas _ | .returnCas _ _
  | .returnFill _ _ => isTrue trivial

instance (s : State T) (a : Act T) : Decidable (SlotAlone s a) :=
  match a with
  | .run t _ => inferInstanceAs (Decidable (LeavesAlone s (s.threads t).pc))
  | .next _ | .ret _ _ | .give _ _ _ => isTrue trivial

end

/-- The index a call carries outside the slots. -/
def loose : Pc → List Nat
  | .nextClear _ _ => []
  | pc => carried pc

/-- A thread's share of the places of index `i`. -/
def share (i : Nat) (th : Thread) : Nat := th.held.count i + (loose th.pc).count i

/-- What a move does to slots and indices. -/
inductive Effect (bits : Nat) (ix : ConcurrentIndexer) : Pc → ConcurrentIndexer → Pc → Option IndexHolder → Prop
  | quiet {pc ix' pc' h} : ix'.indices = ix.indices → loose pc' = loose pc → gain h = [] →
      (∀ k, clearsSlot ix.size pc' k = false) → (∀ k, fillsSlot ix.size pc' k = false) →
      Effect bits ix pc ix' pc' h
  | grab {c} : ix.load (c % ix.size) ≠ 0 →
      Effect bits ix (.nextLoadSlot c) ix (.nextClear c (ix.load (c % ix.size))) none
  | clear {c v} : Effect bits ix (.nextClear c v) (ix.store (c % ix.size) 0) .idle (some (.of (v - 1)))
  | ready {i c} : ix.load (c % ix.size) = 0 → Effect bits ix (.returnLoadSlot i c) ix (.returnFill i c) none
  | fill {i c} : Effect bits ix (.returnFill i c) (ix.store (c % ix.size) ((i + 1) % 2 ^ bits)) .idle none

theorem Move.effect {bits ix sp pc ix' pc' h} (hm : Move bits ix sp pc ix' pc' h) :
    Effect bits ix pc ix' pc' h := by
  cases hm with
  | nextGrab h => exact .grab h
  | nextClear => exact .clear
  | returnReady h => exact .ready h
  | returnFill => exact .fill
  | _ => exact .quiet rfl rfl rfl (fun _ => rfl) (fun _ => rfl)

theorem clearsSlot_iff {size pc k} : clearsSlot size pc k = true ↔ ∃ c v, pc = .nextClear c v ∧ c % size = k := by
  cases pc <;> simp [clearsSlot]

theorem fillsSlot_iff {size pc k} : fillsSlot size pc k = true ↔ ∃ i c, pc = .returnFill i c ∧ c % size = k := by
  cases pc <;> simp [fillsSlot]

section
variable {T : Type} [Fintype T]

/-- Every index is in one place, counting one that a `Next` has loaded as
still in its slot; and a call between its wait and its store has its slot to
itself. -/
structure Placed (bits n : Nat) (s : State T) : Prop where
  sized : Sized bits n s.indexer
  once : ∀ i, s.indexer.indices.count (i + 1) + ∑ t, share i (s.threads t) = if i < n then 1 else 0
  clears : ∀ t c v, (s.threads t).pc = .nextClear c v → s.indexer.load (c % s.indexer.size) = v ∧ v ≠ 0
  fills : ∀ t i c, (s.threads t).pc = .returnFill i c → s.indexer.load (c % s.indexer.size) = 0
  clearAlone : ∀ t u k, clearsSlot s.indexer.size (s.threads t).pc k = true →
    clearsSlot s.indexer.size (s.threads u).pc k = true → t = u
  fillAlone : ∀ t u k, fillsSlot s.indexer.size (s.threads t).pc k = true →
    fillsSlot s.indexer.size (s.threads u).pc k = true → t = u

/-- An index somewhere is one of the pool's. -/
theorem Placed.lt {bits n} {s : State T} (h : Placed bits n s) {i : Nat} {t : T} (hi : 0 < share i (s.threads t)) :
    i < n := by
  have h₁ := h.once i
  have h₂ := Tally.le_sum s.threads (share i) t
  by_contra hlt
  rw [if_neg hlt] at h₁
  omega

/-- A step that leaves the slots and the shares alone, and brings no thread
between its wait and its store. -/
theorem Placed.quiet {bits n} {s s' : State T} (h : Placed bits n s) (hsz : Sized bits n s'.indexer)
    (hi : s'.indexer.indices = s.indexer.indices)
    (hsum : ∀ i, ∑ t, share i (s'.threads t) = ∑ t, share i (s.threads t))
    (hpc : ∀ x, (s'.threads x).pc = (s.threads x).pc ∨
      (∀ k, clearsSlot s.indexer.size (s'.threads x).pc k = false) ∧
      ∀ k, fillsSlot s.indexer.size (s'.threads x).pc k = false) : Placed bits n s' := by
  have hsize : s'.indexer.size = s.indexer.size := by rw [hsz.size, h.sized.size]
  have hload : ∀ k, s'.indexer.load k = s.indexer.load k := fun k => by simp only [load, hi]
  have hcl : ∀ x k, clearsSlot s.indexer.size (s'.threads x).pc k = true →
      (s'.threads x).pc = (s.threads x).pc := by
    intro x k hk
    rcases hpc x with he | ⟨hn, -⟩
    · exact he
    · rw [hn] at hk; cases hk
  have hfl : ∀ x k, fillsSlot s.indexer.size (s'.threads x).pc k = true →
      (s'.threads x).pc = (s.threads x).pc := by
    intro x k hk
    rcases hpc x with he | ⟨-, hn⟩
    · exact he
    · rw [hn] at hk; cases hk
  refine ⟨hsz, fun i => ?_, fun t c v ht => ?_, fun t i c ht => ?_, fun t u k ht hu => ?_, fun t u k ht hu => ?_⟩
  · rw [hi, hsum]; exact h.once i
  · rw [hload, hsize]
    exact h.clears t c v ((hcl t _ (clearsSlot_iff.2 ⟨c, v, ht, rfl⟩)) ▸ ht)
  · rw [hload, hsize]
    exact h.fills t i c ((hfl t _ (fillsSlot_iff.2 ⟨i, c, ht, rfl⟩)) ▸ ht)
  · rw [hsize] at ht hu
    exact h.clearAlone t u k (hcl t k ht ▸ ht) (hcl u k hu ▸ hu)
  · rw [hsize] at ht hu
    exact h.fillAlone t u k (hfl t k ht ▸ ht) (hfl u k hu ▸ hu)

/-- The index a `Next` has loaded and not yet cleared. -/
def cleared (i : Nat) : Pc → Nat
  | .nextClear _ v => if v - 1 = i then 1 else 0
  | _ => 0

theorem carried_count (pc : Pc) (i : Nat) : (carried pc).count i = (loose pc).count i + cleared i pc := by
  cases pc <;> simp [carried, loose, cleared, List.count_singleton]

/-- The slots a `Next` has loaded hold what these calls carry. -/
theorem Placed.read_slots {bits n} {s : State T} (h : Placed bits n s) (i : Nat) :
    (∑ k ∈ Finset.range s.indexer.size, if ∃ t, clearsSlot s.indexer.size (s.threads t).pc k = true ∧
      s.indexer.load k = i + 1 then 1 else 0) = ∑ t, cleared i (s.threads t).pc := by
  classical
  have hone : ∀ k, (if ∃ t, clearsSlot s.indexer.size (s.threads t).pc k = true ∧ s.indexer.load k = i + 1
      then 1 else 0) = ∑ t, if clearsSlot s.indexer.size (s.threads t).pc k = true ∧ s.indexer.load k = i + 1
      then 1 else 0 := fun k => (Tally.sum_ite_unique _ fun t u ht hu => h.clearAlone t u k ht.1 hu.1).symm
  rw [Finset.sum_congr rfl fun k _ => hone k, Finset.sum_comm]
  refine Finset.sum_congr rfl fun t _ => ?_
  generalize hpc : (s.threads t).pc = pc
  cases pc with
  | nextClear c v =>
    obtain ⟨hl, hv⟩ := h.clears t c v hpc
    have hk : c % s.indexer.size < s.indexer.size := Nat.mod_lt _ (by have := h.sized.size; have := h.sized.pos; omega)
    rw [Finset.sum_eq_single (c % s.indexer.size) (fun k _ hne => by simp [clearsSlot, Ne.symm hne])
      (fun hn => absurd (Finset.mem_range.2 hk) hn)]
    simp only [clearsSlot, beq_self_eq_true, true_and, hl, cleared]
    congr 1
    simp only [eq_iff_iff]
    omega
  | _ => simp [clearsSlot, cleared]

/-- **Exactly one place.** -/
theorem Placed.copies {bits n} {s : State T} (h : Placed bits n s) {i : Nat} (hi : i < n) : copies s i = 1 := by
  classical
  have hone := h.once i
  rw [if_pos hi, Tally.count_range, show s.indexer.indices.length = s.indexer.size by rw [h.sized.len, h.sized.size]]
    at hone
  have hunread : (unread s).count (i + 1) = ∑ k ∈ Finset.range s.indexer.size,
      if s.indexer.load k = i + 1 ∧ ∀ t, clearsSlot s.indexer.size (s.threads t).pc k = false then 1 else 0 := by
    rw [unread, List.count, List.countP_map, List.countP_filter, Tally.countP_range]
    simp
  have hsplit : ∀ k, (if s.indexer.indices.getD k 0 = i + 1 then 1 else 0) =
      (if s.indexer.load k = i + 1 ∧ ∀ t, clearsSlot s.indexer.size (s.threads t).pc k = false then 1 else 0) +
      if ∃ t, clearsSlot s.indexer.size (s.threads t).pc k = true ∧ s.indexer.load k = i + 1 then 1 else 0 := by
    intro k
    change (if s.indexer.load k = i + 1 then 1 else 0) = _
    by_cases hl : s.indexer.load k = i + 1 <;>
      by_cases hc : ∀ t, clearsSlot s.indexer.size (s.threads t).pc k = false <;> simp_all
  have hcarried : ∑ t, ((s.threads t).held.count i + (carried (s.threads t).pc).count i) =
      (∑ t, share i (s.threads t)) + ∑ t, cleared i (s.threads t).pc := by
    rw [← Finset.sum_add_distrib]
    refine Finset.sum_congr rfl fun t _ => ?_
    rw [carried_count, share]
    omega
  rw [Finset.sum_congr rfl fun k _ => hsplit k, Finset.sum_add_distrib, h.read_slots i] at hone
  simp only [Indexer.copies, hunread, hcarried]
  omega

variable [DecidableEq T]

theorem Placed.init {bits n : Nat} {s : State T} (hn : 0 < n) (hmax : 2 * n < 2 ^ bits)
    (h : (machine bits n T).init s) : Placed bits n s := by
  obtain ⟨hc, ht⟩ := h
  obtain ⟨-, -, hs, hsz⟩ := construct_ok hn hmax hc
  refine ⟨hsz, fun i => ?_, ?_, ?_, ?_, ?_⟩
  · rw [hs, slots_count]
    simp [ht, share, loose, carried]
  all_goals simp [ht, clearsSlot, fillsSlot]

/-- The share of all threads after one of them is replaced. -/
theorem share_set (i : Nat) (s : State T) (t : T) (th : Thread) :
    (∑ u, share i ((s.set t th).threads u)) + share i (s.threads t) = (∑ u, share i (s.threads u)) + share i th :=
  Tally.sum_update s.threads (share i) t th

/-- `Next` calls, `Return` calls and hand-overs. -/
theorem Placed.call {bits n} {s s' : State T} {a : Act T} (h : Placed bits n s) (hown : Owned s a)
    (hs : Step bits s a s') (ha : ∀ t sp, a ≠ .run t sp) : Placed bits n s' := by
  cases hs with
  | @next t hpc =>
    refine h.quiet h.sized rfl (fun i => ?_) fun x => ?_
    · have := share_set i s t { s.threads t with pc := .nextLoadRead }
      simp only [share, loose, carried, hpc] at this ⊢
      omega
    · by_cases hx : x = t
      · subst hx; exact .inr ⟨by simp [clearsSlot], by simp [fillsSlot]⟩
      · rw [set_ne hx]; exact .inl rfl
  | @ret t i hpc =>
    refine h.quiet h.sized rfl (fun j => ?_) fun x => ?_
    · have hsum := share_set j s t { pc := .returnLoadWrite i, held := (s.threads t).held.erase i }
      have herase := Tally.count_erase_of_mem j (show i ∈ (s.threads t).held from hown)
      simp only [share, loose, carried, hpc, List.count_singleton, beq_iff_eq, List.count_nil] at hsum ⊢
      omega
    · by_cases hx : x = t
      · subst hx; exact .inr ⟨by simp [clearsSlot], by simp [fillsSlot]⟩
      · rw [set_ne hx]; exact .inl rfl
  | @give t u i hne hi =>
    refine h.quiet h.sized rfl (fun j => ?_) fun x => ?_
    · have h₁ := share_set j s t { s.threads t with held := (s.threads t).held.erase i }
      have h₂ := share_set j (s.set t { s.threads t with held := (s.threads t).held.erase i }) u
        { s.threads u with held := i :: (s.threads u).held }
      have herase := Tally.count_erase_of_mem j hi
      rw [set_ne (Ne.symm hne)] at h₂
      simp only [share, List.count_cons, beq_iff_eq] at h₁ h₂ ⊢
      omega
    · left
      by_cases hu : x = u
      · subst hu; simp
      · rw [set_ne hu]
        by_cases ht : x = t
        · subst ht; simp
        · rw [set_ne ht]
  | @run t sp => exact absurd rfl (ha t sp)

omit [Fintype T] in
/-- A thread for which `w` holds after another stage was set is another thread. -/
theorem of_set {w : Pc → Bool} {s : State T} {t x : T} {th : Thread} (h : w ((s.set t th).threads x).pc = true)
    (hw : w th.pc = false) : x ≠ t ∧ w (s.threads x).pc = true := by
  by_cases hx : x = t
  · subst hx; rw [set_self, hw] at h; cases h
  · rw [set_ne hx] at h; exact ⟨hx, h⟩

omit [Fintype T] in
/-- A stage that at most one thread is in, after another was set. -/
theorem alone_of_set {w : Pc → Bool} {s : State T} {t x y : T} {th : Thread}
    (halone : ∀ x y, w (s.threads x).pc = true → w (s.threads y).pc = true → x = y) (hw : w th.pc = false)
    (hx : w ((s.set t th).threads x).pc = true) (hy : w ((s.set t th).threads y).pc = true) : x = y :=
  halone x y (of_set hx hw).2 (of_set hy hw).2

omit [Fintype T] in
/-- A stage a thread reaches when no thread is in it has that thread alone. -/
theorem alone_set {w : Pc → Bool} {s : State T} {t x y : T} {th : Thread}
    (halone : ∀ u, w (s.threads u).pc = false) (hx : w ((s.set t th).threads x).pc = true)
    (hy : w ((s.set t th).threads y).pc = true) : x = y := by
  have key : ∀ z, w ((s.set t th).threads z).pc = true → z = t := by
    intro z hz
    by_contra hzt
    rw [set_ne hzt, halone] at hz
    cases hz
  rw [key x hx, key y hy]

/-- A `Next` loads its slot. -/
theorem Placed.grab {bits n} {s : State T} {t : T} {c : Nat} (h : Placed bits n s)
    (hpc : (s.threads t).pc = .nextLoadSlot c) (hv : s.indexer.load (c % s.indexer.size) ≠ 0)
    (halone : ∀ u, clearsSlot s.indexer.size (s.threads u).pc (c % s.indexer.size) = false) :
    Placed bits n (s.set t { s.threads t with pc := .nextClear c (s.indexer.load (c % s.indexer.size)) }) := by
  refine ⟨h.sized, fun i => ?_, fun x c' v hx => ?_, fun x i c' hx => ?_, fun x y k hx hy => ?_, fun x y k hx hy => ?_⟩
  · have := share_set i s t { s.threads t with pc := .nextClear c (s.indexer.load (c % s.indexer.size)) }
    have := h.once i
    simp only [share, loose, carried, hpc, set_indexer] at *
    omega
  · by_cases hxt : x = t
    · subst hxt
      simp only [set_self, Pc.nextClear.injEq] at hx
      obtain ⟨rfl, rfl⟩ := hx
      exact ⟨rfl, hv⟩
    · rw [set_ne hxt] at hx; exact h.clears x c' v hx
  · by_cases hxt : x = t
    · subst hxt; simp at hx
    · rw [set_ne hxt] at hx; exact h.fills x i c' hx
  · by_cases hk : c % s.indexer.size = k
    · subst hk
      exact alone_set (w := fun pc => clearsSlot s.indexer.size pc _) halone hx hy
    · have hw : clearsSlot s.indexer.size (.nextClear c (s.indexer.load (c % s.indexer.size))) k = false := by
        simpa [clearsSlot] using hk
      exact alone_of_set (w := fun pc => clearsSlot s.indexer.size pc k) (h.clearAlone · · k) hw hx hy
  · exact alone_of_set (w := fun pc => fillsSlot s.indexer.size pc k) (h.fillAlone · · k) rfl hx hy

/-- A `Return` finds its slot unused. -/
theorem Placed.ready {bits n} {s : State T} {t : T} {i c : Nat} (h : Placed bits n s)
    (hpc : (s.threads t).pc = .returnLoadSlot i c) (hv : s.indexer.load (c % s.indexer.size) = 0)
    (halone : ∀ u, fillsSlot s.indexer.size (s.threads u).pc (c % s.indexer.size) = false) :
    Placed bits n (s.set t { s.threads t with pc := .returnFill i c }) := by
  refine ⟨h.sized, fun j => ?_, fun x c' v hx => ?_, fun x j c' hx => ?_, fun x y k hx hy => ?_, fun x y k hx hy => ?_⟩
  · have := share_set j s t { s.threads t with pc := .returnFill i c }
    have := h.once j
    simp only [share, loose, carried, hpc, set_indexer] at *
    omega
  · by_cases hxt : x = t
    · subst hxt; simp at hx
    · rw [set_ne hxt] at hx; exact h.clears x c' v hx
  · by_cases hxt : x = t
    · subst hxt
      simp only [set_self, Pc.returnFill.injEq] at hx
      obtain ⟨rfl, rfl⟩ := hx
      exact hv
    · rw [set_ne hxt] at hx; exact h.fills x j c' hx
  · exact alone_of_set (w := fun pc => clearsSlot s.indexer.size pc k) (h.clearAlone · · k) rfl hx hy
  · by_cases hk : c % s.indexer.size = k
    · subst hk
      exact alone_set (w := fun pc => fillsSlot s.indexer.size pc _) halone hx hy
    · have hw : fillsSlot s.indexer.size (.returnFill i c) k = false := by simpa [fillsSlot] using hk
      exact alone_of_set (w := fun pc => fillsSlot s.indexer.size pc k) (h.fillAlone · · k) hw hx hy

/-- A `Next` clears its slot and hands out what it loaded. -/
theorem Placed.clear {bits n} {s : State T} {t : T} {c v : Nat} (h : Placed bits n s)
    (hpc : (s.threads t).pc = .nextClear c v) :
    Placed bits n ({ s with indexer := s.indexer.store (c % s.indexer.size) 0 }.set t
      { pc := .idle, held := (v - 1) :: (s.threads t).held }) := by
  have hk := h.sized.slot_lt c
  obtain ⟨hload, hv⟩ := h.clears t c v hpc
  have hmine : clearsSlot s.indexer.size (s.threads t).pc (c % s.indexer.size) = true :=
    clearsSlot_iff.2 ⟨c, v, hpc, rfl⟩
  have hmove : Move bits s.indexer false (.nextClear c v) _ _ _ := .nextClear
  refine ⟨hmove.sized h.sized, fun i => ?_, fun x c' v' hx => ?_,
    fun x i c' hx => ?_, fun x y k hx hy => ?_, fun x y k hx hy => ?_⟩
  · have hsum := share_set i { s with indexer := s.indexer.store (c % s.indexer.size) 0 } t
      { pc := .idle, held := (v - 1) :: (s.threads t).held }
    have hcount := Tally.count_set 0 (i + 1) hk
    have honce := h.once i
    have hstep : (if (v - 1 == i) = true then 1 else 0) = if v = i + 1 then 1 else 0 := by
      congr 1; simp only [beq_iff_eq, eq_iff_iff]; omega
    unfold load at hload
    simp only [share, loose, carried, hpc, set_indexer, store, List.count_cons, List.count_nil, hstep, hload,
      show ¬ 0 = i + 1 by omega, if_false] at *
    omega
  · obtain ⟨hxt, -⟩ := of_set (w := fun pc => clearsSlot s.indexer.size pc (c' % s.indexer.size))
      (clearsSlot_iff.2 ⟨c', v', hx, rfl⟩) rfl
    rw [set_ne hxt] at hx
    simp only [set_indexer, store_size]
    rw [load_store _ _ hk, if_neg]
    · exact h.clears x c' v' hx
    · intro he
      exact hxt (h.clearAlone x t _ (clearsSlot_iff.2 ⟨c', v', hx, he.symm⟩) hmine)
  · obtain ⟨hxt, -⟩ := of_set (w := fun pc => fillsSlot s.indexer.size pc (c' % s.indexer.size))
      (fillsSlot_iff.2 ⟨i, c', hx, rfl⟩) rfl
    rw [set_ne hxt] at hx
    simp only [set_indexer, store_size]
    rw [load_store _ _ hk]
    split
    · rfl
    · exact h.fills x i c' hx
  · exact alone_of_set (w := fun pc => clearsSlot s.indexer.size pc k) (h.clearAlone · · k) rfl hx hy
  · exact alone_of_set (w := fun pc => fillsSlot s.indexer.size pc k) (h.fillAlone · · k) rfl hx hy

/-- A `Return` fills its slot. -/
theorem Placed.fill {bits n} {s : State T} {t : T} {i c : Nat} (h : Placed bits n s)
    (hpc : (s.threads t).pc = .returnFill i c) :
    Placed bits n ({ s with indexer := s.indexer.store (c % s.indexer.size) ((i + 1) % 2 ^ bits) }.set t
      { pc := .idle, held := (s.threads t).held }) := by
  have hk := h.sized.slot_lt c
  have hload := h.fills t i c hpc
  have hi : i < n := h.lt (t := t) (by simp [share, loose, carried, hpc])
  have hmod := h.sized.index_mod hi
  have hmine : fillsSlot s.indexer.size (s.threads t).pc (c % s.indexer.size) = true :=
    fillsSlot_iff.2 ⟨i, c, hpc, rfl⟩
  have hmove : Move bits s.indexer false (.returnFill i c) _ _ _ := .returnFill
  rw [hmod]
  refine ⟨hmod ▸ hmove.sized h.sized, fun j => ?_,
    fun x c' v' hx => ?_, fun x j c' hx => ?_, fun x y k hx hy => ?_, fun x y k hx hy => ?_⟩
  · have hsum := share_set j { s with indexer := s.indexer.store (c % s.indexer.size) (i + 1) } t
      { pc := .idle, held := (s.threads t).held }
    have hcount := Tally.count_set (i + 1) (j + 1) hk
    have honce := h.once j
    unfold load at hload
    simp only [share, loose, carried, hpc, set_indexer, store, List.count_singleton, List.count_nil, beq_iff_eq, hload,
      show ¬ 0 = j + 1 by omega, if_false, Nat.add_right_cancel_iff] at *
    omega
  · obtain ⟨hxt, -⟩ := of_set (w := fun pc => clearsSlot s.indexer.size pc (c' % s.indexer.size))
      (clearsSlot_iff.2 ⟨c', v', hx, rfl⟩) rfl
    rw [set_ne hxt] at hx
    obtain ⟨hl, hv⟩ := h.clears x c' v' hx
    simp only [set_indexer, store_size]
    rw [load_store _ _ hk, if_neg]
    · exact ⟨hl, hv⟩
    · intro he; rw [← he, hload] at hl; exact hv hl.symm
  · obtain ⟨hxt, -⟩ := of_set (w := fun pc => fillsSlot s.indexer.size pc (c' % s.indexer.size))
      (fillsSlot_iff.2 ⟨j, c', hx, rfl⟩) rfl
    rw [set_ne hxt] at hx
    simp only [set_indexer, store_size]
    rw [load_store _ _ hk, if_neg]
    · exact h.fills x j c' hx
    · intro he
      exact hxt (h.fillAlone x t _ (fillsSlot_iff.2 ⟨j, c', hx, he.symm⟩) hmine)
  · exact alone_of_set (w := fun pc => clearsSlot s.indexer.size pc k) (h.clearAlone · · k) rfl hx hy
  · exact alone_of_set (w := fun pc => fillsSlot s.indexer.size pc k) (h.fillAlone · · k) rfl hx hy

/-- Every step whose waits end alone keeps the indices placed. -/
theorem Placed.step {bits n} {s s' : State T} {a : Act T} (h : Placed bits n s) (hown : Owned s a)
    (halone : SlotAlone s a) (hs : Step bits s a s') : Placed bits n s' := by
  cases a with
  | next | ret | give => exact h.call hown hs (by simp)
  | run t sp =>
    cases hs with
    | run hm =>
    rename_i ix' pc' hold
    have hsz := hm.sized h.sized
    simp only [SlotAlone] at halone
    generalize hpc : (s.threads t).pc = pc at hm halone
    cases hm.effect with
    | quiet hi hl hg hcl hfl =>
      refine h.quiet hsz hi (fun i => ?_) fun x => ?_
      · have := share_set i { s with indexer := ix' } t { pc := pc', held := gain hold ++ (s.threads t).held }
        simp only [share, hl, hg, hpc, List.nil_append] at this ⊢
        omega
      · by_cases hx : x = t
        · subst hx; rw [set_self]; exact .inr ⟨hcl, hfl⟩
        · rw [set_ne hx]; exact .inl rfl
    | grab hv => exact h.grab hpc hv (halone hv)
    | ready hv => exact h.ready hpc hv (halone hv)
    | clear => exact h.clear hpc
    | fill => exact h.fill hpc

/-! ## Every run -/

theorem placed_of_run {bits n : Nat} (hn : 0 < n) (hmax : 2 * n < 2 ^ bits) {tr : Trace (State T) (Act T)}
    {s : State T} (hr : (machine bits n T).Run tr s) (hown : Along Owned tr) (halone : Along SlotAlone tr) :
    Placed bits n s :=
  hr.invariant (Q := fun s a => Owned s a ∧ SlotAlone s a) (fun _ h => .init hn hmax h)
    (fun _ _ _ hi ha h => hi.step ha.1 ha.2 (step_cases h)) (along_and.2 ⟨hown, halone⟩)

/-- **Exclusive ownership.** In every run whose clients return only what they
hold and whose waits end alone, every index is in exactly one place: in one
slot and not read, held by one client, or carried by one call. -/
theorem run_copies {bits n : Nat} (hn : 0 < n) (hmax : 2 * n < 2 ^ bits) {tr : Trace (State T) (Act T)} {s : State T}
    (hr : (machine bits n T).Run tr s) (hown : Along Owned tr) (halone : Along SlotAlone tr) :
    ∀ i < n, copies s i = 1 :=
  fun _ hi => (placed_of_run hn hmax hr hown halone).copies hi

end

/-- `k` atomic operations of thread `t` in a row. -/
def runs {T : Type} (t : T) (k : Nat) : List (Act T) := List.replicate k (.run t false)

/-- A state of the machine at its start. -/
def initial {T : Type} (n : Nat) (M : Nat) : State T :=
  ⟨{ writePos := n, indices := slots n, size := 2 * n, maxPositionSize := M }, fun _ => {}⟩

/-- Threads `a` and `c` both claim slot 0, a lap apart, and both load index 0
from it: thread `b` takes and returns index 1 three times in between. -/
def lappedNext {T : Type} (a b c : T) : List (Act T) :=
  [.next a] ++ runs a 4 ++
  [.next b] ++ runs b 6 ++ [.ret b 1] ++ runs b 4 ++
  [.next b] ++ runs b 6 ++ [.ret b 1] ++ runs b 4 ++
  [.next b] ++ runs b 6 ++ [.ret b 1] ++ runs b 2 ++
  [.next c] ++ runs c 5 ++ runs a 2 ++ runs c 1

/-- **Two holders of one index**, in a pool of two: the clients keep their
contract, and threads 0 and 2 hold index 0. -/
theorem lapped_next : ∃ tr s, (machine 64 2 (Fin 3)).Run tr s ∧ Along Owned tr ∧
    (s.threads 0).held = [0] ∧ (s.threads 2).held = [0] ∧ copies s 0 = 2 := by
  have h := exists_run (m := machine 64 2 (Fin 3)) (s := initial 2 (2 ^ 64 - 4)) (l := lappedNext 0 1 2)
    (p := fun tr s => decide (Along Owned tr ∧ (s.threads 0).held = [0] ∧ (s.threads 2).held = [0] ∧
      copies s 0 = 2)) ⟨rfl, fun _ => rfl⟩ (by decide +kernel)
  simpa only [decide_eq_true_eq] using h

/-- A client of a pool of one takes its index, returns it and takes it again. -/
theorem run_copies_one : ∃ tr s, (machine 64 1 (Fin 1)).Run tr s ∧ tr.length = 19 ∧ copies s 0 = 1 := by
  have h := exists_run (m := machine 64 1 (Fin 1)) (s := initial 1 (2 ^ 64 - 2))
    (l := [.next 0] ++ runs 0 6 ++ [.ret 0 0] ++ runs 0 4 ++ [.next 0] ++ runs 0 6)
    (p := fun tr _ => decide (tr.length = 19 ∧ Along Owned tr ∧ Along SlotAlone tr)) ⟨rfl, fun _ => rfl⟩
    (by decide +kernel)
  obtain ⟨tr, s, hr, hp⟩ := h
  simp only [decide_eq_true_eq] at hp
  exact ⟨tr, s, hr, hp.1, run_copies (by decide) (by decide) hr hp.2.1 hp.2.2 0 (by decide)⟩

end Dxpool.Indexer
