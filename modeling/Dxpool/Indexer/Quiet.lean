/-
Calls on a quiet `ConcurrentIndexer`, where nobody is inside one. At each slot
the claims of `Next` and of `Return` stay matched: a used slot, and a `Return`
still to fill it, make up for one claim of `Return` more than `Next` has made
there; a `Next` still to clear it, for one less (`Matched`). So a `Return`
finds the slot of its position unused, as the laps before have been read.

A `Next` ends whatever it finds. A `Return` waits for ever where two `Next`
calls have read one index, and two `Return` calls have filled one slot
(`hangs`).
-/
import Dxpool.Indexer.Ring
import Dxpool.Indexer.Solo
import Mathlib.Data.Nat.Count

namespace Dxpool.Indexer

open ConcurrentIndexer Machine

/-- How many of the first `p` positions are at slot `k`. -/
def laps (size k p : Nat) : Nat := Nat.count (fun q => q % size = k) p

@[simp] theorem laps_zero (size k : Nat) : laps size k 0 = 0 := Nat.count_zero _

theorem laps_succ (size k p : Nat) : laps size k (p + 1) = laps size k p + if p % size = k then 1 else 0 :=
  Nat.count_succ _ _

/-- The first lap. -/
theorem laps_first {size k n : Nat} (hn : n ≤ size) : laps size k n = if k < n then 1 else 0 := by
  induction n with
  | zero => rfl
  | succ n ih =>
    rw [laps_succ, ih (by omega), Nat.mod_eq_of_lt (by omega)]
    by_cases hk : n = k
    · simp [hk]
    · by_cases hlt : k < n
      · rw [if_pos hlt, if_neg hk, if_pos (by omega)]
      · rw [if_neg hlt, if_neg hk, if_neg (by omega)]

/-- The positions before `w` at its own slot are a lap or more before it. -/
theorem laps_le {size w r : Nat} (h : w < r + size) : laps size (w % size) w ≤ laps size (w % size) r := by
  simp only [laps, Nat.count_eq_card_filter_range]
  refine Finset.card_le_card fun q hq => ?_
  simp only [Finset.mem_filter, Finset.mem_range] at hq ⊢
  obtain ⟨hlt, hmod⟩ := hq
  refine ⟨?_, hmod⟩
  by_contra hge
  have := eq_of_mod_eq hmod (by omega) (by omega)
  omega

section
variable {T : Type}

/-- Whether slot `k` is used. -/
def used (s : State T) (k : Nat) : Nat := if s.indexer.load k = 0 then 0 else 1

/-- Whether a call is to clear slot `k`. -/
def reader (size k : Nat) (p : Pc) : Nat := if readSlot size p = some k then 1 else 0

/-- Whether a call is to fill slot `k`. -/
def writer (size k : Nat) (p : Pc) : Nat := if (writeSlot size p).map Prod.snd = some k then 1 else 0

/-- The claims on each slot. -/
def Matched [Fintype T] (n : Nat) (tr : Trace (State T) (Act T)) (s : State T) : Prop :=
  ∀ k, used s k + ∑ t, writer s.indexer.size k (s.threads t).pc + laps s.indexer.size k (reads tr) =
    laps s.indexer.size k (n + (claims tr).length) + ∑ t, reader s.indexer.size k (s.threads t).pc

/-- Nobody is inside a call. -/
def Quiet (s : State T) : Prop := ∀ t, (s.threads t).pc = .idle

instance [Fintype T] (s : State T) : Decidable (Quiet s) := inferInstanceAs (Decidable (∀ _, _))

end

section
variable {size k : Nat} {p : Pc}

theorem reader_none (h : readSlot size p = none) : reader size k p = 0 := by simp [reader, h]

theorem reader_some {j : Nat} (h : readSlot size p = some j) : reader size k p = if j = k then 1 else 0 := by
  simp [reader, h]

theorem writer_none (h : writeSlot size p = none) : writer size k p = 0 := by simp [writer, h]

theorem writer_some {i j : Nat} (h : writeSlot size p = some (i, j)) :
    writer size k p = if j = k then 1 else 0 := by simp [writer, h]

end

section
variable {bits n : Nat} {T : Type} [Fintype T] {tr : Trace (State T) (Act T)} {s s' : State T}

/-- A step that claims nothing and leaves the slots and who is at them. -/
theorem Matched.quiet {a : Act T} (h : Matched n tr s) (hi : s'.indexer.indices = s.indexer.indices)
    (hsize : s'.indexer.size = s.indexer.size) (hr : readClaim s a = none) (hw : writeClaim s a = none)
    (hread : ∀ x, readSlot s.indexer.size (s'.threads x).pc = readSlot s.indexer.size (s.threads x).pc)
    (hwrite : ∀ x, writeSlot s.indexer.size (s'.threads x).pc = writeSlot s.indexer.size (s.threads x).pc) :
    Matched n ((s, a) :: tr) s' := by
  intro k
  have := h k
  simp only [used, load, reader, writer, hi, hsize, hread, hwrite, reads_none hr, claims_none hw] at this ⊢
  exact this

variable [DecidableEq T]

theorem Matched.init (hn : 0 < n) (hmax : 2 * n < 2 ^ bits) (h : (machine bits n T).init s) : Matched n [] s := by
  obtain ⟨hc, ht⟩ := h
  obtain ⟨-, -, hs, hsz⟩ := construct_ok hn hmax hc
  intro k
  have hsize := hsz.size
  have hload : s.indexer.load k = if k < n then k + 1 else 0 := by
    simp only [load, hs]
    exact slots_getD n k
  have hread : ∀ t, reader s.indexer.size k (s.threads t).pc = 0 := fun t => reader_none (by rw [ht]; rfl)
  have hwrite : ∀ t, writer s.indexer.size k (s.threads t).pc = 0 := fun t => writer_none (by rw [ht]; rfl)
  simp only [used, hload, hread, hwrite, reads, claims, log_nil, List.length_nil, Nat.add_zero, laps_zero,
    laps_first (show n ≤ s.indexer.size by omega), Finset.sum_const_zero]
  by_cases hk : k < n <;> simp [hk]

/-- A step that moves thread `t` on to `pc'`: what it claims, and what it does
to a slot and to who is at it, make up for each other. -/
theorem Matched.balance {a : Act T} {t : T} {pc' : Pc} (h : Matched n tr s) (hsize : s'.indexer.size = s.indexer.size)
    (hpc' : (s'.threads t).pc = pc') (hne : ∀ x, x ≠ t → s'.threads x = s.threads x)
    (hbal : ∀ k, used s' k + writer s.indexer.size k pc' + reader s.indexer.size k (s.threads t).pc +
        laps s.indexer.size k (reads ((s, a) :: tr)) + laps s.indexer.size k (n + (claims tr).length) =
      used s k + writer s.indexer.size k (s.threads t).pc + reader s.indexer.size k pc' +
        laps s.indexer.size k (reads tr) + laps s.indexer.size k (n + (claims ((s, a) :: tr)).length)) :
    Matched n ((s, a) :: tr) s' := by
  have hat : ∀ f : Pc → Nat, (∑ u, f (s'.threads u).pc) + f (s.threads t).pc = (∑ u, f (s.threads u).pc) + f pc' := by
    intro f
    rw [← hpc']
    exact Tally.sum_replace (f := fun u => f (s.threads u).pc) (Finset.mem_univ t) fun u _ hu => by rw [hne u hu]
  intro k
  have hk := h k
  have h₁ := hat (reader s.indexer.size k)
  have h₂ := hat (writer s.indexer.size k)
  have h₃ := hbal k
  rw [hsize]
  omega

/-- One operation of a thread inside a call. -/
theorem Matched.move {t : T} {sp ix' pc' hold} (h : Matched n tr s) (hp : Placed bits n s) (hpos : Positions bits n tr s)
    (hm : Move bits s.indexer sp (s.threads t).pc ix' pc' hold) (hix : s'.indexer = ix') (hpc' : (s'.threads t).pc = pc')
    (hne : ∀ x, x ≠ t → s'.threads x = s.threads x) : Matched n ((s, .run t sp) :: tr) s' := by
  have hquiet : ix'.indices = s.indexer.indices → ix'.size = s.indexer.size → readClaim s (.run t sp) = none →
      writeClaim s (.run t sp) = none → readSlot s.indexer.size pc' = readSlot s.indexer.size (s.threads t).pc →
      writeSlot s.indexer.size pc' = writeSlot s.indexer.size (s.threads t).pc → Matched n ((s, .run t sp) :: tr) s' := by
    intro hi hsize hr hw hrs hws
    exact h.quiet (by rw [hix, hi]) (by rw [hix, hsize]) hr hw (pc_congr hne (by rw [hpc']; exact hrs))
      (pc_congr hne (by rw [hpc']; exact hws))
  generalize hpc : (s.threads t).pc = pc at hm
  cases hm with
  | @nextClaim c hc hsp =>
    have hplace : c % s.indexer.size = reads tr % s.indexer.size := by
      rw [← hc]; exact hpos.read.place hpos.sized.dvd
    refine h.balance (by rw [hix]) hpc' hne fun k => ?_
    rw [reads_some (t := t) (by simp [readClaim, hpc, hc, hsp]), claims_none (by simp [writeClaim, hpc]), hpc,
      reader_none (p := .nextCas c) rfl, reader_some (p := .nextLoadSlot c) rfl, hplace,
      writer_none (p := .nextCas c) rfl, writer_none (p := .nextLoadSlot c) rfl]
    simp only [used, hix, load_readPos, laps_succ]
    omega
  | @returnClaim i c hc hsp =>
    have hplace : c % s.indexer.size = (n + (claims tr).length) % s.indexer.size := by
      rw [← hc]; exact hpos.write.place hpos.sized.dvd
    refine h.balance (by rw [hix]) hpc' hne fun k => ?_
    rw [reads_none (by simp [readClaim, hpc]), claims_some (e := (t, i)) (by simp [writeClaim, hpc, hc, hsp]), hpc,
      reader_none (p := .returnCas i c) rfl, reader_none (p := .returnLoadSlot i c) rfl,
      writer_none (p := .returnCas i c) rfl, writer_some (p := .returnLoadSlot i c) rfl, hplace]
    simp only [used, hix, load_writePos, List.length_append, List.length_singleton, ← Nat.add_assoc, laps_succ]
    omega
  | @nextClear c v =>
    obtain ⟨hload, hv⟩ := hp.clears t c v hpc
    refine h.balance (by rw [hix, store_size]) hpc' hne fun k => ?_
    rw [reads_none (by simp [readClaim, hpc]), claims_none (by simp [writeClaim, hpc]), hpc,
      reader_some (p := .nextClear c v) rfl, reader_none (p := .idle) rfl,
      writer_none (p := .nextClear c v) rfl, writer_none (p := .idle) rfl]
    simp only [used, hix, load_store 0 k (hpos.sized.slot_lt c)]
    by_cases hck : c % s.indexer.size = k
    · subst hck
      simp only [if_true, hload, if_neg hv]
    · simp only [if_neg hck]
  | @returnFill i c =>
    have hload := hp.fills t i c hpc
    have hi : i < n := hp.lt (t := t) (by simp [share, loose, carried, hpc])
    refine h.balance (by rw [hix, store_size]) hpc' hne fun k => ?_
    rw [reads_none (by simp [readClaim, hpc]), claims_none (by simp [writeClaim, hpc]), hpc,
      reader_none (p := .returnFill i c) rfl, reader_none (p := .idle) rfl,
      writer_some (p := .returnFill i c) rfl, writer_none (p := .idle) rfl]
    simp only [used, hix, load_store _ k (hpos.sized.slot_lt c), hpos.sized.index_mod hi]
    by_cases hck : c % s.indexer.size = k
    · subst hck
      simp only [if_true, hload, if_neg (Nat.succ_ne_zero i)]
    · simp only [if_neg hck]
  | nextClaimFail hc =>
    exact hquiet rfl rfl (readClaim_none fun c hpc' => by cases hpc.symm.trans hpc'; exact hc)
      (by simp [writeClaim, hpc]) (by rw [hpc]; rfl) (by rw [hpc]; rfl)
  | returnClaimFail hc =>
    exact hquiet rfl rfl (by simp [readClaim, hpc])
      (writeClaim_none fun i c hpc' => by cases hpc.symm.trans hpc'; exact hc) (by rw [hpc]; rfl) (by rw [hpc]; rfl)
  | _ =>
    exact hquiet rfl rfl (by simp [readClaim, hpc]) (by simp [writeClaim, hpc]) (by simp only [hpc, readSlot])
      (by simp only [hpc, writeSlot])

theorem Matched.step {a : Act T} (h : Matched n tr s) (hp : Placed bits n s) (hpos : Positions bits n tr s)
    (hs : Step bits s a s') : Matched n ((s, a) :: tr) s' := by
  cases hs with
  | @next t hpc =>
    obtain ⟨hr, hw⟩ := claims_call (s := s) (a := .next t) (by simp)
    exact h.quiet rfl rfl hr hw (pc_congr (fun _ => set_ne) (by simp [readSlot, hpc]))
      (pc_congr (fun _ => set_ne) (by simp [writeSlot, hpc]))
  | @ret t i hpc =>
    obtain ⟨hr, hw⟩ := claims_call (s := s) (a := .ret t i) (by simp)
    exact h.quiet rfl rfl hr hw (pc_congr (fun _ => set_ne) (by simp [readSlot, hpc]))
      (pc_congr (fun _ => set_ne) (by simp [writeSlot, hpc]))
  | @give t u i hne hi =>
    obtain ⟨hr, hw⟩ := claims_call (s := s) (a := .give t u i) (by simp)
    exact h.quiet rfl rfl hr hw (fun x => by rw [give_pc]) fun x => by rw [give_pc]
  | run hm => exact h.move hp hpos hm rfl (by rw [set_self]) fun x hx => set_ne hx

theorem matched_of_run (hn : 0 < n) (hmax : 2 * n < 2 ^ bits) (hr : (machine bits n T).Run tr s)
    (hown : Along Owned tr) (halone : Along SlotAlone tr) : Matched n tr s :=
  hr.invariantT (Q := fun s a => Owned s a ∧ SlotAlone s a) (fun _ h => .init hn hmax h)
    (fun _ _ _ _ hr hok hi _ h => hi.step (placed_of_run hn hmax hr (along_and.1 hok).1 (along_and.1 hok).2)
      (positions_of_run hn hmax hr) (step_cases h)) (along_and.2 ⟨hown, halone⟩)

/-! ## Calls that end -/

omit [Fintype T] in
/-- An operation of a thread inside a call is one of the call. -/
theorem step_alone {t : T} {b : Bool} {x : Call} (hix : s.indexer = x.indexer) (hpc : (s.threads t).pc = x.pc)
    (hx : x.returned = false) : ∃ s', step bits s (.run t b) = some s' ∧ s'.indexer = (x.advance bits b).indexer ∧
      (s'.threads t).pc = (x.advance bits b).pc := by
  have hne : x.pc ≠ .idle := of_decide_eq_false hx
  refine ⟨_, by rw [step, if_neg (hpc ▸ hne)], ?_, ?_⟩
  · rw [set_indexer, hix, hpc]; rfl
  · rw [set_self, hix, hpc]; rfl

/-- The call of thread `t` ends, if no other thread steps and its weak
compare-and-swaps fail finitely often. -/
def EndsAlone (bits n : Nat) (s : State T) (t : T) : Prop :=
  ∀ sp : Nat → Bool, (∃ N, ∀ k, N ≤ k → sp k = false) →
    (machine bits n T).Ends (fun s => (s.threads t).pc = .idle) s fun k => .run t (sp k)

/-- Every call ends that a client can make: a `Next`, or a `Return` of an index it holds. -/
def CallsEnd (bits n : Nat) (s : State T) : Prop :=
  ∀ t a s₁, (a = .next t ∨ ∃ i ∈ (s.threads t).held, a = .ret t i) → (machine bits n T).step s a = some s₁ →
    EndsAlone bits n s₁ t

omit [Fintype T] in
theorem endsAlone_of_progress {t : T} {I : Call → Prop} {μ : Call → Nat} {pc : Pc}
    (h : Progress (Call.advance bits) Call.returned I μ) (hpc : (s.threads t).pc = pc)
    (hI : I ⟨s.indexer, pc, none⟩) : EndsAlone bits n s t := by
  rintro sp ⟨N, hsp⟩
  refine h.ends (R := fun (s : State T) (x : Call) => s.indexer = x.indexer ∧ (s.threads t).pc = x.pc)
    (a := fun b => Act.run t b)
    (fun hR hx => step_alone hR.1 hR.2 hx) (fun hR hx => ?_) hsp ⟨rfl, hpc⟩ hI
  rw [hR.2]
  exact of_decide_eq_true hx

omit [DecidableEq T] in
/-- The slot of the next position to write at: every lap before has been read. -/
theorem Matched.unused (h : Matched n tr s) (hpos : Positions bits n tr s) (hlag : (claims tr).length ≤ reads tr)
    (hquiet : Quiet s) : s.indexer.load (s.indexer.writePos % s.indexer.size) = 0 := by
  have hk := h (s.indexer.writePos % s.indexer.size)
  have hsize := hpos.sized.size
  have hn := hpos.sized.pos
  have hread : ∀ t k, reader s.indexer.size k (s.threads t).pc = 0 := fun t k => reader_none (by rw [hquiet t]; rfl)
  have hwrite : ∀ t k, writer s.indexer.size k (s.threads t).pc = 0 := fun t k => writer_none (by rw [hquiet t]; rfl)
  have hlt : n + (claims tr).length < reads tr + s.indexer.size := by omega
  have hle := laps_le hlt
  rw [← hpos.write.place hpos.sized.dvd] at hle
  simp only [hread, hwrite, Finset.sum_const_zero, used] at hk
  by_contra hne
  rw [if_neg hne] at hk
  omega

/-- **No call hangs** on an indexer that came to be quiet with every busy wait
ended alone. -/
theorem run_ends (hn : 0 < n) (hbits : n < 2 ^ bits) (hr : (machine bits n T).Run tr s) (hown : Along Owned tr)
    (halone : Along SlotAlone tr) (hquiet : Quiet s) : CallsEnd bits n s := by
  have hmax : 2 * n < 2 ^ bits := by
    obtain ⟨s₀, h₀⟩ := hr.starts
    exact construct_lt hn hbits h₀.1
  have hpos := positions_of_run hn hmax hr
  have hM : 0 < s.indexer.maxPositionSize := by
    have := hpos.sized.size
    have := hpos.sized.le
    omega
  rintro t a s₁ (rfl | ⟨i, -, rfl⟩) hstep
  · cases step_cases (show step bits s (.next t) = some s₁ from hstep) with
    | next => exact endsAlone_of_progress (next_progress hM) (by rw [set_self]) (.loadRead (.inl rfl))
  · have hunused := (matched_of_run hn hmax hr hown halone).unused hpos (claims_le hr hown) hquiet
    cases step_cases (show step bits s (.ret t i) = some s₁ from hstep) with
    | ret =>
      exact endsAlone_of_progress (return_progress hM hpos.sized.dvd hunused) (by rw [set_self]) (.loadWrite (.inl rfl))

end

/-- One thread takes the index while another finds none, and then a third call
finds the ring quiet. -/
theorem run_ends_one : ∃ tr s, (machine 64 1 (Fin 2)).Run tr s ∧ (s.threads 0).held = [0] ∧ reads tr = 2 ∧
    CallsEnd 64 1 s := by
  have h := exists_run (m := machine 64 1 (Fin 2)) (s := initial 1 (2 ^ 64 - 2))
    (l := [.next 0] ++ runs 0 2 ++ [.next 1] ++ runs 1 5 ++ runs 0 2 ++ runs 1 1 ++ runs 0 2 ++ [.ret 1 0] ++
      runs 1 4 ++ [.next 0] ++ runs 0 6)
    (p := fun tr s => decide (Along Owned tr ∧ Along SlotAlone tr ∧ Quiet s ∧ (s.threads 0).held = [0] ∧ reads tr = 2))
    ⟨rfl, fun _ => rfl⟩ (by decide +kernel)
  obtain ⟨tr, s, hr, hp⟩ := h
  simp only [decide_eq_true_eq] at hp
  obtain ⟨hown, halone, hquiet, hheld, hreads⟩ := hp
  exact ⟨tr, s, hr, hheld, hreads, run_ends (by decide) (by decide) hr hown halone hquiet⟩

/-! ## A call that hangs -/

/-- Thread `t` returns index `i` and is to write at position `w`, whose slot is used. -/
inductive Waits {T : Type} (t : T) (i w : Nat) (s : State T) : Prop
  | loadWrite : (s.threads t).pc = .returnLoadWrite i → s.indexer.writePos = w → w ≠ s.indexer.maxPositionSize →
      s.indexer.load (w % s.indexer.size) ≠ 0 → Waits t i w s
  | cas : (s.threads t).pc = .returnCas i w → s.indexer.writePos = w → s.indexer.load (w % s.indexer.size) ≠ 0 →
      Waits t i w s
  | loadSlot : (s.threads t).pc = .returnLoadSlot i w → s.indexer.load (w % s.indexer.size) ≠ 0 → Waits t i w s

theorem Waits.step {bits : Nat} {T : Type} [DecidableEq T] {t : T} {i w : Nat} {s s' : State T} (h : Waits t i w s)
    (hs : step bits s (.run t false) = some s') : Waits t i w s' := by
  cases h with
  | loadWrite hpc hw hM hload =>
    simp only [Indexer.step, hpc, advance, hw, if_neg hM, reduceCtorEq, if_false, Option.some.injEq] at hs
    subst hs
    exact .cas (by rw [set_self]) hw hload
  | cas hpc hw hload =>
    simp only [Indexer.step, hpc, advance, hw, true_and, if_true, reduceCtorEq, if_false, Option.some.injEq] at hs
    subst hs
    exact .loadSlot (by rw [set_self]) hload
  | loadSlot hpc hload =>
    simp only [Indexer.step, hpc, advance, if_neg hload, reduceCtorEq, if_false, Option.some.injEq] at hs
    subst hs
    exact .loadSlot (by rw [set_self]) hload

/-- A `Return` whose position has a used slot waits for another thread. -/
theorem Waits.not_ends {bits n : Nat} {T : Type} [DecidableEq T] {t : T} {i w : Nat} {s : State T} (h : Waits t i w s) :
    ¬EndsAlone bits n s t := by
  intro hends
  refine absurd (hends (fun _ => false) ⟨0, fun _ _ => rfl⟩) (Ends.not_of_stuck (P := Waits t i w) (fun hw hpc => ?_)
    (fun hw hs => hw.step hs) h)
  cases hw with
  | loadWrite h | cas h | loadSlot h => rw [hpc] at h; cases h

/-- After two `Next` calls have read index 0 at once, both holders return it
and take indices again, in turn: the ring of four slots is left with index 1
in slot 0, a lap behind. -/
def staleSlot {T : Type} (a b c : T) : List (Act T) :=
  lappedNext a b c ++ runs b 2 ++ [.ret a 0] ++ runs a 4 ++ [.ret c 0] ++ runs c 4 ++
  [.next a] ++ runs a 6 ++ [.next c] ++ runs c 6 ++ [.ret a 0] ++ runs a 4

/-- **A hang**: no thread is inside a call, and thread 2 waits for ever when it
returns the index it holds. -/
theorem hangs : ∃ tr s, (machine 64 2 (Fin 3)).Run tr s ∧ Along Owned tr ∧ Quiet s ∧ ¬CallsEnd 64 2 s := by
  have h := exists_run (m := machine 64 2 (Fin 3)) (s := initial 2 (2 ^ 64 - 4)) (l := staleSlot 0 1 2)
    (p := fun tr s => decide (Along Owned tr ∧ Quiet s ∧ 0 ∈ (s.threads 2).held ∧ s.indexer.writePos = 8 ∧
      s.indexer.maxPositionSize = 2 ^ 64 - 4 ∧ s.indexer.load (8 % s.indexer.size) ≠ 0)) ⟨rfl, fun _ => rfl⟩
    (by decide +kernel)
  obtain ⟨tr, s, hr, hp⟩ := h
  simp only [decide_eq_true_eq] at hp
  obtain ⟨hown, hquiet, hheld, hw, hM, hload⟩ := hp
  refine ⟨tr, s, hr, hown, hquiet, fun hends => ?_⟩
  have hstep : (machine 64 2 (Fin 3)).step s (.ret 2 0) = some _ := if_pos (hquiet 2)
  have hwaits : Waits 2 0 8 (s.set 2 { pc := .returnLoadWrite 0, held := (s.threads 2).held.erase 0 }) :=
    .loadWrite (by rw [set_self]) hw (by rw [set_indexer, hM]; decide) hload
  exact hwaits.not_ends (hends 2 _ _ (.inr ⟨0, hheld, rfl⟩) hstep)

end Dxpool.Indexer
