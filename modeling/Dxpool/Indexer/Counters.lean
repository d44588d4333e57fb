/-
The order in which the counters address the slots, and how far apart they are.

Whatever is delayed and wrapped, the `k`-th claim of `Next` addresses the slot
`k` places round the ring, and that of `Return` the slot `n + k` places round
(`run_cyclic`); that slot is the one that the call then loads and stores to
(`Follows`). Before the first wrap, `readPos` never passes `writePos`, and
`writePos` is at most `n` ahead (`run_bounded`), by the counters alone: a
stale copy of `readPos` is a lower bound for it, and one that was seen below
`writePos` stays below it (`Unwrapped`).
-/
import Dxpool.Indexer.Ring

namespace Dxpool.Indexer

open ConcurrentIndexer Machine

section
variable {T : Type}

/-- The slot that a claim of `Next` addresses. -/
def readPlace (s : State T) : Act T → Option Nat
  | .run t sp =>
    match (s.threads t).pc with
    | .nextCas c => if s.indexer.readPos = c ∧ sp = false then some (c % s.indexer.size) else none
    | _ => none
  | _ => none

/-- The slot that a claim of `Return` addresses. -/
def writePlace (s : State T) : Act T → Option Nat
  | .run t sp =>
    match (s.threads t).pc with
    | .returnCas _ c => if s.indexer.writePos = c ∧ sp = false then some (c % s.indexer.size) else none
    | _ => none
  | _ => none

theorem readPlace_eq (s : State T) (a : Act T) :
    readPlace s a = (readClaim s a).map fun _ => s.indexer.readPos % s.indexer.size := by
  cases a with
  | run t sp =>
    unfold readPlace readClaim
    simp only
    cases (s.threads t).pc with
    | nextCas c =>
      by_cases h : s.indexer.readPos = c ∧ sp = false
      · simp [h]
      · simp [if_neg h]
    | _ => rfl
  | _ => rfl

theorem writePlace_eq (s : State T) (a : Act T) :
    writePlace s a = (writeClaim s a).map fun _ => s.indexer.writePos % s.indexer.size := by
  cases a with
  | run t sp =>
    unfold writePlace writeClaim
    simp only
    cases (s.threads t).pc with
    | returnCas i c =>
      by_cases h : s.indexer.writePos = c ∧ sp = false
      · simp [h]
      · simp [if_neg h]
    | _ => rfl
  | _ => rfl

variable [DecidableEq T] {bits n : Nat} {tr : Trace (State T) (Act T)} {s : State T}

/-- The places of the claims of thread `t`. -/
def byThread (place : State T → Act T → Option Nat) (t : T) (s : State T) : Act T → Option Nat
  | .run u sp => if u = t then place s (.run u sp) else none
  | .next _ | .ret _ _ | .give _ _ _ => none

/-- A call past its claim is at the slot that its thread claimed last, and it changes no other. -/
structure Follows (bits : Nat) (tr : Trace (State T) (Act T)) (s : State T) : Prop where
  read : ∀ t k, readSlot s.indexer.size (s.threads t).pc = some k → (log (byThread readPlace t) tr).getLast? = some k
  write : ∀ t i k, writeSlot s.indexer.size (s.threads t).pc = some (i, k) →
    (log (byThread writePlace t) tr).getLast? = some k
  store : ∀ t sp s' k, step bits s (.run t sp) = some s' → s'.indexer.load k ≠ s.indexer.load k →
    (log (byThread readPlace t) tr).getLast? = some k ∨ (log (byThread writePlace t) tr).getLast? = some k

/-! ## Past the claim -/

section
variable {ix ix' : ConcurrentIndexer} {sp : Bool} {pc pc' : Pc} {h : Option IndexHolder} {k : Nat}

/-- A store is to the slot of a call past its claim. -/
theorem Move.stores (hm : Move bits ix sp pc ix' pc' h) (hk : ix'.load k ≠ ix.load k) :
    Indexer.readSlot ix.size pc = some k ∨ ∃ i, Indexer.writeSlot ix.size pc = some (i, k) := by
  have hstore : ∀ {j v}, (ix.store j v).load k ≠ ix.load k → j = k := by
    intro j v hne
    by_contra hjk
    exact hne (by simp only [load, store, List.getD_eq_getElem?_getD, List.getElem?_set_ne hjk])
  cases hm with
  | nextClear => exact .inl (congrArg some (hstore hk))
  | @returnFill i c => exact .inr ⟨i, by rw [Indexer.writeSlot, hstore hk]⟩
  | _ => exact absurd rfl hk

end

/-- Where each claim puts its thread, and no other step of it moves it, it is at the place
of its last claim. -/
theorem last_of_run {place : State T → Act T → Option Nat} (slot : Pc → Option Nat) (hidle : slot .idle = none)
    (hnext : slot .nextLoadRead = none) (hret : ∀ i, slot (.returnLoadWrite i) = none)
    (hmove : ∀ {tr s t sp ix' pc' h}, (machine bits n T).Run tr s → Move bits s.indexer sp (s.threads t).pc ix' pc' h →
      ∀ k, slot pc' = some k → slot (s.threads t).pc = some k ∧ place s (.run t sp) = none ∨ place s (.run t sp) = some k)
    (hr : (machine bits n T).Run tr s) :
    ∀ t k, slot (s.threads t).pc = some k → (log (byThread place t) tr).getLast? = some k := by
  induction hr with
  | init h =>
    intro t k hk
    rw [h.2, hidle] at hk
    cases hk
  | @step tr s a s' hr hs ih =>
    intro x k hk
    cases step_cases hs with
    | next | ret =>
      rw [log_none rfl]
      exact ih x k (pc_none (fun _ => set_ne) (by rw [set_self]; first | exact hnext | exact hret _) hk).2
    | give =>
      rw [give_pc] at hk
      rw [log_none rfl]
      exact ih x k hk
    | @run t sp ix' pc' h hm =>
      by_cases hxt : x = t
      · subst hxt
        rw [set_self] at hk
        rcases hmove hr hm k hk with ⟨hold, hnone⟩ | hplace
        · rw [log_none (by rw [byThread, if_pos rfl, hnone])]
          exact ih x k hold
        · rw [log_some (by rw [byThread, if_pos rfl, hplace]), List.getLast?_append, List.getLast?_singleton, Option.some_or]
      · rw [set_ne hxt] at hk
        rw [log_none (by rw [byThread, if_neg (Ne.symm hxt)])]
        exact ih x k hk

theorem follows_of_run (hn : 0 < n) (hmax : 2 * n < 2 ^ bits) (hr : (machine bits n T).Run tr s) : Follows bits tr s := by
  have hsize : ∀ {tr s}, (machine bits n T).Run tr s → s.indexer.size = 2 * n := fun hr =>
    (positions_of_run hn hmax hr).sized.size
  have hread : ∀ t k, readSlot s.indexer.size (s.threads t).pc = some k →
      (log (byThread readPlace t) tr).getLast? = some k := by
    rw [hsize hr]
    refine last_of_run (readSlot (2 * n)) rfl rfl (fun _ => rfl) (fun hr hm k hk => ?_) hr
    rw [← hsize hr] at hk ⊢
    rcases hm.readSlot hk with ⟨hold, hno⟩ | ⟨c, hc, hclaim, hplace⟩
    · exact .inl ⟨hold, by simp only [readPlace]⟩
    · exact .inr (by simp only [readPlace, hc, if_pos hclaim, hplace])
  have hwrite : ∀ t i k, writeSlot s.indexer.size (s.threads t).pc = some (i, k) →
      (log (byThread writePlace t) tr).getLast? = some k := by
    have hlast : ∀ t k, (writeSlot s.indexer.size (s.threads t).pc).map Prod.snd = some k →
        (log (byThread writePlace t) tr).getLast? = some k := by
      rw [hsize hr]
      refine last_of_run (fun pc => (writeSlot (2 * n) pc).map Prod.snd) rfl rfl (fun _ => rfl)
        (fun hr hm k hk => ?_) hr
      rw [← hsize hr] at hk ⊢
      obtain ⟨⟨i, _⟩, hslot, rfl⟩ := Option.map_eq_some_iff.1 hk
      rcases hm.writeSlot hslot with ⟨hold, hno⟩ | ⟨c, hc, hclaim, hplace⟩
      · exact .inl ⟨by rw [hold]; rfl, by simp only [writePlace]⟩
      · exact .inr (by simp only [writePlace, hc, if_pos hclaim, hplace])
    exact fun t i k hk => hlast t k (by rw [hk]; rfl)
  refine ⟨hread, hwrite, fun t sp s' k hs hk => ?_⟩
  cases step_cases hs with
  | run hm =>
    rcases hm.stores hk with hslot | ⟨i, hslot⟩
    · exact .inl (hread t k hslot)
    · exact .inr (hwrite t i k hslot)

/-! ## Round the ring -/

theorem readPlaces_of_run (hn : 0 < n) (hmax : 2 * n < 2 ^ bits) (hr : (machine bits n T).Run tr s) :
    log readPlace tr = (List.range (reads tr)).map (· % (2 * n)) := by
  induction hr with
  | init => rfl
  | @step tr s a s' hr hs ih =>
    have hpos := positions_of_run hn hmax hr
    cases hc : readClaim s a with
    | none => rw [reads_none hc, log_none (by rw [readPlace_eq, hc]; rfl), ih]
    | some t =>
      have hplace := hpos.read.place hpos.sized.dvd
      rw [reads_some hc, log_some (by rw [readPlace_eq, hc]; rfl), ih, List.range_succ, List.map_append, hplace,
        hpos.sized.size]
      rfl

theorem writePlaces_of_run (hn : 0 < n) (hmax : 2 * n < 2 ^ bits) (hr : (machine bits n T).Run tr s) :
    log writePlace tr = (List.range (claims tr).length).map fun k => (n + k) % (2 * n) := by
  induction hr with
  | init => rfl
  | @step tr s a s' hr hs ih =>
    have hpos := positions_of_run hn hmax hr
    cases hc : writeClaim s a with
    | none => rw [claims_none hc, log_none (by rw [writePlace_eq, hc]; rfl), ih]
    | some e =>
      have hplace := hpos.write.place hpos.sized.dvd
      rw [claims_some hc, log_some (by rw [writePlace_eq, hc]; rfl), ih, List.length_append, List.length_singleton,
        List.range_succ, List.map_append, hplace, hpos.sized.size]
      rfl

/-- **Exact cyclic order.** The counters stay within the largest position, no
counter value that a call is about to advance is the largest of its width,
the claims of `Next` address the slots `0, 1, 2, ..` round the ring, and the
claims of `Return` the slots `n, n + 1, ..`; these are the slots that the calls
then load and store to. -/
theorem run_cyclic (hn : 0 < n) (hmax : 2 * n < 2 ^ bits) (hr : (machine bits n T).Run tr s) :
    s.indexer.readPos ≤ s.indexer.maxPositionSize ∧ s.indexer.writePos ≤ s.indexer.maxPositionSize ∧
    (∀ t c, localPos (s.threads t).pc = some c → c + 1 < 2 ^ bits) ∧
    log readPlace tr = (List.range (reads tr)).map (· % (2 * n)) ∧
    log writePlace tr = ((List.range (claims tr).length).map fun k => (n + k) % (2 * n)) ∧ Follows bits tr s := by
  have hpos := positions_of_run hn hmax hr
  refine ⟨hpos.read.le, hpos.write.le, fun t c hc => ?_, readPlaces_of_run hn hmax hr, writePlaces_of_run hn hmax hr,
    follows_of_run hn hmax hr⟩
  have hlt := hpos.below t c hc
  have hM := hpos.sized.lt
  omega

/-- Counters of two bits, which both wrap, `readPos` while another `Next` is
about to wrap it as well. -/
theorem run_cyclic_wrap : ∃ tr s, (machine 2 1 (Fin 2)).Run tr s ∧ reads tr = 3 ∧ s.indexer.readPos = 1 ∧
    (s.threads 1).pc = .nextWrapLoad ∧ log readPlace tr = [0, 1, 0] ∧ log writePlace tr = [1, 0] := by
  have h := exists_run (m := machine 2 1 (Fin 2)) (s := initial 1 2)
    (l := [.next 0] ++ runs 0 6 ++ [.ret 0 0] ++ runs 0 4 ++ [.next 0] ++ runs 0 6 ++ [.next 1] ++ runs 1 2 ++
      [.ret 0 0] ++ runs 0 7 ++ [.next 0] ++ runs 0 9 ++ runs 1 1)
    (p := fun tr s => decide (reads tr = 3 ∧ (claims tr).length = 2 ∧ s.indexer.readPos = 1 ∧
      (s.threads 1).pc = .nextWrapLoad)) ⟨rfl, fun _ => rfl⟩ (by decide +kernel)
  obtain ⟨tr, s, hr, hp⟩ := h
  simp only [decide_eq_true_eq] at hp
  obtain ⟨hreads, hclaims, hpos, hpc⟩ := hp
  obtain ⟨-, -, -, hread, hwrite, -⟩ := run_cyclic (by decide) (by decide) hr
  rw [hreads] at hread
  rw [hclaims] at hwrite
  exact ⟨tr, s, hr, hreads, hpos, hpc, hread, hwrite⟩

/-! ## Before the first wrap -/

/-- The copy of `readPos` that a `Next` holds. -/
def curReadPos : Pc → Option Nat
  | .nextLoadWrite c | .nextCheckSlot c | .nextCas c => some c
  | _ => none

/-- The copy of `readPos` that a `Next` has compared with `writePos`. -/
def comparedPos : Pc → Option Nat
  | .nextCheckSlot c | .nextCas c => some c
  | _ => none

theorem Move.curReadPos {ix ix' : ConcurrentIndexer} {sp pc pc' h} (hm : Move bits ix sp pc ix' pc' h) {c : Nat}
    (hc : curReadPos pc' = some c) : Indexer.curReadPos pc = some c ∨ c = ix.readPos := by
  cases hm <;> simp_all [Indexer.curReadPos]

theorem Move.comparedPos {ix ix' : ConcurrentIndexer} {sp pc pc' h} (hm : Move bits ix sp pc ix' pc' h) {c : Nat}
    (hc : comparedPos pc' = some c) :
    Indexer.comparedPos pc = some c ∨ Indexer.curReadPos pc = some c ∧ c ≠ ix.writePos := by
  cases hm <;> simp_all [Indexer.curReadPos, Indexer.comparedPos]

/-- No counter was set back, and every copy of `readPos` is behind it; if it
was compared, behind `writePos` for good. -/
structure Unwrapped (n : Nat) (tr : Trace (State T) (Act T)) (s : State T) : Prop where
  read : s.indexer.readPos = reads tr
  write : s.indexer.writePos = n + (claims tr).length
  ordered : s.indexer.readPos ≤ s.indexer.writePos
  stale : ∀ t c, curReadPos (s.threads t).pc = some c → c ≤ s.indexer.readPos
  compared : ∀ t c, comparedPos (s.threads t).pc = some c → c < s.indexer.writePos

theorem Unwrapped.init {s : State T} (hn : 0 < n) (hmax : 2 * n < 2 ^ bits) (h : (machine bits n T).init s) :
    Unwrapped n [] s := by
  obtain ⟨hc, ht⟩ := h
  obtain ⟨hr, hw, -, -⟩ := construct_ok hn hmax hc
  exact ⟨hr, hw, by omega, by simp [ht, curReadPos], by simp [ht, comparedPos]⟩

section
variable {s s' : State T} {a : Act T}

omit [DecidableEq T] in
/-- A step that sets no counter back. -/
theorem Unwrapped.forward (h : Unwrapped n tr s) (hread : s'.indexer.readPos = reads ((s, a) :: tr))
    (hwrite : s'.indexer.writePos = n + (claims ((s, a) :: tr)).length)
    (hordered : s'.indexer.readPos ≤ s'.indexer.writePos) (hreadLe : s.indexer.readPos ≤ s'.indexer.readPos)
    (hwriteLe : s.indexer.writePos ≤ s'.indexer.writePos)
    (hstale : ∀ t c, curReadPos (s'.threads t).pc = some c →
      curReadPos (s.threads t).pc = some c ∨ c = s.indexer.readPos)
    (hcompared : ∀ t c, comparedPos (s'.threads t).pc = some c →
      comparedPos (s.threads t).pc = some c ∨ curReadPos (s.threads t).pc = some c ∧ c ≠ s.indexer.writePos) :
    Unwrapped n ((s, a) :: tr) s' := by
  refine ⟨hread, hwrite, hordered, fun t c hc => ?_, fun t c hc => ?_⟩
  · rcases hstale t c hc with hold | rfl
    · exact (h.stale t c hold).trans hreadLe
    · exact hreadLe
  · rcases hcompared t c hc with hold | ⟨hold, hne⟩
    · exact (h.compared t c hold).trans_le hwriteLe
    · have := h.stale t c hold
      have := h.ordered
      omega

omit [DecidableEq T] in
/-- A step that claims nothing. -/
theorem Unwrapped.quiet (h : Unwrapped n tr s) (hr : readClaim s a = none)
    (hw : writeClaim s a = none) (hread : s'.indexer.readPos = s.indexer.readPos)
    (hwrite : s'.indexer.writePos = s.indexer.writePos)
    (hstale : ∀ t c, curReadPos (s'.threads t).pc = some c →
      curReadPos (s.threads t).pc = some c ∨ c = s.indexer.readPos)
    (hcompared : ∀ t c, comparedPos (s'.threads t).pc = some c →
      comparedPos (s.threads t).pc = some c ∨ curReadPos (s.threads t).pc = some c ∧ c ≠ s.indexer.writePos) :
    Unwrapped n ((s, a) :: tr) s' := by
  refine h.forward ?_ ?_ ?_ hread.ge hwrite.ge hstale hcompared
  · rw [reads_none hr, hread, h.read]
  · rw [claims_none hw, hwrite, h.write]
  · rw [hread, hwrite]; exact h.ordered

theorem Unwrapped.step (h : Unwrapped n tr s) (hpos : Positions bits n tr s)
    (hlag : (claims tr).length ≤ reads tr) (hfew : reads tr + n < s.indexer.maxPositionSize) (hs : Step bits s a s') :
    Unwrapped n ((s, a) :: tr) s' := by
  have hread := h.read
  have hwrite := h.write
  have hordered := h.ordered
  have hlt := hpos.sized.lt
  cases hs with
  | @next t hpc =>
    obtain ⟨hr, hw⟩ := claims_call (s := s) (a := .next t) (by simp)
    exact h.quiet hr hw rfl rfl (fun x c hx => .inl (pc_none (fun _ => set_ne) (by rw [set_self]; rfl) hx).2)
      fun x c hx => .inl (pc_none (fun _ => set_ne) (by rw [set_self]; rfl) hx).2
  | @ret t i hpc =>
    obtain ⟨hr, hw⟩ := claims_call (s := s) (a := .ret t i) (by simp)
    exact h.quiet hr hw rfl rfl (fun x c hx => .inl (pc_none (fun _ => set_ne) (by rw [set_self]; rfl) hx).2)
      fun x c hx => .inl (pc_none (fun _ => set_ne) (by rw [set_self]; rfl) hx).2
  | @give t u i hne hi =>
    obtain ⟨hr, hw⟩ := claims_call (s := s) (a := .give t u i) (by simp)
    refine h.quiet hr hw rfl rfl (fun x c hx => ?_) fun x c hx => ?_
    · rw [give_pc] at hx; exact .inl hx
    · rw [give_pc] at hx; exact .inl hx
  | @run t sp ix' pc' hold hm =>
    generalize hs' : ({ s with indexer := ix' } : State T).set t { pc := pc', held := gain hold ++ (s.threads t).held } = s'
    have hix : s'.indexer = ix' := by rw [← hs']; rfl
    have hpc' : (s'.threads t).pc = pc' := by rw [← hs', set_self]
    have hne : ∀ x, x ≠ t → s'.threads x = s.threads x := fun x hx => by rw [← hs', set_ne hx]
    have hstale : ∀ x c, curReadPos (s'.threads x).pc = some c →
        curReadPos (s.threads x).pc = some c ∨ c = s.indexer.readPos := fun x c hx =>
      pc_or (P := fun _ c => c = s.indexer.readPos) hne (fun c hc => hm.curReadPos (hpc' ▸ hc)) hx
    have hcompared : ∀ x c, comparedPos (s'.threads x).pc = some c → comparedPos (s.threads x).pc = some c ∨
        curReadPos (s.threads x).pc = some c ∧ c ≠ s.indexer.writePos := fun x c hx =>
      pc_or (P := fun x c => curReadPos (s.threads x).pc = some c ∧ c ≠ s.indexer.writePos) hne
        (fun c hc => hm.comparedPos (hpc' ▸ hc)) hx
    generalize hpc : (s.threads t).pc = pc at hm
    cases hm.ticks with
    | still hr hw hnr hnw htok =>
      exact h.quiet (readClaim_none fun c hc => hnr c (hpc ▸ hc)) (writeClaim_none fun i c hc => hnw i c (hpc ▸ hc))
        (by rw [hix, hr]) (by rw [hix, hw]) hstale hcompared
    | wrapRead hmax => omega
    | wrapWrite hmax => omega
    | @claimRead c hc hsp =>
      have hcmp : c < s.indexer.writePos := h.compared t c (by rw [hpc]; rfl)
      have hnext : s'.indexer.readPos = s.indexer.readPos + 1 := by
        rw [hix, hc]; exact Nat.mod_eq_of_lt (by omega)
      have hsame : s'.indexer.writePos = s.indexer.writePos := by rw [hix]
      refine h.forward ?_ ?_ (by omega) (by omega) hsame.ge hstale hcompared
      · rw [reads_some (t := t) (by simp [readClaim, hpc, hc, hsp]), hnext, hread]
      · rw [claims_none (by simp [writeClaim, hpc]), hsame, hwrite]
    | @claimWrite i c hc hsp =>
      have hnext : s'.indexer.writePos = s.indexer.writePos + 1 := by
        rw [hix, hc]; exact Nat.mod_eq_of_lt (by omega)
      have hsame : s'.indexer.readPos = s.indexer.readPos := by rw [hix]
      refine h.forward ?_ ?_ (by omega) hsame.ge (by omega) hstale hcompared
      · rw [reads_none (by simp [readClaim, hpc]), hsame, hread]
      · rw [claims_some (e := (t, i)) (by simp [writeClaim, hpc, hc, hsp]), hnext, hwrite, List.length_append,
          List.length_singleton, Nat.add_assoc]

end

/-- The ring and its largest position are what the constructor made them. -/
theorem Step.maxPositionSize {s' : State T} {a : Act T} (hs : Step bits s a s') :
    s'.indexer.maxPositionSize = s.indexer.maxPositionSize := by
  cases hs with
  | run hm => exact hm.maxPositionSize
  | _ => rfl

omit [DecidableEq T] in
theorem reads_le {s : State T} {a : Act T} : reads tr ≤ reads ((s, a) :: tr) := by
  cases hc : readClaim s a with
  | none => rw [reads_none hc]
  | some t => rw [reads_some hc]; exact Nat.le_succ _

variable [Fintype T]

theorem unwrapped_of_run (hn : 0 < n) (hmax : 2 * n < 2 ^ bits) (hr : (machine bits n T).Run tr s)
    (hown : Along Owned tr) (hfew : reads tr + n < s.indexer.maxPositionSize) : Unwrapped n tr s := by
  induction hr with
  | init h => exact .init hn hmax h
  | @step tr s a s' hr hs ih =>
    have hown' := (along_cons.1 hown).2
    have hle : reads tr ≤ reads ((s, a) :: tr) := reads_le
    have hM := (step_cases hs).maxPositionSize
    exact (ih hown' (by omega)).step (positions_of_run hn hmax hr) (claims_le hr hown') (by omega) (step_cases hs)

/-- **No over-commitment by count.** In a run too short to wrap a counter,
`readPos` is at most `writePos`, which is at most `n` more, and at most `n`
indices are held. -/
theorem run_bounded (hn : 0 < n) (hbits : n < 2 ^ bits) (hr : (machine bits n T).Run tr s) (hown : Along Owned tr)
    (hfew : reads tr < s.indexer.maxPositionSize - n) :
    s.indexer.readPos ≤ s.indexer.writePos ∧ s.indexer.writePos ≤ s.indexer.readPos + n ∧
    ∑ t, (s.threads t).held.length ≤ n := by
  have hmax : 2 * n < 2 ^ bits := by
    obtain ⟨s₀, h₀⟩ := hr.starts
    exact construct_lt hn hbits h₀.1
  have h := unwrapped_of_run hn hmax hr hown (by omega)
  have htokens := tokens_of_run hr hown
  have hheld : ∑ t, (s.threads t).held.length ≤ ∑ t, tokens (s.threads t) :=
    Finset.sum_le_sum fun t _ => Nat.le_add_right _ _
  have hread := h.read
  have hwrite := h.write
  have hordered := h.ordered
  exact ⟨hordered, by omega, by omega⟩

end

/-- The claim of a `Next` long after it read the counters: another thread has
taken and returned the other index in between. -/
theorem run_bounded_two : ∃ tr s, (machine 64 2 (Fin 2)).Run tr s ∧ reads tr = 2 ∧ s.indexer.writePos = 3 ∧
    s.indexer.writePos ≤ s.indexer.readPos + 2 := by
  have h := exists_run (m := machine 64 2 (Fin 2)) (s := initial 2 (2 ^ 64 - 4))
    (l := [.next 0] ++ runs 0 6 ++ [.next 1] ++ runs 1 3 ++ [.ret 0 0] ++ runs 0 4 ++ runs 1 1)
    (p := fun tr s => decide (Along Owned tr ∧ reads tr = 2 ∧ s.indexer.writePos = 3 ∧
      s.indexer.maxPositionSize = 2 ^ 64 - 4)) ⟨rfl, fun _ => rfl⟩ (by decide +kernel)
  obtain ⟨tr, s, hr, hp⟩ := h
  simp only [decide_eq_true_eq] at hp
  obtain ⟨hown, hreads, hwrite, hM⟩ := hp
  exact ⟨tr, s, hr, hreads, hwrite, (run_bounded (by decide) (by decide) hr hown (by rw [hreads, hM]; decide)).2.1⟩

end Dxpool.Indexer
