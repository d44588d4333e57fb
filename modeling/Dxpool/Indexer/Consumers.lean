/-
Any number of `Next` calls at a time. What goes wrong with several of them is that
one is lapped: a lap of the ring after its claim, another finds the slot still used
and claims it too. Where that does not happen, and none is overtaken by a whole
cycle of the counter, every claim is fresh, and the `ConcurrentIndexer` is a queue in
the order of the claims, however the calls overlap and however often the
counters wrap (`run_queue`).
-/
import Dxpool.Indexer.Fifo

namespace Dxpool.Indexer

open ConcurrentIndexer Machine

section
variable {T : Type} [DecidableEq T]

/-- Thread `t` loads `readPos`. -/
def loads (t : T) (s : State T) : Act T → Bool
  | .run u _ => decide (u = t ∧ (s.threads t).pc = .nextLoadRead)
  | .next _ | .ret _ _ | .give _ _ _ => false

/-- How many positions `Next` calls had claimed when thread `t` last loaded `readPos`. -/
def loadedAt (t : T) : Trace (State T) (Act T) → Nat
  | [] => 0
  | (s, a) :: tr => if loads t s a then reads tr else loadedAt t tr

/-- No `Next` is lapped by this step: one that checks the slot of the next position finds
no other that is still to clear it, and one that claims a position has not
been overtaken by a whole cycle of the counter since it loaded it. -/
def UnlappedAt (tr : Trace (State T) (Act T)) (s : State T) : Act T → Prop
  | .run t _ =>
    match (s.threads t).pc with
    | .nextCheckSlot c => s.indexer.readPos = c → ∀ u, readSlot s.indexer.size (s.threads u).pc ≠ some (c % s.indexer.size)
    | .nextCas c => s.indexer.readPos = c → reads tr < loadedAt t tr + s.indexer.maxPositionSize
    | _ => True
  | .next _ | .ret _ _ | .give _ _ _ => True

/-- No `Next` is lapped in the run. -/
def Unlapped : Trace (State T) (Act T) → Prop
  | [] => True
  | (s, a) :: tr => UnlappedAt tr s a ∧ Unlapped tr

instance [Fintype T] (tr : Trace (State T) (Act T)) (s : State T) (a : Act T) : Decidable (UnlappedAt tr s a) :=
  match a with
  | .run t _ =>
    match h : (s.threads t).pc with
    | .nextCheckSlot c => decidable_of_iff (s.indexer.readPos = c →
        ∀ u, readSlot s.indexer.size (s.threads u).pc ≠ some (c % s.indexer.size)) (by simp only [UnlappedAt, h])
    | .nextCas c => decidable_of_iff (s.indexer.readPos = c → reads tr < loadedAt t tr + s.indexer.maxPositionSize)
        (by simp only [UnlappedAt, h])
    | .idle | .nextLoadRead | .nextWrapLoad | .nextWrapCas | .nextLoadWrite _ | .nextLoadSlot _ | .nextClear _ _
    | .returnLoadWrite _ | .returnWrapLoad _ | .returnWrapCas _ | .returnCas _ _ | .returnLoadSlot _ _
    | .returnFill _ _ => isTrue (by simp only [UnlappedAt, h])
  | .next _ | .ret _ _ | .give _ _ _ => isTrue trivial

instance [Fintype T] : ∀ tr : Trace (State T) (Act T), Decidable (Unlapped tr)
  | [] => isTrue trivial
  | (s, a) :: tr => @instDecidableAnd (UnlappedAt tr s a) (Unlapped tr) _ (instDecidableUnlappedOfFintype tr)

end

/-! ## What a move leaves of a slot -/

section
variable {T : Type} [Fintype T] {bits n : Nat} {s : State T}

/-- A `Next` that claims no position is at the slot it was at. -/
theorem Move.readSlot_of {ix ix' : ConcurrentIndexer} {sp pc pc' h} (hm : Move bits ix sp pc ix' pc' h)
    (hno : ∀ c, pc = .nextCas c → ¬(ix.readPos = c ∧ sp = false)) {size k : Nat} (hk : Indexer.readSlot size pc' = some k) :
    Indexer.readSlot size pc = some k := by
  rcases hm.readSlot hk with ⟨hold, -⟩ | ⟨c, hc, hclaim, -⟩
  · exact hold
  · exact absurd hclaim (hno c hc)

/-- A used slot is cleared only by the `Next` that has claimed it. -/
theorem Move.load_ne {ix ix' : ConcurrentIndexer} {sp pc pc' h} (hm : Move bits ix sp pc ix' pc' h) (hsz : Sized bits n ix)
    (hi : ∀ i c, pc = .returnFill i c → i < n) {k : Nat} (hk : ix.load k ≠ 0) (hr : Indexer.readSlot ix.size pc ≠ some k) :
    ix'.load k ≠ 0 := by
  cases hm with
  | @nextClear c v =>
    rw [load_store _ _ (hsz.slot_lt c), if_neg fun he : c % ix.size = k => hr (by rw [← he]; rfl)]
    exact hk
  | @returnFill i c =>
    rw [load_store _ _ (hsz.slot_lt c), hsz.index_mod (hi i c rfl)]
    split
    · exact Nat.succ_ne_zero i
    · exact hk
  | _ => exact hk

theorem Placed.fills_lt (h : Placed bits n s) {t : T} {i c : Nat} (ht : (s.threads t).pc = .returnFill i c) : i < n := by
  refine h.lt (t := t) ?_
  rw [share, ht]
  simp [loose, carried]

omit [Fintype T] in
theorem not_vacant {k : Nat} : ¬Vacant s k ↔ s.indexer.load k ≠ 0 ∧ ∀ t, readSlot s.indexer.size (s.threads t).pc ≠ some k := by
  simp [Vacant]

variable [DecidableEq T] {s' : State T} {a : Act T}

/-- A slot in use stays so, if nothing is claimed. -/
theorem Step.not_vacant (h : Placed bits n s) (hno : readClaim s a = none) (hs : Step bits s a s') {k : Nat}
    (hk : ¬Vacant s k) : ¬Vacant s' k := by
  rw [Indexer.not_vacant] at hk ⊢
  obtain ⟨hload, hread⟩ := hk
  cases hs with
  | @next t hpc | @ret t _ hpc =>
    refine ⟨hload, fun x hx => ?_⟩
    exact hread x (pc_none (fun _ => set_ne) (by rw [set_self]; rfl) hx).2
  | give =>
    refine ⟨hload, fun x hx => ?_⟩
    rw [give_pc] at hx
    exact hread x hx
  | @run t sp ix' pc' hold hm =>
    have hclaim : ∀ c, (s.threads t).pc = .nextCas c → ¬(s.indexer.readPos = c ∧ sp = false) := by
      intro c hpc hc
      simp [readClaim, hpc, hc] at hno
    have hsize : ix'.size = s.indexer.size := (hm.sized h.sized).size.trans h.sized.size.symm
    refine ⟨hm.load_ne h.sized (fun i c => h.fills_lt) hload (hread t), fun x hx => ?_⟩
    rw [set_indexer, hsize] at hx
    by_cases hxt : x = t
    · subst hxt
      rw [set_self] at hx
      exact hread x (hm.readSlot_of hclaim hx)
    · rw [set_ne hxt] at hx
      exact hread x hx

end

/-! ## Claims are fresh -/

/-- The position that a `Next` has loaded, and whether it is still the next one. -/
structure Sighted {T : Type} [DecidableEq T] (tr : Trace (State T) (Act T)) (s : State T) : Prop where
  loaded : ∀ t c, nextPos (s.threads t).pc = some c →
    Wraps s.indexer.maxPositionSize c (loadedAt t tr) ∧ loadedAt t tr ≤ reads tr
  current : ∀ t c, nextPos (s.threads t).pc = some c → loadedAt t tr = reads tr → s.indexer.readPos = c
  used : ∀ t c, (s.threads t).pc = .nextCas c → loadedAt t tr = reads tr → ¬Vacant s (c % s.indexer.size)

section
variable {T : Type} [DecidableEq T] {bits n : Nat} {s s' : State T} {a : Act T} {tr : Trace (State T) (Act T)}

theorem loadedAt_none {t : T} (h : loads t s a = false) : loadedAt t ((s, a) :: tr) = loadedAt t tr := by
  rw [loadedAt, h]
  rfl

/-- A step that claims nothing, of threads that load nothing. -/
theorem Sighted.frame (h : Sighted tr s) (hr : readClaim s a = none) (hloads : ∀ t, loads t s a = false)
    (hM : s'.indexer.maxPositionSize = s.indexer.maxPositionSize) (hsize : s'.indexer.size = s.indexer.size)
    (hpos : ∀ t c, nextPos (s'.threads t).pc = some c → nextPos (s.threads t).pc = some c)
    (hread : ∀ t c, nextPos (s.threads t).pc = some c → s.indexer.readPos = c → s'.indexer.readPos = c)
    (hvac : ∀ k, ¬Vacant s k → ¬Vacant s' k)
    (hcas : ∀ t c, (s'.threads t).pc = .nextCas c → (s.threads t).pc = .nextCas c ∨
      (loadedAt t tr = reads tr → ¬Vacant s (c % s.indexer.size))) : Sighted ((s, a) :: tr) s' := by
  refine ⟨fun t c hc => ?_, fun t c hc heq => ?_, fun t c hc heq => ?_⟩
  · rw [loadedAt_none (hloads t), reads_none hr, hM]
    exact h.loaded t c (hpos t c hc)
  · rw [loadedAt_none (hloads t), reads_none hr] at heq
    exact hread t c (hpos t c hc) (h.current t c (hpos t c hc) heq)
  · rw [loadedAt_none (hloads t), reads_none hr] at heq
    rw [hsize]
    rcases hcas t c hc with hc | hc
    · exact hvac _ (h.used t c hc heq)
    · exact hvac _ (hc heq)

/-- A claim that is made is fresh. -/
theorem Sighted.fresh (h : Sighted tr s) (hpos : Positions bits n tr s) (hun : UnlappedAt tr s a) : Fresh s a := by
  cases a with
  | next | ret | give => trivial
  | run t sp =>
    simp only [UnlappedAt] at hun
    simp only [Fresh]
    cases hpc : (s.threads t).pc with
    | nextCas c =>
      simp only [hpc] at hun
      intro hc
      obtain ⟨hwraps, hle⟩ := h.loaded t c (by rw [hpc]; rfl)
      have heq := hwraps.eq_of_le hpos.read hle (hun hc.1) hc.1.symm
      exact not_vacant.1 (h.used t c hpc heq)
    | _ => trivial

/-- A `Next` loads `readPos`. -/
theorem Sighted.load {t : T} {sp : Bool} (h : Sighted tr s) (hpos : Positions bits n tr s) (hpc : (s.threads t).pc = .nextLoadRead)
    (hi : s'.indexer = s.indexer) (hpc' : ∀ c, nextPos (s'.threads t).pc = some c → c = s.indexer.readPos)
    (hcas : ∀ c, (s'.threads t).pc ≠ .nextCas c) (hne : ∀ x, x ≠ t → s'.threads x = s.threads x)
    (hvac : ∀ k, ¬Vacant s k → ¬Vacant s' k) : Sighted ((s, .run t sp) :: tr) s' := by
  have hr : readClaim s (.run t sp) = none := by simp [readClaim, hpc]
  have hmine : loadedAt t ((s, .run t sp) :: tr) = reads tr := by simp [loadedAt, loads, hpc]
  have hother : ∀ {x}, x ≠ t → loadedAt x ((s, .run t sp) :: tr) = loadedAt x tr := fun hx =>
    loadedAt_none (decide_eq_false fun he => hx he.1.symm)
  refine ⟨fun x c hx => ?_, fun x c hx heq => ?_, fun x c hx heq => ?_⟩
  · rw [reads_none hr, hi]
    by_cases hxt : x = t
    · subst hxt
      rw [hmine, hpc' c hx]
      exact ⟨hpos.read, Nat.le_refl _⟩
    · rw [hne x hxt] at hx
      rw [hother hxt]
      exact h.loaded x c hx
  · rw [reads_none hr] at heq
    rw [hi]
    by_cases hxt : x = t
    · subst hxt
      exact (hpc' c hx).symm
    · rw [hne x hxt] at hx
      rw [hother hxt] at heq
      exact h.current x c hx heq
  · rw [reads_none hr] at heq
    by_cases hxt : x = t
    · subst hxt
      exact absurd hx (hcas c)
    · rw [hne x hxt] at hx
      rw [hother hxt] at heq
      rw [hi]
      exact hvac _ (h.used x c hx heq)

/-- A claim leaves every other position that was loaded behind. -/
theorem Sighted.claim {t : T} {sp : Bool} (h : Sighted tr s) (hr : readClaim s (.run t sp) = some t)
    (hM : s'.indexer.maxPositionSize = s.indexer.maxPositionSize) (hpc' : nextPos (s'.threads t).pc = none)
    (hne : ∀ x, x ≠ t → s'.threads x = s.threads x) : Sighted ((s, .run t sp) :: tr) s' := by
  have hcas : ∀ x, (s.threads t).pc ≠ .nextLoadRead ∧ loads x s (.run t sp) = false := by
    intro x
    have hpc : (s.threads t).pc ≠ .nextLoadRead := fun hpc => by simp [readClaim, hpc] at hr
    exact ⟨hpc, decide_eq_false fun he => hpc (he.1 ▸ he.2)⟩
  have hbehind : ∀ {x c}, nextPos (s'.threads x).pc = some c → loadedAt x ((s, .run t sp) :: tr) ≠ reads ((s, .run t sp) :: tr) := by
    intro x c hx
    have hle := (h.loaded x c (pc_none hne hpc' hx).2).2
    rw [loadedAt_none (hcas x).2, reads_some hr]
    omega
  refine ⟨fun x c hx => ?_, fun x c hx heq => absurd heq (hbehind hx), fun x c hx heq => ?_⟩
  · obtain ⟨hwraps, hle⟩ := h.loaded x c (pc_none hne hpc' hx).2
    rw [loadedAt_none (hcas x).2, reads_some hr, hM]
    exact ⟨hwraps, Nat.le_succ_of_le hle⟩
  · exact absurd heq (hbehind (by rw [hx]; rfl))

variable [Fintype T]

theorem Sighted.step (h : Sighted tr s) (hpos : Positions bits n tr s) (hp : Placed bits n s) (hun : UnlappedAt tr s a)
    (hs : Step bits s a s') : Sighted ((s, a) :: tr) s' := by
  have hvac : readClaim s a = none → ∀ k, ¬Vacant s k → ¬Vacant s' k := fun hno k => hs.not_vacant hp hno
  cases hs with
  | @next t hpc =>
    refine h.frame rfl (fun _ => rfl) rfl rfl (fun x c hx => (pc_none (fun _ => set_ne) (by rw [set_self]; rfl) hx).2)
      (fun _ _ _ he => he) (hvac rfl) fun x c hx => ?_
    by_cases hxt : x = t
    · subst hxt
      rw [set_self] at hx
      cases hx
    · rw [set_ne hxt] at hx
      exact .inl hx
  | @ret t i hpc =>
    refine h.frame rfl (fun _ => rfl) rfl rfl (fun x c hx => (pc_none (fun _ => set_ne) (by rw [set_self]; rfl) hx).2)
      (fun _ _ _ he => he) (hvac rfl) fun x c hx => ?_
    by_cases hxt : x = t
    · subst hxt
      rw [set_self] at hx
      cases hx
    · rw [set_ne hxt] at hx
      exact .inl hx
  | give =>
    refine h.frame rfl (fun _ => rfl) rfl rfl (fun x c hx => ?_) (fun _ _ _ he => he) (hvac rfl) fun x c hx => ?_
    · rwa [give_pc] at hx
    · rw [give_pc] at hx
      exact .inl hx
  | @run t sp ix' pc' hold hm =>
    generalize hs' : ({ s with indexer := ix' } : State T).set t { pc := pc', held := gain hold ++ (s.threads t).held } = s'
      at hvac ⊢
    have hix : s'.indexer = ix' := by rw [← hs']; rfl
    have hpc' : (s'.threads t).pc = pc' := by rw [← hs', set_self]
    have hne : ∀ x, x ≠ t → s'.threads x = s.threads x := fun x hx => by rw [← hs', set_ne hx]
    have hM : s'.indexer.maxPositionSize = s.indexer.maxPositionSize := by rw [hix, hm.maxPositionSize]
    have hsize : s'.indexer.size = s.indexer.size := by rw [hix, (hm.sized hp.sized).size, hp.sized.size]
    -- a move that neither loads nor claims
    have hquiet : (s.threads t).pc ≠ .nextLoadRead → readClaim s (.run t sp) = none →
        (∀ c, nextPos pc' = some c → nextPos (s.threads t).pc = some c) →
        (∀ x c, nextPos (s.threads x).pc = some c → s.indexer.readPos = c → ix'.readPos = c) →
        (∀ c, pc' = .nextCas c → loadedAt t tr = reads tr → ¬Vacant s (c % s.indexer.size)) →
        Sighted ((s, .run t sp) :: tr) s' := by
      intro hnot hno hkeep hread hused
      refine h.frame hno (fun x => decide_eq_false fun he => hnot (he.1 ▸ he.2)) hM hsize (fun x c hx => ?_) (hix ▸ hread)
        (hvac hno) fun x c hx => ?_
      · by_cases hxt : x = t
        · subst hxt
          exact hkeep c (hpc' ▸ hx)
        · rwa [hne x hxt] at hx
      · by_cases hxt : x = t
        · subst hxt
          exact .inr (hused c (hpc' ▸ hx))
        · rw [hne x hxt] at hx
          exact .inl hx
    simp only [UnlappedAt] at hun
    generalize hpc : (s.threads t).pc = pc at hm hun hquiet
    cases hm with
    | nextAtMax | nextBelow =>
      refine h.load hpos hpc hix (fun c hc => ?_) (fun c hc => ?_) hne (hvac (by simp [readClaim, hpc]))
      · rw [hpc'] at hc
        cases hc
        try rfl
      · rw [hpc'] at hc
        cases hc
    | nextClaim hc hsp => exact h.claim (by simp [readClaim, hpc, hc, hsp]) hM (by rw [hpc']; rfl) hne
    | nextWrap hmax =>
      refine hquiet (by simp) (by simp [readClaim, hpc]) (by simp [nextPos]) (fun x c hx he => ?_) (by simp)
      -- nobody has loaded the position that is set back
      have hlt : c < s.indexer.maxPositionSize := hpos.below x c (by
        generalize (s.threads x).pc = pc at hx
        cases pc <;> first | exact hx | cases hx)
      omega
    | @nextUsed c hload =>
      refine hquiet (by simp) (by simp [readClaim, hpc]) (fun _ hc => hc) (fun _ _ _ he => he) fun c' hc' heq => ?_
      cases hc'
      exact not_vacant.2 ⟨hload, hun (h.current t c (by rw [hpc]; rfl) heq)⟩
    | nextClaimFail hfail =>
      refine hquiet (by simp) (readClaim_none fun c hc => ?_) (by simp [nextPos]) (fun _ _ _ he => he) (by simp)
      cases hpc.symm.trans hc
      exact hfail
    | nextMore => exact hquiet (by simp) (by simp [readClaim, hpc]) (fun _ hc => hc) (fun _ _ _ he => he) (by simp)
    | _ => exact hquiet (by simp) (by simp [readClaim, hpc]) (by simp [nextPos]) (fun _ _ _ he => he) (by simp)

/-- In a run that laps no `Next` all claims are fresh. -/
theorem sighted_of_run (hn : 0 < n) (hmax : 2 * n < 2 ^ bits) (hr : (machine bits n T).Run tr s) (hown : Along Owned tr)
    (hun : Unlapped tr) : Sighted tr s ∧ Along Fresh tr := by
  induction hr with
  | init h => exact ⟨⟨by simp [h.2, nextPos], by simp [h.2, nextPos], by simp [h.2]⟩, along_nil⟩
  | step hr hs ih =>
    rw [along_cons] at hown
    obtain ⟨hsighted, hfresh⟩ := ih hown.2 hun.2
    have hpos := positions_of_run hn hmax hr
    have hp := (ring_of_run hn hmax hr hown.2 hfresh).placed
    exact ⟨hsighted.step hpos hp hun.1 (step_cases hs), along_cons.2 ⟨hsighted.fresh hpos hun.1, hfresh⟩⟩

end

/-! ## The queue -/

section
variable {T : Type}

/-- Position `p` is the last one that thread `t` claimed to read. -/
structure ReadBy (tr : Trace (State T) (Act T)) (p : Nat) (t : T) : Prop where
  claim : (log readClaim tr)[p]? = some t
  last : ∀ q, p < q → (log readClaim tr)[q]? ≠ some t

/-- The slot that a `Next` has claimed has the index stored at its position. -/
def Queued (n : Nat) (tr : Trace (State T) (Act T)) (s : State T) : Prop :=
  ∀ t k, readSlot s.indexer.size (s.threads t).pc = some k →
    ∃ p, ReadBy tr p t ∧ (stored n tr)[p]? = some (s.indexer.load k - 1)

variable {bits n : Nat} {s s' : State T} {a : Act T} {tr : Trace (State T) (Act T)}

theorem ReadBy.keep {p : Nat} {t : T} (h : ReadBy tr p t) (hr : readClaim s a ≠ some t) : ReadBy ((s, a) :: tr) p t := by
  cases hc : readClaim s a with
  | none => exact ⟨by rw [log_none hc]; exact h.claim, by rw [log_none hc]; exact h.last⟩
  | some u =>
    have hlt := (List.getElem?_eq_some_iff.1 h.claim).1
    refine ⟨by rw [log_some hc, List.getElem?_append_left hlt]; exact h.claim, fun q hq hget => ?_⟩
    rw [log_some hc] at hget
    by_cases hql : q < (log readClaim tr).length
    · rw [List.getElem?_append_left hql] at hget
      exact h.last q hq hget
    · rw [List.getElem?_append_right (Nat.le_of_not_lt hql)] at hget
      obtain rfl : t = u := by simpa using List.mem_of_getElem? hget
      exact hr hc

/-- A claim is the last one. -/
theorem ReadBy.new {t : T} (h : readClaim s a = some t) : ReadBy ((s, a) :: tr) (reads tr) t := by
  refine ⟨by simp [log_some h, reads], fun q hq hget => ?_⟩
  have hlt := (List.getElem?_eq_some_iff.1 hget).1
  rw [log_some h, List.length_append, List.length_singleton] at hlt
  simp only [reads] at hq
  omega

/-- What is stored at a position stays so. -/
theorem stored_keep {p i : Nat} (h : (stored n tr)[p]? = some i) : (stored n ((s, a) :: tr))[p]? = some i := by
  cases hw : writeClaim s a with
  | none => simpa only [stored, claims_none hw] using h
  | some e =>
    have heq : stored n ((s, a) :: tr) = stored n tr ++ [e.2] := by simp [stored, claims_some hw]
    rw [heq, List.getElem?_append_left (List.getElem?_eq_some_iff.1 h).1]
    exact h

/-- A step that claims nothing, and stores to no slot that is to be read. -/
theorem Queued.frame (h : Queued n tr s) (hr : readClaim s a = none) (hsize : s'.indexer.size = s.indexer.size)
    (hread : ∀ t k, readSlot s.indexer.size (s'.threads t).pc = some k →
      readSlot s.indexer.size (s.threads t).pc = some k ∧ s'.indexer.load k = s.indexer.load k) :
    Queued n ((s, a) :: tr) s' := by
  intro t k hk
  rw [hsize] at hk
  obtain ⟨hk, hload⟩ := hread t k hk
  obtain ⟨p, hp, hget⟩ := h t k hk
  rw [hload]
  exact ⟨p, hp.keep (by rw [hr]; simp), stored_keep hget⟩

variable [DecidableEq T] [Fintype T]

theorem Queued.step (h : Queued n tr s) (hring : Ring bits n tr s) (hpos : Positions bits n tr s) (hfresh : Fresh s a)
    (hs : Step bits s a s') : Queued n ((s, a) :: tr) s' := by
  cases hs with
  | @next t hpc | @ret t _ hpc =>
    exact h.frame rfl rfl fun x k hx => ⟨(pc_none (fun _ => set_ne) (by rw [set_self]; rfl) hx).2, rfl⟩
  | give =>
    refine h.frame rfl rfl fun x k hx => ⟨?_, rfl⟩
    rwa [give_pc] at hx
  | @run t sp ix' pc' hold hm =>
    generalize hs' : ({ s with indexer := ix' } : State T).set t { pc := pc', held := gain hold ++ (s.threads t).held } = s'
    have hix : s'.indexer = ix' := by rw [← hs']; rfl
    have hpc' : (s'.threads t).pc = pc' := by rw [← hs', set_self]
    have hne : ∀ x, x ≠ t → s'.threads x = s.threads x := fun x hx => by rw [← hs', set_ne hx]
    have hp := hring.placed
    have hsize : s'.indexer.size = s.indexer.size := by rw [hix, (hm.sized hp.sized).size, hp.sized.size]
    by_cases hclaim : ∃ c, (s.threads t).pc = .nextCas c ∧ s.indexer.readPos = c ∧ sp = false
    · obtain ⟨c, hpc, hc, hsp⟩ := hclaim
      have hr : readClaim s (.run t sp) = some t := by simp [readClaim, hpc, hc, hsp]
      simp only [Fresh, hpc] at hfresh
      obtain ⟨v, hget, hf⟩ := hring.fresh (by
        rw [← hpos.read.place hpos.sized.dvd, hc]
        exact not_vacant.2 (hfresh ⟨hc, hsp⟩))
      rw [← hpos.read.place hpos.sized.dvd, hc] at hf
      rw [hpc] at hm
      cases hm with
      | nextClaimFail hfail => exact absurd ⟨hc, hsp⟩ hfail
      | nextClaim =>
        intro x k hk
        rw [hsize] at hk
        rcases pc_some hne (by rw [hpc']; rfl) hk with ⟨rfl, rfl⟩ | hk
        · refine ⟨reads tr, .new hr, stored_keep ?_⟩
          have hload : s'.indexer.load (c % s.indexer.size) = v + 1 := by rw [hix]; exact hf.load
          rw [hload, Nat.add_sub_cancel]
          exact hget
        · obtain ⟨p, hp, hget⟩ := h x k hk
          have hxt : x ≠ t := by
            rintro rfl
            rw [hpc] at hk
            cases hk
          have hload : s'.indexer.load k = s.indexer.load k := by rw [hix]; rfl
          rw [hload]
          exact ⟨p, hp.keep (by rw [hr]; exact fun he => hxt (Option.some.inj he).symm), stored_keep hget⟩
    · have hno : ∀ c, (s.threads t).pc = .nextCas c → ¬(s.indexer.readPos = c ∧ sp = false) :=
        fun c hpc hc => hclaim ⟨c, hpc, hc⟩
      refine h.frame (readClaim_none hno) hsize fun x k hx => ?_
      have hread : readSlot s.indexer.size (s.threads x).pc = some k := by
        by_cases hxt : x = t
        · subst hxt
          rw [hpc'] at hx
          exact hm.readSlot_of hno hx
        · rwa [hne x hxt] at hx
      refine ⟨hread, ?_⟩
      rw [hix]
      generalize hpc : (s.threads t).pc = pc at hm
      cases hm with
      | @nextClear c v =>
        rw [load_store _ _ (hp.sized.slot_lt c), if_neg]
        rintro rfl
        obtain rfl := hring.readAlone x t _ hread (by rw [hpc]; rfl)
        rw [hpc'] at hx
        cases hx
      | @returnFill i c =>
        rw [load_store _ _ (hp.sized.slot_lt c), if_neg]
        rintro rfl
        exact hring.reader x _ hread (hp.fills t i c hpc)
      | _ => rfl

/-- **A queue with many consumers.** In every run in which no `Next` is lapped, and
only indices that are held are returned, each index is in one place, and a `Next` that
is not empty answers the index stored at the position it claimed. -/
theorem run_queue (hn : 0 < n) (hmax : 2 * n < 2 ^ bits) (hr : (machine bits n T).Run tr s) (hown : Along Owned tr)
    (hun : Unlapped tr) : (∀ i < n, copies s i = 1) ∧
      ∀ a t i, answer bits s a = some (t, .of i) → ∃ p, ReadBy tr p t ∧ (stored n tr)[p]? = some i := by
  have hfresh := (sighted_of_run hn hmax hr hown hun).2
  have hring := ring_of_run hn hmax hr hown hfresh
  refine ⟨fun i hi => hring.placed.copies hi, fun a t i hans => ?_⟩
  have hqueued : Queued n tr s :=
    hr.invariantT (I := Queued n) (Q := fun s a => Owned s a ∧ Fresh s a) (fun s h => by simp [Queued, h.2, readSlot])
      (fun _ _ _ _ hr hok hi ha h =>
        have hok := along_and.1 hok
        hi.step (ring_of_run hn hmax hr hok.1 hok.2) (positions_of_run hn hmax hr) ha.2 (step_cases h))
      (along_and.2 ⟨hown, hfresh⟩)
  obtain ⟨sp, ix', pc', rfl, hm⟩ := answer_move hans
  rcases hm.answers with ⟨_, _, _, hempty⟩ | ⟨_, _, _, hempty⟩ | ⟨c, v, hpc, hof⟩
  · cases hempty
  · cases hempty
  · obtain ⟨p, hp, hget⟩ := hqueued t _ (by rw [hpc]; rfl)
    rw [(hring.placed.clears t c v hpc).1] at hget
    cases hof
    exact ⟨p, hp, hget⟩

end

/-- Two threads load position 0. The one that claims it is answered last, and
still has the index stored there. -/
theorem run_queue_two : ∃ tr s, (machine 64 2 (Fin 2)).Run tr s ∧ handed 64 tr = [1] ∧
    ∃ p, ReadBy tr p 0 ∧ (stored 2 tr)[p]? = some 0 := by
  have h := exists_run (m := machine 64 2 (Fin 2)) (s := initial 2 (2 ^ 64 - 4))
    (l := [[.next 0, .next 1], runs 0 3, runs 1 3, runs 0 1, runs 1 7, runs 0 1].flatten)
    (p := fun tr s => decide (Along Owned tr ∧ Unlapped tr ∧ handed 64 tr = [1] ∧
      answer 64 s (.run 0 false) = some (0, .of 0))) ⟨rfl, fun _ => rfl⟩ (by decide +kernel)
  obtain ⟨tr, s, hr, hp⟩ := h
  simp only [decide_eq_true_eq] at hp
  obtain ⟨hown, hun, hhanded, hans⟩ := hp
  exact ⟨tr, s, hr, hhanded, (run_queue (by decide) (by decide) hr hown hun).2 _ 0 0 hans⟩

end Dxpool.Indexer
