/-
One `Next` at a time: the `ConcurrentIndexer` is then a FIFO queue, however
many `Return` calls are in progress and however often the counters wrapped
(`run_fifo`).

With one `Next` in progress the position it loaded is still the next one when
it claims it, and the slot it found used is still used: its claims are fresh,
and the ring (`Ring`) is a queue of which `Next` takes the first.
-/
import Dxpool.Indexer.Ring

namespace Dxpool.Indexer

open ConcurrentIndexer Machine

def inNext : Pc → Bool
  | .nextLoadRead | .nextWrapLoad | .nextWrapCas | .nextLoadWrite _ | .nextCheckSlot _ | .nextCas _
  | .nextLoadSlot _ | .nextClear _ _ => true
  | _ => false

def inReturn : Pc → Bool
  | .returnLoadWrite _ | .returnWrapLoad _ | .returnWrapCas _ | .returnCas _ _ | .returnLoadSlot _ _
  | .returnFill _ _ => true
  | _ => false

/-- The position a `Next` has loaded and is about to claim. -/
def nextPos : Pc → Option Nat
  | .nextLoadWrite c | .nextCheckSlot c | .nextCas c => some c
  | _ => none

section
variable {T : Type}

/-- What a `Next` that returns at this step answers, and to whom. -/
def answer (bits : Nat) (s : State T) : Act T → Option (T × IndexHolder)
  | .run t sp => (advance bits s.indexer sp (s.threads t).pc).2.2.map fun h => (t, h)
  | _ => none

/-- The indices the `Next` calls have handed out, in order. -/
def handed (bits : Nat) (tr : Trace (State T) (Act T)) : List Nat :=
  (log (answer bits) tr).flatMap fun e => e.2.indices

/-- A `Next` is called only while no `Next` is in progress. -/
def OneNext (s : State T) : Act T → Prop
  | .next _ => ∀ u, inNext (s.threads u).pc = false
  | _ => True

instance [Fintype T] (s : State T) (a : Act T) : Decidable (OneNext s a) :=
  match a with
  | .next _ => inferInstanceAs (Decidable (∀ u, inNext (s.threads u).pc = false))
  | .ret _ _ | .give _ _ _ | .run _ _ => isTrue trivial

/-- No `Return` is in progress. -/
def NoReturn (s : State T) : Prop := ∀ t, inReturn (s.threads t).pc = false

instance [Fintype T] (s : State T) : Decidable (NoReturn s) :=
  inferInstanceAs (Decidable (∀ t, inReturn (s.threads t).pc = false))

/-- Clients hold all `n` indices. -/
def AllHeld (n : Nat) (s : State T) : Prop := ∀ i < n, ∃ t, i ∈ (s.threads t).held

/-- The moments of the `Next` call thread `t` is in. -/
def callOf [DecidableEq T] (t : T) (tr : Trace (State T) (Act T)) : List (Trace (State T) (Act T) × State T) :=
  moments (fun a => a == .next t) tr

end

theorem Move.advance_eq {bits ix sp pc ix' pc' h} (hm : Move bits ix sp pc ix' pc' h) :
    advance bits ix sp pc = (ix', pc', h) := by
  cases hm <;> simp_all [advance]

section
variable {T : Type} {bits n : Nat} {s : State T} {tr : Trace (State T) (Act T)}

theorem Move.answer {t sp ix' pc' h} (hm : Move bits s.indexer sp (s.threads t).pc ix' pc' h) :
    answer bits s (.run t sp) = h.map fun h => (t, h) := by
  simp only [Indexer.answer, hm.advance_eq]

theorem answer_move {a : Act T} {t hold} (h : answer bits s a = some (t, hold)) :
    ∃ sp ix' pc', a = .run t sp ∧ Move bits s.indexer sp (s.threads t).pc ix' pc' (some hold) := by
  cases a with
  | next | ret | give => cases h
  | run u sp =>
    simp only [answer, Option.map_eq_some_iff, Prod.mk.injEq] at h
    obtain ⟨hold', hadv, rfl, rfl⟩ := h
    refine ⟨sp, (advance bits s.indexer sp (s.threads u).pc).1, (advance bits s.indexer sp (s.threads u).pc).2.1, rfl, ?_⟩
    rw [← hadv]
    refine advance_cases rfl fun hidle => ?_
    rw [hidle] at hadv
    cases hadv

theorem handed_cons {a : Act T} :
    handed bits ((s, a) :: tr) = handed bits tr ++ (answer bits s a).elim [] (fun e => e.2.indices) := by
  cases h : answer bits s a <;> simp [handed, log, h]

theorem handed_run {t sp ix' pc' h} (hm : Move bits s.indexer sp (s.threads t).pc ix' pc' h) :
    handed bits ((s, .run t sp) :: tr) = handed bits tr ++ gain h := by
  rw [handed_cons, hm.answer]
  cases h <;> rfl

end

/-! ## What a move of `Next` or `Return` does to a lone `Next` -/

theorem Move.inNext {bits ix sp pc ix' pc' h} (hm : Move bits ix sp pc ix' pc' h)
    (hn : Indexer.inNext pc' = true) : Indexer.inNext pc = true := by
  cases hm <;> first | rfl | exact hn

/-- The position loaded is the next one, if no other thread claims or wraps. -/
theorem Move.nextPos {bits ix sp pc ix' pc' h} (hm : Move bits ix sp pc ix' pc' h)
    (hcur : ∀ c, Indexer.nextPos pc = some c → ix.readPos = c) {c : Nat} (hc : Indexer.nextPos pc' = some c) :
    ix'.readPos = c := by
  cases hm <;> simp only [Indexer.nextPos, Option.some.injEq, reduceCtorEq] at hc hcur ⊢ <;> first
    | exact hc
    | exact hcur _ hc

theorem Move.used {bits ix sp pc ix' c h} (hm : Move bits ix sp pc ix' (.nextCas c) h) :
    ix'.load (c % ix'.size) ≠ 0 := by
  cases hm with
  | nextUsed h => exact h

/-- A move of `Return` leaves `readPos`, and each used slot used. -/
theorem Move.ofReturn {bits n ix sp pc ix' pc' h} (hm : Move bits ix sp pc ix' pc' h) (hsz : Sized bits n ix)
    (hi : ∀ i, i ∈ carried pc → i < n) (hn : Indexer.inNext pc = false) :
    ix'.readPos = ix.readPos ∧ ∀ k, ix.load k ≠ 0 → ix'.load k ≠ 0 := by
  cases hm with
  | @returnFill i c =>
    refine ⟨rfl, fun k hk => ?_⟩
    have hmod : (i + 1) % 2 ^ bits = i + 1 := hsz.index_mod (hi i (by simp [carried]))
    rw [load_store _ _ (hsz.slot_lt c), hmod]
    split
    · omega
    · exact hk
  | returnAtMax | returnBelow | returnStillMax | returnWrapped | returnWrap | returnWrapFail | returnClaim
  | returnClaimFail | returnWait | returnReady => exact ⟨rfl, fun _ hk => hk⟩
  | _ => cases hn

theorem nextPos_inNext {pc c} (h : nextPos pc = some c) : inNext pc = true := by
  cases pc <;> simp_all [nextPos, inNext]

theorem readSlot_inNext {size pc k} (h : readSlot size pc = some k) : inNext pc = true := by
  cases pc <;> simp_all [readSlot, inNext]

/-! ## One `Next` in progress -/

section
variable {T : Type}

/-- The only `Next` in progress: the position it loaded is the next one, and
used if it was found so. -/
structure Lone (s : State T) : Prop where
  one : ∀ t u, inNext (s.threads t).pc = true → inNext (s.threads u).pc = true → t = u
  cur : ∀ t c, nextPos (s.threads t).pc = some c → s.indexer.readPos = c
  used : ∀ t c, (s.threads t).pc = .nextCas c → s.indexer.load (c % s.indexer.size) ≠ 0

theorem Lone.frame {s s' : State T} (h : Lone s)
    (hpc : ∀ x, inNext (s'.threads x).pc = true → (s'.threads x).pc = (s.threads x).pc)
    (hr : s'.indexer.readPos = s.indexer.readPos) (hsize : s'.indexer.size = s.indexer.size)
    (hload : ∀ k, s.indexer.load k ≠ 0 → s'.indexer.load k ≠ 0) : Lone s' := by
  refine ⟨fun t u ht hu => h.one t u (hpc t ht ▸ ht) (hpc u hu ▸ hu), fun t c ht => ?_, fun t c ht => ?_⟩
  · rw [hr]; exact h.cur t c (hpc t (nextPos_inNext ht) ▸ ht)
  · rw [hsize]; exact hload _ (h.used t c (hpc t (by rw [ht]; rfl) ▸ ht))

/-- Thread `t` is the only one in a `Next`. -/
theorem Lone.only {s : State T} {t : T} (ht : ∀ x, inNext (s.threads x).pc = true → x = t)
    (hcur : ∀ c, nextPos (s.threads t).pc = some c → s.indexer.readPos = c)
    (hused : ∀ c, (s.threads t).pc = .nextCas c → s.indexer.load (c % s.indexer.size) ≠ 0) : Lone s := by
  refine ⟨fun x y hx hy => (ht x hx).trans (ht y hy).symm, fun x c hx => ?_, fun x c hx => ?_⟩
  · cases ht x (nextPos_inNext hx); exact hcur c hx
  · cases ht x (by rw [hx]; rfl); exact hused c hx

/-- Its claim is fresh. -/
theorem Lone.fresh {s : State T} (h : Lone s) (a : Act T) : Fresh s a := by
  cases a with
  | next | ret | give => trivial
  | run t sp =>
    simp only [Fresh]
    split
    · rename_i c hpc
      refine fun _ => ⟨h.used t c hpc, fun u hu => ?_⟩
      cases h.one u t (readSlot_inNext hu) (by rw [hpc]; rfl)
      rw [hpc] at hu
      cases hu
    · trivial

variable [DecidableEq T] {bits n : Nat} {s s' : State T}

theorem Lone.step [Fintype T] {a : Act T} (h : Lone s) (hp : Placed bits n s) (hone : OneNext s a)
    (hs : Step bits s a s') : Lone s' := by
  cases hs with
  | @next t hpc =>
    refine Lone.only (t := t) (fun x hx => ?_) (by simp [nextPos]) (by simp)
    by_contra hne
    rw [set_ne hne, hone x] at hx
    cases hx
  | @ret t i hpc =>
    refine h.frame (fun x hx => ?_) rfl rfl fun _ hk => hk
    by_cases hxt : x = t
    · subst hxt; simp [inNext] at hx
    · rw [set_ne hxt]
  | @give t u i hne hi => exact h.frame (fun x _ => give_pc x) rfl rfl fun _ hk => hk
  | @run t sp ix' pc' hold hm =>
    by_cases ht : inNext (s.threads t).pc = true
    · refine Lone.only (t := t) (fun x hx => ?_) (fun c hc => ?_) fun c hc => ?_
      · by_contra hne
        rw [set_ne hne] at hx
        exact hne (h.one x t hx ht)
      · rw [set_self] at hc; exact hm.nextPos (h.cur t) hc
      · rw [set_self] at hc
        simp only at hc
        subst hc
        exact hm.used
    · rw [Bool.not_eq_true] at ht
      have hcar : ∀ i, i ∈ carried (s.threads t).pc → i < n := by
        intro i hi
        refine hp.lt (t := t) ?_
        have hl : loose (s.threads t).pc = carried (s.threads t).pc := by
          generalize (s.threads t).pc = pc at ht
          cases pc <;> first | rfl | cases ht
        have := List.count_pos_iff.2 hi
        rw [share, hl]; omega
      obtain ⟨hr, hload⟩ := hm.ofReturn hp.sized hcar ht
      refine h.frame (fun x hx => ?_) hr (by rw [set_indexer, (hm.sized hp.sized).size, hp.sized.size]) hload
      by_cases hxt : x = t
      · subst hxt
        rw [set_self] at hx
        rw [hm.inNext hx] at ht
        cases ht
      · rw [set_ne hxt]

end

/-! ## What has been handed out -/

section
variable {T : Type} {bits n : Nat} {tr : Trace (State T) (Act T)} {s : State T}

/-- Handed out, and loaded by a `Next` that has claimed its position, are the
indices stored at the claimed positions. -/
structure Ordered (bits n : Nat) (tr : Trace (State T) (Act T)) (s : State T) : Prop where
  idle : (∀ t, readSlot s.indexer.size (s.threads t).pc = none) → handed bits tr = (stored n tr).take (reads tr)
  taken : ∀ t k, readSlot s.indexer.size (s.threads t).pc = some k →
    handed bits tr ++ [s.indexer.load k - 1] = (stored n tr).take (reads tr)

theorem Ordered.prefix_stored (h : Ordered bits n tr s) : handed bits tr <+: stored n tr := by
  by_cases ht : ∀ t, readSlot s.indexer.size (s.threads t).pc = none
  · rw [h.idle ht]; exact List.take_prefix _ _
  · obtain ⟨t, ht⟩ := not_forall.1 ht
    obtain ⟨k, hk⟩ := Option.ne_none_iff_exists'.1 ht
    exact (List.prefix_append _ _).trans (h.taken t k hk ▸ List.take_prefix _ _)

/-- A claim of `Return` does not change what is stored below. -/
theorem stored_take {a : Act T} (hord : reads tr ≤ n + (claims tr).length) :
    (stored n ((s, a) :: tr)).take (reads tr) = (stored n tr).take (reads tr) := by
  cases hw : writeClaim s a with
  | none => simp only [stored, claims_none hw]
  | some e =>
    simp only [stored, claims_some hw, List.map_append, ← List.append_assoc]
    exact List.take_append_of_le_length (by simpa using hord)

theorem Ordered.frame {s' : State T} {a : Act T} (h : Ordered bits n tr s)
    (hord : reads tr ≤ n + (claims tr).length) (hh : handed bits ((s, a) :: tr) = handed bits tr)
    (hr : readClaim s a = none) (hsize : s'.indexer.size = s.indexer.size)
    (hread : ∀ x, readSlot s.indexer.size (s'.threads x).pc = readSlot s.indexer.size (s.threads x).pc)
    (hload : ∀ x k, readSlot s.indexer.size (s.threads x).pc = some k → s'.indexer.load k = s.indexer.load k) :
    Ordered bits n ((s, a) :: tr) s' := by
  refine ⟨fun hx => ?_, fun x k hx => ?_⟩
  · rw [hh, reads_none hr, stored_take hord]
    exact h.idle fun t => by rw [← hread, ← hsize]; exact hx t
  · rw [hsize, hread] at hx
    rw [hh, reads_none hr, stored_take hord, hload x k hx]
    exact h.taken x k hx

variable [DecidableEq T] [Fintype T]

theorem Ordered.step {s' : State T} {a : Act T} (h : Ordered bits n tr s) (hring : Ring bits n tr s)
    (hpos : Positions bits n tr s) (hlone : Lone s) (hs : Step bits s a s') : Ordered bits n ((s, a) :: tr) s' := by
  have hord := hring.ordered
  cases hs with
  | @next t hpc =>
    exact h.frame hord (by simp [handed_cons, answer]) rfl rfl (pc_congr (fun _ => set_ne) (by simp [readSlot, hpc]))
      fun _ _ _ => rfl
  | @ret t i hpc =>
    exact h.frame hord (by simp [handed_cons, answer]) rfl rfl (pc_congr (fun _ => set_ne) (by simp [readSlot, hpc]))
      fun _ _ _ => rfl
  | @give t u i hne hi =>
    exact h.frame hord (by simp [handed_cons, answer]) rfl rfl (fun x => by rw [give_pc]) fun _ _ _ => rfl
  | @run t sp ix' pc' hold hm =>
    have hothers : ∀ x, x ≠ t → (({ s with indexer := ix' }.set t
        { pc := pc', held := gain hold ++ (s.threads t).held }).threads x) = s.threads x := fun x hx => set_ne hx
    have hquiet : ix'.size = s.indexer.size → gain hold = [] → readClaim s (.run t sp) = none →
        readSlot s.indexer.size pc' = readSlot s.indexer.size (s.threads t).pc →
        (∀ x k, readSlot s.indexer.size (s.threads x).pc = some k → ix'.load k = s.indexer.load k) →
        Ordered bits n ((s, .run t sp) :: tr)
          ({ s with indexer := ix' }.set t { pc := pc', held := gain hold ++ (s.threads t).held }) := by
      intro hsize hg hr hrs hload
      exact h.frame hord (by rw [handed_run hm, hg, List.append_nil]) hr hsize
        (pc_congr hothers (by rw [set_self]; exact hrs)) hload
    have hans : handed bits ((s, .run t sp) :: tr) = _ := handed_run hm
    have hfresh := hlone.fresh (.run t sp)
    simp only [Fresh] at hfresh
    generalize hpc : (s.threads t).pc = pc at hm hfresh
    cases hm with
    | @nextClaim c hc hsp =>
      obtain ⟨hv, hno⟩ := hfresh ⟨hc, hsp⟩
      have hr : readClaim s (.run t sp) = some t := by simp [readClaim, hpc, hc, hsp]
      have hplace : c % s.indexer.size = reads tr % s.indexer.size := by
        rw [← hc]; exact hpos.read.place hpos.sized.dvd
      have hvac : ¬Vacant s (reads tr % s.indexer.size) := by
        rw [← hplace]
        rintro (h0 | ⟨u, hu⟩)
        · exact hv h0
        · exact hno u hu
      obtain ⟨v, hget, hf⟩ := hring.fresh hvac
      have hnone : ∀ x, readSlot s.indexer.size (s.threads x).pc = none := by
        intro x
        by_contra hx
        obtain ⟨k, hk⟩ := Option.ne_none_iff_exists'.1 hx
        cases hlone.one x t (readSlot_inNext hk) (by rw [hpc]; rfl)
        rw [hpc] at hk
        cases hk
      refine ⟨fun hall => ?_, fun x k hx => ?_⟩
      · have := hall t
        rw [set_self] at this
        cases this
      · by_cases hxt : x = t
        · subst hxt
          rw [set_self] at hx
          simp only [readSlot, Option.some.injEq] at hx
          subst hx
          rw [hans, gain_none, List.append_nil, h.idle hnone, reads_some hr, List.take_add_one, set_indexer]
          have hw : writeClaim s (.run x sp) = none := by simp [writeClaim, hpc]
          have hload := hf.load
          rw [← hplace] at hload
          simp only [load_readPos, stored, claims_none hw] at hload hget ⊢
          rw [hget, hload]
          simp
        · rw [hothers x hxt] at hx
          simp only [set_indexer] at hx
          rw [hnone x] at hx
          cases hx
    | @nextClear c v =>
      have hr : readClaim s (.run t sp) = none := by simp [readClaim, hpc]
      have hmine : readSlot s.indexer.size (s.threads t).pc = some (c % s.indexer.size) := by rw [hpc]; rfl
      refine ⟨fun _ => ?_, fun x k hx => ?_⟩
      · rw [hans, gain_of, reads_none hr, stored_take hord, ← (hring.placed.clears t c v hpc).1]
        exact h.taken t _ hmine
      · obtain ⟨hxt, hx⟩ := pc_none hothers (by rw [set_self]; rfl) hx
        exact absurd (hlone.one x t (readSlot_inNext hx) (readSlot_inNext hmine)) hxt
    | @returnFill i c =>
      refine hquiet rfl rfl (by simp [readClaim, hpc]) (by simp only [hpc, readSlot]) fun x k hx => ?_
      rw [load_store _ _ (hpos.sized.slot_lt c), if_neg]
      rintro rfl
      exact hring.reader x _ hx (hring.placed.fills t i c hpc)
    | nextClaimFail hc =>
      exact hquiet rfl rfl (readClaim_none fun c hpc' => by cases hpc.symm.trans hpc'; exact hc)
        (by simp only [hpc, readSlot]) fun _ _ _ => rfl
    | _ => exact hquiet rfl rfl (by simp [readClaim, hpc]) (by simp only [hpc, readSlot]) fun _ _ _ => rfl

/-! ## Runs with one `Next` at a time -/

theorem lone_of_run (hn : 0 < n) (hmax : 2 * n < 2 ^ bits) (hr : (machine bits n T).Run tr s)
    (hown : Along Owned tr) (hone : Along OneNext tr) (hfresh : Along Fresh tr) : Lone s :=
  hr.invariantT (I := fun _ s => Lone s) (Q := fun s a => (Owned s a ∧ Fresh s a) ∧ OneNext s a)
    (fun s h => ⟨by simp [h.2, inNext], by simp [h.2, nextPos], by simp [h.2]⟩)
    (fun _ _ _ _ hr hok hi ha h =>
      have hok := along_and.1 (along_and.1 hok).1
      hi.step (ring_of_run hn hmax hr hok.1 hok.2).placed ha.2 (step_cases h))
    (along_and.2 ⟨along_and.2 ⟨hown, hfresh⟩, hone⟩)

/-- One `Next` at a time claims fresh positions only. -/
theorem fresh_of_run (hn : 0 < n) (hmax : 2 * n < 2 ^ bits) (hr : (machine bits n T).Run tr s)
    (hown : Along Owned tr) (hone : Along OneNext tr) : Along Fresh tr :=
  hr.along_of (I := fun _ s => Lone s) (W := fun s a => Owned s a ∧ OneNext s a)
    (fun _ _ hr hw hok => lone_of_run hn hmax hr (along_and.1 hw).1 (along_and.1 hw).2 hok)
    (fun _ _ a _ hi _ => hi.fresh a) (along_and.2 ⟨hown, hone⟩)

theorem ordered_of_run (hn : 0 < n) (hmax : 2 * n < 2 ^ bits) (hr : (machine bits n T).Run tr s)
    (hown : Along Owned tr) (hone : Along OneNext tr) : Ordered bits n tr s :=
  hr.invariantT (Q := fun s a => Owned s a ∧ OneNext s a)
    (fun s h => ⟨fun _ => by simp [handed, reads], by simp [h.2, readSlot]⟩)
    (fun _ _ _ _ hr hok hi ha h =>
      have hok := along_and.1 hok
      have hfresh := fresh_of_run hn hmax hr hok.1 hok.2
      hi.step (ring_of_run hn hmax hr hok.1 hfresh) (positions_of_run hn hmax hr)
        (lone_of_run hn hmax hr hok.1 hok.2 hfresh) (step_cases h))
    (along_and.2 ⟨hown, hone⟩)

/-! ## When `Next` answers empty -/

/-- The three exits of `Next`. -/
theorem Move.answers {ix sp pc ix' pc' h} (hm : Move bits ix sp pc ix' pc' (some h)) :
    (∃ c, pc = .nextLoadWrite c ∧ c = ix.writePos ∧ h = {}) ∨
    (∃ c, pc = .nextCheckSlot c ∧ ix.load (c % ix.size) = 0 ∧ h = {}) ∨
    ∃ c v, pc = .nextClear c v ∧ h = .of (v - 1) := by
  cases hm with
  | nextNoMore hc => exact .inl ⟨_, rfl, hc, rfl⟩
  | nextUnused h0 => exact .inr (.inl ⟨_, rfl, h0, rfl⟩)
  | nextClear => exact .inr (.inr ⟨_, _, rfl, rfl⟩)

theorem Move.answers_next {ix sp pc ix' pc' h} (hm : Move bits ix sp pc ix' pc' (some h)) :
    Indexer.inNext pc = true := by
  cases hm <;> rfl

theorem loose_nil {pc} (h : inReturn pc = false) : loose pc = [] := by
  cases pc <;> first | rfl | cases h

omit [DecidableEq T] in
/-- With every slot unused and no `Return` in progress, clients hold all. -/
theorem Placed.allHeld (h : Placed bits n s) (hload : ∀ k, s.indexer.load k = 0) (hno : NoReturn s) :
    AllHeld n s := by
  intro i hi
  have hone := h.once i
  have hcount : s.indexer.indices.count (i + 1) = 0 := by
    rw [Tally.count_range]
    refine Finset.sum_eq_zero fun k _ => if_neg ?_
    rw [show s.indexer.indices.getD k 0 = 0 from hload k]
    omega
  rw [if_pos hi, hcount, Nat.zero_add] at hone
  obtain ⟨t, ht⟩ := Tally.exists_of_sum_pos s.threads (share i) (by omega)
  rw [share, loose_nil (hno t), List.count_nil, Nat.add_zero] at ht
  exact ⟨t, List.count_pos_iff.1 ht⟩

omit [DecidableEq T] in
/-- An index a `Next` is about to hand out is held by no client. -/
theorem Placed.not_held (h : Placed bits n s) {t c v} (ht : (s.threads t).pc = .nextClear c v) :
    v - 1 < n ∧ ∀ u, v - 1 ∉ (s.threads u).held := by
  obtain ⟨hl, hv⟩ := h.clears t c v ht
  have hmem : v ∈ s.indexer.indices := by
    have hk := h.sized.slot_lt c
    have hg : s.indexer.load (c % s.indexer.size) = s.indexer.indices[c % s.indexer.size] := by simp [load, hk]
    rw [← hl, hg]
    exact List.getElem_mem _
  have hone := h.once (v - 1)
  rw [show v - 1 + 1 = v by omega] at hone
  have hpos := List.count_pos_iff.2 hmem
  have hlt : v - 1 < n := by
    by_contra hge
    rw [if_neg hge] at hone
    omega
  rw [if_pos hlt] at hone
  refine ⟨hlt, fun u hu => ?_⟩
  have h₁ := List.count_pos_iff.2 hu
  have h₂ := Tally.le_sum s.threads (share (v - 1)) u
  unfold share at h₂ hone
  omega

omit [DecidableEq T] in
/-- With no position stored and not claimed, and a `Next` that has claimed
none, every slot is unused. -/
theorem Ring.drained (h : Ring bits n tr s) (hlone : Lone s) {t : T} (ht : inNext (s.threads t).pc = true)
    (hread : readSlot s.indexer.size (s.threads t).pc = none) (hRW : reads tr = n + (claims tr).length) (k : Nat) :
    s.indexer.load k = 0 := by
  rcases h.rest k fun p hp hp' => by omega with h0 | ⟨u, hu⟩
  · exact h0
  · cases hlone.one u t (readSlot_inNext hu) ht
    rw [hread] at hu
    cases hu

theorem writeSlot_inReturn {size pc i k} (h : writeSlot size pc = some (i, k)) : inReturn pc = true := by
  cases pc <;> simp_all [writeSlot, inReturn]

omit [DecidableEq T] in
/-- With no `Return` in progress, `Next` answers empty exactly when clients
hold all indices. -/
theorem Ring.answer_iff (h : Ring bits n tr s) (hpos : Positions bits n tr s) (hlag : (claims tr).length ≤ reads tr)
    (hlone : Lone s) (hno : NoReturn s) {t sp ix' pc' hold}
    (hm : Move bits s.indexer sp (s.threads t).pc ix' pc' (some hold)) : hold.empty = true ↔ AllHeld n s := by
  have hempty : ∀ {c}, inNext (s.threads t).pc = true → nextPos (s.threads t).pc = some c →
      reads tr = n + (claims tr).length → AllHeld n s := by
    intro c hnext hc hRW
    have hread : readSlot s.indexer.size (s.threads t).pc = none := by
      generalize (s.threads t).pc = pc at hc
      cases pc <;> simp_all [nextPos, readSlot]
    exact h.placed.allHeld (h.drained hlone hnext hread hRW) hno
  rcases hm.answers with ⟨c, hpc, hc, rfl⟩ | ⟨c, hpc, h0, rfl⟩ | ⟨c, v, hpc, rfl⟩
  · refine iff_of_true rfl (hempty (c := c) (by rw [hpc]; rfl) (by rw [hpc]; rfl) ?_)
    have hcur := hlone.cur t c (by rw [hpc]; rfl)
    have := hpos.sized.size; have := hpos.sized.le; have := hpos.sized.pos
    exact hpos.read.eq_of_le hpos.write h.ordered (by omega) (hcur.trans hc)
  · refine iff_of_true rfl (hempty (c := c) (by rw [hpc]; rfl) (by rw [hpc]; rfl) ?_)
    by_contra hne
    have hord := h.ordered
    have hlt : reads tr < (stored n tr).length := by rw [stored_length]; omega
    have hplace : c % s.indexer.size = reads tr % s.indexer.size := by
      rw [← hlone.cur t c (by rw [hpc]; rfl)]
      exact hpos.read.place hpos.sized.dvd
    rw [hplace] at h0
    rcases h.live _ _ (Nat.le_refl _) (List.getElem?_eq_getElem hlt) with hf | ⟨⟨u, i, hu⟩, -⟩
    · rw [hf.load] at h0; omega
    · have := hno u
      rw [writeSlot_inReturn hu] at this
      cases this
  · obtain ⟨hlt, hnot⟩ := h.placed.not_held hpc
    refine iff_of_false (by simp [IndexHolder.of]) fun hall => ?_
    obtain ⟨u, hu⟩ := hall _ hlt
    exact hnot u hu

theorem Move.inCall {ix sp pc ix' pc' h} (hm : Move bits ix sp pc ix' pc' h) :
    Indexer.inNext pc = true ∨ inReturn pc = true := by
  cases hm <;> first | exact .inl rfl | exact .inr rfl

theorem Move.gain_next {ix sp pc ix' pc' h} (hm : Move bits ix sp pc ix' pc' h) (hn : Indexer.inNext pc' = true) :
    gain h = [] := by
  cases hm <;> first | rfl | cases hn

omit [Fintype T] in
/-- A hand-over changes which clients hold an index, not whether one does. -/
theorem give_held {t u : T} {i j : Nat} (hne : t ≠ u) (hi : i ∈ (s.threads t).held) :
    (∃ x, j ∈ (((s.set t { s.threads t with held := (s.threads t).held.erase i }).set u
      { s.threads u with held := i :: (s.threads u).held }).threads x).held) ↔ ∃ x, j ∈ (s.threads x).held := by
  constructor
  · rintro ⟨x, hx⟩
    by_cases hu : x = u
    · subst hu
      rw [set_self] at hx
      rcases List.mem_cons.1 hx with rfl | hx
      · exact ⟨t, hi⟩
      · exact ⟨x, hx⟩
    · rw [set_ne hu] at hx
      by_cases ht : x = t
      · subst ht; rw [set_self] at hx; exact ⟨x, List.mem_of_mem_erase hx⟩
      · rw [set_ne ht] at hx; exact ⟨x, hx⟩
  · rintro ⟨x, hx⟩
    by_cases hij : j = i
    · exact ⟨u, by rw [set_self, hij]; exact List.mem_cons_self⟩
    · by_cases hu : x = u
      · subst hu; exact ⟨x, by rw [set_self]; exact List.mem_cons_of_mem _ hx⟩
      · by_cases ht : x = t
        · subst ht; exact ⟨x, by rw [set_ne hu, set_self]; exact (List.mem_erase_of_ne hij).2 hx⟩
        · exact ⟨x, by rw [set_ne hu, set_ne ht]; exact hx⟩

omit [Fintype T] in
/-- While a lone `Next` is in progress and no `Return` is, which indices are
held does not change. -/
theorem allHeld_step {s' : State T} {a : Act T} {t : T} (hlone : Lone s) (hone : OneNext s a) (hs : Step bits s a s')
    (ha : a ≠ .next t) (ht : inNext (s'.threads t).pc = true) (hno : NoReturn s) (hno' : NoReturn s') :
    inNext (s.threads t).pc = true ∧ (AllHeld n s ↔ AllHeld n s') := by
  cases hs with
  | @next u hpc =>
    rw [set_ne fun hut => ha (by rw [hut]), hone t] at ht
    cases ht
  | @ret u i hpc =>
    have := hno' u
    rw [set_self] at this
    cases this
  | @give u w i hne hi =>
    rw [give_pc] at ht
    exact ⟨ht, by simp only [AllHeld, give_held hne hi]⟩
  | @run u sp ix' pc' hold hm =>
    by_cases hut : u = t
    · subst hut
      rw [set_self] at ht
      refine ⟨hm.inNext ht, forall₂_congr fun j _ => exists_congr fun x => ?_⟩
      by_cases hx : x = u
      · subst hx; rw [set_self, hm.gain_next ht]; rfl
      · rw [set_ne hx]
    · rw [set_ne (Ne.symm hut)] at ht
      rcases hm.inCall with hu | hu
      · exact absurd (hlone.one u t hu ht) hut
      · rw [hno u] at hu; cases hu

theorem allHeld_call (hn : 0 < n) (hmax : 2 * n < 2 ^ bits) {t : T} (hr : (machine bits n T).Run tr s)
    (hown : Along Owned tr) (hone : Along OneNext tr) (ht : inNext (s.threads t).pc = true) (hno : NoReturn s)
    (hcall : ∀ e ∈ callOf t tr, NoReturn e.2) : ∀ e ∈ callOf t tr, (AllHeld n e.2 ↔ AllHeld n s) := by
  induction hr with
  | init => simp [callOf, moments]
  | @step tr s a s' hr hs ih =>
    rw [along_cons] at hown hone
    by_cases ha : a = .next t
    · rw [callOf, moments_here (by simp [ha])]; simp
    · have hcons : callOf t ((s, a) :: tr) = (tr, s) :: callOf t tr := moments_cons (by simp [ha])
      rw [hcons, List.forall_mem_cons] at hcall
      have hlone := lone_of_run hn hmax hr hown.2 hone.2 (fresh_of_run hn hmax hr hown.2 hone.2)
      obtain ⟨ht₀, hiff⟩ := allHeld_step (n := n) hlone hone.1 (step_cases hs) ha ht hcall.1 hno
      rw [hcons, List.forall_mem_cons]
      exact ⟨hiff, fun e he => (ih hown.2 hone.2 ht₀ hcall.1 hcall.2 e he).trans hiff⟩

/-- **A FIFO queue.** With one `Next` in progress at a time, at every moment
of every run: what has been handed out is a prefix of `0 .. n-1` followed by
what the `Return` calls brought, in the order of their claims; every index is
in one place; and a `Next` during which no `Return` is in progress answers
empty exactly when clients hold all indices. -/
theorem run_fifo (hn : 0 < n) (hmax : 2 * n < 2 ^ bits) (hr : (machine bits n T).Run tr s) (hown : Along Owned tr)
    (hone : Along OneNext tr) :
    handed bits tr <+: List.range n ++ (claims tr).map Prod.snd ∧ (∀ i < n, copies s i = 1) ∧
    ∀ a t hold, answer bits s a = some (t, hold) → (∀ e ∈ (tr, s) :: callOf t tr, NoReturn e.2) →
      ∀ e ∈ (tr, s) :: callOf t tr, (hold.empty = true ↔ AllHeld n e.2) := by
  have hfresh := fresh_of_run hn hmax hr hown hone
  have hring := ring_of_run hn hmax hr hown hfresh
  have hlone := lone_of_run hn hmax hr hown hone hfresh
  refine ⟨(ordered_of_run hn hmax hr hown hone).prefix_stored, fun _ hi => hring.placed.copies hi, ?_⟩
  intro a t hold ha hno
  rw [List.forall_mem_cons] at hno
  obtain ⟨sp, ix', pc', rfl, hm⟩ := answer_move ha
  have hiff := hring.answer_iff (positions_of_run hn hmax hr) (claims_le hr hown) hlone hno.1 hm
  have hnext := hm.answers_next
  rw [List.forall_mem_cons]
  exact ⟨hiff, fun e he => hiff.trans (allHeld_call hn hmax hr hown hone hnext hno.1 hno.2 e he).symm⟩

end

/-- Counters of two bits, which wrap at 2: a client of a pool of one takes its
index three times, and is answered empty the fourth. -/
theorem run_fifo_wrap : ∃ tr s, (machine 2 1 (Fin 1)).Run tr s ∧ handed 2 tr = [0, 0, 0] ∧
    handed 2 tr <+: [0] ++ (claims tr).map Prod.snd ∧ AllHeld 1 s := by
  have h := exists_run (m := machine 2 1 (Fin 1)) (s := initial 1 2)
    (l := [.next 0] ++ runs 0 6 ++ [.ret 0 0] ++ runs 0 4 ++ [.next 0] ++ runs 0 6 ++ [.ret 0 0] ++ runs 0 7 ++
      [.next 0] ++ runs 0 9 ++ [.next 0] ++ runs 0 1)
    (p := fun tr s => decide (Along Owned tr ∧ Along OneNext tr ∧ handed 2 tr = [0, 0, 0]) &&
      decide (answer 2 s (.run 0 false) = some (0, {}) ∧ NoReturn s ∧ ∀ e ∈ callOf (0 : Fin 1) tr, NoReturn e.2))
    ⟨rfl, fun _ => rfl⟩ (by decide +kernel)
  obtain ⟨tr, s, hr, hp⟩ := h
  simp only [Bool.and_eq_true, decide_eq_true_eq] at hp
  obtain ⟨⟨hown, hone, hh⟩, hans, hno, hcall⟩ := hp
  obtain ⟨hpre, -, hall⟩ := run_fifo (by decide) (by decide) hr hown hone
  exact ⟨tr, s, hr, hh, hpre, (hall _ 0 {} hans (List.forall_mem_cons.2 ⟨hno, hcall⟩) _ List.mem_cons_self).1 rfl⟩

end Dxpool.Indexer
