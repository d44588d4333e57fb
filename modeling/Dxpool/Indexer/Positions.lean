/-
The two counters of a `ConcurrentIndexer` over a run. `readPos` stands for
the number of positions claimed by `Next` calls, `writePos` for `n` plus the
number claimed by `Return` calls, both modulo the largest position, however
often and by however many threads they were wrapped (`positions_of_run`).

And the count of who may still write: each claim of `Next` leaves one token,
which its client holds until a `Return` claims a position with it
(`tokens_of_run`); so at most `n` positions are ever written and not read.
-/
import Dxpool.Indexer.Slots
import Dxpool.Wrap

namespace Dxpool.Indexer

open ConcurrentIndexer Machine

section
variable {T : Type}

/-- A step at which a `Next` claims a position: the thread. -/
def readClaim (s : State T) : Act T → Option T
  | .run t sp =>
    match (s.threads t).pc with
    | .nextCas c => if s.indexer.readPos = c ∧ sp = false then some t else none
    | _ => none
  | _ => none

/-- A step at which a `Return` claims a position: the thread and the index. -/
def writeClaim (s : State T) : Act T → Option (T × Nat)
  | .run t sp =>
    match (s.threads t).pc with
    | .returnCas i c => if s.indexer.writePos = c ∧ sp = false then some (t, i) else none
    | _ => none
  | _ => none

/-- How many positions the `Next` calls have claimed. -/
def reads (tr : Trace (State T) (Act T)) : Nat := (log readClaim tr).length

/-- The claims of the `Return` calls, in order. -/
def claims (tr : Trace (State T) (Act T)) : List (T × Nat) := log writeClaim tr

/-- Steps outside calls claim nothing. -/
theorem claims_call {s : State T} {a : Act T} (ha : ∀ t sp, a ≠ .run t sp) :
    readClaim s a = none ∧ writeClaim s a = none := by
  cases a with
  | run t sp => exact absurd rfl (ha t sp)
  | _ => exact ⟨rfl, rfl⟩

theorem readClaim_none {s : State T} {t : T} {sp : Bool}
    (h : ∀ c, (s.threads t).pc = .nextCas c → ¬(s.indexer.readPos = c ∧ sp = false)) :
    readClaim s (.run t sp) = none := by
  simp only [readClaim]
  split
  · rename_i c hpc; exact if_neg (h c hpc)
  · rfl

theorem writeClaim_none {s : State T} {t : T} {sp : Bool}
    (h : ∀ i c, (s.threads t).pc = .returnCas i c → ¬(s.indexer.writePos = c ∧ sp = false)) :
    writeClaim s (.run t sp) = none := by
  simp only [writeClaim]
  split
  · rename_i i c hpc; exact if_neg (h i c hpc)
  · rfl

theorem reads_none {s : State T} {a : Act T} {tr} (h : readClaim s a = none) : reads ((s, a) :: tr) = reads tr := by
  simp only [reads, log_none h]

theorem reads_some {s : State T} {a : Act T} {tr t} (h : readClaim s a = some t) :
    reads ((s, a) :: tr) = reads tr + 1 := by
  simp only [reads, log_some h, List.length_append, List.length_singleton]

theorem claims_none {s : State T} {a : Act T} {tr} (h : writeClaim s a = none) :
    claims ((s, a) :: tr) = claims tr := log_none h

theorem claims_some {s : State T} {a : Act T} {tr e} (h : writeClaim s a = some e) :
    claims ((s, a) :: tr) = claims tr ++ [e] := log_some h

end

/-- The counter value a call holds that it has not claimed yet. -/
def localPos : Pc → Option Nat
  | .nextLoadWrite c | .nextCheckSlot c | .nextCas c | .returnCas _ c => some c
  | _ => none

/-- A claim of `Next` not yet handed out, or an index about to claim a
position to be written at. -/
def token : Pc → Nat
  | .nextLoadSlot _ | .nextClear _ _ => 1
  | .returnLoadWrite _ | .returnWrapLoad _ | .returnWrapCas _ | .returnCas _ _ => 1
  | _ => 0

/-- What a move does to the counters. -/
inductive Ticks (bits : Nat) (ix : ConcurrentIndexer) (sp : Bool) :
    Pc → ConcurrentIndexer → Pc → Option IndexHolder → Prop
  | still {pc ix' pc' h} : ix'.readPos = ix.readPos → ix'.writePos = ix.writePos →
      (∀ c, pc = .nextCas c → ¬(ix.readPos = c ∧ sp = false)) →
      (∀ i c, pc = .returnCas i c → ¬(ix.writePos = c ∧ sp = false)) →
      token pc' + (gain h).length = token pc → Ticks bits ix sp pc ix' pc' h
  | wrapRead : ix.readPos = ix.maxPositionSize →
      Ticks bits ix sp .nextWrapCas { ix with readPos := 0 } .nextLoadRead none
  | wrapWrite {i} : ix.writePos = ix.maxPositionSize →
      Ticks bits ix sp (.returnWrapCas i) { ix with writePos := 0 } (.returnLoadWrite i) none
  | claimRead {c} : ix.readPos = c → sp = false →
      Ticks bits ix sp (.nextCas c) { ix with readPos := (c + 1) % 2 ^ bits } (.nextLoadSlot c) none
  | claimWrite {i c} : ix.writePos = c → sp = false →
      Ticks bits ix sp (.returnCas i c) { ix with writePos := (c + 1) % 2 ^ bits } (.returnLoadSlot i c) none

theorem Move.ticks {bits ix sp pc ix' pc' h} (hm : Move bits ix sp pc ix' pc' h) : Ticks bits ix sp pc ix' pc' h := by
  cases hm with
  | nextWrap h _ => exact .wrapRead h
  | returnWrap h _ => exact .wrapWrite h
  | nextClaim h hsp => exact .claimRead h hsp
  | returnClaim h hsp => exact .claimWrite h hsp
  | nextClaimFail hf => exact .still rfl rfl (fun c hc => by cases hc; exact hf) (by simp) rfl
  | returnClaimFail hf => exact .still rfl rfl (by simp) (fun i c hc => by cases hc; exact hf) rfl
  | _ => exact .still rfl rfl (by simp) (by simp) rfl

/-- A call's counter value was there before the move, or was just loaded. -/
theorem Move.localPos {bits ix sp pc ix' pc' h} (hm : Move bits ix sp pc ix' pc' h) {c : Nat}
    (hc : localPos pc' = some c) : Indexer.localPos pc = some c ∨
      (c = ix.readPos ∨ c = ix.writePos) ∧ c ≠ ix.maxPositionSize := by
  cases hm <;> simp only [Indexer.localPos, Option.some.injEq, reduceCtorEq] at hc ⊢ <;> subst hc <;> simp_all

section
variable {T : Type} [DecidableEq T]

/-- The counters stand for the claims of the run. -/
structure Positions (bits n : Nat) (tr : Trace (State T) (Act T)) (s : State T) : Prop where
  sized : Sized bits n s.indexer
  read : Wraps s.indexer.maxPositionSize s.indexer.readPos (reads tr)
  write : Wraps s.indexer.maxPositionSize s.indexer.writePos (n + (claims tr).length)
  below : ∀ t c, localPos (s.threads t).pc = some c → c < s.indexer.maxPositionSize

theorem Positions.init {bits n : Nat} {s : State T} (hn : 0 < n) (hmax : 2 * n < 2 ^ bits)
    (h : (machine bits n T).init s) : Positions bits n [] s := by
  obtain ⟨hc, ht⟩ := h
  obtain ⟨hr, hw, -, hsz⟩ := construct_ok hn hmax hc
  have hle : n ≤ s.indexer.maxPositionSize := by have := hsz.size; have := hsz.le; omega
  exact ⟨hsz, by rw [hr]; exact ⟨Nat.zero_le _, rfl⟩, by rw [hw]; exact ⟨hle, rfl⟩, by simp [ht, localPos]⟩

/-- A step of thread `t` leaves the other threads' stages, or is no `run`. -/
theorem Positions.below_set {bits n tr} {s : State T} (h : Positions bits n tr s) (ix' : ConcurrentIndexer) (t : T)
    (th : Thread) (hM : ix'.maxPositionSize = s.indexer.maxPositionSize)
    (hth : ∀ c, localPos th.pc = some c → c < s.indexer.maxPositionSize) :
    ∀ x c, localPos (({ s with indexer := ix' }.set t th).threads x).pc = some c → c < ix'.maxPositionSize := by
  intro x c hx
  rw [hM]
  by_cases hxt : x = t
  · subst hxt; rw [set_self] at hx; exact hth c hx
  · rw [set_ne hxt] at hx; exact h.below x c hx

theorem Positions.step {bits n tr} {s s' : State T} {a : Act T} (h : Positions bits n tr s) (hs : Step bits s a s') :
    Positions bits n ((s, a) :: tr) s' := by
  cases hs with
  | @next t hpc =>
    obtain ⟨hr, hw⟩ := claims_call (s := s) (a := .next t) (by simp)
    refine ⟨h.sized, by rw [reads_none hr]; exact h.read, by rw [claims_none hw]; exact h.write, ?_⟩
    exact h.below_set s.indexer t _ rfl (by simp [localPos])
  | @ret t i hpc =>
    obtain ⟨hr, hw⟩ := claims_call (s := s) (a := .ret t i) (by simp)
    refine ⟨h.sized, by rw [reads_none hr]; exact h.read, by rw [claims_none hw]; exact h.write, ?_⟩
    exact h.below_set s.indexer t _ rfl (by simp [localPos])
  | @give t u i hne hi =>
    obtain ⟨hr, hw⟩ := claims_call (s := s) (a := .give t u i) (by simp)
    refine ⟨h.sized, by rw [reads_none hr]; exact h.read, by rw [claims_none hw]; exact h.write, fun x c hx => ?_⟩
    rw [give_pc] at hx
    exact h.below x c hx
  | @run t sp ix' pc' hold hm =>
    have hsz := hm.sized h.sized
    have hM := hm.maxPositionSize
    have hbelow : ∀ c, localPos pc' = some c → c < s.indexer.maxPositionSize := by
      intro c hc
      rcases hm.localPos hc with hold | ⟨hcur, hne⟩
      · exact h.below t c hold
      · have := h.read.le; have := h.write.le
        rcases hcur with rfl | rfl <;> omega
    have hlt := h.sized.lt
    have hb := h.below_set ix' t { pc := pc', held := gain hold ++ (s.threads t).held } hM hbelow
    generalize hpc : (s.threads t).pc = pc at hm
    cases hm.ticks with
    | still hr hw hnr hnw htok =>
      have h₁ := readClaim_none (s := s) (t := t) fun c hc => hnr c (hpc ▸ hc)
      have h₂ := writeClaim_none (s := s) (t := t) fun i c hc => hnw i c (hpc ▸ hc)
      refine ⟨hsz, ?_, ?_, hb⟩
      · rw [reads_none h₁, set_indexer, hM, hr]; exact h.read
      · rw [claims_none h₂, set_indexer, hM, hw]; exact h.write
    | wrapRead hmax =>
      have h₁ : readClaim s (.run t sp) = none := by simp [readClaim, hpc]
      have h₂ : writeClaim s (.run t sp) = none := by simp [writeClaim, hpc]
      refine ⟨hsz, ?_, by rw [claims_none h₂]; exact h.write, hb⟩
      rw [reads_none h₁]
      exact (hmax ▸ h.read : Wraps s.indexer.maxPositionSize s.indexer.maxPositionSize _).wrap
    | wrapWrite hmax =>
      have h₁ : readClaim s (.run t sp) = none := by simp [readClaim, hpc]
      have h₂ : writeClaim s (.run t sp) = none := by simp [writeClaim, hpc]
      refine ⟨hsz, by rw [reads_none h₁]; exact h.read, ?_, hb⟩
      rw [claims_none h₂]
      exact (hmax ▸ h.write : Wraps s.indexer.maxPositionSize s.indexer.maxPositionSize _).wrap
    | @claimRead c hr hsp =>
      have h₁ : readClaim s (.run t sp) = some t := by simp [readClaim, hpc, hr, hsp]
      have h₂ : writeClaim s (.run t sp) = none := by simp [writeClaim, hpc]
      have hc := h.below t c (by simp [hpc, localPos])
      refine ⟨hsz, ?_, by rw [claims_none h₂]; exact h.write, hb⟩
      rw [reads_some h₁, set_indexer]
      simp only [Nat.mod_eq_of_lt (show c + 1 < 2 ^ bits by omega)]
      exact (hr ▸ h.read).advance (by omega)
    | @claimWrite i c hw hsp =>
      have h₁ : readClaim s (.run t sp) = none := by simp [readClaim, hpc]
      have h₂ : writeClaim s (.run t sp) = some (t, i) := by simp [writeClaim, hpc, hw, hsp]
      have hc := h.below t c (by simp [hpc, localPos])
      refine ⟨hsz, by rw [reads_none h₁]; exact h.read, ?_, hb⟩
      rw [claims_some h₂, set_indexer, List.length_append, List.length_singleton]
      simp only [Nat.mod_eq_of_lt (show c + 1 < 2 ^ bits by omega)]
      exact (hw ▸ h.write).advance (by omega)

/-- The counters over a run, whatever the clients return. -/
theorem positions_of_run {bits n : Nat} (hn : 0 < n) (hmax : 2 * n < 2 ^ bits) {tr : Trace (State T) (Act T)}
    {s : State T} (hr : (machine bits n T).Run tr s) : Positions bits n tr s :=
  hr.invariantT (Q := fun _ _ => True) (fun _ h => .init hn hmax h)
    (fun _ _ _ _ _ _ hi _ h => hi.step (step_cases h)) (fun _ _ => trivial)

/-! ## Tokens -/

/-- The tokens of a thread: what it holds, and what its call carries before a
claim of `Return` or after one of `Next`. -/
def tokens (th : Thread) : Nat := th.held.length + token th.pc

variable [Fintype T]

theorem tokens_step {s s' : State T} {a : Act T} {bits} (hown : Owned s a) (hs : Step bits s a s')
    {tr : Trace (State T) (Act T)} (h : reads tr = (claims tr).length + ∑ t, tokens (s.threads t)) :
    reads ((s, a) :: tr) = (claims ((s, a) :: tr)).length + ∑ t, tokens (s'.threads t) := by
  have hset : ∀ (s : State T) (t : T) (th : Thread),
      (∑ u, tokens ((s.set t th).threads u)) + tokens (s.threads t) = (∑ u, tokens (s.threads u)) + tokens th :=
    fun s t th => Tally.sum_update s.threads tokens t th
  cases hs with
  | @next t hpc =>
    obtain ⟨hr, hw⟩ := claims_call (s := s) (a := .next t) (by simp)
    have := hset s t { s.threads t with pc := .nextLoadRead }
    rw [reads_none hr, claims_none hw]
    simp only [tokens, token, hpc] at *
    omega
  | @ret t i hpc =>
    obtain ⟨hr, hw⟩ := claims_call (s := s) (a := .ret t i) (by simp)
    have := hset s t { pc := .returnLoadWrite i, held := (s.threads t).held.erase i }
    have hi : i ∈ (s.threads t).held := hown
    have := List.length_pos_of_mem hi
    have := List.length_erase_of_mem hi
    rw [reads_none hr, claims_none hw]
    simp only [tokens, token, hpc] at *
    omega
  | @give t u i hne hi =>
    obtain ⟨hr, hw⟩ := claims_call (s := s) (a := .give t u i) (by simp)
    have h₁ := hset s t { s.threads t with held := (s.threads t).held.erase i }
    have h₂ := hset (s.set t { s.threads t with held := (s.threads t).held.erase i }) u
      { s.threads u with held := i :: (s.threads u).held }
    have := List.length_pos_of_mem hi
    have := List.length_erase_of_mem hi
    rw [reads_none hr, claims_none hw]
    rw [set_ne (Ne.symm hne)] at h₂
    simp only [tokens, List.length_cons] at *
    omega
  | @run t sp ix' pc' hold hm =>
    have hsum := hset { s with indexer := ix' } t { pc := pc', held := gain hold ++ (s.threads t).held }
    generalize hpc : (s.threads t).pc = pc at hm
    cases hm.ticks with
    | still _ _ hnr hnw htok =>
      rw [reads_none (readClaim_none fun c hc => hnr c (hpc ▸ hc)),
        claims_none (writeClaim_none fun i c hc => hnw i c (hpc ▸ hc))]
      simp only [tokens, hpc, List.length_append] at *
      omega
    | wrapRead hmax =>
      rw [reads_none (by simp [readClaim, hpc]), claims_none (by simp [writeClaim, hpc])]
      simp only [tokens, hpc, gain_none, List.nil_append, token] at *
      omega
    | wrapWrite hmax =>
      rw [reads_none (by simp [readClaim, hpc]), claims_none (by simp [writeClaim, hpc])]
      simp only [tokens, hpc, gain_none, List.nil_append, token] at *
      omega
    | @claimRead c hr hsp =>
      rw [reads_some (t := t) (by simp [readClaim, hpc, hr, hsp]), claims_none (by simp [writeClaim, hpc])]
      simp only [tokens, hpc, gain_none, List.nil_append, token] at *
      omega
    | @claimWrite i c hw hsp =>
      rw [reads_none (by simp [readClaim, hpc]), claims_some (e := (t, i)) (by simp [writeClaim, hpc, hw, hsp])]
      simp only [tokens, hpc, gain_none, List.nil_append, token, List.length_append, List.length_singleton] at *
      omega

/-- Each claim of `Next` leaves one token until a claim of `Return` uses it. -/
theorem tokens_of_run {bits n : Nat} {tr : Trace (State T) (Act T)} {s : State T} (hr : (machine bits n T).Run tr s)
    (hown : Along Owned tr) : reads tr = (claims tr).length + ∑ t, tokens (s.threads t) :=
  hr.invariantT (I := fun tr s => reads tr = (claims tr).length + ∑ t, tokens (s.threads t)) (Q := Owned)
    (fun s h => by simp [reads, claims, h.2, tokens, token])
    (fun _ _ _ _ _ _ hi ha h => tokens_step ha (step_cases h) hi) hown

/-- At most `n` positions are written, or claimed to be, and not read. -/
theorem claims_le {bits n : Nat} {tr : Trace (State T) (Act T)} {s : State T} (hr : (machine bits n T).Run tr s)
    (hown : Along Owned tr) : (claims tr).length ≤ reads tr := by
  rw [tokens_of_run hr hown]
  exact Nat.le_add_right _ _

end

end Dxpool.Indexer
