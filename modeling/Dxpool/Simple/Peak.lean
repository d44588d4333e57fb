/-
What a pool allocates in a program that only acquires and returns blocks, while
`malloc` gives what it is asked for. An acquire allocates only when every
block there is is held. So there are as many as were ever held at once, and
the counters say so (`run_peak`).
-/
import Dxpool.Simple.Session
import Mathlib.Algebra.Group.Nat.Defs
import Mathlib.Data.List.Nodup

namespace Dxpool.Simple

open Machine

def heldCount : Except Fault Session → Nat
  | .ok s => s.held.length
  | .error _ => 0

/-- The largest number of blocks held at once so far. -/
def peak : Trace (Except Fault Session) Call → Except Fault Session → Nat
  | [], r => heldCount r
  | (r, _) :: tr, r' => max (peak tr r) (heldCount r')

/-- An acquire that finds no node to take. -/
def newBlock (r : Except Fault Session) (c : Call) : Option Addr :=
  match r, c with
  | .ok s, .acquire p _ => if s.mem.heap.headOf p = NULL then some p else none
  | _, _ => none

/-- How many blocks were allocated, where `malloc` gives what it is asked for. -/
def allocations (tr : Trace (Except Fault Session) Call) : Nat := (log newBlock tr).length

/-- The calls that pass blocks around. -/
def Circulates (_ : Except Fault Session) : Call → Prop
  | .freeAll _ | .freeMemPool _ => False
  | _ => True

instance (r : Except Fault Session) (c : Call) : Decidable (Circulates r c) :=
  match c with
  | .freeAll _ | .freeMemPool _ => isFalse id
  | .allocMemPool _ | .acquire _ _ | .ret _ _ => isTrue trivial

section
variable {malloc : Malloc} {tr : Trace (Except Fault Session) Call} {s s' : Session} {p : Addr} {chain chain' out out' : List Addr}
  {q q' : MemPool} {c : Call}

theorem allocations_none (h : newBlock (.ok s) c = none) : allocations ((.ok s, c) :: tr) = allocations tr := by
  rw [allocations, log_none h]; rfl

theorem allocations_some {a : Addr} (h : newBlock (.ok s) c = some a) :
    allocations ((.ok s, c) :: tr) = allocations tr + 1 := by
  rw [allocations, log_some h, List.length_append]; rfl

theorem Open.heldCount (h : Open tr s p chain out q) : heldCount (.ok s) = out.length := by
  rw [Simple.heldCount, h.held.length_eq, List.length_map]

/-- The pool's first node is where its chain starts. -/
theorem Open.headOf_null (h : Open tr s p chain out q) : s.mem.heap.headOf p = NULL ↔ chain = [] := by
  have hl := h.kept.linked
  constructor
  · intro hnull
    rw [hnull] at hl
    cases hl with
    | nil => rfl
    | cons hne => exact absurd rfl hne
  · rintro rfl
    rw [headOf_eq h.pool, h.kept.head_null h.pool]

/-! ## The blocks there are -/

/-- Every block allocated is available or held, and there was a moment when
all were held. -/
structure Circulating (tr : Trace (Except Fault Session) Call) (s : Session) (chain out : List Addr) (q : MemPool) : Prop where
  blocks : chain.length + out.length = allocations tr
  peak : peak tr (.ok s) = allocations tr
  allocs : q.numAllocs = UInt32.ofNat (allocations tr)
  available : q.numAvailable = UInt32.ofNat chain.length

theorem Circulating.fresh {size : UInt32} (hblocks : allocations tr = 0) (hpeak : Simple.peak tr (.ok s) = 0) :
    Circulating tr s [] [] { memSize := size } where
  blocks := hblocks.symm
  peak := by rw [hpeak, hblocks]
  allocs := by rw [hblocks]; rfl
  available := rfl

/-- An acquire of the first node on the chain, or of a new one when there is none. -/
theorem Circulating.acquire {a : Addr} {failures : List Bool} (h : Circulating tr s chain out q)
    (hopen : Open tr s p chain out q) (hopen' : Open tr s' p chain' (a :: out) q') (hc : Counted chain a chain' q q') :
    Circulating ((.ok s, .acquire p failures) :: tr) s' chain' (a :: out) q' := by
  have hblocks := h.blocks
  have hpeak := h.peak
  cases hc with
  | reused hchain hallocs havailable =>
    have hsame : allocations ((.ok s, .acquire p failures) :: tr) = allocations tr := by
      refine allocations_none (if_neg fun hnull => ?_)
      rw [hchain] at hopen
      exact absurd (hopen.headOf_null.1 hnull) (List.cons_ne_nil _ _)
    rw [hchain, List.length_cons] at hblocks
    refine ⟨?_, ?_, ?_, ?_⟩
    · rw [hsame, List.length_cons]; omega
    · rw [Simple.peak, hsame, hopen'.heldCount, hpeak, List.length_cons]; omega
    · rw [hsame, hallocs, h.allocs]
    · rw [havailable, h.available, hchain, List.length_cons, UInt32.ofNat_add]
      exact UInt32.add_sub_cancel _ _
  | allocated hchain hchain' hallocs havailable =>
    have hnew : allocations ((.ok s, .acquire p failures) :: tr) = allocations tr + 1 :=
      allocations_some (a := p) (if_pos (hopen.headOf_null.2 hchain))
    rw [hchain, List.length_nil] at hblocks
    refine ⟨?_, ?_, ?_, ?_⟩
    · rw [hnew, hchain', List.length_nil, List.length_cons]; omega
    · rw [Simple.peak, hnew, hopen'.heldCount, hpeak, List.length_cons]; omega
    · rw [hnew, hallocs, h.allocs, UInt32.ofNat_add]; rfl
    · rw [havailable, h.available, hchain, hchain']

theorem Circulating.ret {a data : Addr} {failures : List Bool} (h : Circulating tr s chain out q)
    (hopen : Open tr s p chain out q) (hopen' : Open tr s' p (a :: chain) out' q') (hd : data ∈ s.held)
    (hheld : s'.held = s.held.erase data) (hallocs : q'.numAllocs = q.numAllocs)
    (havailable : q'.numAvailable = q.numAvailable + 1) :
    Circulating ((.ok s, .ret data failures) :: tr) s' (a :: chain) out' q' := by
  have hblocks := h.blocks
  have hpeak := h.peak
  have hsame : allocations ((.ok s, .ret data failures) :: tr) = allocations tr := allocations_none rfl
  have hlen := hopen.heldCount
  have hlen' := hopen'.heldCount
  simp only [heldCount] at hlen hlen'
  have hpos := List.length_pos_of_mem hd
  rw [hheld, List.length_erase_of_mem hd] at hlen'
  refine ⟨?_, ?_, ?_, ?_⟩
  · rw [hsame, List.length_cons]; omega
  · rw [Simple.peak, hsame, hopen'.heldCount, hpeak]; omega
  · rw [hsame, hallocs, h.allocs]
  · rw [havailable, h.available, List.length_cons, UInt32.ofNat_add]; rfl

inductive Circulated (tr : Trace (Except Fault Session) Call) (s : Session) : Prop
  | noPool : s.stage = .noPool → s.held = [] → s.mem.ledger = [] → (∀ a, s.mem.heap.Free a) → allocations tr = 0 →
      peak tr (.ok s) = 0 → Circulated tr s
  | pool {p : Addr} {chain out : List Addr} {q : MemPool} : Open tr s p chain out q → Circulating tr s chain out q → Circulated tr s

/-- One call that passes blocks around. -/
theorem Circulated.step (h : Circulated tr s) (hmalloc : malloc.Fresh) (hsucceeds : ∀ calls ledger, malloc calls ledger ≠ NULL)
    (hallows : s.Allows c) (hc : Circulates (.ok s) c) (hexec : s.exec malloc c = .ok s') :
    Circulated ((.ok s, c) :: tr) s' := by
  cases h with
  | noPool hstage hheld hledger hfree hblocks hpeak =>
    cases c with
    | allocMemPool size =>
      obtain ⟨t, ht, hheld', ⟨-, -, -, hnull⟩ | ⟨p, hopen⟩⟩ := exec_allocMemPool malloc tr hstage hheld hledger hfree size
      · exact absurd hnull (hsucceeds _ _)
      · cases ht.symm.trans hexec
        refine .pool hopen (.fresh ?_ ?_)
        · rw [allocations_none rfl, hblocks]
        · rw [peak, hpeak, hopen.heldCount]; rfl
    | ret => rw [Session.Allows, hheld] at hallows; cases hallows.1
    | _ => exact absurd (hstage.symm.trans hallows) (by simp)
  | @pool p chain out q hopen h =>
    cases c with
    | allocMemPool => exact absurd (hopen.stage.symm.trans hallows) (by simp)
    | acquire p' failures =>
      cases hopen.stage.symm.trans hallows
      have hsize : chain = [] → q.memSize ≠ 0 := by
        rintro rfl hzero
        simp only [Session.exec] at hexec
        rw [hopen.kept.poolMemAcquire_zero hopen.pool hzero failures] at hexec
        cases hexec
      obtain ⟨t, ht, ⟨-, calls, ledger, hnull⟩ | ⟨a, chain', q', hopen', hcounted⟩⟩ := hopen.acquire hmalloc hsize failures
      · exact absurd hnull (hsucceeds _ _)
      · cases ht.symm.trans hexec
        exact .pool hopen'.cons (h.acquire hopen hopen' hcounted)
    | ret data failures =>
      obtain ⟨t, a, out', q', ht, hopen', hheld, hallocs, havailable⟩ := hopen.ret malloc hallows.1 failures
      cases ht.symm.trans hexec
      exact .pool hopen'.cons (h.ret hopen hopen' hallows.1 hheld hallocs havailable)
    | freeAll => exact hc.elim
    | freeMemPool => exact hc.elim

theorem circulated_of_run {r : Except Fault Session} (hmalloc : malloc.Fresh)
    (hsucceeds : ∀ calls ledger, malloc calls ledger ≠ NULL) (hr : (program malloc).Run tr r) (hcalls : Along Circulates tr)
    (hs : r = .ok s) : Circulated tr s := by
  refine hr.invariantT (I := fun tr r => ∀ s, r = .ok s → Circulated tr s) ?_ ?_ hcalls s hs
  · intro r h t ht
    cases h.symm.trans ht
    exact .noPool rfl rfl rfl (fun a => ⟨rfl, rfl, rfl⟩) rfl rfl
  · intro tr r c r' _ _ ih hc hstep t ht
    cases r with
    | error => cases hstep
    | ok s =>
      simp only [program, Option.ite_none_right_eq_some, Option.some.injEq] at hstep
      obtain ⟨hallows, hexec⟩ := hstep
      exact (ih s rfl).step hmalloc hsucceeds hallows hc (hexec.trans ht)

/-- The blocks that a client holds are distinct, as their nodes are. -/
theorem Open.held_nodup (h : Open tr s p chain out q) : s.held.Nodup := by
  refine h.held.nodup_iff.2 (List.Nodup.map_on ?_ (List.nodup_append.1 h.kept.nodes_nodup).2.1)
  intro a ha b hb hd
  exact (h.kept.whole a (List.mem_append_right _ ha)).inj (h.kept.whole b (List.mem_append_right _ hb)) hd

/-- **No more than the peak demand.** However blocks are acquired and returned,
the pool has allocated as many as were held at the peak; the others are
available, on the chain from its head; and no block is held twice. -/
theorem run_peak (hmalloc : malloc.Fresh) (hsucceeds : ∀ calls ledger, malloc calls ledger ≠ NULL)
    (hr : (program malloc).Run tr (.ok s)) (hcalls : Along Circulates tr) (hstage : s.stage = .pool p)
    (hfew : allocations tr < 2 ^ 32) :
    ∃ q chain, s.mem.heap.pools p = some q ∧ Linked s.mem.heap.nextOf NULL q.head chain ∧
      q.numAllocs.toNat = peak tr (.ok s) ∧ q.numAvailable.toNat = chain.length ∧
      q.numAvailable.toNat + s.held.length = q.numAllocs.toNat ∧ s.held.Nodup := by
  cases circulated_of_run hmalloc hsucceeds hr hcalls rfl with
  | noPool hnone => rw [hstage] at hnone; cases hnone
  | @pool p' chain out q hopen h =>
    cases hopen.stage.symm.trans hstage
    have hblocks := h.blocks
    have hlen : s.held.length = out.length := hopen.heldCount
    have hallocs : q.numAllocs.toNat = allocations tr := by rw [h.allocs, UInt32.toNat_ofNat_of_lt' hfew]
    have havailable : q.numAvailable.toNat = chain.length := by
      rw [h.available]
      exact UInt32.toNat_ofNat_of_lt' (show chain.length < 2 ^ 32 by omega)
    refine ⟨q, chain, hopen.pool, ?_, ?_, havailable, ?_, hopen.held_nodup⟩
    · rw [← headOf_eq hopen.pool]; exact hopen.kept.linked
    · rw [hallocs, h.peak]
    · rw [hallocs, havailable, hlen]; exact hblocks

end

/-- Three blocks are held at once, returned out of order, and two are acquired again. -/
theorem run_peak_three : ∃ tr s q, (program above).Run tr (.ok s) ∧ s.mem.heap.pools 16 = some q ∧
    s.held.length = 2 ∧ q.numAllocs.toNat = 3 ∧ q.numAvailable.toNat = 1 := by
  have h := exists_run (m := program above) (s := .ok {})
    (l := [.allocMemPool 8, .acquire 16 [], .acquire 16 [true], .acquire 16 [], .ret 88 [], .ret 56 [true], .ret 120 [],
      .acquire 16 [true], .acquire 16 []])
    (p := fun tr r => decide (Along Circulates tr ∧ allocations tr < 2 ^ 32 ∧ peak tr r = 3) &&
      r.toOption.any fun s => decide (s.stage = .pool 16 ∧ s.held.length = 2)) rfl (by decide +kernel)
  obtain ⟨tr, r, hr, hp⟩ := h
  rw [Bool.and_eq_true] at hp
  obtain ⟨hcalls, hfew, hpeak⟩ := of_decide_eq_true hp.1
  cases r with
  | error => cases hp.2
  | ok s =>
    obtain ⟨hstage, hheld⟩ := of_decide_eq_true hp.2
    obtain ⟨q, chain, hq, -, hallocs, -, havailable, -⟩ :=
      run_peak above_fresh (fun _ _ => Nat.succ_ne_zero _) hr hcalls hstage hfew
    exact ⟨tr, s, q, hr, hq, hheld, by omega, by omega⟩

end Dxpool.Simple
