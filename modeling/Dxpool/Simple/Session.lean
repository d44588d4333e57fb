/-
A program that uses one pool, whichever of its calls of `malloc` fail. What is
live is the pool, and the two allocations of every node: of those on the chain
from the head, and of those whose data the client holds (`Kept`). So nothing is
released twice or read after its release. The program ends in no fault but the
assertion that the blocks have a size, and what is live is accounted for after
every call (`Balanced`): when the pool is freed with every block returned, that is
nothing (`run_balanced`).
-/
import Dxpool.Simple.Stock

namespace Dxpool.Simple

open Machine

/-- The pool was created for blocks of no bytes. -/
def Sizeless (tr : Trace (Except Fault Session) Call) : Prop := ∃ r, (r, .allocMemPool 0) ∈ tr

/-- Pool `p` has the nodes of `chain` to give out, and those of `out` are with
the client; they and the pool are what is live. -/
abbrev Kept (m : Mem) (p : Addr) (chain out : List Addr) : Prop := Stock m p chain out []

/-- The client has pool `p`, and holds the data of the nodes of `out`. -/
structure Open (tr : Trace (Except Fault Session) Call) (s : Session) (p : Addr) (chain out : List Addr) (q : MemPool) :
    Prop where
  stage : s.stage = .pool p
  kept : Kept s.mem p chain out
  pool : s.mem.heap.pools p = some q
  held : s.held.Perm (out.map s.mem.heap.dataOf)
  size : q.memSize = 0 → Sizeless tr

inductive Balanced (tr : Trace (Except Fault Session) Call) (s : Session) : Prop
  | noPool : s.stage = .noPool → s.held = [] → s.mem.ledger = [] → (∀ a, s.mem.heap.Free a) → Balanced tr s
  | pool {p chain out q} : Open tr s p chain out q → Balanced tr s
  | freed : s.stage = .freed → (s.held = [] → s.mem.ledger = []) → Balanced tr s

section
variable {malloc : Malloc} {tr : Trace (Except Fault Session) Call} {s : Session} {p : Addr} {chain out : List Addr}
  {q : MemPool}

theorem Sizeless.cons {e : Except Fault Session × Call} (h : Sizeless tr) : Sizeless (e :: tr) := by
  obtain ⟨r, hr⟩ := h
  exact ⟨r, List.mem_cons_of_mem _ hr⟩

theorem Open.cons {e : Except Fault Session × Call} (h : Open tr s p chain out q) : Open (e :: tr) s p chain out q :=
  ⟨h.stage, h.kept, h.pool, h.held, fun hz => (h.size hz).cons⟩

/-! ## Calls -/

variable (malloc tr) in
/-- `alloc_mem_pool` in a program that has nothing. -/
theorem exec_allocMemPool (hstage : s.stage = .noPool) (hheld : s.held = [])
    (hledger : s.mem.ledger = []) (hfree : ∀ a, s.mem.heap.Free a) (size : UInt32) :
    ∃ s', s.exec malloc (.allocMemPool size) = .ok s' ∧ s'.held = [] ∧
      (s'.stage = .noPool ∧ s'.mem.ledger = [] ∧ (∀ a, s'.mem.heap.Free a) ∧ malloc s.mem.calls [] = NULL ∨
        ∃ p, Open ((.ok s, .allocMemPool size) :: tr) s' p [] [] { memSize := size }) := by
  by_cases hnull : malloc s.mem.calls [] = NULL
  · refine ⟨{ s with mem := { s.mem with calls := s.mem.calls + 1 } }, ?_, hheld, .inl ⟨hstage, hledger, hfree, hnull⟩⟩
    simp only [Session.exec, allocMemPool, Mem.alloc, hledger, hnull, if_true, hstage]
  · generalize hp : malloc s.mem.calls [] = p at hnull
    let mem : Mem := { s.mem with ledger := [p], calls := s.mem.calls + 1 }
    refine ⟨{ s with mem := mem.setPool p { memSize := size }, stage := .pool p }, ?_, hheld, .inr ⟨p, rfl,
      ⟨?_, by simp, .refl _, by simp [mem], by simpa [mem] using Ne.symm hnull, fun a ha => ?_⟩, setPool_self,
      by rw [hheld]; exact .refl _, fun hz => ⟨.ok s, ?_⟩⟩⟩
    · simp only [Session.exec, allocMemPool, Mem.alloc, hledger, hp, hnull, if_false, mem]
    · rw [mem_setPool_heap, setPool_headOf, if_pos rfl]
      exact .nil
    · obtain ⟨hn, hp, hb⟩ := hfree a
      have hap : a ≠ p := by simpa [mem] using ha
      exact ⟨hn, by rw [mem_setPool_heap, setPool_pools, if_neg hap]; exact hp, hb⟩
    · simp only at hz
      rw [hz]
      exact List.mem_cons_self

/-- `pool_mem_acquire` fails and changes nothing, or hands out a block. -/
theorem Open.acquire (h : Open tr s p chain out q) (hmalloc : malloc.Fresh) (hsize : chain = [] → q.memSize ≠ 0)
    (failures : List Bool) : ∃ s', s.exec malloc (.acquire p failures) = .ok s' ∧
      ((Open tr s' p chain out q ∧ ∃ calls ledger, malloc calls ledger = NULL) ∨
        ∃ a chain' q', Open tr s' p chain' (a :: out) q' ∧ Counted chain a chain' q q') := by
  simp only [Session.exec]
  rcases h.kept.poolMemAcquire hmalloc h.pool hsize failures with
    ⟨m', hacquire, hheap, hledger, hnull⟩ | ⟨a, chain', m', q', hacquire, hkept, -, hq', hsame, hcounted, hdata⟩
  · rw [hacquire]
    refine ⟨_, rfl, .inl ⟨⟨h.stage, h.kept.of_eq hheap hledger, by rw [hheap]; exact h.pool, ?_, h.size⟩, hnull⟩⟩
    simp only [if_true, hheap]
    exact h.held
  · rw [hacquire]
    have hw := hkept.whole a (List.mem_append_right _ List.mem_cons_self)
    have hne : m'.heap.dataOf a ≠ NULL := by rw [hw.dataOf]; exact Nat.succ_ne_zero _
    refine ⟨_, rfl, .inr ⟨a, chain', q', ⟨h.stage, hkept, pools_update hq', ?_, fun hz => h.size (hsame ▸ hz)⟩, hcounted⟩⟩
    simp only [if_neg hne, List.map_cons]
    rw [List.map_congr_left hdata]
    exact h.held.cons _

/-- The node of a block that the client holds. -/
theorem Open.node (h : Open tr s p chain out q) {data : Addr} (hd : data ∈ s.held) :
    ∃ a out', data = s.mem.heap.dataOf a ∧ out.Perm (a :: out') ∧ Kept s.mem p chain (a :: out') := by
  obtain ⟨a, ha, rfl⟩ := List.mem_map.1 (h.held.mem_iff.1 hd)
  have hperm := List.perm_cons_erase ha
  exact ⟨a, out.erase a, rfl, hperm, h.kept.perm hperm⟩

variable (malloc) in
/-- `pool_mem_return` takes a block back. -/
theorem Open.ret (h : Open tr s p chain out q) {data : Addr} (hd : data ∈ s.held) (failures : List Bool) :
    ∃ s' a out' q', s.exec malloc (.ret data failures) = .ok s' ∧ Open tr s' p (a :: chain) out' q' ∧
      s'.held = s.held.erase data ∧ q'.numAllocs = q.numAllocs ∧ q'.numAvailable = q.numAvailable + 1 := by
  obtain ⟨a, out', rfl, hperm, hkept⟩ := h.node hd
  obtain ⟨m', q', hreturn, hkept', -, hq', hsize, hallocs, havailable, hdata⟩ := hkept.poolMemReturn h.pool failures
  simp only [Session.exec]
  rw [hreturn]
  refine ⟨_, a, out', q', rfl, ⟨h.stage, hkept', pools_update hq', ?_, fun hz => h.size (hsize ▸ hz)⟩, rfl, hallocs, havailable⟩
  have hheld := (h.held.trans (hperm.map s.mem.heap.dataOf)).erase (s.mem.heap.dataOf a)
  rw [List.map_cons, List.erase_cons_head] at hheld
  rw [List.map_congr_left fun x _ => hdata x]
  exact hheld

variable (malloc) in
/-- `pool_mem_free_all` empties the chain. -/
theorem Open.freeAll (h : Open tr s p chain out q) :
    ∃ s' q', s.exec malloc (.freeAll p) = .ok s' ∧ Open tr s' p [] out q' := by
  obtain ⟨m', q', hloop, hkept, -, hq', hsize, -, hdata⟩ := h.kept.poolMemFreeAll h.pool
  simp only [Session.exec]
  rw [hloop _ h.kept.length_le]
  refine ⟨_, q', rfl, ⟨h.stage, hkept, hq', ?_, fun hz => h.size (hsize ▸ hz)⟩⟩
  rw [List.map_congr_left hdata]
  exact h.held

variable (malloc) in
theorem Open.freeMemPool (h : Open tr s p chain out q) : ∃ s', s.exec malloc (.freeMemPool p) = .ok s' ∧
    s'.stage = .freed ∧ (s'.held = [] → s'.mem.ledger = []) := by
  obtain ⟨m', hfree, hledger, -⟩ := h.kept.freeMemPool h.pool
  simp only [Session.exec]
  rw [hfree]
  refine ⟨_, rfl, rfl, fun hheld => ?_⟩
  have hperm := h.held
  rw [show s.held = [] from hheld] at hperm
  rw [List.map_eq_nil_iff.1 hperm.symm.eq_nil] at hledger
  exact hledger.eq_nil

/-- One call, whatever it is about. -/
theorem Balanced.step (h : Balanced tr s) (hmalloc : malloc.Fresh) {c : Call} (hc : s.Allows c) :
    (∃ s', s.exec malloc c = .ok s' ∧ Balanced ((.ok s, c) :: tr) s') ∨
      s.exec malloc c = .error .assertion ∧ Sizeless tr := by
  cases h with
  | noPool hstage hheld hledger hfree =>
    cases c with
    | allocMemPool size =>
      obtain ⟨s', hexec, hheld', ⟨hstage', hledger', hfree', -⟩ | ⟨p, hopen⟩⟩ :=
        exec_allocMemPool malloc tr hstage hheld hledger hfree size
      · exact .inl ⟨s', hexec, .noPool hstage' hheld' hledger' hfree'⟩
      · exact .inl ⟨s', hexec, .pool hopen⟩
    | ret => rw [Session.Allows, hheld] at hc; cases hc.1
    | _ => exact absurd (hstage.symm.trans hc) (by simp)
  | @pool p chain out q hopen =>
    cases c with
    | allocMemPool => exact absurd (hopen.stage.symm.trans hc) (by simp)
    | acquire p' failures =>
      cases hopen.stage.symm.trans hc
      by_cases hzero : chain = [] ∧ q.memSize = 0
      · obtain ⟨rfl, hz⟩ := hzero
        refine .inr ⟨?_, hopen.size hz⟩
        simp only [Session.exec]
        rw [hopen.kept.poolMemAcquire_zero hopen.pool hz failures]
        rfl
      · obtain ⟨s', hexec, ⟨hopen', -⟩ | ⟨a, chain', q', hopen', -⟩⟩ :=
          hopen.acquire hmalloc (fun hnil hz => hzero ⟨hnil, hz⟩) failures
        · exact .inl ⟨s', hexec, .pool hopen'.cons⟩
        · exact .inl ⟨s', hexec, .pool hopen'.cons⟩
    | ret data failures =>
      obtain ⟨s', a, out', q', hexec, hopen', -⟩ := hopen.ret malloc hc.1 failures
      exact .inl ⟨s', hexec, .pool hopen'.cons⟩
    | freeAll p' =>
      cases hopen.stage.symm.trans hc
      obtain ⟨s', q', hexec, hopen'⟩ := hopen.freeAll malloc
      exact .inl ⟨s', hexec, .pool hopen'.cons⟩
    | freeMemPool p' =>
      cases hopen.stage.symm.trans hc
      obtain ⟨s', hexec, hstage, hempty⟩ := hopen.freeMemPool malloc
      exact .inl ⟨s', hexec, .freed hstage hempty⟩
  | freed hstage hempty =>
    cases c with
    | ret =>
      obtain ⟨p, hp⟩ := hc.2
      rw [hstage] at hp
      cases hp
    | _ => exact absurd (hstage.symm.trans hc) (by simp)

/-- What every call leaves. -/
theorem balanced_of_run {r : Except Fault Session} (hmalloc : malloc.Fresh) (hr : (program malloc).Run tr r) :
    (∀ s, r = .ok s → Balanced tr s) ∧ ∀ e, r = .error e → e = .assertion ∧ Sizeless tr := by
  induction hr with
  | init h =>
    refine ⟨fun s hs => ?_, fun e he => ?_⟩
    · cases h.symm.trans hs
      exact .noPool rfl rfl rfl fun a => ⟨rfl, rfl, rfl⟩
    · cases h.symm.trans he
  | @step tr r c r' hr hs ih =>
    cases r with
    | error => cases hs
    | ok s =>
      simp only [program, Option.ite_none_right_eq_some, Option.some.injEq] at hs
      obtain ⟨hc, rfl⟩ := hs
      rcases (ih.1 s rfl).step hmalloc hc with ⟨s', hexec, hbalanced⟩ | ⟨hexec, hsizeless⟩
      · refine ⟨fun t ht => ?_, fun e he => ?_⟩
        · cases hexec.symm.trans ht; exact hbalanced
        · cases hexec.symm.trans he
      · refine ⟨fun t ht => ?_, fun e he => ?_⟩
        · cases hexec.symm.trans ht
        · cases hexec.symm.trans he; exact ⟨rfl, hsizeless.cons⟩

/-- What holds of a pool that a client has, whatever it and `malloc` did before:
an acquire that fails changes nothing; `pool_mem_free_all` ends, releases both
allocations of each node on the chain and nothing else, and leaves the blocks
that are held to be returned. -/
structure Accounted (malloc : Malloc) (s : Session) (p : Addr) : Prop where
  acquire : ∀ failures m, poolMemAcquire malloc s.mem p failures = .ok (NULL, m) →
    m.heap = s.mem.heap ∧ m.ledger = s.mem.ledger
  freeAll : ∃ nodes m, Linked s.mem.heap.nextOf NULL (s.mem.heap.headOf p) nodes ∧
    (∀ fuel, nodes.length ≤ fuel → poolMemFreeAll fuel s.mem p = .ok m) ∧
    s.mem.ledger.Perm (nodes.flatMap s.mem.heap.parts ++ m.ledger) ∧ m.heap.headOf p = NULL ∧
    ∀ data ∈ s.held, data - headerSize ∈ m.ledger ∧ ∀ failures, ∃ m', poolMemReturn m data failures = .ok m'

theorem Open.accounted (h : Open tr s p chain out q) (hmalloc : malloc.Fresh) : Accounted malloc s p where
  acquire failures m hm := by
    by_cases hzero : chain = [] ∧ q.memSize = 0
    · obtain ⟨rfl, hz⟩ := hzero
      cases (h.kept.poolMemAcquire_zero h.pool hz failures).symm.trans hm
    · rcases h.kept.poolMemAcquire hmalloc h.pool (fun hnil hz => hzero ⟨hnil, hz⟩) failures with
        ⟨m', hacquire, hheap, hledger, -⟩ | ⟨a, chain', m', q', hacquire, hkept, -⟩
      · cases hacquire.symm.trans hm
        exact ⟨hheap, hledger⟩
      · have heq := hacquire.symm.trans hm
        simp only [Except.ok.injEq, Prod.mk.injEq] at heq
        have hw := hkept.whole a (List.mem_append_right _ List.mem_cons_self)
        rw [hw.dataOf] at heq
        exact absurd heq.1 (Nat.succ_ne_zero _)
  freeAll := by
    obtain ⟨m', q', hloop, hkept, -, hq', hsize, hledger, hdata⟩ := h.kept.poolMemFreeAll h.pool
    have hopen : Open tr { s with mem := m' } p [] out q' :=
      ⟨h.stage, hkept, hq', by rw [List.map_congr_left hdata]; exact h.held, fun hz => h.size (hsize ▸ hz)⟩
    refine ⟨chain, m', h.kept.linked, hloop, hledger, ?_, fun data hd => ?_⟩
    · rw [headOf_eq hq', hkept.head_null hq']
    · obtain ⟨a, out', rfl, -, hkept'⟩ := hopen.node hd
      refine ⟨(hkept'.mem_parts (List.mem_append_right _ List.mem_cons_self)).2, fun failures => ?_⟩
      obtain ⟨m'', -, hreturn, -⟩ := hkept'.poolMemReturn hq' failures
      exact ⟨m'', hreturn⟩

/-- **The ledger balances.** Whichever calls of `malloc` fail, a program ends in
no fault but the assertion of a size; every pool is accounted for; and when
it is freed with every block returned, nothing is live. -/
theorem run_balanced {r : Except Fault Session} (hmalloc : malloc.Fresh) (hr : (program malloc).Run tr r) :
    (∀ e, r = .error e → e = .assertion ∧ Sizeless tr) ∧
    ∀ s, r = .ok s → (∀ p, s.stage = .pool p → Accounted malloc s p) ∧
      (s.stage = .freed → s.held = [] → s.mem.ledger = []) := by
  obtain ⟨hok, herror⟩ := balanced_of_run hmalloc hr
  refine ⟨herror, fun s hs => ⟨fun p hp => ?_, fun hf => ?_⟩⟩
  · cases hok s hs with
    | noPool hstage => rw [hp] at hstage; cases hstage
    | pool hopen =>
      have heq := hopen.stage.symm.trans hp
      cases heq
      exact hopen.accounted hmalloc
    | freed hstage => rw [hp] at hstage; cases hstage
  · cases hok s hs with
    | noPool hstage => rw [hf] at hstage; cases hstage
    | pool hopen => rw [hopen.stage] at hf; cases hf
    | freed _ hempty => exact hempty

end

/-- An allocator that gives addresses above all that are live. -/
def above : Malloc := fun _ ledger => ledger.foldr max 0 + 16

theorem above_fresh : above.Fresh := by
  intro calls ledger _ hmem
  have hle : ∀ (l : List Nat), ∀ a ∈ l, a ≤ l.foldr max 0 := by
    intro l
    induction l with
    | nil => simp
    | cons b l ih =>
      simp only [List.forall_mem_cons, List.foldr_cons]
      exact ⟨Nat.le_max_left _ _, fun a ha => Nat.le_trans (ih a ha) (Nat.le_max_right _ _)⟩
  exact absurd (hle _ _ hmem) (by simp only [above]; omega)

/-- The same, but one call fails. -/
def aboveBut (failing : Nat) : Malloc := fun calls ledger => if calls = failing then NULL else above calls ledger

theorem aboveBut_fresh (failing : Nat) : (aboveBut failing).Fresh := by
  intro calls ledger hne
  unfold aboveBut at hne ⊢
  split at hne
  · exact absurd rfl hne
  · rename_i hcalls
    rw [if_neg hcalls]
    exact above_fresh calls ledger hne

/-- The second acquire gets a node and no data area for it; the pool is emptied
while a block is held, and freed when all are back. -/
theorem run_balanced_four : ∃ tr s, (program (aboveBut 4)).Run tr (.ok s) ∧ s.stage = .freed ∧ s.mem.calls = 9 ∧
    s.mem.ledger = [] := by
  have h := exists_run (m := program (aboveBut 4)) (s := .ok {})
    (l := [.allocMemPool 8, .acquire 16 [], .acquire 16 [], .acquire 16 [true], .ret 56 [true], .freeAll 16,
      .acquire 16 [], .ret 88 [], .ret 120 [], .freeMemPool 16])
    (p := fun _ r => r.toOption.any fun s => decide (s.stage = .freed ∧ s.mem.calls = 9 ∧ s.held = [])) rfl (by decide +kernel)
  obtain ⟨tr, r, hr, hp⟩ := h
  cases r with
  | error => cases hp
  | ok s =>
    obtain ⟨hstage, hcalls, hheld⟩ := of_decide_eq_true hp
    exact ⟨tr, s, hr, hstage, hcalls, ((run_balanced (aboveBut_fresh 4) hr).2 s rfl).2 hstage hheld⟩

end Dxpool.Simple
