/-
What a step of the memory pool machine can be: one case for each operation
and outcome (`Move`), one for each action (`Step`), as for the indexer; and
what every step leaves as it was (`Grows`).
-/
import Dxpool.Simple.Pool

namespace Dxpool.Simple

/-! ## The heap -/

/-- `node->next`. -/
def Heap.nextOf (h : Heap) (a : Addr) : Addr := (h.nodes a).elim NULL (·.next)

/-- The data of a node. -/
def Heap.dataOf (h : Heap) (a : Addr) : Addr := (h.nodes a).elim NULL (·.data)

/-- `pool->head`. -/
def Heap.headOf (h : Heap) (p : Addr) : Addr := (h.pools p).elim NULL (·.head)

/-- The pool that a block belongs to. -/
def Heap.poolOf (h : Heap) (data : Addr) : Option Addr := ((h.getMemnodeInData data).bind h.nodes).map (·.pool)

section
variable {h : Heap} {a b : Addr}

@[simp] theorem setNode_pools (m : MemNode) : (h.setNode a m).pools = h.pools := rfl
@[simp] theorem setNode_blocks (m : MemNode) : (h.setNode a m).blocks = h.blocks := rfl
@[simp] theorem setPool_nodes (p : MemPool) : (h.setPool a p).nodes = h.nodes := rfl
@[simp] theorem setPool_blocks (p : MemPool) : (h.setPool a p).blocks = h.blocks := rfl
@[simp] theorem setBlock_nodes (k : Block) : (h.setBlock a k).nodes = h.nodes := rfl

theorem setNode_nodes (m : MemNode) : (h.setNode a m).nodes b = if b = a then some m else h.nodes b := by
  simp [Heap.setNode, Function.update_apply]

theorem setPool_pools (p : MemPool) : (h.setPool a p).pools b = if b = a then some p else h.pools b := by
  simp [Heap.setPool, Function.update_apply]

theorem setBlock_blocks (k : Block) : (h.setBlock a k).blocks b = if b = a then some k else h.blocks b := by
  simp [Heap.setBlock, Function.update_apply]

@[simp] theorem setPool_nextOf (p : MemPool) : (h.setPool a p).nextOf b = h.nextOf b := rfl

theorem setPool_headOf (p : MemPool) : (h.setPool a p).headOf b = if b = a then p.head else h.headOf b := by
  simp only [Heap.headOf, setPool_pools]
  split <;> rfl

theorem headOf_eq {q : MemPool} (hq : h.pools a = some q) : h.headOf a = q.head := by
  rw [Heap.headOf, hq, Option.elim_some]

theorem nextOf_eq {m : MemNode} (hm : h.nodes a = some m) : h.nextOf a = m.next := by
  rw [Heap.nextOf, hm, Option.elim_some]

/-- A change to a pool that keeps its head. -/
theorem setPool_headOf_eq {q q' : MemPool} (hq : h.pools a = some q) (hhead : q'.head = q.head) :
    (h.setPool a q').headOf b = h.headOf b := by
  rw [setPool_headOf]
  split
  · subst_vars; rw [hhead, headOf_eq hq]
  · rfl

theorem setNode_nextOf (m : MemNode) : (h.setNode a m).nextOf b = if b = a then m.next else h.nextOf b := by
  simp only [Heap.nextOf, setNode_nodes]
  split <;> rfl

theorem alloc_nodes (p : MemPool) {n d} : (h.allocPoolableMem a p n d).nodes b =
    if b = n then some { next := NULL, data := d + headerSize, pool := a } else h.nodes b := by
  rw [Heap.allocPoolableMem, setBlock_nodes, setNode_nodes]

/-- A new node ends its chain, as a place without a node does. -/
theorem alloc_nextOf (p : MemPool) {n d} (hn : h.nodes n = none) :
    (h.allocPoolableMem a p n d).nextOf b = h.nextOf b := by
  simp only [Heap.nextOf, alloc_nodes]
  split
  · subst_vars; rw [hn]; rfl
  · rfl

end

/-- `k` atomic operations of thread `t` in a row, none of them a `malloc` that succeeds. -/
def runs {T : Type} (t : T) (k : Nat) : List (Act T) := List.replicate k (.run t false (NULL, NULL))

/-! ## Moves -/

/-- The pool of the call a thread is in. -/
def Pc.pool : Pc → Option Addr
  | .idle | .crashed => none
  | .acquireLoadHead p | .acquireLoadNext p _ | .acquireCas p _ _ | .acquireTrack p _ | .acquireAlloc p
  | .acquireTrackAlloc p _ => some p
  | .returnLoadHead _ p | .returnStoreNext _ p _ | .returnCas _ p _ | .returnTrack p => some p

/-- The pool and the node that a thread at `pc` follows a pointer to. -/
def Pc.follows : Pc → Option Addr × Option Addr
  | .idle | .crashed => (none, none)
  | .acquireLoadHead p | .acquireCas p _ _ | .acquireAlloc p | .returnLoadHead _ p | .returnCas _ p _
  | .returnTrack p => (some p, none)
  | .acquireLoadNext _ a | .returnStoreNext a _ _ => (none, some a)
  | .acquireTrack p a | .acquireTrackAlloc p a => (some p, some a)

/-- A pointer `pc` follows is bad, or the pool to allocate for has no size. -/
def Faulty (h : Heap) (pc : Pc) : Prop :=
  (∃ p, pc.follows.1 = some p ∧ h.pools p = none) ∨ (∃ a, pc.follows.2 = some a ∧ h.nodes a = none) ∨
    ∃ p q, pc = .acquireAlloc p ∧ h.pools p = some q ∧ q.memSize = 0

/-- One atomic operation of a thread inside a call, by operation and outcome. -/
inductive Move (h : Heap) (sp : Bool) (ms : Addr × Addr) : Pc → Heap → Pc → Option Addr → Prop
  | stay : Move h sp ms .crashed h .crashed none
  | crash {pc} : Faulty h pc → Move h sp ms pc h .crashed none
  | acquireEmpty {p q} : h.pools p = some q → q.head = NULL →
      Move h sp ms (.acquireLoadHead p) h (.acquireAlloc p) none
  | acquireHead {p q} : h.pools p = some q → q.head ≠ NULL →
      Move h sp ms (.acquireLoadHead p) h (.acquireLoadNext p q.head) none
  | acquireNext {p a m} : h.nodes a = some m → Move h sp ms (.acquireLoadNext p a) h (.acquireCas p a m.next) none
  | acquireTake {p a b q} : h.pools p = some q → q.head = a → sp = false →
      Move h sp ms (.acquireCas p a b) (h.setPool p { q with head := b }) (.acquireTrack p a) none
  | acquireFail {p a b q} : h.pools p = some q → ¬(q.head = a ∧ sp = false) →
      Move h sp ms (.acquireCas p a b) h (.acquireLoadHead p) none
  | acquireDone {p a q m} : h.pools p = some q → h.nodes a = some m →
      Move h sp ms (.acquireTrack p a) (h.setPool p { q with numAvailable := q.numAvailable - 1 }) .idle (some m.data)
  | allocFail {p q} : h.pools p = some q → q.memSize ≠ 0 → ms.1 = NULL ∨ ms.2 = NULL →
      Move h sp ms (.acquireAlloc p) h .idle (some NULL)
  | alloc {p q} : h.pools p = some q → q.memSize ≠ 0 → ms.1 ≠ NULL → ms.2 ≠ NULL →
      Move h sp ms (.acquireAlloc p) (h.allocPoolableMem p q ms.1 ms.2) (.acquireTrackAlloc p ms.1) none
  | allocDone {p a q m} : h.pools p = some q → h.nodes a = some m →
      Move h sp ms (.acquireTrackAlloc p a) (h.setPool p { q with numAllocs := q.numAllocs + 1 }) .idle (some m.data)
  | returnHead {a p q} : h.pools p = some q → Move h sp ms (.returnLoadHead a p) h (.returnStoreNext a p q.head) none
  | returnStore {a p b m} : h.nodes a = some m →
      Move h sp ms (.returnStoreNext a p b) (h.setNode a { m with next := b }) (.returnCas a p b) none
  | returnPut {a p b q} : h.pools p = some q → q.head = b → sp = false →
      Move h sp ms (.returnCas a p b) (h.setPool p { q with head := a }) (.returnTrack p) none
  | returnFail {a p b q} : h.pools p = some q → ¬(q.head = b ∧ sp = false) →
      Move h sp ms (.returnCas a p b) h (.returnLoadHead a p) none
  | returnDone {p q} : h.pools p = some q →
      Move h sp ms (.returnTrack p) (h.setPool p { q with numAvailable := q.numAvailable + 1 }) .idle none

theorem advance_cases {h sp ms pc h' pc' d} (hadv : advance h sp ms pc = (h', pc', d)) (hidle : pc ≠ .idle) :
    Move h sp ms pc h' pc' d := by
  cases pc with
  | idle => exact absurd rfl hidle
  | crashed => cases hadv; exact .stay
  | acquireLoadHead p =>
    simp only [advance] at hadv
    split at hadv
    · cases hadv; exact .crash (.inl ⟨p, rfl, ‹_›⟩)
    · split at hadv <;> cases hadv
      · exact .acquireEmpty ‹_› ‹_›
      · exact .acquireHead ‹_› ‹_›
  | acquireLoadNext p a =>
    simp only [advance] at hadv
    split at hadv <;> cases hadv
    · exact .crash (.inr (.inl ⟨a, rfl, ‹_›⟩))
    · exact .acquireNext ‹_›
  | acquireCas p a b =>
    simp only [advance] at hadv
    split at hadv
    · cases hadv; exact .crash (.inl ⟨p, rfl, ‹_›⟩)
    · split at hadv <;> cases hadv
      · rename_i hc; exact .acquireTake ‹_› hc.1 hc.2
      · exact .acquireFail ‹_› ‹_›
  | acquireTrack p a =>
    simp only [advance] at hadv
    split at hadv
    · cases hadv; exact .acquireDone ‹_› ‹_›
    · cases hadv
      rename_i hno
      refine .crash ?_
      cases hp : h.pools p with
      | none => exact .inl ⟨p, rfl, hp⟩
      | some q =>
        cases ha : h.nodes a with
        | none => exact .inr (.inl ⟨a, rfl, ha⟩)
        | some m => exact absurd ha (hno q m hp)
  | acquireAlloc p =>
    simp only [advance] at hadv
    split at hadv
    · cases hadv; exact .crash (.inl ⟨p, rfl, ‹_›⟩)
    · split at hadv
      · cases hadv; exact .crash (.inr (.inr ⟨p, _, rfl, ‹_›, ‹_›⟩))
      · split at hadv <;> cases hadv
        · exact .allocFail ‹_› ‹_› ‹_›
        · rename_i hno; rw [not_or] at hno; exact .alloc ‹_› ‹_› hno.1 hno.2
  | acquireTrackAlloc p a =>
    simp only [advance] at hadv
    split at hadv
    · cases hadv; exact .allocDone ‹_› ‹_›
    · cases hadv
      rename_i hno
      refine .crash ?_
      cases hp : h.pools p with
      | none => exact .inl ⟨p, rfl, hp⟩
      | some q =>
        cases ha : h.nodes a with
        | none => exact .inr (.inl ⟨a, rfl, ha⟩)
        | some m => exact absurd ha (hno q m hp)
  | returnLoadHead a p =>
    simp only [advance] at hadv
    split at hadv <;> cases hadv
    · exact .crash (.inl ⟨p, rfl, ‹_›⟩)
    · exact .returnHead ‹_›
  | returnStoreNext a p b =>
    simp only [advance] at hadv
    split at hadv <;> cases hadv
    · exact .crash (.inr (.inl ⟨a, rfl, ‹_›⟩))
    · exact .returnStore ‹_›
  | returnCas a p b =>
    simp only [advance] at hadv
    split at hadv
    · cases hadv; exact .crash (.inl ⟨p, rfl, ‹_›⟩)
    · split at hadv <;> cases hadv
      · rename_i hc; exact .returnPut ‹_› hc.1 hc.2
      · exact .returnFail ‹_› ‹_›
  | returnTrack p =>
    simp only [advance] at hadv
    split at hadv <;> cases hadv
    · exact .crash (.inl ⟨p, rfl, ‹_›⟩)
    · exact .returnDone ‹_›

theorem Faulty.advance_eq {h sp ms pc} (hf : Faulty h pc) : advance h sp ms pc = (h, .crashed, none) := by
  rcases hf with ⟨p, hp, hbad⟩ | ⟨a, ha, hbad⟩ | ⟨p, q, rfl, hq, hs⟩
  · cases pc <;> simp only [Pc.follows, Option.some.injEq, reduceCtorEq] at hp <;> subst hp <;>
      simp only [advance, hbad]
  · cases pc <;> simp only [Pc.follows, Option.some.injEq, reduceCtorEq] at ha <;> subst ha <;>
      simp only [advance, hbad]
    case acquireTrack p _ | acquireTrackAlloc p _ => cases h.pools p <;> rfl
  · simp only [advance, hq, hs, if_true]

theorem Move.advance_eq {h sp ms pc h' pc' d} (hm : Move h sp ms pc h' pc' d) : advance h sp ms pc = (h', pc', d) := by
  cases hm with
  | crash hf => exact hf.advance_eq
  | _ => simp_all [advance]

theorem Move.pool {h h' : Heap} {sp ms pc pc' d} (hm : Move h sp ms pc h' pc' d) : pc'.pool = none ∨ pc'.pool = pc.pool := by
  cases hm <;> first | exact .inl rfl | exact .inr rfl

section
variable {T : Type} [DecidableEq T]

/-- The client's part of a move that ends `pool_mem_acquire`. -/
def gain (d : Option Addr) : List Addr := d.toList.filter (· ≠ NULL)

@[simp] theorem gain_none : gain none = [] := rfl
@[simp] theorem gain_null : gain (some NULL) = [] := rfl
theorem gain_some {d : Addr} (h : d ≠ NULL) : gain (some d) = [d] := by simp [gain, h]

/-- One step of the machine. -/
inductive Step (mp : MultiPool) (s : State T) : Act T → State T → Prop
  | acquire {t p} : (s.threads t).pc = .idle →
      Step mp s (.acquire t p) (s.set t { s.threads t with pc := acquireEntry p, request := none })
  | multiAcquire {t size} : (s.threads t).pc = .idle → Step mp s (.multiAcquire t size)
      (s.set t { s.threads t with pc := (mp.pick size).elim .crashed acquireEntry, request := some size })
  | ret {t d} : (s.threads t).pc = .idle → Step mp s (.ret t d)
      (s.set t { pc := returnEntry s.heap d, held := (s.threads t).held.erase d })
  | run {t sp ms h' pc' d} : s.heap.Mallocs ms → Move s.heap sp ms (s.threads t).pc h' pc' d →
      Step mp s (.run t sp ms) ({ s with heap := h' }.set t
        { s.threads t with pc := pc', held := gain d ++ (s.threads t).held })

theorem step_cases {mp} {s s' : State T} {a : Act T} (h : step mp s a = some s') : Step mp s a s' := by
  cases a with
  | acquire t p =>
    simp only [step, Option.ite_none_right_eq_some, Option.some.injEq] at h
    obtain ⟨hpc, rfl⟩ := h
    exact .acquire hpc
  | multiAcquire t size =>
    simp only [step, Option.ite_none_right_eq_some, Option.some.injEq] at h
    obtain ⟨hpc, rfl⟩ := h
    exact .multiAcquire hpc
  | ret t d =>
    simp only [step, Option.ite_none_right_eq_some, Option.some.injEq] at h
    obtain ⟨hpc, rfl⟩ := h
    exact .ret hpc
  | run t sp ms =>
    simp only [step] at h
    split at h
    · cases h
    · rename_i hno
      rw [not_or, not_not] at hno
      simp only [Option.some.injEq] at h
      subst h
      exact .run hno.2 (advance_cases rfl hno.1)

@[simp] theorem set_heap (s : State T) (t : T) (th : Thread) : (s.set t th).heap = s.heap := rfl

@[simp] theorem set_self (s : State T) (t : T) (th : Thread) : (s.set t th).threads t = th := by
  simp [State.set]

theorem set_ne {s : State T} {t u : T} {th : Thread} (h : u ≠ t) : (s.set t th).threads u = s.threads u := by
  simp [State.set, h]

/-- What the new thread and all others meet holds of every thread. -/
theorem forall_set {s : State T} {t : T} {th : Thread} {P : T → Thread → Prop} (ht : P t th)
    (hu : ∀ u, u ≠ t → P u (s.threads u)) (u : T) : P u ((s.set t th).threads u) := by
  by_cases hut : u = t
  · subst hut; rw [set_self]; exact ht
  · rw [set_ne hut]; exact hu u hut

end

/-! ## What no step changes -/

/-- Nothing allocated is freed, `data`, `pool` and the memory of a block stay
as they are, and no pool comes, goes or changes its `mem_size`. -/
structure Grows (h h' : Heap) : Prop where
  node : ∀ {a m}, h.nodes a = some m → ∃ m', h'.nodes a = some m' ∧ m'.data = m.data ∧ m'.pool = m.pool
  sizes : ∀ p, (h'.pools p).map MemPool.memSize = (h.pools p).map MemPool.memSize
  block : ∀ {b k}, h.blocks b = some k → h'.blocks b = some k

theorem Grows.refl (h : Heap) : Grows h h := ⟨fun hm => ⟨_, hm, rfl, rfl⟩, fun _ => rfl, fun hk => hk⟩

theorem Grows.trans {h₁ h₂ h₃ : Heap} (h : Grows h₁ h₂) (h' : Grows h₂ h₃) : Grows h₁ h₃ := by
  refine ⟨fun hm => ?_, fun p => (h'.sizes p).trans (h.sizes p), fun hk => h'.block (h.block hk)⟩
  obtain ⟨m', hm', hd, hp⟩ := h.node hm
  obtain ⟨m'', hm'', hd', hp'⟩ := h'.node hm'
  exact ⟨m'', hm'', hd'.trans hd, hp'.trans hp⟩

theorem Grows.pool {h h' : Heap} (hg : Grows h h') {p q} (hq : h.pools p = some q) :
    ∃ q', h'.pools p = some q' ∧ q'.memSize = q.memSize := by
  have := hg.sizes p
  rw [hq, Option.map_some, Option.map_eq_some_iff] at this
  exact this

theorem Grows.pool_of {h h' : Heap} (hg : Grows h h') {p q'} (hq : h'.pools p = some q') :
    ∃ q, h.pools p = some q ∧ q.memSize = q'.memSize := by
  have := hg.sizes p
  rw [hq, Option.map_some, eq_comm, Option.map_eq_some_iff] at this
  exact this

theorem Grows.setPool {h : Heap} {p : Addr} {q q' : MemPool} (hp : h.pools p = some q) (hs : q'.memSize = q.memSize) :
    Grows h (h.setPool p q') := by
  refine ⟨fun hm => ⟨_, hm, rfl, rfl⟩, fun p' => ?_, fun hk => hk⟩
  rw [setPool_pools]
  split
  · subst_vars; rw [hp, Option.map_some, Option.map_some, hs]
  · rfl

theorem Grows.setNode {h : Heap} {a : Addr} {m m' : MemNode} (ha : h.nodes a = some m) (hd : m'.data = m.data)
    (hp : m'.pool = m.pool) : Grows h (h.setNode a m') := by
  refine ⟨fun {b n} hn => ?_, fun _ => rfl, fun hk => hk⟩
  rw [setNode_nodes]
  by_cases he : b = a
  · subst he
    rw [ha, Option.some.injEq] at hn
    exact ⟨m', if_pos rfl, hn ▸ hd, hn ▸ hp⟩
  · exact ⟨n, by rw [if_neg he]; exact hn, rfl, rfl⟩

theorem Grows.allocPoolableMem {h : Heap} {pool : Addr} {q : MemPool} {a b : Addr} (ha : h.nodes a = none)
    (hb : h.blocks b = none) : Grows h (h.allocPoolableMem pool q a b) := by
  refine ⟨fun {c m} hm => ⟨m, ?_, rfl, rfl⟩, fun _ => rfl, fun {c k} hk => ?_⟩
  · rw [Heap.allocPoolableMem, setBlock_nodes, setNode_nodes, if_neg]
    · exact hm
    · rintro rfl; rw [ha] at hm; cases hm
  · rw [Heap.allocPoolableMem, setBlock_blocks, if_neg]
    · exact hk
    · rintro rfl; rw [hb] at hk; cases hk

theorem Move.grows {h sp ms pc h' pc' d} (hm : Move h sp ms pc h' pc' d) (hms : h.Mallocs ms) : Grows h h' := by
  cases hm with
  | acquireTake hp | acquireDone hp | allocDone hp | returnPut hp | returnDone hp => exact .setPool hp rfl
  | alloc hp _ h₁ h₂ => exact .allocPoolableMem (hms.1 h₁).1.1 (hms.2 h₂).2.2
  | returnStore ha => exact .setNode ha rfl rfl
  | _ => exact .refl h

theorem Step.grows {T : Type} [DecidableEq T] {mp} {s s' : State T} {a : Act T} (hs : Step mp s a s') :
    Grows s.heap s'.heap := by
  cases hs with
  | run hms hm => exact hm.grows hms
  | _ => exact .refl _

/-- Nothing a run started with is gone. -/
theorem grows_of_run {T : Type} [DecidableEq T] {h₀ mp} {tr : Trace (State T) (Act T)} {s : State T}
    (hr : (machine h₀ mp T).Run tr s) : Grows h₀ s.heap :=
  hr.invariant' (I := fun s => Grows h₀ s.heap) (fun _ h => h.1 ▸ .refl _)
    (fun _ _ _ hi h => hi.trans (step_cases h).grows)

end Dxpool.Simple
