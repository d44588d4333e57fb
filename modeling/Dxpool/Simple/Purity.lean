/-
Size-class purity. Whatever the clients return and however often, by whatever
interleaving: every node a thread or a chain has a pointer to belongs to the
pool it is used with, and its block has that pool's size. The invariant needs
no ownership, so it also holds where ownership is broken; the multipool's
guarantee on sizes is one consequence (`multipool_pure`).
-/
import Dxpool.Simple.SizeClass

namespace Dxpool.Simple

open Machine

def IsPool (h : Heap) (p : Addr) : Prop := ∃ q, h.pools p = some q

instance (h : Heap) (p : Addr) : Decidable (IsPool h p) := decidable_of_iff _ Option.isSome_iff_exists

/-- A node that belongs to pool `p`. -/
def NodeOf (h : Heap) (p a : Addr) : Prop := ∃ m, h.nodes a = some m ∧ m.pool = p

/-- What a link of pool `p` may hold. -/
def Link (h : Heap) (p a : Addr) : Prop := a = NULL ∨ NodeOf h p a

/-- The data of a node. -/
def IsData (h : Heap) (d : Addr) : Prop := ∃ a m, h.nodes a = some m ∧ m.data = d

/-- The block of node `a` with contents `m`: it points back to the node and
has room for `q.memSize` bytes. -/
structure BlockOf (h : Heap) (a : Addr) (m : MemNode) (q : MemPool) : Prop where
  block : h.blocks (m.data - headerSize) = some { word := a, bytes := q.memSize.toNat + headerSize }
  header : headerSize ≤ m.data

structure HeapPure (h : Heap) : Prop where
  node : ∀ a m, h.nodes a = some m → a ≠ NULL ∧ ∃ q, h.pools m.pool = some q ∧ BlockOf h a m q
  next : ∀ a m, h.nodes a = some m → Link h m.pool m.next
  head : ∀ p q, h.pools p = some q → Link h p q.head

/-- The pointers of a thread belong to the pool of its call. -/
def PcPure (h : Heap) : Pc → Prop
  | .idle | .crashed => True
  | .acquireLoadHead p | .acquireAlloc p | .returnTrack p => IsPool h p
  | .acquireLoadNext p a | .acquireTrack p a | .acquireTrackAlloc p a | .returnLoadHead a p => NodeOf h p a
  | .acquireCas p a b | .returnStoreNext a p b | .returnCas a p b => NodeOf h p a ∧ Link h p b

/-! ## Growing -/

section
variable {h h' : Heap}

theorem IsPool.grows {p} (hp : IsPool h p) (hg : Grows h h') : IsPool h' p :=
  have ⟨_, hq⟩ := hp
  have ⟨q', hq', _⟩ := hg.pool hq
  ⟨q', hq'⟩

theorem NodeOf.grows {p a} (hn : NodeOf h p a) (hg : Grows h h') : NodeOf h' p a :=
  have ⟨_, hm, hp⟩ := hn
  have ⟨m', hm', _, hp'⟩ := hg.node hm
  ⟨m', hm', hp'.trans hp⟩

theorem Link.grows {p a} (hl : Link h p a) (hg : Grows h h') : Link h' p a := hl.imp_right fun hn => hn.grows hg

theorem IsData.grows {d} (hd : IsData h d) (hg : Grows h h') : IsData h' d :=
  have ⟨a, _, hm, hd⟩ := hd
  have ⟨m', hm', hd', _⟩ := hg.node hm
  ⟨a, m', hm', hd'.trans hd⟩

theorem BlockOf.grows {a m m' q q'} (hb : BlockOf h a m q) (hg : Grows h h') (hd : m'.data = m.data)
    (hs : q'.memSize = q.memSize) : BlockOf h' a m' q' :=
  ⟨by rw [hd, hs]; exact hg.block hb.block, by rw [hd]; exact hb.header⟩

theorem PcPure.grows {pc} (hpc : PcPure h pc) (hg : Grows h h') : PcPure h' pc := by
  cases pc with
  | idle | crashed => trivial
  | acquireLoadHead | acquireAlloc | returnTrack => exact IsPool.grows hpc hg
  | acquireLoadNext | acquireTrack | acquireTrackAlloc | returnLoadHead => exact NodeOf.grows hpc hg
  | acquireCas | returnStoreNext | returnCas => exact ⟨hpc.1.grows hg, hpc.2.grows hg⟩

/-! ## What keeps a heap pure -/

theorem HeapPure.setPool {p q q'} (h0 : HeapPure h) (hp : h.pools p = some q) (hs : q'.memSize = q.memSize)
    (hl : Link h p q'.head) : HeapPure (h.setPool p q') := by
  have hg := Grows.setPool hp hs
  refine ⟨fun a m ha => ?_, fun a m ha => (h0.next a m ha).grows hg, fun p' r hr => ?_⟩
  · obtain ⟨hne, r, hr, hb⟩ := h0.node a m ha
    obtain ⟨r', hr', hrs⟩ := hg.pool hr
    exact ⟨hne, r', hr', hb.grows hg rfl hrs⟩
  · rw [setPool_pools] at hr
    split at hr
    · cases hr; subst_vars; exact hl.grows hg
    · exact (h0.head p' r hr).grows hg

theorem HeapPure.setNode {a m b} (h0 : HeapPure h) (ha : h.nodes a = some m) (hl : Link h m.pool b) :
    HeapPure (h.setNode a { m with next := b }) := by
  have hg : Grows h (h.setNode a { m with next := b }) := Grows.setNode ha rfl rfl
  refine ⟨fun c n hc => ?_, fun c n hc => ?_, fun p q hq => (h0.head p q hq).grows hg⟩
  · rw [setNode_nodes] at hc
    split at hc
    · cases hc
      subst_vars
      obtain ⟨hne, q, hq, hb⟩ := h0.node c m ha
      exact ⟨hne, q, hq, hb.grows hg rfl rfl⟩
    · obtain ⟨hne, q, hq, hb⟩ := h0.node c n hc
      exact ⟨hne, q, hq, hb.grows hg rfl rfl⟩
  · rw [setNode_nodes] at hc
    split at hc
    · cases hc; exact hl.grows hg
    · exact (h0.next c n hc).grows hg

theorem HeapPure.alloc {p q a b} (h0 : HeapPure h) (hp : h.pools p = some q) (ha : a ≠ NULL) (hna : h.nodes a = none)
    (hnb : h.blocks b = none) : HeapPure (h.allocPoolableMem p q a b) := by
  have hg : Grows h (h.allocPoolableMem p q a b) := .allocPoolableMem hna hnb
  refine ⟨fun c n hc => ?_, fun c n hc => ?_, fun p' r hr => (h0.head p' r hr).grows hg⟩
  · rw [alloc_nodes] at hc
    split at hc
    · cases hc
      subst_vars
      exact ⟨ha, q, hp, by simp [Heap.allocPoolableMem, setBlock_blocks], Nat.le_add_left _ _⟩
    · obtain ⟨hne, r, hr, hb⟩ := h0.node c n hc
      exact ⟨hne, r, hr, hb.grows hg rfl rfl⟩
  · rw [alloc_nodes] at hc
    split at hc
    · cases hc; exact .inl rfl
    · exact (h0.next c n hc).grows hg

theorem NodeOf.isPool {p a} (h0 : HeapPure h) (hn : NodeOf h p a) : IsPool h p := by
  obtain ⟨m, hm, rfl⟩ := hn
  obtain ⟨-, q, hq, -⟩ := h0.node a m hm
  exact ⟨q, hq⟩

theorem NodeOf.ne_null {p a} (h0 : HeapPure h) (hn : NodeOf h p a) : a ≠ NULL := by
  obtain ⟨m, hm, -⟩ := hn
  exact (h0.node a m hm).1

theorem HeapPure.data_ne (h0 : HeapPure h) {a m} (ha : h.nodes a = some m) : m.data ≠ NULL := by
  obtain ⟨-, q, -, hb⟩ := h0.node a m ha
  intro h
  have hh := hb.header
  rw [h] at hh
  exact absurd hh (by decide)

/-- The word before the data points back to the node. -/
theorem HeapPure.memnode (h0 : HeapPure h) {a m} (ha : h.nodes a = some m) : h.getMemnodeInData m.data = some a := by
  obtain ⟨-, q, -, hb⟩ := h0.node a m ha
  simp only [Heap.getMemnodeInData, hb.block, Option.map_some]

theorem HeapPure.returnEntry (h0 : HeapPure h) {a m} (ha : h.nodes a = some m) :
    returnEntry h m.data = .returnLoadHead a m.pool := by
  simp only [Simple.returnEntry, if_neg (h0.data_ne ha), h0.memnode ha, ha]

/-- Two nodes have blocks of their own. -/
theorem HeapPure.data_inj (h0 : HeapPure h) {a b m n} (ha : h.nodes a = some m) (hb : h.nodes b = some n)
    (hd : m.data = n.data) : a = b := by
  have h₁ := h0.memnode ha
  have h₂ := h0.memnode hb
  rw [hd, h₂] at h₁
  exact (Option.some.inj h₁).symm

/-- Only an allocation for a pool without a size crashes. -/
theorem PcPure.faulty {pc} (h0 : HeapPure h) (hpc : PcPure h pc) (hf : Faulty h pc) :
    ∃ p q, pc = .acquireAlloc p ∧ h.pools p = some q ∧ q.memSize = 0 := by
  have hno : ∀ {p a}, NodeOf h p a → h.pools p ≠ none ∧ h.nodes a ≠ none := by
    intro p a hn
    obtain ⟨q, hq⟩ := hn.isPool h0
    obtain ⟨m, hm, -⟩ := hn
    simp [hq, hm]
  rcases hf with ⟨p, hp, hbad⟩ | ⟨a, ha, hbad⟩ | hf
  · cases pc <;> simp only [Pc.follows, Option.some.injEq, reduceCtorEq] at hp <;> subst hp
    case acquireLoadHead | acquireAlloc | returnTrack => obtain ⟨q, hq⟩ := hpc; rw [hq] at hbad; cases hbad
    case acquireTrack | acquireTrackAlloc | returnLoadHead => exact absurd hbad (hno hpc).1
    case acquireCas | returnCas => exact absurd hbad (hno hpc.1).1
  · cases pc <;> simp only [Pc.follows, Option.some.injEq, reduceCtorEq] at ha <;> subst ha
    case acquireLoadNext | acquireTrack | acquireTrackAlloc => exact absurd hbad (hno hpc).2
    case returnStoreNext => exact absurd hbad (hno hpc.1).2
  · exact hf

/-- Every move keeps the heap pure, the thread's pointers and what it gains. -/
theorem Move.pure {sp ms pc pc' d} (hm : Move h sp ms pc h' pc' d) (h0 : HeapPure h) (hpc : PcPure h pc)
    (hms : h.Mallocs ms) : HeapPure h' ∧ PcPure h' pc' ∧ ∀ x ∈ gain d, IsData h' x := by
  have hg := hm.grows hms
  cases hm with
  | stay | crash => exact ⟨h0, trivial, by simp⟩
  | acquireEmpty => exact ⟨h0, hpc, by simp⟩
  | acquireHead hp hne => exact ⟨h0, (h0.head _ _ hp).resolve_left hne, by simp⟩
  | acquireNext ha =>
    obtain ⟨m', ha', rfl⟩ := hpc
    cases ha.symm.trans ha'
    exact ⟨h0, ⟨⟨_, ha, rfl⟩, h0.next _ _ ha⟩, by simp⟩
  | acquireTake hp => exact ⟨h0.setPool hp rfl hpc.2, hpc.1.grows hg, by simp⟩
  | acquireFail => exact ⟨h0, hpc.1.isPool h0, by simp⟩
  | acquireDone hp ha =>
    have hl := h0.head _ _ hp
    refine ⟨h0.setPool hp rfl hl, trivial, ?_⟩
    rw [gain_some (h0.data_ne ha)]
    simp only [List.mem_singleton, forall_eq]
    exact ⟨_, _, ha, rfl⟩
  | allocFail => exact ⟨h0, trivial, by simp⟩
  | alloc hp _ h₁ h₂ =>
    refine ⟨h0.alloc hp h₁ (hms.1 h₁).1.1 (hms.2 h₂).2.2, ?_, by simp⟩
    simp [PcPure, NodeOf, alloc_nodes]
  | allocDone hp ha =>
    have hl := h0.head _ _ hp
    refine ⟨h0.setPool hp rfl hl, trivial, ?_⟩
    rw [gain_some (h0.data_ne ha)]
    simp only [List.mem_singleton, forall_eq]
    exact ⟨_, _, ha, rfl⟩
  | returnHead hp => exact ⟨h0, ⟨hpc, h0.head _ _ hp⟩, by simp⟩
  | returnStore ha =>
    obtain ⟨m', ha', rfl⟩ := hpc.1
    cases ha.symm.trans ha'
    exact ⟨h0.setNode ha hpc.2, ⟨hpc.1.grows hg, hpc.2.grows hg⟩, by simp⟩
  | returnPut hp => exact ⟨h0.setPool hp rfl (.inr hpc.1), (hpc.1.isPool h0).grows hg, by simp⟩
  | returnFail => exact ⟨h0, hpc.1, by simp⟩
  | returnDone hp =>
    have hl := h0.head _ _ hp
    exact ⟨h0.setPool hp rfl hl, trivial, by simp⟩

end

/-! ## Pure states -/

section
variable {T : Type}

structure Pure (s : State T) : Prop where
  heap : HeapPure s.heap
  pc : ∀ t, PcPure s.heap (s.threads t).pc
  held : ∀ t, ∀ d ∈ (s.threads t).held, IsData s.heap d

/-- Calls are made with pools of the heap, and with the data of its nodes. -/
def Obtained (mp : MultiPool) (s : State T) : Act T → Prop
  | .acquire _ pool => IsPool s.heap pool
  | .multiAcquire _ size => ∃ pool, mp.pick size = some pool ∧ IsPool s.heap pool
  | .ret _ data => IsData s.heap data
  | .run _ _ _ => True

theorem acquireEntry_pure {h : Heap} {p : Addr} (hp : IsPool h p) : PcPure h (acquireEntry p) := by
  unfold acquireEntry
  split
  · trivial
  · exact hp

variable [DecidableEq T]

/-- A thread replaced by one whose pointers are good. -/
theorem Pure.set {s : State T} {t : T} {th : Thread} (h : Pure s) (hpc : PcPure s.heap th.pc)
    (hheld : ∀ d ∈ th.held, IsData s.heap d) : Pure (s.set t th) :=
  ⟨h.heap, forall_set (P := fun _ th => PcPure s.heap th.pc) hpc fun u _ => h.pc u,
    forall_set (P := fun _ th => ∀ d ∈ th.held, IsData s.heap d) hheld fun u _ => h.held u⟩

theorem Pure.step {mp} {s s' : State T} {a : Act T} (h : Pure s) (hob : Obtained mp s a) (hs : Step mp s a s') :
    Pure s' := by
  cases hs with
  | @acquire t p => exact h.set (acquireEntry_pure hob) (h.held t)
  | @multiAcquire t size =>
    obtain ⟨p, hp, hpool⟩ := hob
    exact h.set (by rw [hp]; exact acquireEntry_pure hpool) (h.held t)
  | @ret t d =>
    obtain ⟨a, m, ha, rfl⟩ := hob
    exact h.set (by rw [h.heap.returnEntry ha]; exact ⟨m, ha, rfl⟩) fun x hx => h.held t x (List.mem_of_mem_erase hx)
  | @run t sp ms h' pc' d hms hm =>
    have hg := hm.grows hms
    obtain ⟨h1, h2, h3⟩ := hm.pure h.heap (h.pc t) hms
    have hbase : Pure { s with heap := h' } := ⟨h1, fun x => (h.pc x).grows hg, fun x y hy => (h.held x y hy).grows hg⟩
    refine hbase.set h2 fun x hx => ?_
    rcases List.mem_append.1 hx with hx | hx
    · exact h3 x hx
    · exact hbase.held t x hx

/-- Pools without nodes yet. -/
structure Blank (h : Heap) : Prop where
  null : h.pools NULL = none
  nodes : ∀ a, h.nodes a = none
  blocks : ∀ a, h.blocks a = none
  head : ∀ p q, h.pools p = some q → q.head = NULL

theorem Pure.init {h₀ mp} {s : State T} (hb : Blank h₀) (h : (machine h₀ mp T).init s) : Pure s := by
  obtain ⟨rfl, ht⟩ := h
  refine ⟨⟨fun a m ha => ?_, fun a m ha => ?_, fun p q hq => .inl (hb.head p q hq)⟩, by simp [ht, PcPure], by simp [ht]⟩
  all_goals rw [hb.nodes] at ha; cases ha

theorem pure_of_run {h₀ mp} (hb : Blank h₀) {tr : Trace (State T) (Act T)} {s : State T}
    (hr : (machine h₀ mp T).Run tr s) (hob : Along (Obtained mp) tr) : Pure s :=
  hr.invariant (fun _ h => .init hb h) (fun _ _ _ hi ha h => hi.step ha (step_cases h)) hob

end

end Dxpool.Simple
