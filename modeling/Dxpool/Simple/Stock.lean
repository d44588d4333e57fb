/-
What one pool has in a memory that has other things in it: the nodes on the
chain from its head, and those whose data the client holds (`Stock`). Each
function works on these alone, whichever calls of `malloc` fail: what else is
live, `rest`, stays live and as it was (`Heap.Agree`).
-/
import Dxpool.Linked
import Dxpool.Simple.Sequential

namespace Dxpool.Simple

open Machine

/-! ## Memory -/

/-- The address that the data area of a node was allocated at. -/
def Heap.baseOf (h : Heap) (a : Addr) : Addr := h.dataOf a - headerSize

/-- The two allocations of a node. -/
def Heap.parts (h : Heap) (a : Addr) : List Addr := [h.baseOf a, a]

/-- The two allocations that a block is in. -/
def Heap.allocations (h : Heap) (data : Addr) : List Addr := [data - headerSize, (h.getMemnodeInData data).getD NULL]

theorem ok_bind {α β : Type} (a : α) (f : α → Except Fault β) : (Except.ok a >>= f) = f a := rfl

section
variable {h h' : Heap} {m : Mem} {a b p : Addr} {n : MemNode} {q : MemPool}

@[simp] theorem mem_setPool_heap : (m.setPool p q).heap = m.heap.setPool p q := rfl
@[simp] theorem mem_setPool_ledger : (m.setPool p q).ledger = m.ledger := rfl
@[simp] theorem mem_setNode_heap : (m.setNode a n).heap = m.heap.setNode a n := rfl
@[simp] theorem mem_setNode_ledger : (m.setNode a n).ledger = m.ledger := rfl

theorem setPool_self : (m.setPool p q).heap.pools p = some q := by rw [mem_setPool_heap, setPool_pools, if_pos rfl]

theorem dataOf_eq (hn : h.nodes a = some n) : h.dataOf a = n.data := by rw [Heap.dataOf, hn, Option.elim_some]

theorem dataOf_congr (hn : h'.nodes a = h.nodes a) : h'.dataOf a = h.dataOf a := by rw [Heap.dataOf, hn]; rfl

theorem baseOf_congr (hd : h'.dataOf a = h.dataOf a) : h'.baseOf a = h.baseOf a := by rw [Heap.baseOf, hd]; rfl

theorem parts_congr (hd : h'.dataOf a = h.dataOf a) : h'.parts a = h.parts a := by
  rw [Heap.parts, baseOf_congr hd]; rfl

theorem pools_update (hq : h'.pools = Function.update h.pools p (some q)) : h'.pools p = some q := by
  rw [hq, Function.update_self]

theorem release_nodes : (h.release a).nodes b = if b = a then none else h.nodes b := by
  simp [Heap.release, Function.update_apply]

theorem release_pools : (h.release a).pools b = if b = a then none else h.pools b := by
  simp [Heap.release, Function.update_apply]

theorem release_blocks : (h.release a).blocks b = if b = a then none else h.blocks b := by
  simp [Heap.release, Function.update_apply]

theorem release_free (hb : b = a ∨ h.Free b) : (h.release a).Free b := by
  by_cases hba : b = a
  · simp [Heap.Free, release_nodes, release_pools, release_blocks, hba]
  · simp only [Heap.Free, release_nodes, release_pools, release_blocks, if_neg hba]
    exact hb.resolve_left hba

/-- A node set where nothing was, and released. -/
theorem release_setNode (hfree : h.Free a) : (h.setNode a n).release a = h := by
  obtain ⟨hn, hp, hb⟩ := hfree
  simp only [Heap.release, Heap.setNode, Function.update_idem]
  rw [← hn, ← hp, ← hb] 
  simp only [Function.update_eq_self]

theorem free_eq (hne : a ≠ NULL) (ha : a ∈ m.ledger) :
    m.free a = .ok { m with heap := m.heap.release a, ledger := m.ledger.erase a } := by
  rw [Mem.free, if_neg hne, if_pos ha]

theorem trackPoolUsage_eq {f : MemPool → MemPool} (hq : m.heap.pools p = some q) :
    trackPoolUsage f m p = .ok (m.setPool p (f q)) := by
  rw [trackPoolUsage, hq]; rfl

end

/-! ## Whole nodes -/

/-- Node `a` of pool `p` with its data area. -/
structure Whole (h : Heap) (p a : Addr) : Prop where
  ne : a ≠ NULL
  node : ∃ n, h.nodes a = some n ∧ n.pool = p ∧ n.data = h.baseOf a + headerSize
  block : ∃ b, h.blocks (h.baseOf a) = some b ∧ b.word = a

section
variable {h h' : Heap} {a b c p : Addr} {n : MemNode}

theorem Whole.dataOf (hw : Whole h p a) : h.dataOf a = h.baseOf a + headerSize := by
  obtain ⟨n, hn, -, hd⟩ := hw.node
  rw [dataOf_eq hn, hd]

/-- The word before the data leads back to the node. -/
theorem Whole.getMemnodeInData (hw : Whole h p a) : h.getMemnodeInData (h.dataOf a) = some a := by
  obtain ⟨b, hb, hword⟩ := hw.block
  rw [Heap.getMemnodeInData, show h.dataOf a - headerSize = h.baseOf a from rfl, hb, Option.map_some, hword]

theorem Whole.allocations (hw : Whole h p a) : h.allocations (h.dataOf a) = h.parts a := by
  rw [Heap.allocations, hw.getMemnodeInData]
  rfl

theorem Whole.inj (ha : Whole h p a) (hb : Whole h p b) (hd : h.dataOf a = h.dataOf b) : a = b := by
  have h₁ := ha.getMemnodeInData
  rw [hd, hb.getMemnodeInData] at h₁
  exact (Option.some.inj h₁).symm

theorem Whole.congr (hw : Whole h p a) (hn : h'.nodes a = h.nodes a)
    (hb : h'.blocks (h.baseOf a) = h.blocks (h.baseOf a)) : Whole h' p a := by
  have hbase := baseOf_congr (dataOf_congr hn)
  refine ⟨hw.ne, ?_, ?_⟩
  · rw [hbase, hn]; exact hw.node
  · rw [hbase, hb]; exact hw.block

theorem setNext_dataOf {next : Addr} (hn : h.nodes c = some n) :
    (h.setNode c { n with next }).dataOf a = h.dataOf a := by
  simp only [Heap.dataOf, setNode_nodes]
  split
  · subst_vars; rw [hn]; rfl
  · rfl

theorem Whole.setNext {next : Addr} (hw : Whole h p a) (hn : h.nodes c = some n) :
    Whole (h.setNode c { n with next }) p a := by
  have hbase : (h.setNode c { n with next }).baseOf a = h.baseOf a := baseOf_congr (setNext_dataOf hn)
  refine ⟨hw.ne, ?_, by rw [hbase]; exact hw.block⟩
  obtain ⟨n', hn', hp, hd⟩ := hw.node
  rw [hbase, setNode_nodes]
  split
  · subst_vars
    rw [hn] at hn'
    cases hn'
    exact ⟨_, rfl, rfl, hd⟩
  · exact ⟨n', hn', hp, hd⟩

end

/-! ## The invariant -/

/-- The two heaps have the same at every address of `l`. -/
def Heap.Agree (h h' : Heap) (l : List Addr) : Prop :=
  ∀ a ∈ l, h'.nodes a = h.nodes a ∧ h'.pools a = h.pools a ∧ h'.blocks a = h.blocks a

/-- Pool `p` has the nodes of `chain` to give out, and those of `out` are with
the client; they and the pool are what is live beside `rest`. -/
structure Stock (m : Mem) (p : Addr) (chain out rest : List Addr) : Prop where
  linked : Linked m.heap.nextOf NULL (m.heap.headOf p) chain
  whole : ∀ a ∈ chain ++ out, Whole m.heap p a
  ledger : m.ledger.Perm (p :: ((chain ++ out).flatMap m.heap.parts ++ rest))
  nodup : m.ledger.Nodup
  null : NULL ∉ m.ledger
  outside : ∀ a, a ∉ m.ledger → m.heap.Free a

section
variable {h h' h'' : Heap} {l l' : List Addr}

theorem Heap.Agree.refl (h : Heap) (l : List Addr) : h.Agree h l := fun _ _ => ⟨rfl, rfl, rfl⟩

theorem Heap.Agree.trans (hh : h.Agree h' l) (hh' : h'.Agree h'' l) : h.Agree h'' l := by
  intro a ha
  obtain ⟨h₁, h₂, h₃⟩ := hh a ha
  obtain ⟨h₁', h₂', h₃'⟩ := hh' a ha
  exact ⟨h₁'.trans h₁, h₂'.trans h₂, h₃'.trans h₃⟩

theorem Heap.Agree.mono (hh : h.Agree h' l) (hl : l' ⊆ l) : h.Agree h' l' := fun a ha => hh a (hl ha)

theorem Heap.Agree.setPool {p : Addr} (q : MemPool) (hp : p ∉ l) : h.Agree (h.setPool p q) l := by
  intro a ha
  have hap : a ≠ p := fun he => hp (he ▸ ha)
  exact ⟨rfl, by rw [setPool_pools, if_neg hap], rfl⟩

theorem Heap.Agree.setNode {a : Addr} (n : MemNode) (ha : a ∉ l) : h.Agree (h.setNode a n) l := by
  intro b hb
  have hba : b ≠ a := fun he => ha (he ▸ hb)
  exact ⟨by rw [setNode_nodes, if_neg hba], rfl, rfl⟩

theorem Heap.Agree.setBlock {a : Addr} (k : Block) (ha : a ∉ l) : h.Agree (h.setBlock a k) l := by
  intro b hb
  have hba : b ≠ a := fun he => ha (he ▸ hb)
  exact ⟨rfl, rfl, by rw [setBlock_blocks, if_neg hba]⟩

theorem Heap.Agree.release {a : Addr} (ha : a ∉ l) : h.Agree (h.release a) l := by
  intro b hb
  have hba : b ≠ a := fun he => ha (he ▸ hb)
  exact ⟨by rw [release_nodes, if_neg hba], by rw [release_pools, if_neg hba], by rw [release_blocks, if_neg hba]⟩

end

section
variable {m : Mem} {p a b : Addr} {chain out rest : List Addr} {q : MemPool}

theorem Stock.pool_mem (h : Stock m p chain out rest) : p ∈ m.ledger := h.ledger.mem_iff.2 List.mem_cons_self

theorem Stock.ne (h : Stock m p chain out rest) : p ≠ NULL := fun hp => h.null (hp ▸ h.pool_mem)

theorem Stock.mem_parts (h : Stock m p chain out rest) (ha : a ∈ chain ++ out) :
    a ∈ m.ledger ∧ m.heap.baseOf a ∈ m.ledger := by
  have hsub : ∀ b ∈ m.heap.parts a, b ∈ m.ledger := fun b hb =>
    h.ledger.mem_iff.2 (List.mem_cons_of_mem _ (List.mem_append_left _ (List.mem_flatMap.2 ⟨a, ha, hb⟩)))
  exact ⟨hsub a (by simp [Heap.parts]), hsub _ (by simp [Heap.parts])⟩

theorem Stock.rest_mem (h : Stock m p chain out rest) (hb : b ∈ rest) : b ∈ m.ledger :=
  h.ledger.mem_iff.2 (List.mem_cons_of_mem _ (List.mem_append_right _ hb))

theorem Stock.parts_nodup (h : Stock m p chain out rest) :
    (p :: ((chain ++ out).flatMap m.heap.parts ++ rest)).Nodup := h.ledger.nodup_iff.1 h.nodup

/-- The pool is not among the rest. -/
theorem Stock.pool_rest (h : Stock m p chain out rest) : p ∉ rest := fun hp =>
  (List.nodup_cons.1 h.parts_nodup).1 (List.mem_append_right _ hp)

/-- No more is a node. -/
theorem Stock.node_rest (h : Stock m p chain out rest) (ha : a ∈ chain ++ out) : a ∉ rest := by
  intro hrest
  have hparts : a ∈ (chain ++ out).flatMap m.heap.parts := List.mem_flatMap.2 ⟨a, ha, by simp [Heap.parts]⟩
  exact (List.nodup_append.1 (List.nodup_cons.1 h.parts_nodup).2).2.2 a hparts a hrest rfl

theorem sublist_parts (h : Heap) (l : List Addr) : l.Sublist (l.flatMap h.parts) := by
  induction l with
  | nil => exact .slnil
  | cons a l ih => exact (ih.cons_cons a).cons _

/-- No node is in two places. -/
theorem Stock.nodes_nodup (h : Stock m p chain out rest) : (chain ++ out).Nodup :=
  (List.nodup_append.1 (List.nodup_cons.1 h.parts_nodup).2).1.sublist (sublist_parts ..)

/-- The chain is no longer than the ledger. -/
theorem Stock.length_le (h : Stock m p chain out rest) : chain.length ≤ m.ledger.length := by
  have h₁ := (sublist_parts m.heap (chain ++ out)).length_le
  have h₂ := h.ledger.length_eq
  rw [List.length_append] at h₁
  rw [List.length_cons, List.length_append] at h₂
  omega

theorem Stock.of_eq {m' : Mem} (h : Stock m p chain out rest) (hheap : m'.heap = m.heap)
    (hledger : m'.ledger = m.ledger) : Stock m' p chain out rest := by
  obtain ⟨hl, hw, hp, hnd, hnull, hout⟩ := h
  rw [← hheap] at hl hw hp hout
  rw [← hledger] at hp hnd hnull hout
  exact ⟨hl, hw, hp, hnd, hnull, hout⟩

theorem Stock.perm {out' : List Addr} (h : Stock m p chain out rest) (hperm : out.Perm out') :
    Stock m p chain out' rest := by
  have hall := hperm.append_left chain
  exact ⟨h.linked, fun a ha => h.whole a (hall.mem_iff.2 ha),
    h.ledger.trans (((hall.flatMap_right _).append_right rest).cons p), h.nodup, h.null, h.outside⟩

/-- The nodes that are out, counted with the rest. -/
theorem Stock.abandon (h : Stock m p chain out rest) : Stock m p chain [] (out.flatMap m.heap.parts ++ rest) := by
  refine ⟨h.linked, fun a ha => h.whole a (List.mem_append_left _ (List.append_nil chain ▸ ha)), ?_, h.nodup, h.null, h.outside⟩
  rw [List.append_nil, ← List.append_assoc, ← List.flatMap_append]
  exact h.ledger

/-- The pool record changes, and with the head what is on the chain. -/
theorem Stock.setPool {chain' out' : List Addr} (h : Stock m p chain out rest)
    (hl : Linked m.heap.nextOf NULL q.head chain') (hperm : (chain' ++ out').Perm (chain ++ out)) :
    Stock (m.setPool p q) p chain' out' rest := by
  refine ⟨?_, fun a ha => (h.whole a (hperm.mem_iff.1 ha)).congr rfl rfl, ?_, h.nodup, h.null, fun a ha => ?_⟩
  · show Linked m.heap.nextOf NULL ((m.heap.setPool p q).headOf p) chain'
    rw [setPool_headOf, if_pos rfl]
    exact hl
  · exact h.ledger.trans (((hperm.symm.flatMap_right m.heap.parts).append_right rest).cons p)
  · have hap : a ≠ p := fun hap => ha (hap ▸ h.pool_mem)
    obtain ⟨hn, hp, hb⟩ := h.outside a ha
    exact ⟨hn, by rw [mem_setPool_heap, setPool_pools, if_neg hap]; exact hp, hb⟩

/-- A usage counter changes. -/
theorem Stock.track {q' : MemPool} (h : Stock m p chain out rest) (hq : m.heap.pools p = some q)
    (hhead : q'.head = q.head) : Stock (m.setPool p q') p chain out rest := by
  refine h.setPool ?_ (.refl _)
  rw [hhead, ← headOf_eq hq]
  exact h.linked

/-- The link of a node that is with the client changes. -/
theorem Stock.setNext {n : MemNode} {next : Addr} (h : Stock m p chain out rest) (ha : a ∈ out)
    (hn : m.heap.nodes a = some n) : Stock (m.setNode a { n with next }) p chain out rest := by
  have hnot : a ∉ chain := fun hc => (List.nodup_append.1 h.nodes_nodup).2.2 a hc a ha rfl
  have hmem := (h.mem_parts (List.mem_append_right _ ha)).1
  refine ⟨h.linked.congr fun x hx => ?_, fun x hx => (h.whole x hx).setNext hn, ?_, h.nodup, h.null, fun x hx => ?_⟩
  · have hxa : x ≠ a := fun hxa => hnot (hxa ▸ hx)
    rw [mem_setNode_heap, setNode_nextOf, if_neg hxa]
  · rw [mem_setNode_heap, List.flatMap_congr fun x _ => parts_congr (setNext_dataOf hn)]
    exact h.ledger
  · have hxa : x ≠ a := fun hxa => hx (hxa ▸ hmem)
    obtain ⟨hn', hp, hb⟩ := h.outside x hx
    exact ⟨by rw [mem_setNode_heap, setNode_nodes, if_neg hxa]; exact hn', hp, hb⟩

/-! ## `alloc_poolable_mem` and `free_poolable_mem` -/

/-- A new node and its data area. -/
theorem Stock.allocate {node ptrData bytes calls : Nat} {n : MemNode} (h : Stock m p chain out rest)
    (hnode : node ≠ NULL) (hptr : ptrData ≠ NULL) (hnew : node ∉ m.ledger) (hnew' : ptrData ∉ node :: m.ledger) :
    let heap := ((m.heap.setNode node n).setBlock ptrData { word := node, bytes }).setNode node
      { next := NULL, data := ptrData + headerSize, pool := p }
    Stock { heap, ledger := ptrData :: node :: m.ledger, calls } p chain (node :: out) rest ∧ m.heap.Agree heap rest ∧
      ∀ x ∈ chain ++ out, heap.dataOf x = m.heap.dataOf x := by
  intro heap
  have hne : ptrData ≠ node := fun he => hnew' (he ▸ List.mem_cons_self)
  have hnodes : ∀ x, heap.nodes x =
      if x = node then some { next := NULL, data := ptrData + headerSize, pool := p } else m.heap.nodes x := by
    intro x
    rw [setNode_nodes, setBlock_nodes, setNode_nodes]
    split <;> rfl
  have hblocks : ∀ x, heap.blocks x = if x = ptrData then some { word := node, bytes } else m.heap.blocks x := fun x => by
    rw [setNode_blocks, setBlock_blocks]; rfl
  have hold : ∀ x ∈ chain ++ out, x ≠ node ∧ m.heap.baseOf x ≠ ptrData := by
    intro x hx
    obtain ⟨h₁, h₂⟩ := h.mem_parts hx
    exact ⟨fun he => hnew (he ▸ h₁), fun he => hnew' (he ▸ List.mem_cons_of_mem _ h₂)⟩
  have hsame : ∀ x ∈ chain ++ out, heap.dataOf x = m.heap.dataOf x := fun x hx =>
    dataOf_congr (by rw [hnodes, if_neg (hold x hx).1])
  have hbase : heap.baseOf node = ptrData := by
    rw [Heap.baseOf, dataOf_eq (by rw [hnodes, if_pos rfl])]
    exact Nat.add_sub_cancel _ _
  have hnode' : node ∉ rest := fun hr => hnew (h.rest_mem hr)
  have hptr' : ptrData ∉ rest := fun hr => hnew' (List.mem_cons_of_mem _ (h.rest_mem hr))
  refine ⟨⟨h.linked.congr fun x hx => ?_, fun x hx => ?_, ?_, ?_, ?_, fun x hx => ?_⟩,
    ((Heap.Agree.setNode n hnode').trans (.setBlock _ hptr')).trans (.setNode _ hnode'), hsame⟩
  · rw [Heap.nextOf, hnodes, if_neg (hold x (List.mem_append_left _ hx)).1]; rfl
  · rcases List.mem_cons.1 (List.perm_middle.mem_iff.1 hx) with rfl | hx
    · refine ⟨hnode, ⟨_, by rw [hnodes, if_pos rfl], rfl, by rw [hbase]⟩, ⟨_, by rw [hbase, hblocks, if_pos rfl], rfl⟩⟩
    · obtain ⟨h₁, h₂⟩ := hold x hx
      exact (h.whole x hx).congr (by rw [hnodes, if_neg h₁]) (by rw [hblocks, if_neg h₂])
  · have hparts : heap.parts node = [ptrData, node] := by rw [Heap.parts, hbase]
    have hrest : (chain ++ out).flatMap heap.parts = (chain ++ out).flatMap m.heap.parts :=
      List.flatMap_congr fun x hx => parts_congr (hsame x hx)
    have hall : ((chain ++ node :: out).flatMap heap.parts).Perm
        (ptrData :: node :: (chain ++ out).flatMap m.heap.parts) := by
      refine (List.perm_middle.flatMap_right heap.parts).trans ?_
      rw [List.flatMap_cons, hparts, hrest]
      exact .refl _
    exact ((h.ledger.cons node).cons ptrData).trans (((List.Perm.swap p node _).cons ptrData).trans
      ((List.Perm.swap p ptrData _).trans ((hall.symm.append_right rest).cons p)))
  · exact List.nodup_cons.2 ⟨hnew', List.nodup_cons.2 ⟨hnew, h.nodup⟩⟩
  · simp only [List.mem_cons, not_or]
    exact ⟨hptr.symm, hnode.symm, h.null⟩
  · simp only [List.mem_cons, not_or] at hx
    obtain ⟨hn, hp, hb⟩ := h.outside x hx.2.2
    exact ⟨by rw [hnodes, if_neg hx.2.1]; exact hn, hp, by rw [hblocks, if_neg hx.1]; exact hb⟩

/-- What `alloc_poolable_mem` answers NULL with leaves everything as it was. -/
theorem Stock.allocPoolableMem {malloc : Malloc} (h : Stock m p chain out rest) (hmalloc : malloc.Fresh)
    (hq : m.heap.pools p = some q) (hsize : q.memSize ≠ 0) :
    (∃ m', allocPoolableMem malloc m p = .ok (NULL, m') ∧ m'.heap = m.heap ∧ m'.ledger = m.ledger ∧
      ∃ calls ledger, malloc calls ledger = NULL) ∨
    ∃ a m', allocPoolableMem malloc m p = .ok (a, m') ∧ Stock m' p chain (a :: out) rest ∧
      m.heap.Agree m'.heap rest ∧ m'.heap.pools = m.heap.pools ∧
      ∀ x ∈ chain ++ out, m'.heap.dataOf x = m.heap.dataOf x := by
  simp only [Simple.allocPoolableMem, assert, access, hq, ok_bind, if_pos h.ne, if_pos hsize, Mem.alloc]
  by_cases hnode : malloc m.calls m.ledger = NULL
  · simp only [hnode, if_true]
    exact .inl ⟨_, rfl, rfl, rfl, _, _, hnode⟩
  · have hnew := hmalloc _ _ hnode
    simp only [if_neg hnode, mem_setNode_ledger]
    generalize malloc m.calls m.ledger = node at hnode hnew ⊢
    by_cases hptr : malloc (m.calls + 1) (node :: m.ledger) = NULL
    · simp only [Mem.setNode, hptr, if_true]
      rw [free_eq hnode List.mem_cons_self]
      refine .inl ⟨_, rfl, release_setNode (h.outside node hnew), ?_, _, _, hptr⟩
      exact List.erase_cons_head ..
    · have hnew' := hmalloc _ _ hptr
      simp only [Mem.setNode, hptr, if_false]
      generalize malloc (m.calls + 1) (node :: m.ledger) = ptrData at hptr hnew' ⊢
      obtain ⟨hstock, hagree, hsame⟩ := h.allocate hnode hptr hnew hnew'
      exact .inr ⟨_, _, rfl, hstock, hagree, rfl, hsame⟩

/-- The node `a` is live apart from the pool, from the other nodes, `others`,
and from the rest. -/
structure Apart (m : Mem) (p a : Addr) (others rest : List Addr) : Prop where
  split : m.ledger.Perm (m.heap.baseOf a :: a :: p :: (others.flatMap m.heap.parts ++ rest))
  base_ne : m.heap.baseOf a ≠ a
  ne_pool : a ≠ p
  base_ne_pool : m.heap.baseOf a ≠ p
  other : ∀ x ∈ others, x ≠ a ∧ x ≠ m.heap.baseOf a ∧ m.heap.baseOf x ≠ a ∧ m.heap.baseOf x ≠ m.heap.baseOf a
  node_rest : a ∉ rest
  base_rest : m.heap.baseOf a ∉ rest

theorem Stock.apart (h : Stock m p chain (a :: out) rest) : Apart m p a (chain ++ out) rest := by
  have hsplit : m.ledger.Perm (m.heap.baseOf a :: a :: p :: ((chain ++ out).flatMap m.heap.parts ++ rest)) := by
    refine h.ledger.trans ((((List.perm_middle.flatMap_right m.heap.parts).append_right rest).cons p).trans ?_)
    rw [List.flatMap_cons]
    exact (List.Perm.swap _ p _).trans ((List.Perm.swap a p _).cons _)
  obtain ⟨hbase, hnd⟩ := List.nodup_cons.1 (hsplit.nodup_iff.1 h.nodup)
  obtain ⟨ha, -⟩ := List.nodup_cons.1 hnd
  refine ⟨hsplit, fun he => hbase (by rw [he]; exact List.mem_cons_self), fun he => ha (he ▸ List.mem_cons_self),
    fun he => hbase (he ▸ List.mem_cons_of_mem _ List.mem_cons_self), fun x hx => ?_,
    fun hr => ha (List.mem_cons_of_mem _ (List.mem_append_right _ hr)),
    fun hr => hbase (List.mem_cons_of_mem _ (List.mem_cons_of_mem _ (List.mem_append_right _ hr)))⟩
  have hin : ∀ b ∈ m.heap.parts x, b ∈ p :: ((chain ++ out).flatMap m.heap.parts ++ rest) := fun b hb =>
    List.mem_cons_of_mem _ (List.mem_append_left _ (List.mem_flatMap.2 ⟨x, hx, hb⟩))
  have h₁ := hin x (by simp [Heap.parts])
  have h₂ := hin (m.heap.baseOf x) (by simp [Heap.parts])
  exact ⟨fun he => ha (he ▸ h₁), fun he => hbase (he ▸ List.mem_cons_of_mem _ h₁), fun he => ha (he ▸ h₂),
    fun he => hbase (he ▸ List.mem_cons_of_mem _ h₂)⟩

/-- Both allocations of node `a` released. -/
def Mem.releaseNode (m : Mem) (a : Addr) : Mem where
  heap := (m.heap.release (m.heap.baseOf a)).release a
  ledger := (m.ledger.erase (m.heap.baseOf a)).erase a
  calls := m.calls

section
variable {others : List Addr}

theorem Apart.ledger (h : Apart m p a others rest) :
    (m.releaseNode a).ledger.Perm (p :: (others.flatMap m.heap.parts ++ rest)) := by
  have := (h.split.erase (m.heap.baseOf a)).erase a
  rwa [List.erase_cons_head, List.erase_cons_head] at this

theorem Apart.nodes (h : Apart m p a others rest) {x : Addr} (hx : x ∈ others) :
    (m.releaseNode a).heap.nodes x = m.heap.nodes x := by
  obtain ⟨h₁, h₂, -⟩ := h.other x hx
  unfold Mem.releaseNode
  rw [release_nodes, if_neg h₁, release_nodes, if_neg h₂]

theorem Apart.blocks (h : Apart m p a others rest) {x : Addr} (hx : x ∈ others) :
    (m.releaseNode a).heap.blocks (m.heap.baseOf x) = m.heap.blocks (m.heap.baseOf x) := by
  obtain ⟨-, -, h₃, h₄⟩ := h.other x hx
  unfold Mem.releaseNode
  rw [release_blocks, if_neg h₃, release_blocks, if_neg h₄]

theorem Apart.pools (h : Apart m p a others rest) : (m.releaseNode a).heap.pools p = m.heap.pools p := by
  simp only [Mem.releaseNode, release_pools, if_neg h.ne_pool.symm, if_neg h.base_ne_pool.symm]

theorem Apart.agree (h : Apart m p a others rest) : m.heap.Agree (m.releaseNode a).heap rest :=
  (Heap.Agree.release h.base_rest).trans (.release h.node_rest)

end

/-- The other nodes stay, on the chain or held. -/
theorem Stock.releaseNode (h : Stock m p chain (a :: out) rest) : Stock (m.releaseNode a) p chain out rest := by
  have hapart := h.apart
  refine ⟨?_, fun x hx => ?_, ?_, (h.nodup.erase _).erase _,
    fun hin => h.null (List.mem_of_mem_erase (List.mem_of_mem_erase hin)), fun x hx => release_free ?_⟩
  · have hhead : (m.releaseNode a).heap.headOf p = m.heap.headOf p := by simp only [Heap.headOf, hapart.pools]
    rw [hhead]
    refine h.linked.congr fun x hx => ?_
    simp only [Heap.nextOf, hapart.nodes (List.mem_append_left _ hx)]
  · exact (h.whole x (List.perm_middle.mem_iff.2 (List.mem_cons_of_mem _ hx))).congr (hapart.nodes hx) (hapart.blocks hx)
  · rw [List.flatMap_congr fun x hx => parts_congr (dataOf_congr (hapart.nodes hx))]
    exact hapart.ledger
  · by_cases hxa : x = a
    · exact .inl hxa
    · refine .inr (release_free ?_)
      by_cases hxb : x = m.heap.baseOf a
      · exact .inl hxb
      · refine .inr (h.outside x fun hin => hx ?_)
        exact (List.mem_erase_of_ne hxa).2 ((List.mem_erase_of_ne hxb).2 hin)

/-- `free_poolable_mem` releases the two allocations of a node. -/
theorem Stock.freePoolableMem (h : Stock m p chain (a :: out) rest) : ∃ m', freePoolableMem m a = .ok m' ∧
    Stock m' p chain out rest ∧ m.heap.Agree m'.heap rest ∧ m.ledger.Perm (m.heap.parts a ++ m'.ledger) ∧
    m'.heap.pools p = m.heap.pools p ∧ ∀ x ∈ chain ++ out, m'.heap.dataOf x = m.heap.dataOf x := by
  have ha : a ∈ chain ++ a :: out := List.mem_append_right _ List.mem_cons_self
  have hapart := h.apart
  obtain ⟨hmem, hbase⟩ := h.mem_parts ha
  obtain ⟨n, hn, hnp, hnd⟩ := (h.whole a ha).node
  have hnd' : n.data - headerSize = m.heap.baseOf a := by rw [hnd]; exact Nat.add_sub_cancel _ _
  have hnull : m.heap.baseOf a ≠ NULL := fun he => h.null (he ▸ hbase)
  have hne : a ≠ NULL := fun he => h.null (he ▸ hmem)
  have hmem' : a ∈ m.ledger.erase (m.heap.baseOf a) := (List.mem_erase_of_ne hapart.base_ne.symm).2 hmem
  refine ⟨m.releaseNode a, ?_, h.releaseNode, hapart.agree, hapart.split.trans ((hapart.ledger.symm.cons a).cons _),
    hapart.pools, fun x hx => dataOf_congr (hapart.nodes hx)⟩
  rw [Simple.freePoolableMem, assert, if_pos hne, hn]
  simp only [access, ok_bind, hnd']
  rw [free_eq hnull hbase, ok_bind, free_eq hne hmem']
  rfl

/-! ## `pool_mem_acquire` and `pool_mem_return` -/

theorem setPool_setPool {q' : MemPool} : (m.setPool p q).setPool p q' = m.setPool p q' := by
  simp only [Mem.setPool, Heap.setPool, Function.update_idem]

/-- The first node of a chain. -/
theorem Stock.head (h : Stock m p (a :: chain) out rest) (hq : m.heap.pools p = some q) : ∃ n, q.head = a ∧ a ≠ NULL ∧
    m.heap.nodes a = some n ∧ n.data = m.heap.dataOf a ∧ Linked m.heap.nextOf NULL n.next chain := by
  have hl := h.linked
  rw [headOf_eq hq] at hl
  obtain ⟨n, hn, -, -⟩ := (h.whole a List.mem_cons_self).node
  generalize hhead : q.head = b at hl
  cases hl with
  | cons hne hl => exact ⟨n, rfl, hne, hn, (dataOf_eq hn).symm, nextOf_eq hn ▸ hl⟩

theorem Stock.head_null (h : Stock m p [] out rest) (hq : m.heap.pools p = some q) : q.head = NULL := by
  have hl := h.linked
  rw [headOf_eq hq] at hl
  generalize q.head = b at hl
  cases hl
  rfl

/-- However often its compare-and-swap fails, `pool_mem_acquire` takes the head. -/
theorem acquireLoop_head {malloc : Malloc} {n : MemNode} (hq : m.heap.pools p = some q) (hne : q.head ≠ NULL)
    (hn : m.heap.nodes q.head = some n) (failures : List Bool) : acquireLoop malloc m p failures =
      .ok (n.data, m.setPool p { q with head := n.next, numAvailable := q.numAvailable - 1 }) := by
  have htrack : trackPoolUsageMemnodeUnavailable (m.setPool p { q with head := n.next }) p =
      .ok (m.setPool p { q with head := n.next, numAvailable := q.numAvailable - 1 }) := by
    rw [trackPoolUsageMemnodeUnavailable, trackPoolUsage_eq setPool_self,
      setPool_setPool]
  induction failures with
  | nil =>
    rw [acquireLoop, hq]
    simp only [access, ok_bind, if_neg hne, hn, htrack]
    rfl
  | cons b failures ih =>
    rw [acquireLoop, hq]
    simp only [access, ok_bind, if_neg hne, hn]
    cases b with
    | true => exact ih
    | false => simp only [htrack]; rfl

theorem acquireLoop_null {malloc : Malloc} (hq : m.heap.pools p = some q) (hnull : q.head = NULL)
    (failures : List Bool) : acquireLoop malloc m p failures = poolMemTryAllocData malloc m p := by
  rw [acquireLoop, hq]
  simp only [access, ok_bind, if_pos hnull]

/-- What an acquire does to the counters: it takes a node off the chain, or
there was none and it allocates one. -/
inductive Counted (chain : List Addr) (a : Addr) (chain' : List Addr) (q q' : MemPool) : Prop
  | reused : chain = a :: chain' → q'.numAllocs = q.numAllocs → q'.numAvailable = q.numAvailable - 1 →
      Counted chain a chain' q q'
  | allocated : chain = [] → chain' = [] → q'.numAllocs = q.numAllocs + 1 → q'.numAvailable = q.numAvailable →
      Counted chain a chain' q q'

/-- `pool_mem_acquire` takes a node, or answers NULL and leaves everything as it was. -/
theorem Stock.poolMemAcquire {malloc : Malloc} (h : Stock m p chain out rest) (hmalloc : malloc.Fresh)
    (hq : m.heap.pools p = some q) (hsize : chain = [] → q.memSize ≠ 0) (failures : List Bool) :
    (∃ m', poolMemAcquire malloc m p failures = .ok (NULL, m') ∧ m'.heap = m.heap ∧ m'.ledger = m.ledger ∧
      ∃ calls ledger, malloc calls ledger = NULL) ∨
    ∃ a chain' m' q', poolMemAcquire malloc m p failures = .ok (m'.heap.dataOf a, m') ∧
      Stock m' p chain' (a :: out) rest ∧ m.heap.Agree m'.heap rest ∧ m'.heap.pools = Function.update m.heap.pools p (some q') ∧
      q'.memSize = q.memSize ∧ Counted chain a chain' q q' ∧ ∀ x ∈ out, m'.heap.dataOf x = m.heap.dataOf x := by
  simp only [Simple.poolMemAcquire, assert, if_pos h.ne, ok_bind]
  cases chain with
  | cons a chain =>
    obtain ⟨n, hhead, hne, hn, hd, hl⟩ := h.head hq
    subst hhead
    rw [acquireLoop_head hq hne hn failures, hd]
    exact .inr ⟨q.head, chain, _, { q with head := n.next, numAvailable := q.numAvailable - 1 }, rfl,
      h.setPool hl List.perm_middle, .setPool _ h.pool_rest, rfl, rfl, .reused rfl rfl rfl, fun _ _ => rfl⟩
  | nil =>
    rw [acquireLoop_null hq (h.head_null hq), poolMemTryAllocData, assert, if_pos h.ne, ok_bind]
    rcases h.allocPoolableMem hmalloc hq (hsize rfl) with
      ⟨m', halloc, hheap, hledger, hnull⟩ | ⟨a, m', halloc, hstock, hagree, hpools, hsame⟩
    · simp only [halloc, ok_bind, if_true]
      exact .inl ⟨m', rfl, hheap, hledger, hnull⟩
    · have hw := hstock.whole a (List.mem_append_right _ List.mem_cons_self)
      obtain ⟨n, hn, -⟩ := hw.node
      have hq' : m'.heap.pools p = some q := by rw [hpools, hq]
      simp only [halloc, ok_bind, if_neg hw.ne, trackPoolUsageAllocs, trackPoolUsage_eq hq', mem_setPool_heap,
        setPool_nodes, hn, access]
      have hstock' : Stock (m'.setPool p { q with numAllocs := q.numAllocs + 1 }) p [] (a :: out) rest :=
        hstock.track hq' rfl
      have hupdate : (m'.setPool p { q with numAllocs := q.numAllocs + 1 }).heap.pools =
          Function.update m.heap.pools p (some { q with numAllocs := q.numAllocs + 1 }) := by
        rw [← hpools]
        rfl
      refine .inr ⟨a, [], _, _, ?_, hstock', hagree.trans (.setPool _ h.pool_rest), hupdate, rfl,
        .allocated rfl rfl rfl rfl, fun x hx => hsame x (List.mem_append_right _ hx)⟩
      rw [← dataOf_eq hn]
      rfl

/-- A pool of blocks without size has none to allocate. -/
theorem Stock.poolMemAcquire_zero {malloc : Malloc} (h : Stock m p [] out rest) (hq : m.heap.pools p = some q)
    (hsize : q.memSize = 0) (failures : List Bool) :
    Simple.poolMemAcquire malloc m p failures = .error .assertion := by
  simp only [Simple.poolMemAcquire, assert, if_pos h.ne, ok_bind]
  rw [acquireLoop_null hq (h.head_null hq), poolMemTryAllocData, assert, if_pos h.ne, ok_bind, Simple.allocPoolableMem]
  simp only [assert, if_pos h.ne, ok_bind, hq, access, hsize, ne_eq, not_true, if_false]
  rfl

theorem returnLoop_eq {n : MemNode} (hq : m.heap.pools p = some q) (hn : m.heap.nodes a = some n)
    (failures : List Bool) : returnLoop a p m failures = .ok ((m.setNode a { n with next := q.head }).setPool p
      { q with head := a, numAvailable := q.numAvailable + 1 }) := by
  induction failures generalizing m n with
  | nil =>
    rw [returnLoop, hq]
    simp only [access, ok_bind, hn, trackPoolUsageReturned]
    rw [trackPoolUsage_eq setPool_self, setPool_setPool]
  | cons b failures ih =>
    rw [returnLoop, hq]
    simp only [access, ok_bind, hn]
    cases b with
    | true =>
      have hagain : ((m.setNode a { n with next := q.head }).setNode a { n with next := q.head }) =
          m.setNode a { n with next := q.head } := by
        simp only [Mem.setNode, Heap.setNode, Function.update_idem]
      have hset : (m.setNode a { n with next := q.head }).heap.nodes a = some { n with next := q.head } := by
        rw [mem_setNode_heap, setNode_nodes, if_pos rfl]
      have hloop := ih (m := m.setNode a { n with next := q.head }) hq hset
      rw [hagain] at hloop
      exact hloop
    | false =>
      unfold trackPoolUsageReturned
      rw [trackPoolUsage_eq setPool_self, setPool_setPool]

/-- `pool_mem_return` puts a node on the chain. -/
theorem Stock.poolMemReturn (h : Stock m p chain (a :: out) rest) (hq : m.heap.pools p = some q)
    (failures : List Bool) : ∃ m' q', poolMemReturn m (m.heap.dataOf a) failures = .ok m' ∧
      Stock m' p (a :: chain) out rest ∧ m.heap.Agree m'.heap rest ∧
      m'.heap.pools = Function.update m.heap.pools p (some q') ∧
      q'.memSize = q.memSize ∧ q'.numAllocs = q.numAllocs ∧ q'.numAvailable = q.numAvailable + 1 ∧
      ∀ x, m'.heap.dataOf x = m.heap.dataOf x := by
  have ha : a ∈ chain ++ a :: out := List.mem_append_right _ List.mem_cons_self
  have hw := h.whole a ha
  obtain ⟨n, hn, rfl, -⟩ := hw.node
  have hdata : m.heap.dataOf a ≠ NULL := by rw [hw.dataOf]; exact Nat.succ_ne_zero _
  have hstock : Stock (m.setNode a { n with next := q.head }) n.pool chain (a :: out) rest :=
    h.setNext List.mem_cons_self hn
  refine ⟨_, { q with head := a, numAvailable := q.numAvailable + 1 }, ?_, hstock.setPool ?_ List.perm_middle.symm,
    (Heap.Agree.setNode _ (h.node_rest ha)).trans (.setPool _ h.pool_rest), rfl, rfl, rfl, rfl,
    fun x => setNext_dataOf hn⟩
  · rw [Simple.poolMemReturn, assert, if_pos hdata, ok_bind, hw.getMemnodeInData]
    simp only [access, ok_bind, hn]
    exact returnLoop_eq hq hn failures
  · refine .cons hw.ne ?_
    rw [mem_setNode_heap, setNode_nextOf, if_pos rfl]
    have hl := hstock.linked
    rw [mem_setNode_heap, show (m.heap.setNode a { n with next := q.head }).headOf n.pool = m.heap.headOf n.pool from rfl,
      headOf_eq hq] at hl
    exact hl

/-! ## `pool_mem_free_all` and `free_mem_pool` -/

/-- **The loop of `pool_mem_free_all`** ends, and releases the nodes of the chain. -/
theorem Stock.freeAllLoop (h : Stock m p chain out rest) (hq : m.heap.pools p = some q) :
    ∃ m' q', (∀ fuel, chain.length ≤ fuel → freeAllLoop p fuel m q.head = .ok m') ∧ Stock m' p [] out rest ∧
      m.heap.Agree m'.heap rest ∧ m'.heap.pools p = some q' ∧ q'.memSize = q.memSize ∧
      m.ledger.Perm (chain.flatMap m.heap.parts ++ m'.ledger) ∧ ∀ x ∈ out, m'.heap.dataOf x = m.heap.dataOf x := by
  induction chain generalizing m q with
  | nil =>
    refine ⟨m, q, fun fuel _ => ?_, h, .refl _ _, hq, rfl, .refl _, fun _ _ => rfl⟩
    rw [h.head_null hq]
    cases fuel <;> rfl
  | cons a chain ih =>
    obtain ⟨n, hhead, hne, hn, -, hl⟩ := h.head hq
    have h₁ : Stock (m.setPool p { q with head := n.next }) p chain (a :: out) rest := h.setPool hl List.perm_middle
    obtain ⟨m₂, hfree, h₂, hagree, hledger, hpools, hsame⟩ := h₁.freePoolableMem
    have hq₂ : m₂.heap.pools p = some { q with head := n.next } := by rw [hpools, setPool_self]
    have h₃ : Stock (m₂.setPool p { q with head := n.next, numAvailable := q.numAvailable - 1 }) p chain out rest :=
      h₂.track hq₂ rfl
    have hagree₃ : m.heap.Agree (m₂.setPool p { q with head := n.next, numAvailable := q.numAvailable - 1 }).heap rest :=
      ((Heap.Agree.setPool _ h.pool_rest).trans hagree).trans (.setPool _ h.pool_rest)
    obtain ⟨m', q', hloop, hstock, hagree', hq', hsize, hledger', hsame'⟩ := ih h₃ setPool_self
    refine ⟨m', q', fun fuel hfuel => ?_, hstock, hagree₃.trans hagree', hq', hsize, ?_, fun x hx => ?_⟩
    · obtain ⟨fuel, rfl⟩ : ∃ f, fuel = f + 1 := ⟨fuel - 1, by rw [List.length_cons] at hfuel; omega⟩
      rw [hhead, Simple.freeAllLoop, if_neg hne]
      simp only [hn, hq, access, ok_bind, hfree, trackPoolUsageMemnodeUnavailable, trackPoolUsage_eq hq₂,
        mem_setPool_heap, setPool_pools, if_true]
      exact hloop fuel (by rw [List.length_cons] at hfuel; omega)
    · have hparts : chain.flatMap (m₂.setPool p { q with head := n.next, numAvailable := q.numAvailable - 1 }).heap.parts =
          chain.flatMap m.heap.parts :=
        List.flatMap_congr fun x hx => parts_congr (hsame x (List.mem_append_left _ hx))
      rw [hparts] at hledger'
      rw [List.flatMap_cons, List.append_assoc]
      exact hledger.trans (hledger'.append_left _)
    · rw [hsame' x hx]
      exact hsame x (List.mem_append_right _ hx)

theorem Stock.poolMemFreeAll (h : Stock m p chain out rest) (hq : m.heap.pools p = some q) :
    ∃ m' q', (∀ fuel, chain.length ≤ fuel → poolMemFreeAll fuel m p = .ok m') ∧ Stock m' p [] out rest ∧
      m.heap.Agree m'.heap rest ∧ m'.heap.pools p = some q' ∧ q'.memSize = q.memSize ∧
      m.ledger.Perm (chain.flatMap m.heap.parts ++ m'.ledger) ∧ ∀ x ∈ out, m'.heap.dataOf x = m.heap.dataOf x := by
  obtain ⟨m', q', hloop, hrest⟩ := h.freeAllLoop hq
  refine ⟨m', q', fun fuel hfuel => ?_, hrest⟩
  simp only [Simple.poolMemFreeAll, assert, if_pos h.ne, ok_bind, hq, access]
  exact hloop fuel hfuel

/-- `free_mem_pool` leaves what the client has not returned, and the rest. -/
theorem Stock.freeMemPool (h : Stock m p chain out rest) (hq : m.heap.pools p = some q) :
    ∃ m', freeMemPool m.ledger.length m p = .ok m' ∧ m'.ledger.Perm (out.flatMap m.heap.parts ++ rest) ∧
      m.heap.Agree m'.heap rest ∧ m'.ledger.Nodup ∧ NULL ∉ m'.ledger ∧ ∀ a, a ∉ m'.ledger → m'.heap.Free a := by
  obtain ⟨m', q', hloop, hstock, hagree, -, -, -, hsame⟩ := h.poolMemFreeAll hq
  refine ⟨{ m' with heap := m'.heap.release p, ledger := m'.ledger.erase p }, ?_, ?_,
    hagree.trans (.release h.pool_rest), hstock.nodup.erase _, fun hin => hstock.null (List.mem_of_mem_erase hin),
    fun a ha => release_free ?_⟩
  · simp only [Simple.freeMemPool, assert, if_pos h.ne, ok_bind, hloop _ h.length_le]
    exact free_eq hstock.ne hstock.pool_mem
  · have hperm := hstock.ledger.erase p
    rw [List.nil_append, List.erase_cons_head, List.flatMap_congr fun x hx => parts_congr (hsame x hx)] at hperm
    exact hperm
  · by_cases hap : a = p
    · exact .inl hap
    · exact .inr (hstock.outside a fun hin => ha ((List.mem_erase_of_ne hap).2 hin))

end

end Dxpool.Simple
