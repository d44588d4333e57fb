/-
The end of a multipool that many threads have used. `multipool_free` is not
thread safe, so it runs when no call is in progress. The threads leave it chains
that have each node once: it releases those nodes once, and what stays live is
the two allocations of each block that some thread still holds (`run_teardown`).
-/
import Dxpool.Simple.Demand
import Dxpool.Simple.Multi
import Dxpool.Simple.Survive
import Mathlib.Algebra.BigOperators.Fin

namespace Dxpool.Simple

open Machine

section
variable {T : Type}

/-- The addresses that `malloc` gives a new node and its data area. -/
def granted (s : State T) : Act T → Option (Addr × Addr)
  | .run t sp mallocs =>
    match (s.threads t).pc with
    | .acquireAlloc p => (allocates p s (.run t sp mallocs)).map fun node => (node, mallocs.2)
    | _ => none
  | .acquire _ _ | .multiAcquire _ _ | .ret _ _ => none

/-- The allocations of a new node, as `Heap.parts` has them. -/
def halves (g : Addr × Addr) : List Addr := [g.2, g.1]

/-- The pools, and what was allocated for them. -/
def stockOf (mp : MultiPool) (tr : Trace (State T) (Act T)) : List Addr :=
  (List.finRange multipoolEntryCount).map mp.pools ++ (log granted tr).flatMap halves

/-- The memory as the threads leave it, with the multipool's record. -/
def leftBy (multipool : Addr) (mp : MultiPool) (calls : Nat) (tr : Trace (State T) (Act T)) (s : State T) : MultiMem where
  heap := s.heap
  ledger := multipool :: stockOf mp tr
  calls := calls
  multipools := Function.update (fun _ => none) multipool (some mp)

end

/-! ## What is live -/

/-- The heap has the pools and the nodes, each at addresses of its own, and
nothing else. -/
structure Laid (h : Heap) (pools : List Addr) (nodes : List (Addr × Addr)) : Prop where
  nodup : (pools ++ nodes.flatMap halves).Nodup
  null : NULL ∉ pools ++ nodes.flatMap halves
  free : ∀ a, a ∉ pools ++ nodes.flatMap halves → h.Free a
  pool : ∀ p, IsPool h p ↔ p ∈ pools
  node : ∀ g ∈ nodes, ∃ m, h.nodes g.1 = some m ∧ m.data = g.2 + headerSize
  mem : ∀ a m, h.nodes a = some m → a ∈ nodes.map Prod.fst

section
variable {h h' : Heap} {pools : List Addr} {nodes : List (Addr × Addr)} {p a d : Addr} {q q' : MemPool} {m m' : MemNode}

theorem mem_halves {g : Addr × Addr} : a ∈ halves g ↔ a = g.2 ∨ a = g.1 := by simp [halves]

/-- There is something at every address. -/
theorem Laid.not_free (hl : Laid h pools nodes) (h0 : HeapPure h) (ha : a ∈ pools ++ nodes.flatMap halves) : ¬h.Free a := by
  intro hfree
  obtain ⟨hn, hp, hb⟩ := hfree
  rcases List.mem_append.1 ha with ha | ha
  · obtain ⟨q, hq⟩ := (hl.pool a).2 ha
    cases hq.symm.trans hp
  · obtain ⟨g, hg, ha⟩ := List.mem_flatMap.1 ha
    obtain ⟨m, hm, hdata⟩ := hl.node g hg
    rcases mem_halves.1 ha with rfl | rfl
    · obtain ⟨-, q, -, hblock⟩ := h0.node _ _ hm
      have hk := hblock.block
      rw [hdata, Nat.add_sub_cancel, hb] at hk
      cases hk
    · cases hm.symm.trans hn

theorem Laid.setPool (hl : Laid h pools nodes) (hq : h.pools p = some q) : Laid (h.setPool p q') pools nodes := by
  refine ⟨hl.nodup, hl.null, fun a ha => ?_, fun p' => ?_, hl.node, hl.mem⟩
  · obtain ⟨hn, hp, hb⟩ := hl.free a ha
    have hap : a ≠ p := by
      rintro rfl
      cases hq.symm.trans hp
    exact ⟨hn, by rw [setPool_pools, if_neg hap]; exact hp, hb⟩
  · rw [← hl.pool p', IsPool, IsPool, setPool_pools]
    split
    · subst_vars
      exact iff_of_true ⟨q', rfl⟩ ⟨q, hq⟩
    · exact Iff.rfl

theorem Laid.setNode (hl : Laid h pools nodes) (hm : h.nodes a = some m) (hd : m'.data = m.data) :
    Laid (h.setNode a m') pools nodes := by
  refine ⟨hl.nodup, hl.null, fun b hb => ?_, hl.pool, fun g hg => ?_, fun b n hn => ?_⟩
  · obtain ⟨hn, hp, hk⟩ := hl.free b hb
    have hba : b ≠ a := by
      rintro rfl
      cases hm.symm.trans hn
    exact ⟨by rw [setNode_nodes, if_neg hba]; exact hn, hp, hk⟩
  · obtain ⟨n, hn, hdata⟩ := hl.node g hg
    rw [setNode_nodes]
    split
    · subst_vars
      cases hm.symm.trans hn
      exact ⟨m', rfl, hd.trans hdata⟩
    · exact ⟨n, hn, hdata⟩
  · rw [setNode_nodes] at hn
    split at hn
    · subst_vars
      exact hl.mem _ _ hm
    · exact hl.mem b n hn

/-- A new node is at new addresses. -/
theorem Laid.alloc (hl : Laid h pools nodes) (h0 : HeapPure h) {ms : Addr × Addr} (hms : h.Mallocs ms)
    (h₁ : ms.1 ≠ NULL) (h₂ : ms.2 ≠ NULL) : Laid (h.allocPoolableMem p q ms.1 ms.2) pools (nodes ++ [ms]) := by
  obtain ⟨hfree₁, hne⟩ := hms.1 h₁
  have hfree₂ := hms.2 h₂
  have hnew₁ : ms.1 ∉ pools ++ nodes.flatMap halves := fun hmem => hl.not_free h0 hmem hfree₁
  have hnew₂ : ms.2 ∉ pools ++ nodes.flatMap halves := fun hmem => hl.not_free h0 hmem hfree₂
  have hlist : pools ++ (nodes ++ [ms]).flatMap halves = (pools ++ nodes.flatMap halves) ++ [ms.2, ms.1] := by
    simp [halves]
  refine ⟨?_, ?_, fun a ha => ?_, hl.pool, fun g hg => ?_, fun a m hm => ?_⟩
  · rw [hlist]
    refine List.nodup_append.2 ⟨hl.nodup, by simpa using hne.symm, fun a ha b hb => ?_⟩
    rintro rfl
    rcases List.mem_cons.1 hb with rfl | hb
    · exact hnew₂ ha
    · exact hnew₁ (List.mem_singleton.1 hb ▸ ha)
  · rw [hlist, List.mem_append, not_or]
    exact ⟨hl.null, by simpa using ⟨h₂.symm, h₁.symm⟩⟩
  · rw [hlist, List.mem_append, not_or] at ha
    obtain ⟨ha₂, ha₁⟩ : a ≠ ms.2 ∧ a ≠ ms.1 := by simpa using ha.2
    obtain ⟨hn, hp, hb⟩ := hl.free a ha.1
    refine ⟨by rw [alloc_nodes, if_neg ha₁]; exact hn, hp, ?_⟩
    rw [Heap.allocPoolableMem, setBlock_blocks, if_neg ha₂]
    exact hb
  · rcases List.mem_append.1 hg with hg | hg
    · obtain ⟨m, hm, hdata⟩ := hl.node g hg
      refine ⟨m, ?_, hdata⟩
      rw [alloc_nodes, if_neg]
      · exact hm
      · intro hg1
        rw [hg1, hfree₁.1] at hm
        cases hm
    · cases List.mem_singleton.1 hg
      exact ⟨_, by rw [alloc_nodes, if_pos rfl], rfl⟩
  · rw [List.map_append, List.mem_append]
    rw [alloc_nodes] at hm
    split at hm
    · subst_vars
      exact .inr (by simp)
    · exact .inl (hl.mem a m hm)

end

section
variable {T : Type} [DecidableEq T] {mp : MultiPool} {s s' : State T} {act : Act T} {pools : List Addr}
  {tr : Trace (State T) (Act T)}

theorem Laid.step {nodes : List (Addr × Addr)} (hl : Laid s.heap pools nodes) (h0 : HeapPure s.heap)
    (hs : Step mp s act s') : Laid s'.heap pools (nodes ++ (granted s act).toList) := by
  cases hs with
  | acquire | multiAcquire | ret => rwa [granted, Option.toList_none, List.append_nil]
  | @run t sp ms h' pc' d hms hm =>
    rw [set_heap]
    generalize hpc : (s.threads t).pc = pc at hm
    have hother : Laid h' pools nodes → granted s (.run t sp ms) = none →
        Laid h' pools (nodes ++ (granted s (.run t sp ms)).toList) := by
      intro hl hnone
      rwa [hnone, Option.toList_none, List.append_nil]
    cases hm with
    | @alloc p q hq hsize h₁ h₂ =>
      simp only [granted, hpc, allocates_alloc hpc hq hsize h₁ h₂, if_pos, Option.map_some, Option.toList_some]
      exact hl.alloc h0 hms h₁ h₂
    | @allocFail p q _ _ hnull =>
      refine hother hl ?_
      simp only [granted, hpc, allocates_none fun _ _ _ _ _ => hnull, Option.map_none]
    | crash hf =>
      refine hother hl ?_
      simp only [granted, hpc]
      split
      · rename_i p
        refine Option.map_eq_none_iff.2 (allocates_none fun q r hq hr hsize => ?_)
        cases hpc.symm.trans hq
        exact absurd hf (not_faulty_alloc hr hsize)
      · rfl
    | acquireTake hq | acquireDone hq | allocDone hq | returnPut hq | returnDone hq =>
      exact hother (hl.setPool hq) (by simp only [granted, hpc])
    | returnStore ha => exact hother (hl.setNode ha rfl) (by simp only [granted, hpc])
    | _ => exact hother hl (by simp only [granted, hpc])

/-- What the threads leave, however they interleave. -/
theorem laid_of_run {h₀ : Heap} (hb : Blank h₀) (hnd : pools.Nodup) (hpools : ∀ p, IsPool h₀ p ↔ p ∈ pools)
    (hr : (machine h₀ mp T).Run tr s) (hown : Along (Owned mp) tr) : Pure s ∧ Laid s.heap pools (log granted tr) := by
  refine hr.invariantT (I := fun tr s => Pure s ∧ Laid s.heap pools (log granted tr)) (fun s h => ⟨.init hb h, ?_⟩)
    (fun tr s a s' _ _ hi ha h => ⟨hi.1.step (ha.obtained hi.1) (step_cases h), ?_⟩) hown
  · obtain ⟨rfl, -⟩ := h
    rw [log_nil]
    refine ⟨by simpa using hnd, ?_, fun a ha => ⟨hb.nodes a, ?_, hb.blocks a⟩, hpools, by simp, fun a m hm => ?_⟩
    · rw [List.flatMap_nil, List.append_nil, ← hpools]
      intro hnull
      obtain ⟨q, hq⟩ := hnull
      rw [hb.null] at hq
      cases hq
    · rw [List.flatMap_nil, List.append_nil, ← hpools] at ha
      exact Option.eq_none_iff_forall_ne_some.2 fun q hq => ha ⟨q, hq⟩
    · rw [hb.nodes] at hm
      cases hm
  · rw [log]
    exact hi.2.step hi.1.heap (step_cases h)

end

/-! ## The shelves -/

section
variable {T : Type} [Fintype T] {s : State T} {pools : List Addr} {nodes : List (Addr × Addr)} {multipool : Addr}

/-- The blocks that the threads hold. -/
noncomputable def State.blocks (s : State T) : List Addr := Finset.univ.toList.flatMap fun t => (s.threads t).held

theorem State.count_blocks (s : State T) (d : Addr) : s.blocks.count d = ∑ t, (s.threads t).held.count d := by
  rw [blocks, List.count_flatMap]
  exact Finset.sum_map_toList _ _

/-- Where no call is in progress, a node is on the chain of its pool, or the data of it
is with one thread. -/
theorem Conserved.one_place (h : Conserved s) (hidle : ∀ t, (s.threads t).pc = .idle) {p : Addr} (hp : IsPool s.heap p) :
    ∃ chain, Linked s.heap.nextOf NULL (s.heap.headOf p) chain ∧ (∀ a ∈ chain, NodeOf s.heap p a) ∧
      ∀ a m, s.heap.nodes a = some m → m.pool = p → chain.count a + s.blocks.count m.data = 1 := by
  obtain ⟨chain, hl, hone⟩ := h.exclusive p hp
  refine ⟨chain, hl, h.pure.heap.chain_head hl, fun a m ha hm => ?_⟩
  rw [← hone a m ha hm, State.count_blocks, places]
  simp only [share, hidle, inHand, List.count_nil, Nat.add_zero]

theorem HeapPure.whole {h : Heap} {p a : Addr} (h0 : HeapPure h) (ha : NodeOf h p a) : Whole h p a := by
  obtain ⟨m, hm, hp⟩ := ha
  obtain ⟨hne, q, -, hb⟩ := h0.node a m hm
  have hbase : h.baseOf a = m.data - headerSize := by rw [Heap.baseOf, dataOf_eq hm]
  exact ⟨hne, ⟨m, hm, hp, by rw [hbase, Nat.sub_add_cancel hb.header]⟩, ⟨_, by rw [hbase]; exact hb.block, rfl⟩⟩

omit [Fintype T] in
theorem Laid.parts {h : Heap} (hl : Laid h pools nodes) : (nodes.map Prod.fst).flatMap h.parts = nodes.flatMap halves := by
  rw [List.flatMap_map]
  refine List.flatMap_congr fun g hg => ?_
  obtain ⟨m, hm, hdata⟩ := hl.node g hg
  simp only [Heap.parts, Heap.baseOf, dataOf_eq hm, hdata, Nat.add_sub_cancel, halves]

omit [Fintype T] in
theorem Laid.nodes_nodup {h : Heap} (hl : Laid h pools nodes) : (nodes.map Prod.fst).Nodup := by
  have hnd := (List.nodup_append.1 hl.nodup).2.1
  rw [← hl.parts] at hnd
  exact hnd.sublist (sublist_parts ..)

omit [Fintype T] in
theorem Laid.mem_nodes {h : Heap} (hl : Laid h pools nodes) (h0 : HeapPure h) {a : Addr} :
    a ∈ nodes.map Prod.fst ↔ ∃ p ∈ pools, NodeOf h p a := by
  constructor
  · intro ha
    obtain ⟨g, hg, rfl⟩ := List.mem_map.1 ha
    obtain ⟨m, hm, -⟩ := hl.node g hg
    have hn : NodeOf h m.pool g.1 := ⟨m, hm, rfl⟩
    exact ⟨m.pool, (hl.pool _).1 (hn.isPool h0), hn⟩
  · intro ha
    obtain ⟨p, -, m, hm, -⟩ := ha
    exact hl.mem a m hm

/-- The nodes of each pool: those on its chain, and those whose data is held. -/
structure Divided (s : State T) (pools : List Addr) (chain out : Addr → List Addr) : Prop where
  linked : ∀ p ∈ pools, Linked s.heap.nextOf NULL (s.heap.headOf p) (chain p)
  mem : ∀ p ∈ pools, ∀ a, a ∈ chain p ++ out p ↔ NodeOf s.heap p a
  nodup : ∀ p ∈ pools, (chain p ++ out p).Nodup
  held : ∀ p ∈ pools, ∀ a m, s.heap.nodes a = some m → m.pool = p → (a ∈ out p ↔ m.data ∈ s.blocks)
  blocks : s.blocks.Nodup

omit [Fintype T] in
theorem Pure.blocks [Fintype T] (h : Pure s) {d : Addr} (hd : d ∈ s.blocks) : IsData s.heap d := by
  obtain ⟨t, -, hd⟩ := List.mem_flatMap.1 hd
  exact h.held t d hd

theorem Laid.divided (hl : Laid s.heap pools nodes) (h : Conserved s) (hidle : ∀ t, (s.threads t).pc = .idle) :
    ∃ chain out, Divided s pools chain out := by
  classical
  have hall : ∀ p, ∃ chain, p ∈ pools → Linked s.heap.nextOf NULL (s.heap.headOf p) chain ∧
      (∀ a ∈ chain, NodeOf s.heap p a) ∧
      ∀ a m, s.heap.nodes a = some m → m.pool = p → chain.count a + s.blocks.count m.data = 1 := by
    intro p
    by_cases hp : p ∈ pools
    · obtain ⟨chain, hchain⟩ := h.one_place hidle ((hl.pool p).2 hp)
      exact ⟨chain, fun _ => hchain⟩
    · exact ⟨[], fun hp' => absurd hp' hp⟩
  choose chain hchain using hall
  refine ⟨chain, fun p => (nodes.map Prod.fst).filter fun a => decide (NodeOf s.heap p a ∧ a ∉ chain p),
    fun p hp => (hchain p hp).1, fun p hp a => ?_, fun p hp => ?_, fun p hp a m hm hmp => ?_, ?_⟩
  · simp only [List.mem_append, List.mem_filter, decide_eq_true_eq]
    constructor
    · intro ha
      exact ha.elim ((hchain p hp).2.1 a) fun ha => ha.2.1
    · intro ha
      exact or_iff_not_imp_left.2 fun hc => ⟨(hl.mem_nodes h.pure.heap).2 ⟨p, hp, ha⟩, ha, hc⟩
  · obtain ⟨-, hof, hone⟩ := hchain p hp
    refine List.nodup_append.2 ⟨List.nodup_iff_count_le_one.2 fun a => ?_, hl.nodes_nodup.filter _, fun a ha b hb hab => ?_⟩
    · by_cases ha : a ∈ chain p
      · obtain ⟨m, hm, hmp⟩ := hof a ha
        have hcount := hone a m hm hmp
        omega
      · rw [List.count_eq_zero.2 ha]
        exact Nat.zero_le _
    · subst hab
      exact (of_decide_eq_true (List.mem_filter.1 hb).2).2 ha
  · have hcount := (hchain p hp).2.2 a m hm hmp
    have hnode : NodeOf s.heap p a := ⟨m, hm, hmp⟩
    simp only [List.mem_filter, decide_eq_true_eq, hnode, true_and]
    rw [and_iff_right ((hl.mem_nodes h.pure.heap).2 ⟨p, hp, hnode⟩), ← List.count_eq_zero, ← List.count_pos_iff]
    omega
  · refine List.nodup_iff_count_le_one.2 fun d => ?_
    by_cases hd : d ∈ s.blocks
    · obtain ⟨a, m, hm, rfl⟩ := h.pure.blocks hd
      have hp := (hl.pool m.pool).1 (NodeOf.isPool h.pure.heap ⟨m, hm, rfl⟩)
      have hcount := (hchain m.pool hp).2.2 a m hm rfl
      omega
    · rw [List.count_eq_zero.2 hd]
      exact Nat.zero_le _

variable {chain out : Addr → List Addr}

/-- The pools have no node in common. -/
theorem Divided.disjoint (hd : Divided s pools chain out) (hnd : pools.Nodup) :
    pools.Pairwise (Function.onFun List.Disjoint fun p => chain p ++ out p) := by
  refine hnd.imp_of_mem fun {p p'} hp hp' hne => ?_
  rw [Function.onFun, List.disjoint_left]
  intro a ha ha'
  obtain ⟨m, hm, rfl⟩ := (hd.mem p hp a).1 ha
  obtain ⟨m', hm', rfl⟩ := (hd.mem p' hp' a).1 ha'
  cases hm.symm.trans hm'
  exact hne rfl

theorem Divided.all_nodes (hd : Divided s pools chain out) (hl : Laid s.heap pools nodes) (h0 : HeapPure s.heap) :
    (pools.flatMap fun p => chain p ++ out p).Perm (nodes.map Prod.fst) := by
  have hnd := List.nodup_flatMap.2 ⟨hd.nodup, hd.disjoint (List.nodup_append.1 hl.nodup).1⟩
  refine (List.perm_ext_iff_of_nodup hnd hl.nodes_nodup).2 fun a => ?_
  rw [List.mem_flatMap, hl.mem_nodes h0]
  exact exists_congr fun p => and_congr_right fun hp => hd.mem p hp a

/-- The pools with their nodes are what is live. -/
theorem Divided.regions (hd : Divided s pools chain out) (hl : Laid s.heap pools nodes) (h0 : HeapPure s.heap) :
    (pools.flatMap fun p => p :: (chain p ++ out p).flatMap s.heap.parts).Perm (pools ++ nodes.flatMap halves) := by
  refine (List.map_append_flatMap_perm pools id fun p => (chain p ++ out p).flatMap s.heap.parts).symm.trans ?_
  rw [List.map_id, ← List.flatMap_assoc, ← hl.parts]
  exact ((hd.all_nodes hl h0).flatMap_right _).append_left pools

/-- The data of the nodes that are out is what the threads hold. -/
theorem Divided.out_data (hd : Divided s pools chain out) (hl : Laid s.heap pools nodes) (h : Pure s) :
    ((pools.flatMap out).map s.heap.dataOf).Perm s.blocks := by
  have hout : ∀ p ∈ pools, ∀ a ∈ out p, NodeOf s.heap p a := fun p hp a ha =>
    (hd.mem p hp a).1 (List.mem_append_right _ ha)
  have hnd : (pools.flatMap out).Nodup := by
    refine List.nodup_flatMap.2 ⟨fun p hp => (List.nodup_append.1 (hd.nodup p hp)).2.1, ?_⟩
    refine (hd.disjoint (List.nodup_append.1 hl.nodup).1).imp fun {p p'} hdis => ?_
    exact fun a ha ha' => hdis (List.mem_append_right _ ha) (List.mem_append_right _ ha')
  have hinj : ∀ a ∈ pools.flatMap out, ∀ b ∈ pools.flatMap out, s.heap.dataOf a = s.heap.dataOf b → a = b := by
    intro a ha b hb hab
    obtain ⟨p, hp, ha⟩ := List.mem_flatMap.1 ha
    obtain ⟨p', hp', hb⟩ := List.mem_flatMap.1 hb
    obtain ⟨m, hm, -⟩ := hout p hp a ha
    obtain ⟨n, hn, -⟩ := hout p' hp' b hb
    rw [dataOf_eq hm, dataOf_eq hn] at hab
    exact h.heap.data_inj hm hn hab
  refine (List.perm_ext_iff_of_nodup (hnd.map_on fun a ha b hb => hinj a ha b hb) hd.blocks).2 fun d => ?_
  constructor
  · intro hmem
    obtain ⟨a, ha, rfl⟩ := List.mem_map.1 hmem
    obtain ⟨p, hp, ha⟩ := List.mem_flatMap.1 ha
    obtain ⟨m, hm, hmp⟩ := hout p hp a ha
    rw [dataOf_eq hm]
    exact (hd.held p hp a m hm hmp).1 ha
  · intro hmem
    obtain ⟨a, m, hm, rfl⟩ := h.blocks hmem
    have hp := (hl.pool m.pool).1 (NodeOf.isPool h.heap ⟨m, hm, rfl⟩)
    exact List.mem_map.2 ⟨a, List.mem_flatMap.2 ⟨m.pool, hp, (hd.held m.pool hp a m hm rfl).2 hmem⟩, dataOf_eq hm⟩

/-- The nodes that are out are the allocations of the blocks held. -/
theorem Divided.out_parts (hd : Divided s pools chain out) (hl : Laid s.heap pools nodes) (h : Pure s) :
    ((pools.flatMap out).flatMap s.heap.parts).Perm (s.blocks.flatMap s.heap.allocations) := by
  have hparts : (pools.flatMap out).flatMap s.heap.parts =
      ((pools.flatMap out).map s.heap.dataOf).flatMap s.heap.allocations := by
    generalize hnodes : pools.flatMap out = l
    rw [List.flatMap_map]
    refine List.flatMap_congr fun x hx => ?_
    obtain ⟨p, hp, hx⟩ := List.mem_flatMap.1 (hnodes ▸ hx)
    have hw := h.heap.whole ((hd.mem p hp x).1 (List.mem_append_right _ hx))
    exact hw.allocations.symm
  rw [hparts]
  exact (hd.out_data hl h).flatMap_right _

/-- **What the threads leave**: a shelf for every pool. -/
theorem Divided.shelved (hd : Divided s pools chain out) (hl : Laid s.heap pools nodes) (h0 : HeapPure s.heap)
    (hsize : ∀ p q, s.heap.pools p = some q → q.memSize ≠ 0) (hnull : multipool ≠ NULL)
    (hnew : multipool ∉ pools ++ nodes.flatMap halves) (calls : Nat) :
    Shelved { heap := s.heap, ledger := multipool :: (pools ++ nodes.flatMap halves), calls := calls }
      (pools.map fun p => { pool := p, chain := chain p, out := out p }) [multipool] := by
  refine ⟨?_, ?_, List.nodup_cons.2 ⟨hnew, hl.nodup⟩, ?_, fun a ha => hl.free a fun hmem => ha (List.mem_cons_of_mem _ hmem)⟩
  · rw [List.forall_mem_map]
    intro p hp
    obtain ⟨q, hq⟩ := (hl.pool p).2 hp
    exact ⟨hd.linked p hp, fun a ha => h0.whole ((hd.mem p hp a).1 ha), q, hq, hsize p q hq⟩
  · rw [List.flatMap_map]
    exact ((hd.regions hl h0).cons multipool).symm.trans (List.perm_append_singleton multipool _).symm
  · rw [List.mem_cons, not_or]
    exact ⟨hnull.symm, hl.null⟩

end

/-! ## The end -/

section
variable {T : Type} [Fintype T] [DecidableEq T] {tr : Trace (State T) (Act T)} {s : State T}
  {ms : Fin multipoolEntryCount → Addr} {multipool : Addr}

/-- The end of a multipool whose pools are those of `ms`. -/
theorem teardown_of_pools (hne : ∀ i, ms i ≠ NULL) (hinj : Function.Injective ms)
    (hr : (machine (multipoolCreate ms).1 (multipoolCreate ms).2 T).Run tr s)
    (hown : Along (Owned (multipoolCreate ms).2) tr) (hno : Along NoAba tr) (hidle : ∀ t, (s.threads t).pc = .idle)
    (hnull : multipool ≠ NULL) (hnew : multipool ∉ stockOf (multipoolCreate ms).2 tr) (calls : Nat) :
    ∃ m, MultiMem.multipoolFree (leftBy multipool (multipoolCreate ms).2 calls tr s) multipool = .ok m ∧
      ∀ a, m.ledger.count a = ∑ t, ((s.threads t).held.flatMap s.heap.allocations).count a := by
  have hb := multipoolCreate_blank hne hinj
  have hpools : ∀ p, IsPool (multipoolCreate ms).1 p ↔ p ∈ (List.finRange multipoolEntryCount).map ms := by
    intro p
    simp [IsPool, multipoolCreate_pools hne hinj, eq_comm]
  obtain ⟨hpure, hl⟩ := laid_of_run hb ((List.nodup_finRange _).map hinj) hpools hr hown
  obtain ⟨chain, out, hd⟩ := hl.divided (conserved_of_run hb hr hown hno) hidle
  have hsize : ∀ p q, s.heap.pools p = some q → q.memSize ≠ 0 := by
    intro p q hq hzero
    obtain ⟨i, -, hi⟩ := pool_class hne hinj (grows_of_run hr) hq
    rw [hzero] at hi
    exact absurd hi (Nat.ne_of_lt (Nat.two_pow_pos _))
  have hshelved : Shelved (leftBy multipool (multipoolCreate ms).2 calls tr s).toMem
      (((List.finRange multipoolEntryCount).map ms).map (fun p => Shelf.mk p (chain p) (out p)) ++ []) [multipool] := by
    rw [List.append_nil]
    exact hd.shelved hl hpure.heap hsize hnull hnew calls
  have hperm : ((((List.finRange multipoolEntryCount).map ms).map fun p => Shelf.mk p (chain p) (out p)).map Shelf.pool).Perm
      ((List.finRange multipoolEntryCount).map (multipoolCreate ms).2.pools) := by
    rw [List.map_map]
    exact .of_eq (List.map_id _)
  have hrecord : (leftBy multipool (multipoolCreate ms).2 calls tr s).multipools multipool = some (multipoolCreate ms).2 := by
    simp only [leftBy, Function.update_self]
  obtain ⟨m, hfree, -, hleft, -⟩ := hshelved.multipoolFree hrecord hperm
  have hledger := hleft.ledger
  rw [List.flatMap_nil, List.nil_append, List.append_nil, List.flatMap_map, ← List.flatMap_assoc] at hledger
  refine ⟨m, hfree, fun a => ?_⟩
  rw [(hledger.trans (hd.out_parts hl hpure)).count_eq, State.blocks, List.flatMap_assoc, List.count_flatMap]
  exact Finset.sum_map_toList _ _

omit [Fintype T] [DecidableEq T] in
theorem sublist_pools (h : Heap) (shelves : List Shelf) : (shelves.map Shelf.pool).Sublist (shelves.flatMap (·.region h)) := by
  induction shelves with
  | nil => exact .slnil
  | cons t shelves ih => exact (ih.trans (List.sublist_append_right ..)).cons_cons _

/-- What `multipool_create` makes of mallocs that all succeed. -/
theorem created_pools {malloc : Malloc} {mp : MultiPool} (hmalloc : malloc.Fresh) (hcomplete : malloc.Complete)
    (hne : malloc 0 [] ≠ NULL)
    (hrecord : (MultiMem.multipoolCreate malloc {}).2.multipools (MultiMem.multipoolCreate malloc {}).1 = some mp) :
    (MultiMem.multipoolCreate malloc {}).2.heap = (multipoolCreate mp.pools).1 ∧ (∀ i, mp.pools i ≠ NULL) ∧
      Function.Injective mp.pools ∧ (MultiMem.multipoolCreate malloc {}).1 ≠ NULL ∧
      ∀ i, mp.pools i ≠ (MultiMem.multipoolCreate malloc {}).1 := by
  obtain ⟨mp', m, hcreate, hrecord', hheap⟩ := multipoolCreate_eq hne
  rw [hcreate] at hrecord ⊢
  cases hrecord'.symm.trans hrecord
  obtain ⟨mp', shelves, h⟩ := created_tended hmalloc hcomplete hne
  have hmem : (MultiSession.created malloc).mem = m := congrArg Prod.snd hcreate
  have hshelved := h.shelved
  rw [hmem] at hshelved
  cases (hmem ▸ h.record).symm.trans hrecord
  have hnd := List.nodup_append.1 (hshelved.ledger.nodup_iff.1 hshelved.nodup)
  have hregion : ∀ i, mp.pools i ∈ shelves.flatMap (·.region m.heap) := fun i =>
    (sublist_pools ..).subset (h.pools.mem_iff.2 (List.mem_map.2 ⟨i, List.mem_finRange i, rfl⟩))
  refine ⟨congrArg Prod.fst hheap, fun i hi => ?_, ?_, hne, fun i => hnd.2.2 _ (hregion i) _ (List.mem_singleton_self _)⟩
  · exact hshelved.null (hi ▸ hshelved.ledger.mem_iff.2 (List.mem_append_left _ (hregion i)))
  · have hpools := h.pools.nodup_iff.1 (hnd.1.sublist (sublist_pools ..))
    exact fun i j hij => List.inj_on_of_nodup_map hpools (List.mem_finRange i) (List.mem_finRange j) hij

/-- **Destroying a multipool that threads have used**, if it has its record and all its
pools. When no call is in progress, and no acquire met an ABA before, `multipool_free`
ends, and what is live after it is the two allocations of each block that some thread
holds. -/
theorem run_teardown {malloc : Malloc} {mp : MultiPool} (hmalloc : malloc.Fresh) (hcomplete : malloc.Complete)
    (hne : malloc 0 [] ≠ NULL)
    (hrecord : (MultiMem.multipoolCreate malloc {}).2.multipools (MultiMem.multipoolCreate malloc {}).1 = some mp)
    (hr : (machine (MultiMem.multipoolCreate malloc {}).2.heap mp T).Run tr s) (hown : Along (Owned mp) tr)
    (hno : Along NoAba tr) (hidle : ∀ t, (s.threads t).pc = .idle)
    (hnew : (MultiMem.multipoolCreate malloc {}).1 ∉ (log granted tr).flatMap halves) (calls : Nat) :
    ∃ m, MultiMem.multipoolFree (leftBy (MultiMem.multipoolCreate malloc {}).1 mp calls tr s)
        (MultiMem.multipoolCreate malloc {}).1 = .ok m ∧
      ∀ a, m.ledger.count a = ∑ t, ((s.threads t).held.flatMap s.heap.allocations).count a := by
  obtain ⟨hheap, hpools, hinj, hnull, hapart⟩ := created_pools hmalloc hcomplete hne hrecord
  have hstock : (MultiMem.multipoolCreate malloc {}).1 ∉ stockOf mp tr := by
    rw [stockOf, List.mem_append, not_or]
    refine ⟨fun hin => ?_, hnew⟩
    obtain ⟨i, -, hi⟩ := List.mem_map.1 hin
    exact hapart i hi
  rw [hheap] at hr
  exact teardown_of_pools hpools hinj hr hown hno hidle hnull hstock calls

end

/-- One of two threads returns its block of 1024 bytes, and the other keeps a
block of 512: the two allocations of that one stay. -/
theorem run_teardown_two : ∃ mp tr s m, (MultiMem.multipoolCreate above {}).2.multipools 16 = some mp ∧
    (machine (MultiMem.multipoolCreate above {}).2.heap mp (Fin 2)).Run tr s ∧
      (s.threads 0).held = [] ∧ (s.threads 1).held = [708] ∧
      MultiMem.multipoolFree (leftBy 16 mp 19 tr s) 16 = .ok m ∧
      m.ledger.count 400 = 0 ∧ m.ledger.count 600 = 1 ∧ m.ledger.count 700 = 1 := by
  let mp := ((MultiMem.multipoolCreate above {}).2.multipools 16).getD ⟨fun _ => NULL⟩
  have h := exists_run (m := machine (MultiMem.multipoolCreate above {}).2.heap mp (Fin 2))
    (s := ⟨(MultiMem.multipoolCreate above {}).2.heap, fun _ => {}⟩)
    (l := [[.multiAcquire 0 600, .multiAcquire 1 512], runs 0 1, runs 1 1,
      [.run 0 false (400, 500), .run 1 false (600, 700)], runs 0 1, runs 1 1, [.ret 0 508], runs 0 4].flatten)
    (p := fun tr s => decide (Along (Owned mp) tr ∧ Along NoAba tr) &&
      decide ((s.threads 0).pc = .idle ∧ (s.threads 1).pc = .idle ∧ (s.threads 0).held = [] ∧ (s.threads 1).held = [708]) &&
      decide (16 ∉ (log granted tr).flatMap halves ∧ s.heap.allocations 708 = [700, 600]))
    ⟨rfl, fun _ => rfl⟩ (by decide +kernel)
  obtain ⟨tr, s, hr, hp⟩ := h
  simp only [Bool.and_eq_true, decide_eq_true_eq] at hp
  obtain ⟨⟨⟨hown, hno⟩, hpc₀, hpc₁, hheld₀, hheld₁⟩, hnew, hparts⟩ := hp
  have hrecord : (MultiMem.multipoolCreate above {}).2.multipools 16 = some mp := by
    obtain ⟨mp', m, hcreate, hrecord, -⟩ := multipoolCreate_eq (show above 0 [] ≠ NULL by decide)
    simp only [mp, hcreate]
    rw [show above 0 [] = 16 from rfl] at hrecord
    rw [hrecord, Option.getD_some]
  obtain ⟨m, hfree, hcount⟩ := run_teardown above_fresh (.inr (by decide +kernel)) (by decide) hrecord hr hown hno
    (Fin.forall_fin_two.2 ⟨hpc₀, hpc₁⟩) hnew 19
  have hleft : ∀ a, m.ledger.count a = [700, 600].count a := by
    intro a
    rw [hcount a, Fin.sum_univ_two, hheld₀, hheld₁]
    simp [hparts]
  exact ⟨mp, tr, s, m, hrecord, hr, hheld₀, hheld₁, hfree, hleft 400, hleft 600, hleft 700⟩

end Dxpool.Simple
