/-
Which thread runs on which core: a pool of workers is built on each NUMA node that
is found, from a thread that has the mask it had before (src/ProcessorLinux.h), and a worker
asks for its own core before its loop (src/WorkerPool.h) without looking at the answer.
-/
import Dxpool.Processor.Numa
import Dxpool.Workers.Builder
import Mathlib.Algebra.Ring.Nat

namespace Dxpool.Workers

open Processor

section
variable {σ : Type} (P : Platform σ)

/-- `startThread(core)`, up to its loop. -/
def startThread (core : Core) (s : σ) : σ := (setThreadAffinity P ((∅ : CoreSet).insert core) s).2

/-- A client that builds a pool with `k` threads per core on each node it finds. -/
def buildOnNodes (k : UInt32) (s : σ) : List (Except InvalidWorkerPoolBuilderArgumentsError WorkerPool) × σ :=
  let (nodes, s) := findAvailableNumaNodes P s
  (nodes.toList.map fun node => (configured [.onNUMANode node, .withThreadsPerCore k]).build, s)

end

/-! ## The nodes -/

section
variable {σ : Type} {P : Platform σ} {nodeOf : Core → UInt32} {s : σ} {calls : List SysCall} {k : UInt32} {core : Core}
  {nodes : Keyed NUMANode.key} {s' : σ}

/-- Every node found has an ID. -/
theorem nodes_not_empty (hP : P.Lawful) (s : σ) : ∀ node ∈ (findAvailableNumaNodes P s).1.toList, node.empty = false := by
  have hnode : ∀ {m : NodeCoreMap} {node : NUMANode}, node ∈ nodesOf m → node.empty = false := by
    intro m node h
    obtain ⟨e, -, rfl⟩ := mem_nodesOf.1 h
    rfl
  rw [findAvailableNumaNodes_eq hP]
  generalize bits (P.mask s) = l
  exact fun _ => hnode

/-- A core of the mask has as many workers on all nodes as on its own. -/
theorem count_nodes (h : Partition P nodeOf s nodes s' calls) (core : Core) :
    (nodes.toList.map fun node => (buildWorkerPool k node.cores).threads.count core).sum =
      if ∃ node ∈ nodes, core ∈ node.cores then k.toNat else 0 := by
  have hcount : ∀ l : List NUMANode, (l.Pairwise fun n n' => ∀ core ∈ n.cores, core ∉ n'.cores) →
      (l.map fun node => (buildWorkerPool k node.cores).threads.count core).sum =
        if ∃ node ∈ l, core ∈ node.cores then k.toNat else 0 := by
    intro l hl
    induction l with
    | nil => rfl
    | cons n l ih =>
      obtain ⟨hn, hl⟩ := List.pairwise_cons.1 hl
      rw [List.map_cons, List.sum_cons, ih hl, buildWorkerPool_count]
      by_cases hc : core ∈ n.cores
      · rw [if_pos hc, if_neg, if_pos, Nat.add_zero]
        · exact ⟨n, List.mem_cons_self, hc⟩
        · intro hother
          obtain ⟨n', hn', hc'⟩ := hother
          exact hn n' hn' core hc hc'
      · rw [if_neg hc, Nat.zero_add]
        refine if_congr ?_ rfl rfl
        rw [List.exists_mem_cons_iff, or_iff_right hc]
  exact hcount _ h.disjoint

/-- The pools that are built. -/
theorem buildOnNodes_eq (hP : P.Lawful) (hk : k ≠ 0) (s : σ) : buildOnNodes P k s =
    (((findAvailableNumaNodes P s).1.toList.map fun node => buildWorkerPool k node.cores).map .ok,
      (findAvailableNumaNodes P s).2) := by
  have hnodes := nodes_not_empty hP s
  rw [buildOnNodes, List.map_map]
  generalize findAvailableNumaNodes P s = r at hnodes ⊢
  refine congrArg (fun pools => (pools, r.2)) (List.map_congr_left fun node hnode => ?_)
  have hempty := hnodes node hnode
  rcases build_cases (configured [.onNUMANode node, .withThreadsPerCore k]) with
    ⟨-, hk' | ⟨-, hempty'⟩ | ⟨hcores, -⟩⟩ | ⟨hok, -⟩
  · exact absurd hk' hk
  · cases hempty.symm.trans hempty'
  · exact absurd rfl hcores
  · exact hok

/-! ## The threads -/

/-- The mask that a worker asks for. -/
theorem maskOf_single (core : Core) : maskOf ((∅ : CoreSet).insert core) = single core := by
  refine mask_ext fun cpu => ?_
  rw [isset_maskOf, isset_single, Keyed.mem_insert_of_injective Core.key_injective, or_iff_left Keyed.not_mem_empty]
  refine and_congr_right fun _ => ⟨fun h => congrArg Core.coreID h, fun h => ?_⟩
  rw [h]

/-- A worker has its core alone, if the platform accepts that, or else what its
creator has. -/
theorem cores_startThread (hP : P.Lawful) (hlt : core.coreID.toNat < 1024) (s : σ) :
    (findAvailableCores P (startThread P core s)).1 =
      if (P.pthreadSetaffinityNp (single core) s).1 = true then (∅ : CoreSet).insert core else (findAvailableCores P s).1 := by
  rw [startThread, setThreadAffinity, maskOf_single]
  split
  · rename_i hok
    refine Keyed.ext fun c => ?_
    rw [mem_findAvailableCores hP, hP.setaffinity _ _ hok, isset_single,
      Keyed.mem_insert_of_injective Core.key_injective, or_iff_left Keyed.not_mem_empty]
    constructor
    · intro h
      obtain ⟨cid⟩ := c
      obtain ⟨-, rfl⟩ := h
      rfl
    · intro h
      subst h
      exact ⟨hlt, rfl⟩
  · rename_i hok
    exact findAvailableCores_congr hP (hP.mask_setaffinity _ _ (Bool.not_eq_true _ ▸ hok))

/-- **Placement.** A client that builds a pool on each NUMA node that is found gets,
whichever calls fail, a pool with workers for each, all on cores of one node, and
over all pools `k` workers for each core of the mask for which both calls succeed
and for no other core. A worker that starts finds that core alone, or, if the
platform refuses its mask, the cores that the client found before. -/
theorem buildOnNodes_placed (hP : P.Pins nodeOf) (hk : k ≠ 0) (s : σ) :
    ∃ pools : List WorkerPool, (buildOnNodes P k s).1 = pools.map .ok ∧
      (∀ pool ∈ pools, 1 ≤ pool.size ∧ ∃ node, ∀ core ∈ pool.threads, nodeOf core = node) ∧
      (∀ core, (cpuIssetS core.coreID (P.mask s) = true ∧
            Succeeded (findAvailableNumaNodes P.recorded (s, [])).2.2 core →
          (pools.map fun pool => pool.threads.count core).sum = k.toNat) ∧
        (¬(cpuIssetS core.coreID (P.mask s) = true ∧ Succeeded (findAvailableNumaNodes P.recorded (s, [])).2.2 core) →
          (pools.map fun pool => pool.threads.count core).sum = 0)) ∧
      ∀ pool ∈ pools, ∀ core ∈ pool.threads, ∀ s', P.mask s' = P.mask (buildOnNodes P k s).2 →
        (findAvailableCores P (startThread P core s')).1 =
          if (P.pthreadSetaffinityNp (single core) s').1 = true then (∅ : CoreSet).insert core
          else (findAvailableCores P s).1 := by
  have hnodes := discovered hP s
  rw [buildOnNodes_eq hP.toLawful hk]
  generalize (findAvailableNumaNodes P s).1 = nodes at hnodes ⊢
  generalize (findAvailableNumaNodes P s).2 = s₁ at hnodes ⊢
  generalize (findAvailableNumaNodes P.recorded (s, [])).2.2 = calls at hnodes ⊢
  have hthreads : ∀ {node : NUMANode} {core}, core ∈ (buildWorkerPool k node.cores).threads → core ∈ node.cores := by
    intro node core hcore
    by_contra hnot
    have hcount := buildWorkerPool_count k node.cores core
    rw [if_neg hnot] at hcount
    exact absurd hcore (List.count_eq_zero.1 hcount)
  refine ⟨nodes.toList.map fun node => buildWorkerPool k node.cores, rfl, fun pool hpool => ?_, fun core => ?_,
    fun pool hpool core hcore s' hs' => ?_⟩
  · obtain ⟨node, hnode, rfl⟩ := List.mem_map.1 hpool
    refine ⟨?_, node.numaNodeID, fun core hcore => (hnodes.own node hnode core (hthreads hcore)).symm⟩
    rw [buildWorkerPool_size]
    exact Nat.mul_pos (Nat.pos_of_ne_zero fun h0 => hk (UInt32.toNat_inj.1 h0)) (Keyed.size_pos_iff.2 (hnodes.nonempty node hnode))
  · rw [List.map_map, Function.comp_def, count_nodes hnodes, ← hnodes.union core]
    exact ⟨fun h => if_pos h, fun h => if_neg h⟩
  · obtain ⟨node, hnode, rfl⟩ := List.mem_map.1 hpool
    have hset := ((hnodes.union core).1 ⟨node, hnode, hthreads hcore⟩).1
    rw [cores_startThread hP.toLawful (isset_lt hset), findAvailableCores_congr hP.toLawful (hs'.trans hnodes.mask)]

end

/-- Cores 0, 5 and 9, four to a node; `getcpu` fails on core 5, which gets no worker. -/
theorem buildOnNodes_two : ∃ pools : List WorkerPool,
    (buildOnNodes (accepting (· / 4) (· == 5)) 2 545).1 = pools.map .ok ∧ pools.map WorkerPool.threads = [[⟨0⟩, ⟨0⟩], [⟨9⟩, ⟨9⟩]] ∧
    (findAvailableCores (accepting (· / 4) (· == 5)) (startThread (accepting (· / 4) (· == 5)) ⟨9⟩ 545)).1 =
      (∅ : CoreSet).insert ⟨9⟩ := by
  obtain ⟨pools, hpools, -, -, hcores⟩ := buildOnNodes_placed (k := 2) (accepting_pins (· / 4) (· == 5)) (by decide) 545
  have hthreads : pools.map WorkerPool.threads = [[⟨0⟩, ⟨0⟩], [⟨9⟩, ⟨9⟩]] := by
    have hall : (buildOnNodes (accepting (· / 4) (· == 5)) 2 545).1.map (fun pool => pool.toOption.map WorkerPool.threads) =
        [some [⟨0⟩, ⟨0⟩], some [⟨9⟩, ⟨9⟩]] := by decide +kernel
    rw [hpools, List.map_map] at hall
    refine List.map_injective_iff.2 (fun _ _ => Option.some.inj) ?_
    rw [List.map_map]
    exact hall
  obtain ⟨pool, hpool, hnine⟩ := List.mem_map.1 (show [⟨9⟩, ⟨9⟩] ∈ pools.map WorkerPool.threads by rw [hthreads]; simp)
  refine ⟨pools, hpools, hthreads, ?_⟩
  exact hcores pool hpool ⟨9⟩ (by rw [hnine]; simp) 545 (by decide +kernel)

end Dxpool.Workers
