/-
The builder of worker pools (src/WorkerPool.h). The last setting of each kind
counts; what is built has a worker for each of the threads asked for on each
core that was chosen. A NUMA node counts as set if it has an ID, so one without
cores passes for a choice and gives a pool without workers (`works_iff`).
-/
import Dxpool.Processor.Core
import Mathlib.Data.List.Induction

namespace Dxpool.Workers

open Processor

structure InvalidWorkerPoolBuilderArgumentsError where
  what : String
  deriving DecidableEq, Repr

/-- The core that each thread was started for, in the order they were started. -/
structure WorkerPool where
  threads : List Core := []

def WorkerPool.size (pool : WorkerPool) : Nat := pool.threads.length

/-- The inner loop of `buildWorkerPool`. -/
def startThreads (threadsPerCore : UInt32) (threads : List Core) (core : Core) : List Core :=
  (List.range threadsPerCore.toNat).foldl (fun threads _ => threads ++ [core]) threads

def buildWorkerPool (threadsPerCore : UInt32) (cores : CoreSet) : WorkerPool :=
  { threads := cores.toList.foldl (startThreads threadsPerCore) [] }

structure WorkerPoolBuilder where
  cpuCores : CoreSet := ∅
  numaNode : NUMANode := {}
  threadsPerCore : UInt32 := 0

namespace WorkerPoolBuilder

def withThreadsPerCore (builder : WorkerPoolBuilder) (num : UInt32) : WorkerPoolBuilder :=
  { builder with threadsPerCore := num }

def onCores (builder : WorkerPoolBuilder) (cores : CoreSet) : WorkerPoolBuilder := { builder with cpuCores := cores }

def onNUMANode (builder : WorkerPoolBuilder) (node : NUMANode) : WorkerPoolBuilder := { builder with numaNode := node }

/-- `Build`, thread creation succeeding. -/
def build (builder : WorkerPoolBuilder) : Except InvalidWorkerPoolBuilderArgumentsError WorkerPool :=
  if builder.threadsPerCore < 1 then
    .error ⟨"At least one thread per core needs to be specified"⟩
  else if builder.cpuCores.isEmpty ∧ builder.numaNode.empty then
    .error ⟨"At least one of cores or NUMA node must be specified"⟩
  else if ¬builder.cpuCores.isEmpty ∧ ¬builder.numaNode.empty then
    .error ⟨"Only one of cores or NUMA can be specified"⟩
  else
    .ok (buildWorkerPool builder.threadsPerCore
      (if ¬builder.cpuCores.isEmpty then builder.cpuCores else builder.numaNode.cores))

end WorkerPoolBuilder

/-- A call on a builder. -/
inductive Setting
  | withThreadsPerCore (num : UInt32)
  | onCores (cores : CoreSet)
  | onNUMANode (node : NUMANode)

namespace Setting

def apply (builder : WorkerPoolBuilder) : Setting → WorkerPoolBuilder
  | .withThreadsPerCore num => builder.withThreadsPerCore num
  | .onCores cores => builder.onCores cores
  | .onNUMANode node => builder.onNUMANode node

def threads? : Setting → Option UInt32
  | .withThreadsPerCore num => some num
  | _ => none

def cores? : Setting → Option CoreSet
  | .onCores cores => some cores
  | _ => none

def node? : Setting → Option NUMANode
  | .onNUMANode node => some node
  | _ => none

end Setting

/-- A builder after some calls. -/
def configured (settings : List Setting) : WorkerPoolBuilder := settings.foldl Setting.apply {}

/-- The last of the settings that `f` picks. -/
def lastOf {β : Type} (f : Setting → Option β) (default : β) (settings : List Setting) : β :=
  (settings.filterMap f).getLast?.getD default

section
variable (settings : List Setting)

/-- The threads per core that are asked for. -/
def threadsAsked : UInt32 := lastOf Setting.threads? 0 settings

/-- The core set that is asked for. -/
def coresAsked : CoreSet := lastOf Setting.cores? ∅ settings

/-- The NUMA node that is asked for. -/
def nodeAsked : NUMANode := lastOf Setting.node? {} settings

/-- The cores chosen: the core set, or else those of the node. -/
def coresChosen : CoreSet := if coresAsked settings = ∅ then (nodeAsked settings).cores else coresAsked settings

/-- What is built works: there is an error exactly if no threads are asked for,
neither source has a core, or both are set; and a pool has a worker, and for each
core chosen and no other as many as were asked for. -/
structure Works : Prop where
  error : (∃ e, (configured settings).build = .error e) ↔
    threadsAsked settings = 0 ∨ coresAsked settings = ∅ ∧ (nodeAsked settings).cores = ∅ ∨
      coresAsked settings ≠ ∅ ∧ (nodeAsked settings).empty = false
  pool : ∀ pool, (configured settings).build = .ok pool → 1 ≤ pool.size ∧
    (∀ core, pool.threads.count core = if core ∈ coresChosen settings then (threadsAsked settings).toNat else 0) ∧
    pool.size = (threadsAsked settings).toNat * (coresChosen settings).size

end

/-! ## The threads -/

theorem startThreads_eq (k : UInt32) (threads : List Core) (core : Core) :
    startThreads k threads core = threads ++ List.replicate k.toNat core := by
  unfold startThreads
  generalize k.toNat = n
  induction n with
  | zero => simp
  | succ n ih => rw [List.range_succ, List.foldl_append, ih, List.replicate_succ', ← List.append_assoc]; rfl

theorem threads_eq (k : UInt32) (cores : List Core) (threads : List Core) :
    cores.foldl (startThreads k) threads = threads ++ cores.flatMap (List.replicate k.toNat) := by
  induction cores generalizing threads with
  | nil => simp
  | cons core cores ih =>
    rw [List.foldl_cons, ih, startThreads_eq, List.flatMap_cons, List.append_assoc]

theorem buildWorkerPool_size (k : UInt32) (cores : CoreSet) : (buildWorkerPool k cores).size = k.toNat * cores.size := by
  unfold WorkerPool.size buildWorkerPool Keyed.size
  rw [threads_eq, List.nil_append]
  induction cores.toList with
  | nil => rfl
  | cons core cores ih =>
    rw [List.flatMap_cons, List.length_append, ih, List.length_replicate, List.length_cons, Nat.mul_succ, Nat.add_comm]

theorem buildWorkerPool_count (k : UInt32) (cores : CoreSet) (core : Core) :
    (buildWorkerPool k cores).threads.count core = if core ∈ cores then k.toNat else 0 := by
  have hcount : ∀ l : List Core, l.Nodup →
      (l.flatMap (List.replicate k.toNat)).count core = if core ∈ l then k.toNat else 0 := by
    intro l hl
    induction l with
    | nil => rfl
    | cons c l ih =>
      obtain ⟨hc, hl⟩ := List.nodup_cons.1 hl
      rw [List.flatMap_cons, List.count_append, ih hl, List.count_replicate]
      by_cases h : c = core
      · subst h
        simp [hc]
      · simp [h, Ne.symm h]
  unfold buildWorkerPool
  rw [threads_eq, List.nil_append]
  exact hcount _ cores.nodup

/-! ## The settings -/

theorem lastOf_concat {β : Type} (f : Setting → Option β) (d : β) (settings : List Setting) (c : Setting) :
    lastOf f d (settings ++ [c]) = (f c).getD (lastOf f d settings) := by
  unfold lastOf
  rw [List.filterMap_append, List.getLast?_append]
  cases h : f c <;> simp [h]

/-- The last call of each kind wins. -/
theorem configured_eq (settings : List Setting) : configured settings =
    { cpuCores := coresAsked settings, numaNode := nodeAsked settings, threadsPerCore := threadsAsked settings } := by
  induction settings using List.reverseRecOn with
  | nil => rfl
  | append_singleton settings c ih =>
    have h : configured (settings ++ [c]) = c.apply (configured settings) := by
      unfold configured
      rw [List.foldl_append]
      rfl
    unfold coresAsked nodeAsked threadsAsked at ih ⊢
    rw [h, ih, lastOf_concat, lastOf_concat, lastOf_concat]
    cases c <;> rfl

/-! ## Building -/

theorem build_cases (b : WorkerPoolBuilder) :
    (∃ e, b.build = .error e) ∧
        (b.threadsPerCore = 0 ∨ b.cpuCores = ∅ ∧ b.numaNode.empty = true ∨ b.cpuCores ≠ ∅ ∧ b.numaNode.empty = false) ∨
      b.build = .ok (buildWorkerPool b.threadsPerCore (if b.cpuCores = ∅ then b.numaNode.cores else b.cpuCores)) ∧
        b.threadsPerCore ≠ 0 ∧ (b.cpuCores = ∅ ↔ b.numaNode.empty = false) := by
  have hlt : b.threadsPerCore < 1 ↔ b.threadsPerCore = 0 := by
    rw [UInt32.lt_iff_toNat_lt, ← UInt32.toNat_inj]
    exact Nat.lt_one_iff
  unfold WorkerPoolBuilder.build
  simp only [hlt, Keyed.isEmpty_iff, Bool.not_eq_true]
  by_cases hk : b.threadsPerCore = 0
  · rw [if_pos hk]
    exact .inl ⟨⟨_, rfl⟩, .inl hk⟩
  rw [if_neg hk]
  by_cases hcores : b.cpuCores = ∅
  · cases hempty : b.numaNode.empty with
    | true =>
      rw [if_pos ⟨hcores, rfl⟩]
      exact .inl ⟨⟨_, rfl⟩, .inr (.inl ⟨hcores, rfl⟩)⟩
    | false =>
      rw [if_neg (by simp), if_neg (by simp [hcores]), ite_not]
      exact .inr ⟨rfl, hk, iff_of_true hcores rfl⟩
  · rw [if_neg (by simp [hcores])]
    cases hempty : b.numaNode.empty with
    | true =>
      rw [if_neg (by simp), ite_not]
      exact .inr ⟨rfl, hk, iff_of_false hcores (by simp)⟩
    | false =>
      rw [if_pos ⟨hcores, rfl⟩]
      exact .inl ⟨⟨_, rfl⟩, .inr (.inr ⟨hcores, rfl⟩)⟩

section
variable (settings : List Setting)

/-- In terms of the settings. -/
theorem configured_cases :
    (∃ e, (configured settings).build = .error e) ∧ (threadsAsked settings = 0 ∨
        coresAsked settings = ∅ ∧ (nodeAsked settings).empty = true ∨
        coresAsked settings ≠ ∅ ∧ (nodeAsked settings).empty = false) ∨
      (configured settings).build = .ok (buildWorkerPool (threadsAsked settings) (coresChosen settings)) ∧
        threadsAsked settings ≠ 0 ∧ (coresAsked settings = ∅ ↔ (nodeAsked settings).empty = false) := by
  rw [configured_eq]
  exact build_cases _

/-- **Builder configurations.** Building works unless threads are asked for, on
no core set, and on a NUMA node that has an ID and no cores. -/
theorem works_iff : Works settings ↔
    ¬(threadsAsked settings ≠ 0 ∧ coresAsked settings = ∅ ∧ (nodeAsked settings).empty = false ∧
      (nodeAsked settings).cores = ∅) := by
  constructor
  · rintro h ⟨hk, hcores, hempty, hnone⟩
    obtain ⟨e, he⟩ := h.error.2 (.inr (.inl ⟨hcores, hnone⟩))
    rcases configured_cases settings with ⟨-, hk' | ⟨-, hempty'⟩ | ⟨hcores', -⟩⟩ | ⟨hok, -⟩
    · exact hk hk'
    · exact absurd (hempty.symm.trans hempty') (by simp)
    · exact hcores' hcores
    · cases he.symm.trans hok
  · intro hnot
    rcases configured_cases settings with ⟨herror, hrefused⟩ | ⟨hok, hk, hcores⟩
    · refine ⟨iff_of_true herror ?_, fun pool hpool => ?_⟩
      · exact hrefused.imp_right (Or.imp_left fun ⟨hc, hempty⟩ => ⟨hc, (nodeAsked settings).cores_of_empty hempty⟩)
      · obtain ⟨e, he⟩ := herror
        cases he.symm.trans hpool
    · have hchosen : coresChosen settings ≠ ∅ := by
        unfold coresChosen
        split
        · rename_i hc
          exact fun hnone => hnot ⟨hk, hc, hcores.1 hc, hnone⟩
        · rename_i hc
          exact hc
      have hpos : 0 < (threadsAsked settings).toNat := Nat.pos_of_ne_zero fun h0 => hk (UInt32.toNat_inj.1 h0)
      refine ⟨iff_of_false ?_ ?_, fun pool hpool => ?_⟩
      · intro herror
        obtain ⟨e, he⟩ := herror
        cases hok.symm.trans he
      · intro hrefused
        rcases hrefused with hk' | ⟨hc, hnone⟩ | ⟨hc, hempty⟩
        · exact hk hk'
        · exact hnot ⟨hk, hc, hcores.1 hc, hnone⟩
        · exact hc (hcores.2 hempty)
      · cases hok.symm.trans hpool
        have hsize := buildWorkerPool_size (threadsAsked settings) (coresChosen settings)
        refine ⟨?_, buildWorkerPool_count _ _, hsize⟩
        rw [hsize]
        exact Nat.mul_pos hpos (Keyed.size_pos_iff.2 hchosen)

end

/-- A NUMA node without cores: the pool has no worker. -/
theorem no_workers : ¬Works [.withThreadsPerCore 1, .onNUMANode (.withID 0 ∅)] := by
  intro h
  have hsize := (h.pool { threads := [] } rfl).1
  exact absurd hsize (by decide)

end Dxpool.Workers
