/-
`FindAvailableNumaNodes` (src/ProcessorLinux.h). It pins the thread to one core
of its mask after another and asks `getcpu` for the node. Whichever of these
calls fail, the nodes partition the cores for which both succeed, and the
mask is in the end what it was (`findAvailableNumaNodes_partition`).
-/
import Dxpool.Processor.Affinity
import Mathlib.Logic.Relation

namespace Dxpool.Processor

/-! ## The function -/

/-- What the entries of `nodeCoreMap` are ordered by. -/
def nodeKey (entry : UInt32 × CoreSet) : Nat := entry.1.toNat

/-- `std::map<unsigned int, std::set<Core>>`. -/
abbrev NodeCoreMap := Keyed nodeKey

/-- `nodeCoreMap[numaNodeID]`, where it is read. -/
def coresAt (m : NodeCoreMap) (numaNodeID : UInt32) : CoreSet := (m.find? numaNodeID.toNat).elim ∅ Prod.snd

/-- A core added to a node, which may be new. -/
def addCore (nodeCoreMap : NodeCoreMap) (numaNodeID : UInt32) (core : Core) : NodeCoreMap :=
  let nodeCoreMap :=
    match nodeCoreMap.find? numaNodeID.toNat with
    | none => nodeCoreMap.put (numaNodeID, ∅)
    | some _ => nodeCoreMap
  nodeCoreMap.put (numaNodeID, (coresAt nodeCoreMap numaNodeID).insert core)

/-- The loop that makes the nodes. -/
def nodesOf (nodeCoreMap : NodeCoreMap) : Keyed NUMANode.key :=
  nodeCoreMap.toList.foldl (fun nodes entry => nodes.insert (.withID entry.1 entry.2)) ∅

/-- The mask of one core. -/
def single (core : Core) : CpuSet := cpuSetS core.coreID cpuZeroS

section
variable {σ : Type} (P : Platform σ)

def collectNUMANodes (coreID : UInt32) : NodeCoreMap × σ → NodeCoreMap × σ
  | (nodeCoreMap, s) =>
    let currentCoreMask := single ⟨coreID⟩
    match P.pthreadSetaffinityNp currentCoreMask s with
    | (false, s) => (nodeCoreMap, s)
    | (true, s) =>
      match P.getcpu s with
      | (none, s) => (nodeCoreMap, s)
      | (some (currentCoreID, numaNodeID), s) =>
        (addCore nodeCoreMap numaNodeID ⟨currentCoreID⟩, s)

def findAvailableNumaNodes (s : σ) : Keyed NUMANode.key × σ :=
  let (originalCPUSetMask, s) := getCurrentThreadCoresAffinityMask P s
  let (nodeCoreMap, s) := forEachCPUSet P (collectNUMANodes P) ∅ s
  let nodes := nodesOf nodeCoreMap
  -- whether the mask is restored is not looked at
  let (_, s) := P.pthreadSetaffinityNp originalCPUSetMask s
  (nodes, s)

/-! ## The operating system -/

/-- One call. -/
inductive Platform.Steps : σ → σ → Prop
  | getaffinity s : Platform.Steps s (P.pthreadGetaffinityNp s).2
  | setaffinity m s : Platform.Steps s (P.pthreadSetaffinityNp m s).2
  | getcpu s : Platform.Steps s (P.getcpu s).2

/-- Any calls. -/
def Platform.Reaches : σ → σ → Prop := Relation.ReflTransGen P.Steps

/-- A mask that was in force before is accepted again, and `getcpu` on a thread
that is pinned to one core answers that core and its node, if anything. -/
structure Platform.Pins (nodeOf : Core → UInt32) : Prop extends P.Lawful where
  again : ∀ {s s'}, P.Reaches s s' → (P.pthreadSetaffinityNp (P.mask s) s').1 = true
  getcpu : ∀ {s} {pinned : Core} {core node : UInt32}, pinned.coreID.toNat < 1024 → P.mask s = single pinned →
    (P.getcpu s).1 = some (core, node) → core = pinned.coreID ∧ node = nodeOf pinned

/-- A call that was made: of `pthread_setaffinity_np`, or of `getcpu` under a mask. -/
inductive SysCall
  | setaffinity (mask : CpuSet) (ok : Bool)
  | getcpu (mask : CpuSet) (answer : Option (UInt32 × UInt32))
  deriving DecidableEq

/-- The same platform, with the calls on record, latest first. -/
def Platform.recorded : Platform (σ × List SysCall) where
  mask s := P.mask s.1
  pthreadGetaffinityNp s := ((P.pthreadGetaffinityNp s.1).1, (P.pthreadGetaffinityNp s.1).2, s.2)
  pthreadSetaffinityNp m s := ((P.pthreadSetaffinityNp m s.1).1, (P.pthreadSetaffinityNp m s.1).2,
    .setaffinity m (P.pthreadSetaffinityNp m s.1).1 :: s.2)
  getcpu s := ((P.getcpu s.1).1, (P.getcpu s.1).2, .getcpu (P.mask s.1) (P.getcpu s.1).1 :: s.2)

/-- Both calls were tried for `core`, up to the one that failed. -/
def Tried (calls : List SysCall) (core : Core) : Prop :=
  .setaffinity (single core) false ∈ calls ∨
    .setaffinity (single core) true ∈ calls ∧ ∃ answer, .getcpu (single core) answer ∈ calls

/-- `getcpu` answered under `mask`. -/
def Answered (calls : List SysCall) (mask : CpuSet) : Prop := ∃ answer, .getcpu mask (some answer) ∈ calls

/-- Both calls succeeded for `core`. -/
def Succeeded (calls : List SysCall) (core : Core) : Prop :=
  .setaffinity (single core) true ∈ calls ∧ Answered calls (single core)

variable (nodeOf : Core → UInt32)

/-- The nodes found between `s` and `s'` partition the cores of the mask for
which both calls succeeded, each with its node, and the mask is as it was. -/
structure Partition (s : σ) (nodes : Keyed NUMANode.key) (s' : σ) (calls : List SysCall) : Prop where
  tried : ∀ core, cpuIssetS core.coreID (P.mask s) = true → Tried calls core
  distinct : nodes.toList.Pairwise fun n n' => n.numaNodeID ≠ n'.numaNodeID
  nonempty : ∀ n ∈ nodes, n.cores ≠ ∅
  disjoint : nodes.toList.Pairwise fun n n' => ∀ core ∈ n.cores, core ∉ n'.cores
  union : ∀ core, (∃ n ∈ nodes, core ∈ n.cores) ↔ cpuIssetS core.coreID (P.mask s) = true ∧ Succeeded calls core
  own : ∀ n ∈ nodes, ∀ core ∈ n.cores, n.numaNodeID = nodeOf core
  mask : P.mask s' = P.mask s

end

/-! ## The map -/

section
variable {m : NodeCoreMap} {e : UInt32 × CoreSet} {id : UInt32} {core core' : Core}

theorem mem_coresAt : core ∈ coresAt m id ↔ ∃ e ∈ m, e.1 = id ∧ core ∈ e.2 := by
  unfold coresAt
  cases h : m.find? id.toNat with
  | none =>
    have hno := Keyed.find?_eq_none.1 h
    refine iff_of_false Keyed.not_mem_empty ?_
    intro hc
    obtain ⟨e, he, rfl, -⟩ := hc
    exact hno e he rfl
  | some e =>
    obtain ⟨he, hkey⟩ := Keyed.find?_eq_some.1 h
    have hid : e.1 = id := UInt32.toNat_inj.1 hkey
    constructor
    · intro hc
      exact ⟨e, he, hid, hc⟩
    · intro h
      obtain ⟨e', he', hid', hc⟩ := h
      have heq : e' = e := Keyed.eq_of_key he' he (congrArg UInt32.toNat (hid'.trans hid.symm))
      exact heq ▸ hc

/-- An entry is put in the place of the one of its node. -/
theorem mem_put_node {cores : CoreSet} : e ∈ m.put (id, cores) ↔ e = (id, cores) ∨ e ∈ m ∧ e.1 ≠ id := by
  rw [Keyed.mem_put]
  exact or_congr_right (and_congr_right fun _ => not_congr UInt32.toNat_inj)

theorem mem_addCore : e ∈ addCore m id core ↔ e = (id, (coresAt m id).insert core) ∨ e ∈ m ∧ e.1 ≠ id := by
  unfold addCore
  cases h : m.find? id.toNat with
  | some => exact mem_put_node
  | none =>
    have hcores : coresAt (m.put (id, ∅)) id = coresAt m id := by
      refine Keyed.ext fun c => ?_
      rw [mem_coresAt, mem_coresAt]
      constructor
      · intro h
        obtain ⟨e, he, hid, hc⟩ := h
        rcases mem_put_node.1 he with rfl | ⟨-, hne⟩
        · exact absurd hc Keyed.not_mem_empty
        · exact absurd hid hne
      · intro hc
        obtain ⟨e, he, rfl, -⟩ := hc
        exact absurd rfl (Keyed.find?_eq_none.1 h e he)
    simp only [hcores]
    rw [mem_put_node, mem_put_node, or_and_right]
    refine or_congr_right ?_
    constructor
    · intro h
      rcases h with ⟨rfl, hne⟩ | ⟨⟨he, hne⟩, -⟩
      · exact absurd rfl hne
      · exact ⟨he, hne⟩
    · exact fun ⟨he, hne⟩ => .inr ⟨⟨he, hne⟩, hne⟩

/-- What is in the map then. -/
theorem exists_mem_addCore : (∃ e ∈ addCore m id core, core' ∈ e.2) ↔ core' = core ∨ ∃ e ∈ m, core' ∈ e.2 := by
  constructor
  · intro h
    obtain ⟨e, he, hc⟩ := h
    rcases mem_addCore.1 he with rfl | ⟨he, -⟩
    · refine ((Keyed.mem_insert_of_injective Core.key_injective).1 hc).imp_right fun hc => ?_
      obtain ⟨e, he, -, hc⟩ := mem_coresAt.1 hc
      exact ⟨e, he, hc⟩
    · exact .inr ⟨e, he, hc⟩
  · have hself : ∀ c, c = core ∨ c ∈ coresAt m id → ∃ e ∈ addCore m id core, c ∈ e.2 := fun c hc =>
      ⟨_, mem_addCore.2 (.inl rfl), (Keyed.mem_insert_of_injective Core.key_injective).2 hc⟩
    intro h
    rcases h with hc | ⟨e, he, hc⟩
    · exact hself core' (.inl hc)
    · by_cases hid : e.1 = id
      · exact hself core' (.inr (mem_coresAt.2 ⟨e, he, hid, hc⟩))
      · exact ⟨e, mem_addCore.2 (.inr ⟨he, hid⟩), hc⟩

end

/-! ## One core -/

section
variable {σ : Type} {P : Platform σ} {nodeOf : Core → UInt32} {s s₀ : σ} {calls : List SysCall} {cpu : UInt32}
  {m : NodeCoreMap} {core : Core} {l : List UInt32}

theorem recorded_lawful (hP : P.Lawful) : P.recorded.Lawful :=
  ⟨fun s => hP.getaffinity s.1, fun s => hP.mask_getaffinity s.1, fun m s => hP.setaffinity m s.1,
    fun m s => hP.mask_setaffinity m s.1⟩

theorem isset_single : cpuIssetS cpu (single core) = true ↔ cpu.toNat < 1024 ∧ cpu = core.coreID := by
  unfold single
  rw [isset_set, isset_zero, Bool.false_eq_true, or_false]

theorem single_inj {core' : Core} (hlt : core'.coreID.toNat < 1024) : single core' = single core ↔ core' = core := by
  constructor
  · intro h
    have hself : cpuIssetS core'.coreID (single core') = true := isset_single.2 ⟨hlt, rfl⟩
    rw [h] at hself
    cases core'
    cases core
    exact congrArg Core.mk (isset_single.1 hself).2
  · rintro rfl
    rfl

/-- `getcpu` was called under masks that were set. -/
def Pinned (calls : List SysCall) : Prop := ∀ mask answer, .getcpu mask answer ∈ calls → .setaffinity mask true ∈ calls

theorem Tried.mono {calls' : List SysCall} (h : Tried calls core) (hsub : calls ⊆ calls') : Tried calls' core := by
  rcases h with hno | ⟨hyes, answer, ha⟩
  · exact .inl (hsub hno)
  · exact .inr ⟨hsub hyes, answer, hsub ha⟩

theorem Pinned.setaffinity {mask : CpuSet} {ok : Bool} (h : Pinned calls) : Pinned (.setaffinity mask ok :: calls) := by
  intro mask' answer ha
  exact List.mem_cons_of_mem _ (h mask' answer (by simpa using ha))

theorem Pinned.getcpu {mask : CpuSet} {answer : Option (UInt32 × UInt32)} (h : Pinned calls) :
    Pinned (.getcpu mask answer :: .setaffinity mask true :: calls) := by
  intro mask' answer' ha
  rcases List.mem_cons.1 ha with heq | ha
  · cases heq
    simp
  · exact List.mem_cons_of_mem _ (h.setaffinity mask' answer' ha)

/-- What comes of one core: its calls are on record; either one failed, or the
core is added to its node. -/
theorem collect_cases (hP : P.Pins nodeOf) (hlt : cpu.toNat < 1024) (hpinned : Pinned calls) : ∃ s' calls',
    P.Reaches s s' ∧ calls ⊆ calls' ∧ Tried calls' ⟨cpu⟩ ∧ Pinned calls' ∧
      (collectNUMANodes P.recorded cpu (m, s, calls) = (m, s', calls') ∧ (∀ mask, Answered calls' mask ↔ Answered calls mask) ∨
        collectNUMANodes P.recorded cpu (m, s, calls) = (addCore m (nodeOf ⟨cpu⟩) ⟨cpu⟩, s', calls') ∧
          ∀ mask, Answered calls' mask ↔ mask = single ⟨cpu⟩ ∨ Answered calls mask) := by
  have hset : P.Reaches s (P.pthreadSetaffinityNp (single ⟨cpu⟩) s).2 := .single (.setaffinity _ s)
  have hget : P.Reaches s (P.getcpu (P.pthreadSetaffinityNp (single ⟨cpu⟩) s).2).2 := hset.tail (.getcpu _)
  simp only [collectNUMANodes, Platform.recorded]
  cases hok : (P.pthreadSetaffinityNp (single ⟨cpu⟩) s).1 with
  | false =>
    exact ⟨_, _, hset, List.subset_cons_self .., .inl List.mem_cons_self, hpinned.setaffinity,
      .inl ⟨rfl, fun mask => by simp [Answered]⟩⟩
  | true =>
    have hmask := hP.setaffinity _ _ hok
    simp only [hmask]
    have hsub : ∀ answer, calls ⊆ .getcpu (single ⟨cpu⟩) answer :: .setaffinity (single ⟨cpu⟩) true :: calls :=
      fun _ _ hx => List.mem_cons_of_mem _ (List.mem_cons_of_mem _ hx)
    have htried : ∀ answer, Tried (.getcpu (single ⟨cpu⟩) answer :: .setaffinity (single ⟨cpu⟩) true :: calls) ⟨cpu⟩ :=
      fun answer => .inr ⟨List.mem_cons_of_mem _ List.mem_cons_self, answer, List.mem_cons_self⟩
    cases hanswer : (P.getcpu (P.pthreadSetaffinityNp (single ⟨cpu⟩) s).2).1 with
    | none =>
      exact ⟨_, _, hget, hsub none, htried none, hpinned.getcpu, .inl ⟨rfl, fun mask => by simp [Answered]⟩⟩
    | some answer =>
      obtain ⟨currentCoreID, numaNodeID⟩ := answer
      obtain ⟨rfl, rfl⟩ := hP.getcpu hlt hmask hanswer
      refine ⟨_, _, hget, hsub _, htried _, hpinned.getcpu, .inr ⟨rfl, fun mask => ?_⟩⟩
      unfold Answered
      simp only [List.mem_cons, SysCall.getcpu.injEq, Option.some.injEq, reduceCtorEq, false_or]
      constructor
      · intro h
        obtain ⟨a, ⟨hsame, -⟩ | ha⟩ := h
        · exact .inl hsame
        · exact .inr ⟨a, ha⟩
      · intro h
        rcases h with hsame | ⟨a, ha⟩
        · exact ⟨_, .inl ⟨hsame, rfl⟩⟩
        · exact ⟨a, .inr ha⟩

variable (P nodeOf s₀) in
/-- Where the loop is when it is past the cores of `l`. -/
structure Gathered (l : List UInt32) (r : NodeCoreMap × σ × List SysCall) : Prop where
  reaches : P.Reaches s₀ r.2.1
  pinned : Pinned r.2.2
  tried : ∀ cpu ∈ l, Tried r.2.2 ⟨cpu⟩
  nonempty : ∀ e ∈ r.1, e.2 ≠ ∅
  own : ∀ e ∈ r.1, ∀ core ∈ e.2, e.1 = nodeOf core
  cores : ∀ core, (∃ e ∈ r.1, core ∈ e.2) ↔ cpuIssetS core.coreID (P.mask s₀) = true ∧ Answered r.2.2 (single core)

/-- One core more. -/
theorem Gathered.step {r : NodeCoreMap × σ × List SysCall} (hP : P.Pins nodeOf) (h : Gathered P nodeOf s₀ l r)
    (hcpu : cpuIssetS cpu (P.mask s₀) = true) : Gathered P nodeOf s₀ (l ++ [cpu]) (collectNUMANodes P.recorded cpu r) := by
  obtain ⟨m, s, calls⟩ := r
  obtain ⟨s', calls', hreach, hsub, hnew, hpinned, hcases⟩ :=
    collect_cases (s := s) (m := m) hP (isset_lt hcpu) h.pinned
  have htried : ∀ c ∈ l ++ [cpu], Tried calls' ⟨c⟩ := by
    intro c hc
    rcases List.mem_append.1 hc with hc | hc
    · exact (h.tried c hc).mono hsub
    · rw [List.mem_singleton.1 hc]
      exact hnew
  rcases hcases with ⟨hr, hanswer⟩ | ⟨hr, hanswer⟩
  · rw [hr]
    exact ⟨h.reaches.trans hreach, hpinned, htried, h.nonempty, h.own, fun c => by rw [hanswer]; exact h.cores c⟩
  · rw [hr]
    have hmem : ∀ c, c ∈ (coresAt m (nodeOf ⟨cpu⟩)).insert ⟨cpu⟩ ↔ c = ⟨cpu⟩ ∨ c ∈ coresAt m (nodeOf ⟨cpu⟩) := fun c =>
      Keyed.mem_insert_of_injective Core.key_injective
    refine ⟨h.reaches.trans hreach, hpinned, htried, fun e he hempty => ?_, fun e he c hc => ?_, fun c => ?_⟩
    · rcases mem_addCore.1 he with rfl | ⟨he, -⟩
      · have hin := (hmem ⟨cpu⟩).2 (.inl rfl)
        rw [show (coresAt m (nodeOf ⟨cpu⟩)).insert ⟨cpu⟩ = ∅ from hempty] at hin
        exact Keyed.not_mem_empty hin
      · exact h.nonempty e he hempty
    · rcases mem_addCore.1 he with rfl | ⟨he, -⟩
      · rcases (hmem c).1 hc with rfl | hc
        · rfl
        · obtain ⟨e, he, hid, hc⟩ := mem_coresAt.1 hc
          exact hid ▸ h.own e he c hc
      · exact h.own e he c hc
    · rw [exists_mem_addCore, hanswer]
      constructor
      · intro hc
        rcases hc with rfl | hc
        · exact ⟨hcpu, .inl rfl⟩
        · exact ((h.cores c).1 hc).imp_right .inr
      · intro hc
        obtain ⟨hset, hsame | ha⟩ := hc
        · exact .inl ((single_inj (isset_lt hset)).1 hsame)
        · exact .inr ((h.cores c).2 ⟨hset, ha⟩)

/-- **The loop** over cores of the mask. -/
theorem Gathered.run {r : NodeCoreMap × σ × List SysCall} {l' : List UInt32} (hP : P.Pins nodeOf)
    (h : Gathered P nodeOf s₀ l r) (hl' : ∀ cpu ∈ l', cpuIssetS cpu (P.mask s₀) = true) :
    Gathered P nodeOf s₀ (l ++ l') (l'.foldl (fun r i => collectNUMANodes P.recorded i r) r) := by
  induction l' generalizing l r with
  | nil => rwa [List.append_nil]
  | cons cpu l' ih =>
    have hnext := ih (h.step hP (hl' cpu List.mem_cons_self)) fun c hc => hl' c (List.mem_cons_of_mem _ hc)
    rw [List.append_assoc] at hnext
    exact hnext

/-! ## The nodes -/

/-- The nodes are the entries of the map. -/
theorem mem_nodesOf {n : NUMANode} : n ∈ nodesOf m ↔ ∃ e ∈ m, n = .withID e.1 e.2 := by
  have hkeys : (m.toList.map (NUMANode.key ∘ fun entry => NUMANode.withID entry.1 entry.2)).Nodup := m.nodup_keys
  unfold nodesOf
  rw [Keyed.mem_foldl_insert hkeys fun c hc => absurd hc Keyed.not_mem_empty]
  simp only [Keyed.not_mem_empty, false_or]
  rfl

/-- What the loop gathered, as nodes, when the mask is restored. -/
theorem Gathered.partition {r : NodeCoreMap × σ × List SysCall} {s' : σ} {ok : Bool} (h : Gathered P nodeOf s₀ l r)
    (hl : ∀ cpu, cpuIssetS cpu (P.mask s₀) = true → cpu ∈ l) (hmask : P.mask s' = P.mask s₀) :
    Partition P nodeOf s₀ (nodesOf r.1) s' (.setaffinity (P.mask s₀) ok :: r.2.2) := by
  have hown : ∀ n ∈ nodesOf r.1, ∀ core ∈ n.cores, n.numaNodeID = nodeOf core := by
    intro n hn core hc
    obtain ⟨e, he, rfl⟩ := mem_nodesOf.1 hn
    exact h.own e he core hc
  have hdistinct : (nodesOf r.1).toList.Pairwise fun n n' => n.numaNodeID ≠ n'.numaNodeID :=
    (nodesOf r.1).sorted.imp fun hlt heq => hlt.ne (congrArg UInt32.toNat heq)
  refine ⟨fun core hc => ?_, hdistinct, fun n hn => ?_, ?_, fun core => ?_, hown, hmask⟩
  · exact (h.tried core.coreID (hl _ hc)).mono (List.subset_cons_self ..)
  · obtain ⟨e, he, rfl⟩ := mem_nodesOf.1 hn
    exact h.nonempty e he
  · refine hdistinct.imp_of_mem fun hn hn' hne core hc hc' => hne ?_
    rw [hown _ hn core hc, hown _ hn' core hc']
  · have hexists : (∃ n ∈ nodesOf r.1, core ∈ n.cores) ↔ ∃ e ∈ r.1, core ∈ e.2 := by
      constructor
      · intro hn
        obtain ⟨n, hn, hc⟩ := hn
        obtain ⟨e, he, rfl⟩ := mem_nodesOf.1 hn
        exact ⟨e, he, hc⟩
      · intro he
        obtain ⟨e, he, hc⟩ := he
        exact ⟨_, mem_nodesOf.2 ⟨e, he, rfl⟩, hc⟩
    rw [hexists, h.cores]
    refine and_congr_right fun _ => ?_
    constructor
    · intro ha
      obtain ⟨a, ha⟩ := ha
      exact ⟨List.mem_cons_of_mem _ (h.pinned _ _ ha), a, List.mem_cons_of_mem _ ha⟩
    · intro ha
      obtain ⟨-, a, ha⟩ := ha
      exact ⟨a, by simpa using ha⟩

/-! ## The record -/

/-- Without the record. -/
def forget {τ : Type} (r : τ × σ × List SysCall) : τ × σ := (r.1, r.2.1)

theorem collect_recorded (r : NodeCoreMap × σ × List SysCall) :
    forget (collectNUMANodes P.recorded cpu r) = collectNUMANodes P cpu (forget r) := by
  obtain ⟨m, s, calls⟩ := r
  simp only [forget, collectNUMANodes, Platform.recorded]
  cases P.pthreadSetaffinityNp (single ⟨cpu⟩) s with
  | mk ok s' =>
    cases ok with
    | false => rfl
    | true =>
      simp only
      cases P.getcpu s' with
      | mk answer s'' => cases answer <;> rfl

/-- The loop between the calls that read the mask and the one that restores it. -/
theorem findAvailableNumaNodes_eq (hP : P.Lawful) (s : σ) : findAvailableNumaNodes P s =
    let s₂ := (P.pthreadGetaffinityNp (P.pthreadGetaffinityNp s).2).2
    let r := (bits (P.mask s)).foldl (fun r i => collectNUMANodes P i r) (∅, s₂)
    (nodesOf r.1, (P.pthreadSetaffinityNp (P.mask s) r.2).2) := by
  unfold findAvailableNumaNodes
  simp only [getMask_fst hP, getMask_snd, forEachCPUSet_eq hP, hP.mask_getaffinity]

/-- The recorded platform does what the platform does. -/
theorem findAvailableNumaNodes_recorded (hP : P.Lawful) (s : σ) (calls : List SysCall) :
    forget (findAvailableNumaNodes P.recorded (s, calls)) = findAvailableNumaNodes P s := by
  have hloop : ∀ (l : List UInt32) (r : NodeCoreMap × σ × List SysCall),
      l.foldl (fun r i => collectNUMANodes P i r) (forget r) =
        forget (l.foldl (fun r i => collectNUMANodes P.recorded i r) r) := fun l r =>
    List.foldl_hom forget fun r i => (collect_recorded r).symm
  have hmask : P.recorded.mask (s, calls) = P.mask s := rfl
  rw [findAvailableNumaNodes_eq hP, findAvailableNumaNodes_eq (recorded_lawful hP), hmask]
  have h := hloop (bits (P.mask s)) (∅, (P.pthreadGetaffinityNp (P.pthreadGetaffinityNp s).2).2, calls)
  generalize bits (P.mask s) = l at h ⊢
  simp only [forget] at h ⊢
  rw [h]
  rfl

/-- What the loop gathers from cores of the mask. -/
theorem gathered (hP : P.Pins nodeOf) (hl : ∀ cpu ∈ l, cpuIssetS cpu (P.mask s) = true) :
    Gathered P nodeOf s l (l.foldl (fun r i => collectNUMANodes P.recorded i r)
      (∅, (P.pthreadGetaffinityNp (P.pthreadGetaffinityNp s).2).2, [])) := by
  have hstart : Gathered P nodeOf s [] (∅, (P.pthreadGetaffinityNp (P.pthreadGetaffinityNp s).2).2, []) :=
    { reaches := (Relation.ReflTransGen.single (.getaffinity s)).tail (.getaffinity _)
      pinned := fun _ _ h => absurd h List.not_mem_nil
      tried := fun _ h => absurd h List.not_mem_nil
      nonempty := fun _ h => absurd h Keyed.not_mem_empty
      own := fun _ h => absurd h Keyed.not_mem_empty
      cores := fun core => by simp [Answered] }
  exact hstart.run hP hl

/-- The nodes found, and the calls that found them. -/
theorem discovered (hP : P.Pins nodeOf) (s : σ) : Partition P nodeOf s (findAvailableNumaNodes P s).1
    (findAvailableNumaNodes P s).2 (findAvailableNumaNodes P.recorded (s, [])).2.2 := by
  have hmask : P.recorded.mask (s, []) = P.mask s := rfl
  rw [← findAvailableNumaNodes_recorded hP.toLawful s [], findAvailableNumaNodes_eq (recorded_lawful hP.toLawful), hmask]
  have hall : ∀ cpu, cpu ∈ bits (P.mask s) ↔ cpuIssetS cpu (P.mask s) = true := fun cpu => mem_bits
  generalize bits (P.mask s) = l at hall ⊢
  have hend := gathered hP fun cpu hcpu => (hall cpu).1 hcpu
  exact hend.partition (fun cpu => (hall cpu).2) (hP.setaffinity _ _ (hP.again hend.reaches))

/-- **NUMA discovery.** From every mask, and whichever calls fail: the nodes
found partition the cores of the mask for which both calls succeed, and the mask
is in the end what it was. -/
theorem findAvailableNumaNodes_partition (hP : P.Pins nodeOf) (s : σ) :
    forget (findAvailableNumaNodes P.recorded (s, [])) = findAvailableNumaNodes P s ∧
      Partition P nodeOf s (findAvailableNumaNodes P s).1 (findAvailableNumaNodes P s).2
        (findAvailableNumaNodes P.recorded (s, [])).2.2 :=
  ⟨findAvailableNumaNodes_recorded hP.toLawful s [], discovered hP s⟩

end

theorem accepting_pins (nodeOf fails) : (accepting nodeOf fails).Pins fun core => nodeOf core.coreID where
  toLawful := accepting_lawful nodeOf fails
  again _ := rfl
  getcpu := by
    intro s pinned core node hlt hmask hanswer
    simp only [accepting, Option.map_eq_some_iff, Option.filter_eq_some_iff, Prod.mk.injEq] at hanswer
    obtain ⟨cpu, ⟨hhead, -⟩, rfl, rfl⟩ := hanswer
    have hcpu := mem_bits.1 (List.mem_of_mem_head? hhead)
    rw [show s = single pinned from hmask] at hcpu
    have heq := (isset_single.1 hcpu).2
    exact ⟨heq, by rw [heq]⟩

/-- Cores 0, 5 and 9, four to a node; `getcpu` fails on core 5. -/
theorem partition_three : (findAvailableNumaNodes (accepting (· / 4) (· == 5)) 545).1.toList.map (·.numaNodeID) = [0, 2] ∧
    Partition (accepting (· / 4) (· == 5)) (fun core => core.coreID / 4) 545
      (findAvailableNumaNodes (accepting (· / 4) (· == 5)) 545).1
      (findAvailableNumaNodes (accepting (· / 4) (· == 5)) 545).2
      (findAvailableNumaNodes (accepting (· / 4) (· == 5)).recorded (545, [])).2.2 :=
  ⟨by decide +kernel, (findAvailableNumaNodes_partition (accepting_pins (· / 4) (· == 5)) 545).2⟩

end Dxpool.Processor
