/-
The affinity of a thread (src/ProcessorLinux.h): masks of `cpu_set_t`, the
calls of the operating system that read and set the mask in force, and the two
loops between masks and sets of cores. A core whose ID is beyond the mask is
dropped from it without a word, so a request is read back as it was made if
and only if it has none, or is refused (`readsBack_iff`).
-/
import Dxpool.Processor.Core

namespace Dxpool.Processor

/-! ## Masks -/

/-- `cpu_set_t`. -/
abbrev CpuSet := BitVec 1024

/-- `CPUSetSize`: its bytes. -/
def cpuSetSize : Nat := 128

/-- `MaxCoreCount`. -/
def maxCoreCount : Nat := 1 <<< 10

/-- `CPU_ZERO_S`. -/
def cpuZeroS : CpuSet := 0#1024

/-- `CPU_SET_S(cpu, CPUSetSize, mask)`. -/
def cpuSetS (cpu : UInt32) (mask : CpuSet) : CpuSet :=
  if cpu.toNat / 8 < cpuSetSize then mask ||| BitVec.twoPow 1024 cpu.toNat else mask

/-- `CPU_ISSET_S(cpu, CPUSetSize, mask)`. -/
def cpuIssetS (cpu : UInt32) (mask : CpuSet) : Bool :=
  if cpu.toNat / 8 < cpuSetSize then mask.getLsbD cpu.toNat else false

/-! ## The operating system -/

/-- The operating system as a thread sees it: the mask in force, and its calls.
`pthread_setaffinity_np` says whether it returned 0, and `getcpu` answers a core
and its node. -/
structure Platform (σ : Type) where
  mask : σ → CpuSet
  pthreadGetaffinityNp : σ → Option CpuSet × σ
  pthreadSetaffinityNp : CpuSet → σ → Bool × σ
  getcpu : σ → Option (UInt32 × UInt32) × σ

/-- Reading gives the mask in force; setting installs the mask given or leaves
the one in force. -/
structure Platform.Lawful {σ : Type} (P : Platform σ) : Prop where
  getaffinity : ∀ s, (P.pthreadGetaffinityNp s).1 = some (P.mask s)
  mask_getaffinity : ∀ s, P.mask (P.pthreadGetaffinityNp s).2 = P.mask s
  setaffinity : ∀ m s, (P.pthreadSetaffinityNp m s).1 = true → P.mask (P.pthreadSetaffinityNp m s).2 = m
  mask_setaffinity : ∀ m s, (P.pthreadSetaffinityNp m s).1 = false → P.mask (P.pthreadSetaffinityNp m s).2 = P.mask s

section
variable {σ τ : Type} (P : Platform σ)

/-! ## The processor -/

def getCurrentThreadCoresAffinityMask (s : σ) : CpuSet × σ :=
  match P.pthreadGetaffinityNp s with
  | (some cpuSetMask, s) => (cpuSetMask, s)
  | (none, s) => (cpuZeroS, s)

/-- `ForEachCPUSet(cpuIDFn)`, for a function with a state of its own. -/
def forEachCPUSet (cpuIDFn : UInt32 → τ × σ → τ × σ) (t : τ) (s : σ) : τ × σ :=
  let (cpuSetMask, s) := getCurrentThreadCoresAffinityMask P s
  (List.range maxCoreCount).foldl
    (fun r i => if cpuIssetS (UInt32.ofNat i) cpuSetMask then cpuIDFn (UInt32.ofNat i) r else r) (t, s)

def findAvailableCores (s : σ) : CoreSet × σ :=
  forEachCPUSet P (fun coreID (cores, s) => (cores.insert ⟨coreID⟩, s)) ∅ s

/-- The loop of `SetThreadAffinity`. -/
def maskOf (cores : CoreSet) : CpuSet := cores.toList.foldl (fun mask core => cpuSetS core.coreID mask) cpuZeroS

def setThreadAffinity (cores : CoreSet) (s : σ) : Bool × σ := P.pthreadSetaffinityNp (maskOf cores) s

end

/-! ## Masks and sets -/

section
variable {cpu cpu' : UInt32} {mask : CpuSet} {cores : CoreSet} {core : Core}

theorem inRange_iff : cpu.toNat / 8 < cpuSetSize ↔ cpu.toNat < 1024 := by
  unfold cpuSetSize
  omega

theorem isset_lt (h : cpuIssetS cpu mask = true) : cpu.toNat < 1024 := by
  unfold cpuIssetS at h
  split at h
  · exact inRange_iff.1 ‹_›
  · cases h

@[simp] theorem isset_zero : cpuIssetS cpu cpuZeroS = false := by
  unfold cpuIssetS cpuZeroS
  simp

theorem isset_set : cpuIssetS cpu (cpuSetS cpu' mask) = true ↔
    cpu.toNat < 1024 ∧ cpu = cpu' ∨ cpuIssetS cpu mask = true := by
  unfold cpuIssetS cpuSetS
  simp only [inRange_iff]
  by_cases h : cpu.toNat < 1024
  · rw [if_pos h, if_pos h]
    by_cases h' : cpu'.toNat < 1024
    · rw [if_pos h', BitVec.getLsbD_or, Bool.or_eq_true, or_comm, BitVec.getLsbD_twoPow]
      refine or_congr_left ?_
      simp only [h, h', true_and, Bool.and_eq_true, decide_eq_true_eq, ← UInt32.toNat_inj]
      exact eq_comm
    · rw [if_neg h']
      refine (or_iff_right ?_).symm
      intro heq
      obtain ⟨-, rfl⟩ := heq
      exact h' h
  · simp [h]

/-- The bits of the mask are the IDs that it has bits for. -/
theorem isset_maskOf : cpuIssetS cpu (maskOf cores) = true ↔ cpu.toNat < 1024 ∧ (⟨cpu⟩ : Core) ∈ cores := by
  have hloop : ∀ (l : List Core) (mask : CpuSet),
      cpuIssetS cpu (l.foldl (fun mask core => cpuSetS core.coreID mask) mask) = true ↔
        cpu.toNat < 1024 ∧ (⟨cpu⟩ : Core) ∈ l ∨ cpuIssetS cpu mask = true := by
    intro l
    induction l with
    | nil => simp
    | cons c l ih =>
      intro mask
      have hc : (⟨cpu⟩ : Core) = c ↔ cpu = c.coreID := by
        constructor
        · rintro rfl; rfl
        · rintro rfl; rfl
      rw [List.foldl_cons, ih, isset_set, List.mem_cons, hc, and_or_left, or_assoc]
      exact or_left_comm
  unfold maskOf
  rw [hloop, isset_zero]
  simp only [Bool.false_eq_true, or_false]
  rfl

/-- A mask is determined by its bits. -/
theorem mask_ext {mask' : CpuSet} (h : ∀ cpu, cpuIssetS cpu mask = true ↔ cpuIssetS cpu mask' = true) : mask = mask' := by
  refine BitVec.eq_of_getLsbD_eq fun i hi => ?_
  have hcpu : (UInt32.ofNat i).toNat = i := UInt32.toNat_ofNat_of_lt' (Nat.lt_trans hi (by decide))
  have hi' := h (UInt32.ofNat i)
  have hlt : i / 8 < cpuSetSize := by unfold cpuSetSize; omega
  unfold cpuIssetS at hi'
  simp only [hcpu, hlt, if_true] at hi'
  exact Bool.eq_iff_iff.2 hi'

end

section
variable {σ τ : Type} {P : Platform σ} {cores : CoreSet} {core : Core} {s : σ}

/-! ## Reading -/

theorem getMask_fst (hP : P.Lawful) : (getCurrentThreadCoresAffinityMask P s).1 = P.mask s := by
  have h := hP.getaffinity s
  unfold getCurrentThreadCoresAffinityMask
  split <;> simp_all

theorem getMask_snd : (getCurrentThreadCoresAffinityMask P s).2 = (P.pthreadGetaffinityNp s).2 := by
  unfold getCurrentThreadCoresAffinityMask
  split <;> simp_all

/-- The bits of a mask, in the order of the loop. -/
def bits (mask : CpuSet) : List UInt32 := ((List.range maxCoreCount).map UInt32.ofNat).filter (cpuIssetS · mask)

theorem mem_bits {cpu : UInt32} {mask : CpuSet} : cpu ∈ bits mask ↔ cpuIssetS cpu mask = true := by
  unfold bits
  rw [List.mem_filter, and_iff_right_iff_imp]
  intro h
  exact List.mem_map.2 ⟨cpu.toNat, List.mem_range.2 (isset_lt h), UInt32.ofNat_toNat⟩

/-- The loop calls the function for the bits of the mask in force. -/
theorem forEachCPUSet_eq (hP : P.Lawful) (cpuIDFn : UInt32 → τ × σ → τ × σ) (t : τ) (s : σ) :
    forEachCPUSet P cpuIDFn t s =
      (bits (P.mask s)).foldl (fun r i => cpuIDFn i r) (t, (P.pthreadGetaffinityNp s).2) := by
  unfold forEachCPUSet bits
  simp only [getMask_fst hP, getMask_snd]
  rw [List.foldl_filter, List.foldl_map]

/-- `FindAvailableCores` reads the mask in force, and changes nothing. -/
theorem mem_findAvailableCores (hP : P.Lawful) :
    core ∈ (findAvailableCores P s).1 ↔ cpuIssetS core.coreID (P.mask s) = true := by
  have hloop : ∀ (l : List UInt32) (cores : CoreSet) (s : σ),
      l.foldl (fun (r : CoreSet × σ) i => (r.1.insert ⟨i⟩, r.2)) (cores, s) =
        (l.foldl (fun cores i => cores.insert ⟨i⟩) cores, s) := by
    intro l
    induction l with
    | nil => exact fun _ _ => rfl
    | cons i l ih => exact fun _ _ => ih ..
  unfold findAvailableCores
  rw [forEachCPUSet_eq hP, hloop, Keyed.mem_foldl_insert_of_injective Core.key_injective]
  simp only [Keyed.not_mem_empty, false_or, mem_bits]
  constructor
  · intro h
    obtain ⟨i, hi, rfl⟩ := h
    exact hi
  · intro h
    exact ⟨core.coreID, h, rfl⟩

/-- Where the masks in force are the same, so is what is read. -/
theorem findAvailableCores_congr (hP : P.Lawful) {s' : σ} (h : P.mask s' = P.mask s) :
    (findAvailableCores P s').1 = (findAvailableCores P s).1 := by
  refine Keyed.ext fun core => ?_
  rw [mem_findAvailableCores hP, mem_findAvailableCores hP, h]

/-! ## Reading back -/

variable (P cores s) in
/-- After a request that succeeds, the cores read are those of the request;
after one that fails, they are those read before. -/
def ReadsBack : Prop :=
  ((setThreadAffinity P cores s).1 = true → (findAvailableCores P (setThreadAffinity P cores s).2).1 = cores) ∧
    ((setThreadAffinity P cores s).1 = false →
      (findAvailableCores P (setThreadAffinity P cores s).2).1 = (findAvailableCores P s).1)

/-- **Reading back.** It is as requested if and only if the mask has a bit for
every core, or the platform refuses the mask of those that it has bits for. -/
theorem readsBack_iff (hP : P.Lawful) : ReadsBack P cores s ↔
    (∀ core ∈ cores, core.coreID.toNat < 1024) ∨
      ∀ mask, (∀ cpu, cpuIssetS cpu mask = true ↔ cpu.toNat < 1024 ∧ (⟨cpu⟩ : Core) ∈ cores) →
        (P.pthreadSetaffinityNp mask s).1 = false := by
  have hmask : ∀ mask, (∀ cpu, cpuIssetS cpu mask = true ↔ cpu.toNat < 1024 ∧ (⟨cpu⟩ : Core) ∈ cores) →
      mask = maskOf cores := fun mask h => mask_ext fun cpu => by rw [h, isset_maskOf]
  cases hok : (setThreadAffinity P cores s).1 with
  | false =>
    refine iff_of_true ⟨fun h => ?_, fun _ => ?_⟩ (.inr fun mask h => ?_)
    · cases hok.symm.trans h
    · exact findAvailableCores_congr hP (hP.mask_setaffinity _ _ hok)
    · rw [hmask mask h]
      exact hok
  | true =>
    have hread : ∀ core, core ∈ (findAvailableCores P (setThreadAffinity P cores s).2).1 ↔
        core.coreID.toNat < 1024 ∧ core ∈ cores := fun core => by
      rw [mem_findAvailableCores hP, setThreadAffinity, hP.setaffinity _ _ hok, isset_maskOf]
    constructor
    · intro h
      refine .inl fun core hcore => ?_
      rw [← h.1 hok] at hcore
      exact ((hread core).1 hcore).1
    · intro h
      rcases h with hlt | hrefuses
      · refine ⟨fun _ => Keyed.ext fun core => ?_, fun h => ?_⟩
        · rw [hread, and_iff_right_iff_imp]
          exact hlt core
        · cases hok.symm.trans h
      · cases hok.symm.trans (hrefuses (maskOf cores) fun cpu => isset_maskOf)

end

/-- A platform that accepts every mask. `getcpu` answers the first core of the
mask in force, and fails on a core that `fails` says. -/
def accepting (nodeOf : UInt32 → UInt32) (fails : UInt32 → Bool) : Platform CpuSet where
  mask s := s
  pthreadGetaffinityNp s := (some s, s)
  pthreadSetaffinityNp m _ := (true, m)
  getcpu s := (((bits s).head?.filter fun core => !fails core).map fun core => (core, nodeOf core), s)

theorem accepting_lawful (nodeOf : UInt32 → UInt32) (fails : UInt32 → Bool) : (accepting nodeOf fails).Lawful :=
  ⟨fun _ => rfl, fun _ => rfl, fun _ _ _ => rfl, fun _ _ h => nomatch h⟩

theorem readsBack_two : (findAvailableCores (accepting id fun _ => false)
    (setThreadAffinity (accepting id fun _ => false) ((∅ : CoreSet).insert ⟨3⟩ |>.insert ⟨1023⟩) 5).2).1 =
      ((∅ : CoreSet).insert ⟨3⟩ |>.insert ⟨1023⟩) :=
  ((readsBack_iff (accepting_lawful id fun _ => false)).2 (.inl (by decide))).1 rfl

/-- **Core 1024** has no bit: the request succeeds, without it. -/
theorem core_dropped : ¬ReadsBack (accepting id fun _ => false) ((∅ : CoreSet).insert ⟨0⟩ |>.insert ⟨1024⟩) 1 := by
  intro h
  have hcores := h.1 rfl
  have hmem : (⟨1024⟩ : Core) ∈ ((∅ : CoreSet).insert ⟨0⟩ |>.insert ⟨1024⟩) := by decide
  rw [← hcores, mem_findAvailableCores (accepting_lawful ..)] at hmem
  exact absurd (isset_lt hmem) (by decide)

end Dxpool.Processor
