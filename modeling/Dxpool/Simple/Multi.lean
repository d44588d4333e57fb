/-
The multipool: what a thread is given for a size comes from the class of that
size, has room for it, and goes back to the class it came from.
-/
import Dxpool.Simple.Purity

namespace Dxpool.Simple

open Machine

/-- The nodes in the locals of a call. -/
def Pc.locals : Pc → List Addr
  | .acquireLoadNext _ a | .acquireTrack _ a | .acquireTrackAlloc _ a | .returnLoadHead a _ => [a]
  | .acquireCas _ a b | .returnStoreNext a _ b | .returnCas a _ b => [a, b]
  | _ => []

/-- What a `pool_mem_acquire` answers: to whom, from which pool, for which
size if the call came from `multipool_mem_acquire`. -/
structure Answer (T : Type) where
  thread : T
  pool : Addr
  request : Option UInt32
  data : Addr

/-- The answer of a call that returns at this step. -/
def answer {T : Type} (s : State T) : Act T → Option (Answer T)
  | .run t sp ms =>
    (advance s.heap sp ms (s.threads t).pc).2.2.bind fun d =>
      (s.threads t).pc.pool.map fun p => ⟨t, p, (s.threads t).request, d⟩
  | _ => none

/-- Node `a` is reachable from the head of pool `p`, in a local of a call on
it, or the node of a block that was handed out from it. -/
def InUse {T : Type} (tr : Trace (State T) (Act T)) (s : State T) (p a : Addr) : Prop :=
  (∃ k, s.heap.nextOf^[k] (s.heap.headOf p) = a) ∨
  (∃ t, (s.threads t).pc.pool = some p ∧ a ∈ (s.threads t).pc.locals) ∨
  ∃ e ∈ log answer tr, e.pool = p ∧ e.data ≠ NULL ∧ s.heap.getMemnodeInData e.data = some a

/-- A node of pool `p` with a data area of `bytes` bytes of its own. -/
def Serves (h : Heap) (p bytes a : Addr) : Prop :=
  ∃ m, h.nodes a = some m ∧ m.pool = p ∧
    h.blocks (m.data - headerSize) = some { word := a, bytes := bytes + headerSize }

/-- The bytes of the data area at `d`. -/
def capacity (h : Heap) (d : Addr) : Nat := (h.blocks (d - headerSize)).elim 0 (·.bytes - headerSize)

/-- The return of node `a` is to pool `p`, and its compare-and-swap puts `a` at the
head of that. -/
def PutsBack {T : Type} [DecidableEq T] (mp : MultiPool) (s : State T) (p a : Addr) : Prop :=
  ∀ t q b, (s.threads t).pc = .returnCas a q b → q = p ∧
    ∀ mallocs s', s.heap.headOf p = b → step mp s (.run t false mallocs) = some s' → s'.heap.headOf p = a

/-- The clients of a multipool: they ask it for 1 to 2^22 bytes, and return
the data of its nodes, in any order and as often as they like. -/
def Requests {T : Type} (s : State T) : Act T → Prop
  | .acquire _ _ => False
  | .multiAcquire _ size => 1 ≤ size.toNat ∧ size.toNat ≤ 2 ^ 22
  | .ret _ data => IsData s.heap data
  | .run _ _ _ => True

section
variable {h h' : Heap}

/-- What a call answers is NULL, or the data of a node of its pool. -/
theorem Move.answer {sp ms pc pc' d} (hm : Move h sp ms pc h' pc' (some d)) (hpc : PcPure h pc) :
    d = NULL ∨ ∃ p a m, pc.pool = some p ∧ h'.nodes a = some m ∧ m.data = d ∧ m.pool = p := by
  cases hm with
  | acquireDone hp ha | allocDone hp ha =>
    obtain ⟨m, ha', rfl⟩ := hpc
    cases ha.symm.trans ha'
    exact .inr ⟨_, _, _, rfl, ha, rfl, rfl⟩
  | allocFail => exact .inl rfl

/-- A link followed from a pool's head, any number of times. -/
theorem HeapPure.iterate (h0 : HeapPure h) {p : Addr} (k : Nat) : Link h p (h.nextOf^[k] (h.headOf p)) := by
  induction k with
  | zero =>
    simp only [Function.iterate_zero, id_eq, Heap.headOf]
    cases hp : h.pools p with
    | none => exact .inl rfl
    | some q => exact h0.head p q hp
  | succ k ih =>
    rw [Function.iterate_succ_apply']
    generalize h.nextOf^[k] (h.headOf p) = a at ih
    unfold Heap.nextOf
    cases ha : h.nodes a with
    | none => exact .inl rfl
    | some m =>
      rcases ih with rfl | ⟨m', ha', rfl⟩
      · exact absurd rfl (h0.node _ _ ha).1
      · cases ha.symm.trans ha'; exact h0.next a m ha

/-- The nodes in the locals of a call belong to its pool. -/
theorem PcPure.locals {pc} (hpc : PcPure h pc) {p a : Addr} (hp : pc.pool = some p) (ha : a ∈ pc.locals) :
    Link h p a := by
  cases pc <;> simp only [Pc.pool, Option.some.injEq, reduceCtorEq] at hp <;> subst hp <;>
    simp only [Pc.locals, List.mem_cons, List.not_mem_nil, or_false] at ha
  case acquireLoadNext | acquireTrack | acquireTrackAlloc | returnLoadHead => exact ha ▸ .inr hpc
  case acquireCas | returnStoreNext | returnCas =>
    rcases ha with rfl | rfl
    · exact .inr hpc.1
    · exact hpc.2

end

section
variable {T : Type} {mp : MultiPool} {tr : Trace (State T) (Act T)} {s : State T}

/-- Each call is on the pool picked for its size, and each block handed out is
the data of a node of the pool it was handed out from. -/
structure Recorded (mp : MultiPool) (tr : Trace (State T) (Act T)) (s : State T) : Prop where
  asked : ∀ t size p, (s.threads t).request = some size → (s.threads t).pc.pool = some p → mp.pick size = some p
  picked : ∀ e ∈ log answer tr, ∀ size, e.request = some size → mp.pick size = some e.pool
  given : ∀ e ∈ log answer tr, e.data ≠ NULL → ∃ a m, s.heap.nodes a = some m ∧ m.data = e.data ∧ m.pool = e.pool

theorem acquireEntry_pool {p q : Addr} (h : (acquireEntry p).pool = some q) : p = q := by
  unfold acquireEntry at h
  split at h
  · cases h
  · exact Option.some.inj h

variable [DecidableEq T]

theorem Recorded.set {a : Act T} {t : T} {th : Thread} (h : Recorded mp tr s) (ha : answer s a = none)
    (hth : ∀ size p, th.request = some size → th.pc.pool = some p → mp.pick size = some p) :
    Recorded mp ((s, a) :: tr) (s.set t th) := by
  refine ⟨?_, by rw [log_none ha]; exact h.picked, by rw [log_none ha]; exact h.given⟩
  exact forall_set (P := fun _ th => ∀ size p, th.request = some size → th.pc.pool = some p → mp.pick size = some p)
    hth fun u _ => h.asked u

theorem Recorded.step {s' : State T} {a : Act T} (h : Recorded mp tr s) (hpure : Pure s) (hs : Step mp s a s') :
    Recorded mp ((s, a) :: tr) s' := by
  cases hs with
  | @acquire t p => exact h.set rfl (by simp)
  | @multiAcquire t size =>
    refine h.set rfl fun size' p hsize hp => ?_
    cases hsize
    cases hpick : mp.pick size with
    | none => rw [hpick] at hp; cases hp
    | some q => rw [hpick] at hp; rw [acquireEntry_pool hp]
  | @ret t d => exact h.set rfl (by simp)
  | @run t sp ms h' pc' d hms hm =>
    have hg := hm.grows hms
    have hgiven : ∀ e ∈ log answer tr, e.data ≠ NULL →
        ∃ a m, h'.nodes a = some m ∧ m.data = e.data ∧ m.pool = e.pool := by
      intro e he hne
      obtain ⟨a, m, ha, hd, hp⟩ := h.given e he hne
      obtain ⟨m', ha', hd', hp'⟩ := hg.node ha
      exact ⟨a, m', ha', hd'.trans hd, hp'.trans hp⟩
    have hlast : ∀ e, answer s (.run t sp ms) = some e → (∀ size, e.request = some size → mp.pick size = some e.pool) ∧
        (e.data ≠ NULL → ∃ a m, h'.nodes a = some m ∧ m.data = e.data ∧ m.pool = e.pool) := by
      intro e he
      rw [answer, hm.advance_eq] at he
      simp only [Option.bind_eq_some_iff, Option.map_eq_some_iff] at he
      obtain ⟨d', rfl, p, hp, rfl⟩ := he
      refine ⟨fun size hsize => h.asked t size p hsize hp, fun hne => ?_⟩
      obtain ⟨q, a, m, hq, ha, hd, hmp⟩ := (hm.answer (hpure.pc t)).resolve_left hne
      cases hp.symm.trans hq
      exact ⟨a, m, ha, hd, hmp⟩
    have hmem : ∀ e ∈ log answer ((s, .run t sp ms) :: tr), e ∈ log answer tr ∨ answer s (.run t sp ms) = some e := by
      intro e he
      simpa [log] using he
    refine ⟨?_, fun e he => ?_, fun e he => ?_⟩
    · refine forall_set (P := fun _ th => ∀ size p, th.request = some size → th.pc.pool = some p → mp.pick size = some p)
        (fun size p hx hp => ?_) fun u _ => h.asked u
      rcases hm.pool with hn | heq
      · rw [show pc'.pool = some p from hp] at hn; cases hn
      · exact h.asked t size p hx (heq ▸ hp)
    · rcases hmem e he with he | he
      · exact h.picked e he
      · exact (hlast e he).1
    · rcases hmem e he with he | he
      · exact hgiven e he
      · exact (hlast e he).2

theorem recorded_of_run {h₀} (hb : Blank h₀) (hr : (machine h₀ mp T).Run tr s) (hob : Along (Obtained mp) tr) :
    Recorded mp tr s :=
  hr.invariantT (fun _ h => ⟨by simp [h.2], by simp, by simp⟩)
    (fun _ _ _ _ hr hok hi _ h => hi.step (pure_of_run hb hr hok) (step_cases h)) hob

/-- A node goes back to the pool that it belongs to. -/
theorem Pure.putsBack {p a : Addr} (h : Pure s) (ha : NodeOf s.heap p a) : PutsBack mp s p a := by
  intro t q b hpc
  have hpure := h.pc t
  rw [hpc] at hpure
  obtain ⟨m, hm, rfl⟩ := ha
  obtain ⟨⟨m', hm', rfl⟩, -⟩ := hpure
  cases hm.symm.trans hm'
  refine ⟨rfl, fun mallocs s' hhead hs => ?_⟩
  obtain ⟨r, hr⟩ := NodeOf.isPool h.heap ⟨m, hm, rfl⟩
  rw [headOf_eq hr] at hhead
  simp only [Simple.step, hpc, advance, hr, hhead, Option.ite_none_left_eq_some] at hs
  obtain ⟨-, hs⟩ := hs
  cases hs
  simp [State.set, setPool_headOf]

end

/-! ## A created multipool -/

section
variable {ms : Fin multipoolEntryCount → Addr} (hne : ∀ i, ms i ≠ NULL) (hinj : Function.Injective ms)
include hne hinj

theorem multipoolCreate_blank : Blank (multipoolCreate ms).1 := by
  obtain ⟨hn, hb⟩ := createPools_nodes ms (List.finRange multipoolEntryCount) {}
  refine ⟨?_, fun a => by simp only [multipoolCreate, hn], fun a => by simp only [multipoolCreate, hb], fun p q hq => ?_⟩
  · refine Option.eq_none_iff_forall_ne_some.2 fun q hq => ?_
    obtain ⟨i, hi, -⟩ := (multipoolCreate_pools hne hinj).1 hq
    exact hne i hi.symm
  · obtain ⟨i, -, rfl⟩ := (multipoolCreate_pools hne hinj).1 hq
    rfl

/-- The pool of a class, and its size. -/
theorem class_pool {h : Heap} (hg : Grows (multipoolCreate ms).1 h) (i : Fin multipoolEntryCount) :
    ∃ q, h.pools (ms i) = some q ∧ q.memSize.toNat = 2 ^ (9 + i.val) := by
  obtain ⟨q, hq, hs⟩ := hg.pool ((multipoolCreate_pools hne hinj).2 ⟨i, rfl, rfl⟩)
  exact ⟨q, hq, by rw [hs]; exact classSize_toNat i⟩

/-- Every pool is the pool of a class. -/
theorem pool_class {h : Heap} (hg : Grows (multipoolCreate ms).1 h) {p q} (hq : h.pools p = some q) :
    ∃ i, p = ms i ∧ q.memSize.toNat = 2 ^ (9 + i.val) := by
  obtain ⟨q₀, hq₀, hs⟩ := hg.pool_of hq
  obtain ⟨i, rfl, rfl⟩ := (multipoolCreate_pools hne hinj).1 hq₀
  exact ⟨i, rfl, by rw [← hs]; exact classSize_toNat i⟩

variable {T : Type} [DecidableEq T] {tr : Trace (State T) (Act T)} {s : State T}

theorem obtained_of_requests (hr : (machine (multipoolCreate ms).1 (multipoolCreate ms).2 T).Run tr s)
    (hok : Along Requests tr) : Along (Obtained (multipoolCreate ms).2) tr := by
  refine hr.along_of (I := fun _ s => Grows (multipoolCreate ms).1 s.heap) (W := Requests)
    (fun _ _ hr _ _ => grows_of_run hr) (fun _ s a _ hg ha => ?_) hok
  cases a with
  | acquire => exact ha.elim
  | multiAcquire t size =>
    obtain ⟨p, hp⟩ := pick_of_le (multipoolCreate ms).2 ha.1 ha.2
    obtain ⟨i, -, rfl⟩ := pick_some hp
    obtain ⟨q, hq, -⟩ := class_pool hne hinj hg i
    exact ⟨_, hp, q, hq⟩
  | ret t d => exact ha
  | run => trivial

theorem not_crashed (hr : (machine (multipoolCreate ms).1 (multipoolCreate ms).2 T).Run tr s)
    (hok : Along Requests tr) : ∀ t, (s.threads t).pc ≠ .crashed := by
  refine hr.invariantT (I := fun _ s => ∀ t, (s.threads t).pc ≠ .crashed) (fun s h => by simp [h.2])
    (fun tr s a s' hr hok hi ha h => ?_) hok
  have hpure := pure_of_run (multipoolCreate_blank hne hinj) hr (obtained_of_requests hne hinj hr hok)
  have hg := grows_of_run hr
  cases step_cases h with
  | acquire => exact ha.elim
  | @multiAcquire t size =>
    refine forall_set (P := fun _ th => th.pc ≠ .crashed) ?_ fun u _ => hi u
    obtain ⟨p, hp⟩ := pick_of_le (multipoolCreate ms).2 ha.1 ha.2
    obtain ⟨i, -, rfl⟩ := pick_some hp
    have hmi : ms i ≠ NULL := hne i
    rw [hp]
    simp [acquireEntry, multipoolCreate, hmi]
  | @ret t d =>
    refine forall_set (P := fun _ th => th.pc ≠ .crashed) ?_ fun u _ => hi u
    obtain ⟨a, m, hm, rfl⟩ := ha
    rw [hpure.heap.returnEntry hm]
    simp
  | @run t sp mallocs h' pc' d hms hm =>
    refine forall_set (P := fun _ th => th.pc ≠ .crashed) ?_ fun u _ => hi u
    have hpc := hi t
    have hgood := hpure.pc t
    generalize (s.threads t).pc = pc at hm hpc hgood
    cases hm with
    | stay => exact absurd rfl hpc
    | crash hf =>
      obtain ⟨p, q, -, hq, hs⟩ := hgood.faulty hpure.heap hf
      obtain ⟨i, -, hsize⟩ := pool_class hne hinj hg hq
      rw [hs] at hsize
      exact absurd hsize (Nat.ne_of_lt (Nat.two_pow_pos _))
    | _ => simp

/-- **Size-class purity.** Of every run of a created multipool: no thread
crashes; every node in use of a class belongs to its pool and has a data area
of its size; and every block handed out for a size has room for it, less than
twice as much above 512 bytes, and goes back to the chain of the pool it came from. -/
theorem multipool_pure (hr : (machine (multipoolCreate ms).1 (multipoolCreate ms).2 T).Run tr s)
    (hok : Along Requests tr) : (∀ t, (s.threads t).pc ≠ .crashed) ∧
    (∀ i a, a ≠ NULL → InUse tr s (ms i) a → Serves s.heap (ms i) (2 ^ (9 + i.val)) a) ∧
    ∀ e ∈ log answer tr, e.data ≠ NULL →
      (∃ a, returnEntry s.heap e.data = .returnLoadHead a e.pool ∧ PutsBack (multipoolCreate ms).2 s e.pool a) ∧
      ∀ size, e.request = some size → size.toNat ≤ capacity s.heap e.data ∧
        (512 < size.toNat → capacity s.heap e.data < 2 * size.toNat) := by
  have hob := obtained_of_requests hne hinj hr hok
  have hpure := pure_of_run (multipoolCreate_blank hne hinj) hr hob
  have hrec := recorded_of_run (multipoolCreate_blank hne hinj) hr hob
  have hg := grows_of_run hr
  have hserves : ∀ {i : Fin multipoolEntryCount} {a}, NodeOf s.heap (ms i) a →
      Serves s.heap (ms i) (2 ^ (9 + i.val)) a := by
    rintro i a ⟨m, ha, hmp⟩
    obtain ⟨-, q, hq, hb⟩ := hpure.heap.node a m ha
    obtain ⟨q', hq', hs⟩ := class_pool hne hinj hg i
    rw [hmp, hq', Option.some.injEq] at hq
    subst hq
    exact ⟨m, ha, hmp, by rw [← hs]; exact hb.block⟩
  refine ⟨not_crashed hne hinj hr hok, fun i a hnull huse => ?_, fun e he hd => ?_⟩
  · rcases huse with ⟨k, rfl⟩ | ⟨t, hp, hl⟩ | ⟨e, he, hp, hd, ha⟩
    · exact hserves ((hpure.heap.iterate k).resolve_left hnull)
    · exact hserves (((hpure.pc t).locals hp hl).resolve_left hnull)
    · obtain ⟨b, m, hb, hdata, hpool⟩ := hrec.given e he hd
      rw [← hdata, hpure.heap.memnode hb, Option.some.injEq] at ha
      subst ha
      exact hserves ⟨m, hb, hpool.trans hp⟩
  · obtain ⟨b, m, hb, hdata, hpool⟩ := hrec.given e he hd
    refine ⟨⟨b, by rw [← hdata, ← hpool]; exact hpure.heap.returnEntry hb, hpure.putsBack ⟨m, hb, hpool⟩⟩, fun size hsize => ?_⟩
    have hpick := hrec.picked e he size hsize
    obtain ⟨i, hi, hmi⟩ := pick_some hpick
    obtain ⟨m', hb', -, hblock⟩ := hserves (i := i) ⟨m, hb, hpool.trans hmi.symm⟩
    cases hb.symm.trans hb'
    have hcap : capacity s.heap e.data = 2 ^ (9 + i.val) := by
      simp only [capacity, ← hdata, hblock, Option.elim_some, Nat.add_sub_cancel]
    rw [hcap]
    exact class_fits (pick_pos hpick) hi

end

/-- A client asks for 600 bytes, returns the block and is given it again for
1000: it has 1024. -/
theorem multipool_pure_1000 : ∃ tr s,
    (machine (multipoolCreate fun i => i.val + 1).1 (multipoolCreate fun i => i.val + 1).2 (Fin 1)).Run tr s ∧
      (s.threads 0).held = [208] ∧ (log answer tr).map (fun e => (e.request, e.data)) = [(some 600, 208), (some 1000, 208)] ∧
      1000 ≤ capacity s.heap 208 ∧ capacity s.heap 208 < 2000 := by
  have h := exists_run (m := machine (multipoolCreate fun i => i.val + 1).1 (multipoolCreate fun i => i.val + 1).2 (Fin 1))
    (s := ⟨(multipoolCreate fun i => i.val + 1).1, fun _ => {}⟩)
    (l := [.multiAcquire 0 600] ++ runs 0 1 ++ [.run 0 false (100, 200)] ++ runs 0 1 ++ [.ret 0 208] ++ runs 0 4 ++
      [.multiAcquire 0 1000] ++ runs 0 4)
    (p := fun tr s => decide ((s.threads 0).held = [208] ∧
      ((log answer tr).map fun e => (e.request, e.data)) = [(some 600, 208), (some 1000, 208)]) &&
      tr.all fun e => match e.2 with
        | .acquire _ _ => false
        | .multiAcquire _ size => decide (1 ≤ size.toNat ∧ size.toNat ≤ 2 ^ 22)
        | .ret _ d => (e.1.heap.nodes 100).any fun m => m.data == d
        | .run _ _ _ => true) ⟨rfl, fun _ => rfl⟩ (by decide +kernel)
  obtain ⟨tr, s, hr, hp⟩ := h
  simp only [Bool.and_eq_true, decide_eq_true_eq, List.all_eq_true] at hp
  obtain ⟨⟨hheld, hlog⟩, hall⟩ := hp
  have hok : Along Requests tr := by
    intro e he
    have hcheck := hall e he
    cases ha : e.2 with
    | acquire => rw [ha] at hcheck; cases hcheck
    | multiAcquire => rw [ha] at hcheck; simpa [Requests] using hcheck
    | ret t d =>
      rw [ha] at hcheck
      obtain ⟨m, hm, hd⟩ := (Option.any_eq_true _ _).1 hcheck
      exact ⟨100, m, hm, by simpa using hd⟩
    | run => trivial
  have hmem : (some 1000, 208) ∈ (log answer tr).map fun e => (e.request, e.data) := by rw [hlog]; decide
  obtain ⟨e, he, heq⟩ := List.mem_map.1 hmem
  simp only [Prod.mk.injEq] at heq
  obtain ⟨hreq, hdata⟩ := heq
  obtain ⟨-, -, hans⟩ := multipool_pure (by simp) (fun i j h => Fin.ext (by simpa using h)) hr hok
  obtain ⟨-, hcap⟩ := hans e he (by rw [hdata]; decide)
  obtain ⟨hle, hlt⟩ := hcap 1000 hreq
  rw [hdata] at hle hlt
  exact ⟨tr, s, hr, hheld, hlog, hle, hlt (by decide)⟩

end Dxpool.Simple
