/-
When the C memory pool keeps ownership exclusive. An acquire goes wrong only if,
since it loaded the head, both another acquire took a node off and a return put
one on: what was taken off stays off while nothing is put on, and what is not
taken off stays where it is (`run_calm`). So a pool is safe under either of two
disciplines: one acquire at a time, or acquires and returns in separate phases
(`run_orderly`).
-/
import Dxpool.Simple.Lifo

namespace Dxpool.Simple

open Machine

/-- In a return to pool `p`. -/
def returning (p : Addr) : Pc → Bool
  | .returnLoadHead _ q | .returnStoreNext _ q _ | .returnCas _ q _ | .returnTrack q => q == p
  | _ => false

section
variable {T : Type}

/-- An acquire that takes the head of pool `p` off. -/
def takes (p : Addr) (s : State T) : Act T → Bool
  | .run t sp _ =>
    match (s.threads t).pc with
    | .acquireCas q a _ => q == p && s.heap.headOf p == a && !sp
    | _ => false
  | .acquire _ _ | .multiAcquire _ _ | .ret _ _ => false

/-- A return that puts its node on pool `p`. -/
def puts (p : Addr) (s : State T) : Act T → Bool
  | .run t sp _ =>
    match (s.threads t).pc with
    | .returnCas _ q b => q == p && s.heap.headOf p == b && !sp
    | _ => false
  | .acquire _ _ | .multiAcquire _ _ | .ret _ _ => false

/-- An acquire on pool `p` is called while none is in progress on it. -/
def OneAcquirerOn (mp : MultiPool) (p : Addr) (s : State T) : Act T → Prop
  | .acquire _ pool => pool = p → ∀ u, acquiring p (s.threads u).pc = false
  | .multiAcquire _ size => mp.pick size = some p → ∀ u, acquiring p (s.threads u).pc = false
  | .ret _ _ | .run _ _ _ => True

/-- An acquire on pool `p` is called while no return to it is in progress, and a
return while no acquire is. -/
def PhasedOn (mp : MultiPool) (p : Addr) (s : State T) : Act T → Prop
  | .acquire _ pool => pool = p → ∀ u, returning p (s.threads u).pc = false
  | .multiAcquire _ size => mp.pick size = some p → ∀ u, returning p (s.threads u).pc = false
  | .ret _ data => returning p (returnEntry s.heap data) = true → ∀ u, acquiring p (s.threads u).pc = false
  | .run _ _ _ => True

instance [Fintype T] (mp : MultiPool) (p : Addr) (s : State T) (a : Act T) : Decidable (OneAcquirerOn mp p s a) :=
  match a with
  | .acquire _ pool => inferInstanceAs (Decidable (pool = p → ∀ u, acquiring p (s.threads u).pc = false))
  | .multiAcquire _ size => inferInstanceAs (Decidable (mp.pick size = some p → ∀ u, acquiring p (s.threads u).pc = false))
  | .ret _ _ | .run _ _ _ => .isTrue trivial

instance [Fintype T] (mp : MultiPool) (p : Addr) (s : State T) (a : Act T) : Decidable (PhasedOn mp p s a) :=
  match a with
  | .acquire _ pool => inferInstanceAs (Decidable (pool = p → ∀ u, returning p (s.threads u).pc = false))
  | .multiAcquire _ size => inferInstanceAs (Decidable (mp.pick size = some p → ∀ u, returning p (s.threads u).pc = false))
  | .ret _ data => inferInstanceAs (Decidable (returning p (returnEntry s.heap data) = true →
      ∀ u, acquiring p (s.threads u).pc = false))
  | .run _ _ _ => .isTrue trivial

variable [DecidableEq T]

/-- Thread `t` loads the head in an acquire. -/
def loads (t : T) (s : State T) : Act T → Bool
  | .run u _ _ =>
    u == t && match (s.threads u).pc with
      | .acquireLoadHead _ => true
      | _ => false
  | .acquire _ _ | .multiAcquire _ _ | .ret _ _ => false

/-- The steps since thread `t` loaded the head. -/
def since (t : T) (tr : Trace (State T) (Act T)) : Trace (State T) (Act T) := tr.takeWhile fun e => !loads t e.1 e.2

/-- An acquire takes the head off only if, since it loaded it, no acquire took
one off the pool, or no return put one on. -/
def CalmAt (tr : Trace (State T) (Act T)) (s : State T) : Act T → Prop
  | .run t sp ms =>
    match (s.threads t).pc with
    | .acquireCas p _ _ => takes p s (.run t sp ms) = true →
      (∀ e ∈ since t tr, takes p e.1 e.2 = false) ∨ ∀ e ∈ since t tr, puts p e.1 e.2 = false
    | _ => True
  | .acquire _ _ | .multiAcquire _ _ | .ret _ _ => True

/-- All steps of the run are calm. -/
def Calm : Trace (State T) (Act T) → Prop
  | [] => True
  | (s, a) :: tr => CalmAt tr s a ∧ Calm tr

instance (tr : Trace (State T) (Act T)) (s : State T) (a : Act T) : Decidable (CalmAt tr s a) :=
  match a with
  | .run t sp ms =>
    match h : (s.threads t).pc with
    | .acquireCas p _ _ => decidable_of_iff (takes p s (.run t sp ms) = true →
        (∀ e ∈ since t tr, takes p e.1 e.2 = false) ∨ ∀ e ∈ since t tr, puts p e.1 e.2 = false) (by simp only [CalmAt, h])
    | .idle | .crashed | .acquireLoadHead _ | .acquireLoadNext _ _ | .acquireTrack _ _ | .acquireAlloc _
    | .acquireTrackAlloc _ _ | .returnLoadHead _ _ | .returnStoreNext _ _ _ | .returnCas _ _ _ | .returnTrack _ =>
      isTrue (by simp only [CalmAt, h])
  | .acquire _ _ | .multiAcquire _ _ | .ret _ _ => isTrue trivial

instance : ∀ tr : Trace (State T) (Act T), Decidable (Calm tr)
  | [] => isTrue trivial
  | (s, a) :: tr => @instDecidableAnd (CalmAt tr s a) (Calm tr) _ (instDecidableCalm tr)

end

/-! ## What one step does to a chain -/

section
variable {T : Type} [DecidableEq T] [Fintype T] {mp : MultiPool} {s s' : State T} {p : Addr} {chain : List Addr}

/-- The head is taken off. -/
theorem Conserved.chain_take {act : Act T} (h : Conserved s) (hno : NoAba s act) (hs : Step mp s act s')
    (hl : Linked s.heap.nextOf NULL (s.heap.headOf p) chain) (htake : takes p s act = true) :
    ∃ a chain', chain = a :: chain' ∧ Linked s'.heap.nextOf NULL (s'.heap.headOf p) chain' ∧
      ∀ x ∈ chain, s'.heap.nextOf x = s.heap.nextOf x := by
  cases hs with
  | acquire | multiAcquire | ret => cases htake
  | @run t sp ms h' pc' d hms hm =>
    have hgood := h.pure.pc t
    simp only [takes] at htake
    simp only [NoAba] at hno
    generalize (s.threads t).pc = pc at hm htake hgood hno
    cases hm with
    | acquireTake hq hhd hsp =>
      simp only [Bool.and_eq_true, beq_iff_eq] at htake
      obtain ⟨⟨rfl, hhead⟩, -⟩ := htake
      have hnext := hno ⟨hhead, hsp⟩
      have hne := hgood.1.ne_null h.pure.heap
      rw [hhead] at hl
      obtain ⟨rest, rfl, hrest⟩ := hl.of_ne hne
      refine ⟨_, rest, rfl, ?_, fun _ _ => rfl⟩
      rw [set_heap, setPool_headOf, if_pos rfl, ← hnext]
      exact hrest
    | acquireFail hq hfail =>
      simp only [Bool.and_eq_true, beq_iff_eq, Bool.not_eq_true'] at htake
      obtain ⟨⟨rfl, hhead⟩, hsp⟩ := htake
      exact absurd ⟨(headOf_eq hq).symm.trans hhead, hsp⟩ hfail
    | crash hf =>
      obtain ⟨_, _, rfl, -, -⟩ := hgood.faulty h.pure.heap hf
      cases htake
    | _ => cases htake

/-- A node is put on. -/
theorem Conserved.chain_put {act : Act T} (h : Conserved s) (hs : Step mp s act s')
    (hl : Linked s.heap.nextOf NULL (s.heap.headOf p) chain) (hput : puts p s act = true) :
    ∃ a, Linked s'.heap.nextOf NULL (s'.heap.headOf p) (a :: chain) ∧ ∀ x ∈ chain, s'.heap.nextOf x = s.heap.nextOf x := by
  cases hs with
  | acquire | multiAcquire | ret => cases hput
  | @run t sp ms h' pc' d hms hm =>
    have hgood := h.pure.pc t
    simp only [puts] at hput
    generalize hpc : (s.threads t).pc = pc at hm hput hgood
    cases hm with
    | @returnPut a q b r hq hhd hsp =>
      simp only [Bool.and_eq_true, beq_iff_eq] at hput
      obtain ⟨⟨rfl, hhead⟩, -⟩ := hput
      exact ⟨a, h.linked_put hl hpc hq hhd, fun _ _ => rfl⟩
    | returnFail hq hfail =>
      simp only [Bool.and_eq_true, beq_iff_eq, Bool.not_eq_true'] at hput
      obtain ⟨⟨rfl, hhead⟩, hsp⟩ := hput
      exact absurd ⟨(headOf_eq hq).symm.trans hhead, hsp⟩ hfail
    | crash hf =>
      obtain ⟨_, _, rfl, -, -⟩ := hgood.faulty h.pure.heap hf
      cases hput
    | _ => cases hput

/-- A step leaves the chain of a pool alone, takes its head off, or puts a node
on; the nodes in it stay linked as they are. -/
theorem Conserved.chain_step {act : Act T} (h : Conserved s) (hno : NoAba s act) (hs : Step mp s act s')
    (hl : Linked s.heap.nextOf NULL (s.heap.headOf p) chain) :
    ∃ chain', Linked s'.heap.nextOf NULL (s'.heap.headOf p) chain' ∧ (∀ x ∈ chain, s'.heap.nextOf x = s.heap.nextOf x) ∧
      (chain' = chain ∨ takes p s act = true ∧ (∃ a, chain = a :: chain') ∨
        puts p s act = true ∧ ∃ a, chain' = a :: chain) := by
  by_cases htake : takes p s act = true
  · obtain ⟨a, chain', hchain, hl', hnext⟩ := h.chain_take hno hs hl htake
    exact ⟨chain', hl', hnext, .inr (.inl ⟨htake, a, hchain⟩)⟩
  by_cases hput : puts p s act = true
  · obtain ⟨a, hl', hnext⟩ := h.chain_put hs hl hput
    exact ⟨a :: chain, hl', hnext, .inr (.inr ⟨hput, a, rfl⟩)⟩
  obtain ⟨hl', hnext⟩ := h.linked_step hs hl
    (fun t sp ms a b ha hpc hc => htake (by simp [ha, takes, hpc, hc.1, hc.2]))
    (fun t sp ms a b ha hpc hc => hput (by simp [ha, puts, hpc, hc.1, hc.2]))
  exact ⟨chain, hl', hnext, .inl rfl⟩

/-- What is not taken off stays on the chain, linked as it is. -/
theorem Conserved.chained_keep {act : Act T} (h : Conserved s) (hno : NoAba s act) (hs : Step mp s act s') {c : Addr}
    (hc : Chained s.heap p c) (htake : takes p s act = false) :
    Chained s'.heap p c ∧ s'.heap.nextOf c = s.heap.nextOf c := by
  obtain ⟨chain, hl, hmem⟩ := hc
  obtain ⟨chain', hl', hnext, rfl | ⟨ht, -⟩ | ⟨-, a, rfl⟩⟩ := h.chain_step hno hs hl
  · exact ⟨⟨_, hl', hmem⟩, hnext c hmem⟩
  · rw [htake] at ht
    cases ht
  · exact ⟨⟨_, hl', List.mem_cons_of_mem _ hmem⟩, hnext c hmem⟩

/-- What is on the chain, nothing having been put on, was on it before. -/
theorem Conserved.chained_before {act : Act T} (h : Conserved s) (hno : NoAba s act) (hs : Step mp s act s')
    (hp : IsPool s.heap p) {c : Addr} (hc : Chained s'.heap p c) (hput : puts p s act = false) :
    Chained s.heap p c ∧ s'.heap.nextOf c = s.heap.nextOf c := by
  obtain ⟨chain, hl, -⟩ := h.exclusive p hp
  obtain ⟨chain'', hl'', hmem''⟩ := hc
  obtain ⟨chain', hl', hnext, hcases⟩ := h.chain_step hno hs hl
  cases hl''.unique hl'
  have hmem : c ∈ chain := by
    obtain rfl | ⟨-, a, rfl⟩ | ⟨hp, -⟩ := hcases
    · exact hmem''
    · exact List.mem_cons_of_mem _ hmem''
    · rw [hput] at hp
      cases hp
  exact ⟨⟨chain, hl, hmem⟩, hnext c hmem⟩

end

/-! ## What an acquire has read -/

/-- The thread that a step is of. -/
def Act.thread {T : Type} : Act T → T
  | .acquire t _ | .multiAcquire t _ | .ret t _ | .run t _ _ => t

section
variable {T : Type} [DecidableEq T] {mp : MultiPool} {s s' : State T} {act : Act T} {tr : Trace (State T) (Act T)} {t : T}

theorem since_cons (h : loads t s act = false) : since t ((s, act) :: tr) = (s, act) :: since t tr := by
  simp [since, h]

theorem since_load (h : loads t s act = true) : since t ((s, act) :: tr) = [] := by
  simp [since, h]

theorem loads_other (h : t ≠ act.thread) : loads t s act = false := by
  cases act with
  | run u => simp [loads, show (u == t) = false from beq_false_of_ne (Ne.symm h)]
  | _ => rfl

theorem Step.other (hs : Step mp s act s') (h : t ≠ act.thread) : s'.threads t = s.threads t := by
  cases hs <;> exact set_ne h

omit [DecidableEq T] in
/-- A call starts with the load of a head, or no acquire. -/
theorem entry_pc {pc : Pc} (h : (∃ p, pc = acquireEntry p) ∨ pc = .crashed ∨ ∃ d, pc = returnEntry s.heap d) :
    (∀ p a, pc ≠ .acquireLoadNext p a) ∧ ∀ p a b, pc ≠ .acquireCas p a b := by
  obtain ⟨p, rfl⟩ | rfl | ⟨d, rfl⟩ := h
  · unfold acquireEntry
    split <;> simp
  · simp
  · unfold returnEntry
    split
    · simp
    · split
      · simp
      · split <;> simp

/-- What a step of the thread itself leaves it at, in an acquire: it has just
loaded the head, or the `next` of the head it loaded. -/
theorem Step.reads (hs : Step mp s act s') (ht : t = act.thread) :
    (∀ p a, (s'.threads t).pc = .acquireLoadNext p a → loads t s act = true ∧ s'.heap = s.heap ∧ ∃ q,
      s.heap.pools p = some q ∧ q.head = a ∧ a ≠ NULL) ∧
    ∀ p a b, (s'.threads t).pc = .acquireCas p a b → loads t s act = false ∧ s'.heap = s.heap ∧
      (s.threads t).pc = .acquireLoadNext p a ∧ s.heap.nextOf a = b := by
  have hentry : ∀ {pc : Pc} {P : Addr → Addr → Prop} {Q : Addr → Addr → Addr → Prop},
      ((∃ p, pc = acquireEntry p) ∨ pc = .crashed ∨ ∃ d, pc = returnEntry s.heap d) →
      (∀ p a, pc = .acquireLoadNext p a → P p a) ∧ ∀ p a b, pc = .acquireCas p a b → Q p a b := fun hpc =>
    ⟨fun p a hx => absurd hx ((entry_pc hpc).1 p a), fun p a b hx => absurd hx ((entry_pc hpc).2 p a b)⟩
  subst ht
  cases hs with
  | acquire =>
    rw [Act.thread, set_self]
    exact hentry (.inl ⟨_, rfl⟩)
  | @multiAcquire u size =>
    rw [Act.thread, set_self]
    cases mp.pick size with
    | none => exact hentry (.inr (.inl rfl))
    | some p => exact hentry (.inl ⟨p, rfl⟩)
  | ret =>
    rw [Act.thread, set_self]
    exact hentry (.inr (.inr ⟨_, rfl⟩))
  | @run u sp ms h' pc' d hms hm =>
    rw [Act.thread, set_self]
    generalize hpc : (s.threads u).pc = pc at hm
    constructor
    · rintro p a rfl
      cases hm with
      | acquireHead hq hne => exact ⟨by simp [loads, hpc], rfl, _, hq, rfl, hne⟩
    · rintro p a b rfl
      cases hm with
      | acquireNext hm => exact ⟨by simp [loads, hpc], rfl, rfl, nextOf_eq hm⟩

/-- What the acquires have read since they loaded the head: it is in the chain
with the `next` they read, if nothing was taken off since; and if it is in the
chain, nothing having been put on, then with that `next`. -/
structure Watched (tr : Trace (State T) (Act T)) (s : State T) : Prop where
  head : ∀ t p a, (s.threads t).pc = .acquireLoadNext p a → (∀ e ∈ since t tr, takes p e.1 e.2 = false) →
    Chained s.heap p a
  kept : ∀ t p a b, (s.threads t).pc = .acquireCas p a b → (∀ e ∈ since t tr, takes p e.1 e.2 = false) →
    Chained s.heap p a ∧ s.heap.nextOf a = b
  back : ∀ t p a b, (s.threads t).pc = .acquireCas p a b → (∀ e ∈ since t tr, puts p e.1 e.2 = false) →
    Chained s.heap p a → s.heap.nextOf a = b

variable [Fintype T]

omit [DecidableEq T] in
theorem Conserved.chained_head (h : Conserved s) {p : Addr} {q : MemPool} (hq : s.heap.pools p = some q)
    (hne : q.head ≠ NULL) : Chained s.heap p q.head := by
  obtain ⟨chain, hl, -⟩ := h.exclusive p ⟨q, hq⟩
  obtain ⟨rest, rfl, -⟩ := hl.of_ne (headOf_eq hq ▸ hne)
  exact ⟨_, hl, headOf_eq hq ▸ List.mem_cons_self⟩

/-- A calm step is no ABA. -/
theorem Watched.noAba (h : Watched tr s) (hc : Conserved s) (hcalm : CalmAt tr s act) : NoAba s act := by
  cases act with
  | acquire | multiAcquire | ret => trivial
  | run t sp ms =>
    simp only [NoAba]
    split
    swap
    · trivial
    rename_i p a b hpc
    intro htake
    obtain ⟨hhead, rfl⟩ := htake
    have hnode : NodeOf s.heap p a := by have := hc.pure.pc t; rw [hpc] at this; exact this.1
    have hne := hnode.ne_null hc.pure.heap
    obtain ⟨q, hq⟩ := NodeOf.isPool hc.pure.heap hnode
    have hqa : q.head = a := (headOf_eq hq).symm.trans hhead
    simp only [CalmAt, hpc] at hcalm
    rcases hcalm (by simp [takes, hpc, hhead]) with hno | hno
    · exact (h.kept t p a b hpc hno).2
    · exact h.back t p a b hpc hno (hqa ▸ hc.chained_head hq (by rw [hqa]; exact hne))

theorem Watched.step (h : Watched tr s) (hc : Conserved s) (hno : NoAba s act) (hs : Step mp s act s') :
    Watched ((s, act) :: tr) s' := by
  have hother : ∀ {t}, t ≠ act.thread → s'.threads t = s.threads t ∧ since t ((s, act) :: tr) = (s, act) :: since t tr :=
    fun ht => ⟨hs.other ht, since_cons (loads_other ht)⟩
  refine ⟨fun t p a hpc hquiet => ?_, fun t p a b hpc hquiet => ?_, fun t p a b hpc hquiet hch => ?_⟩
  · by_cases ht : t = act.thread
    · obtain ⟨-, hheap, q, hq, rfl, hne⟩ := (hs.reads ht).1 p a hpc
      rw [hheap]
      exact hc.chained_head hq hne
    · obtain ⟨hsame, hsince⟩ := hother ht
      rw [hsame] at hpc
      rw [hsince, List.forall_mem_cons] at hquiet
      exact (hc.chained_keep hno hs (h.head t p a hpc hquiet.2) hquiet.1).1
  · by_cases ht : t = act.thread
    · obtain ⟨hload, hheap, hpc', hnext⟩ := (hs.reads ht).2 p a b hpc
      rw [since_cons hload, List.forall_mem_cons] at hquiet
      rw [hheap]
      exact ⟨h.head t p a hpc' hquiet.2, hnext⟩
    · obtain ⟨hsame, hsince⟩ := hother ht
      rw [hsame] at hpc
      rw [hsince, List.forall_mem_cons] at hquiet
      obtain ⟨hch, hnext⟩ := h.kept t p a b hpc hquiet.2
      obtain ⟨hch', hnext'⟩ := hc.chained_keep hno hs hch hquiet.1
      exact ⟨hch', hnext'.trans hnext⟩
  · by_cases ht : t = act.thread
    · obtain ⟨-, hheap, -, hnext⟩ := (hs.reads ht).2 p a b hpc
      rw [hheap]
      exact hnext
    · obtain ⟨hsame, hsince⟩ := hother ht
      rw [hsame] at hpc
      rw [hsince, List.forall_mem_cons] at hquiet
      have hnode : NodeOf s.heap p a := by have := hc.pure.pc t; rw [hpc] at this; exact this.1
      obtain ⟨hch', hnext'⟩ := hc.chained_before hno hs (NodeOf.isPool hc.pure.heap hnode) hch hquiet.1
      exact hnext'.trans (h.back t p a b hpc hquiet.2 hch')

/-- A calm run has no ABA. -/
theorem watched_of_run {h₀ : Heap} (hb : Blank h₀) (hr : (machine h₀ mp T).Run tr s) (hown : Along (Owned mp) tr)
    (hcalm : Calm tr) : Watched tr s ∧ Along NoAba tr := by
  induction hr with
  | init h => exact ⟨⟨by simp [h.2], by simp [h.2], by simp [h.2]⟩, along_nil⟩
  | step hr hs ih =>
    rw [along_cons] at hown
    obtain ⟨hw, hno⟩ := ih hown.2 hcalm.2
    have hc := conserved_of_run hb hr hown.2 hno
    have hno' := hw.noAba hc hcalm.1
    exact ⟨hw.step hc hno' (step_cases hs), along_cons.2 ⟨hno', hno⟩⟩

/-- **Calm runs keep ownership exclusive.** If no acquire takes a head off that
both another acquire and a return have disturbed since it loaded it, every node
is in one place, in all states of the run. -/
theorem run_calm {h₀ : Heap} (hb : Blank h₀) (hr : (machine h₀ mp T).Run tr s) (hown : Along (Owned mp) tr)
    (hcalm : Calm tr) : Always Exclusive tr s :=
  hr.always (Q := fun s a => Owned mp s a ∧ NoAba s a)
    (fun _ _ hr hok => (conserved_of_run hb hr (along_and.1 hok).1 (along_and.1 hok).2).exclusive)
    (along_and.2 ⟨hown, (watched_of_run hb hr hown hcalm).2⟩)

/-- **Calm runs are those of stacks.** However many acquires overlap, the history
of each pool is one of a stack, to which each call does its work at one moment. -/
theorem run_stack {h₀ : Heap} (hb : Blank h₀) (hsizes : HasSizes h₀) (hr : (machine h₀ mp T).Run tr s)
    (hown : Along (Owned mp) tr) (hcalm : Calm tr) (hp : IsPool h₀ p) : Simulates mp p tr s := by
  have hno := (watched_of_run hb hr hown hcalm).2
  refine hr.invariantT (I := Simulates mp p) (Q := fun s a => Owned mp s a ∧ NoAba s a) (fun s h => .init hb hp h)
    (fun tr s a s' hr hok hi ha h => ?_) (along_and.2 ⟨hown, hno⟩)
  obtain ⟨hown, hno⟩ := along_and.1 hok
  have hg := grows_of_run hr
  have hnull : s.heap.pools NULL = none := by
    have hsize := hg.sizes NULL
    rwa [hb.null, Option.map_none, Option.map_eq_none_iff] at hsize
  exact hi.step (conserved_of_run hb hr hown hno) (hsizes.grows hg) hnull ha.1 ha.2 (step_cases h)

end

/-! ## Disciplines that make a run calm -/

section
variable {T : Type} [DecidableEq T] {mp : MultiPool} {s s' : State T} {act : Act T} {tr : Trace (State T) (Act T)} {p : Addr}

/-- In an acquire on pool `p` that has loaded the head. -/
def Reading (p : Addr) (pc : Pc) : Prop := (∃ a, pc = .acquireLoadNext p a) ∨ ∃ a b, pc = .acquireCas p a b

theorem Reading.acquiring {pc : Pc} (h : Reading p pc) : acquiring p pc = true := by
  obtain ⟨a, rfl⟩ | ⟨a, b, rfl⟩ := h <;> simp [Simple.acquiring]

theorem returning_entry {q : Addr} : returning p (acquireEntry q) = false := by
  unfold acquireEntry
  split <;> rfl

theorem Move.returning {h h' : Heap} {sp ms pc pc' d} (hm : Move h sp ms pc h' pc' d)
    (hr : Simple.returning p pc' = true) : Simple.returning p pc = true := by
  cases hm <;> first | exact hr | cases hr

/-- A thread in an acquire was in it before, or the step called it. -/
theorem Step.acquiring (hs : Step mp s act s') {t : T} (h : Simple.acquiring p (s'.threads t).pc = true) :
    Simple.acquiring p (s.threads t).pc = true ∨
      t = act.thread ∧ (act = .acquire t p ∨ ∃ size, act = .multiAcquire t size ∧ mp.pick size = some p) := by
  by_cases ht : t = act.thread
  swap
  · rw [hs.other ht] at h
    exact .inl h
  subst ht
  cases hs with
  | acquire =>
    rw [Act.thread, set_self] at h
    exact .inr ⟨rfl, .inl (by rw [acquiring_entry h]; rfl)⟩
  | @multiAcquire u size =>
    rw [Act.thread, set_self] at h
    cases hpick : mp.pick size with
    | none => rw [hpick] at h; cases h
    | some q =>
      rw [hpick] at h
      rw [acquiring_entry h] at hpick
      exact .inr ⟨rfl, .inr ⟨size, rfl, hpick⟩⟩
  | ret =>
    rw [Act.thread, set_self, acquiring_returnEntry] at h
    cases h
  | run hms hm =>
    rw [Act.thread, set_self] at h
    exact .inl (hm.acquiring h)

theorem Step.returning (hs : Step mp s act s') {t : T} (h : Simple.returning p (s'.threads t).pc = true) :
    Simple.returning p (s.threads t).pc = true ∨
      ∃ d, act = .ret t d ∧ Simple.returning p (returnEntry s.heap d) = true := by
  by_cases ht : t = act.thread
  swap
  · rw [hs.other ht] at h
    exact .inl h
  subst ht
  cases hs with
  | acquire =>
    rw [Act.thread, set_self, returning_entry] at h
    cases h
  | @multiAcquire u size =>
    rw [Act.thread, set_self] at h
    cases hpick : mp.pick size with
    | none => rw [hpick] at h; cases h
    | some q => rw [hpick, Option.elim_some, returning_entry] at h; cases h
  | ret =>
    rw [Act.thread, set_self] at h
    exact .inr ⟨_, rfl, h⟩
  | run hms hm =>
    rw [Act.thread, set_self] at h
    exact .inl (hm.returning h)

/-- What the other threads do not do while an acquire is reading has not been
done since it loaded the head. -/
theorem quiet_since {f : State T → Act T → Bool} (hs : Step mp s act s')
    (h : ∀ t, Reading p (s.threads t).pc → ∀ e ∈ since t tr, f e.1 e.2 = false)
    (hown : ∀ a, (s.threads act.thread).pc = .acquireLoadNext p a → f s act = false)
    (hother : ∀ t, t ≠ act.thread → Reading p (s.threads t).pc → f s act = false) (t : T)
    (hr : Reading p (s'.threads t).pc) : ∀ e ∈ since t ((s, act) :: tr), f e.1 e.2 = false := by
  by_cases ht : t = act.thread
  · obtain ⟨a, hpc⟩ | ⟨a, b, hpc⟩ := hr
    · rw [since_load ((hs.reads ht).1 p a hpc).1]
      simp
    · obtain ⟨hload, -, hpc', -⟩ := (hs.reads ht).2 p a b hpc
      rw [since_cons hload, List.forall_mem_cons]
      exact ⟨hown a (ht ▸ hpc'), h t (.inl ⟨a, hpc'⟩)⟩
  · rw [hs.other ht] at hr
    rw [since_cons (loads_other ht), List.forall_mem_cons]
    exact ⟨hother t ht hr, h t hr⟩

omit [DecidableEq T] in
theorem takes_pc (h : takes p s act = true) : ∃ a b, (s.threads act.thread).pc = .acquireCas p a b := by
  cases act with
  | run t sp ms =>
    simp only [takes] at h
    split at h
    · rename_i q a b hpc
      simp only [Bool.and_eq_true, beq_iff_eq] at h
      exact ⟨a, b, h.1.1 ▸ hpc⟩
    · cases h
  | _ => cases h

omit [DecidableEq T] in
theorem puts_pc (h : puts p s act = true) : returning p (s.threads act.thread).pc = true := by
  cases act with
  | run t sp ms =>
    simp only [puts] at h
    split at h
    · rename_i a q b hpc
      simp only [Bool.and_eq_true, beq_iff_eq] at h
      simp [Act.thread, hpc, returning, h.1.1]
    · cases h
  | _ => cases h

/-- One acquire at a time on pool `p`: nothing is taken off while it reads. -/
structure Single (p : Addr) (tr : Trace (State T) (Act T)) (s : State T) : Prop where
  one : ∀ t u, acquiring p (s.threads t).pc = true → acquiring p (s.threads u).pc = true → t = u
  quiet : ∀ t, Reading p (s.threads t).pc → ∀ e ∈ since t tr, takes p e.1 e.2 = false

theorem Single.step (h : Single p tr s) (hok : OneAcquirerOn mp p s act) (hs : Step mp s act s') :
    Single p ((s, act) :: tr) s' := by
  have hnew : ∀ {t u}, t = act.thread ∧ (act = .acquire t p ∨ ∃ size, act = .multiAcquire t size ∧ mp.pick size = some p) →
      acquiring p (s.threads u).pc = false := by
    intro t u hact
    obtain ⟨-, rfl | ⟨size, rfl, hpick⟩⟩ := hact
    · exact hok rfl u
    · exact hok hpick u
  refine ⟨fun t u ht hu => ?_, quiet_since hs h.quiet (fun a hpc => ?_) fun t ht hr => ?_⟩
  · rcases hs.acquiring ht with ht | ht <;> rcases hs.acquiring hu with hu | hu
    · exact h.one t u ht hu
    · rw [hnew hu] at ht
      cases ht
    · rw [hnew ht] at hu
      cases hu
    · rw [ht.1, hu.1]
  · by_contra htake
    rw [Bool.not_eq_false] at htake
    obtain ⟨a', b, hpc'⟩ := takes_pc htake
    cases hpc.symm.trans hpc'
  · by_contra htake
    rw [Bool.not_eq_false] at htake
    obtain ⟨a, b, hpc⟩ := takes_pc htake
    exact ht (h.one _ _ hr.acquiring (by rw [hpc]; exact beq_self_eq_true p))

/-- Acquires and returns on pool `p` apart: nothing is put on while one reads. -/
structure OneSided (p : Addr) (tr : Trace (State T) (Act T)) (s : State T) : Prop where
  apart : ∀ t u, acquiring p (s.threads t).pc = true → returning p (s.threads u).pc = false
  quiet : ∀ t, Reading p (s.threads t).pc → ∀ e ∈ since t tr, puts p e.1 e.2 = false

theorem OneSided.step (h : OneSided p tr s) (hok : PhasedOn mp p s act) (hs : Step mp s act s') :
    OneSided p ((s, act) :: tr) s' := by
  refine ⟨fun t u ht => ?_, quiet_since hs h.quiet (fun a hpc => ?_) fun t _ hr => ?_⟩
  · by_contra hu
    rw [Bool.not_eq_false] at hu
    rcases hs.acquiring ht with ht | ⟨-, hact⟩
    · rcases hs.returning hu with hu | ⟨d, rfl, hd⟩
      · rw [h.apart t u ht] at hu
        cases hu
      · rw [hok hd t] at ht
        cases ht
    · rcases hs.returning hu with hu | ⟨d, rfl, -⟩
      · have hno : returning p (s.threads u).pc = false := by
          obtain rfl | ⟨size, rfl, hpick⟩ := hact
          · exact hok rfl u
          · exact hok hpick u
        rw [hno] at hu
        cases hu
      · obtain hact | ⟨size, hact, -⟩ := hact <;> cases hact
  · by_contra hput
    rw [Bool.not_eq_false] at hput
    have hret := puts_pc hput
    rw [hpc] at hret
    cases hret
  · by_contra hput
    rw [Bool.not_eq_false] at hput
    have hret := puts_pc hput
    rw [h.apart t act.thread hr.acquiring] at hret
    cases hret

/-- A pool under one of the disciplines. -/
def Orderly (mp : MultiPool) (p : Addr) (tr : Trace (State T) (Act T)) : Prop :=
  Along (OneAcquirerOn mp p) tr ∨ Along (PhasedOn mp p) tr

theorem single_of_run {h₀ : Heap} (hr : (machine h₀ mp T).Run tr s) (hone : Along (OneAcquirerOn mp p) tr) :
    Single p tr s :=
  hr.invariantT (I := Single p) (fun s h => ⟨by simp [h.2, acquiring], by simp [h.2, Reading]⟩)
    (fun _ _ _ _ _ _ hi hok h => hi.step hok (step_cases h)) hone

theorem oneSided_of_run {h₀ : Heap} (hr : (machine h₀ mp T).Run tr s) (hphased : Along (PhasedOn mp p) tr) : OneSided p tr s :=
  hr.invariantT (I := OneSided p) (fun s h => ⟨by simp [h.2, acquiring], by simp [h.2, Reading]⟩)
    (fun _ _ _ _ _ _ hi hok h => hi.step hok (step_cases h)) hphased

omit [DecidableEq T] in
theorem Orderly.tail {e : State T × Act T} (h : Orderly mp p (e :: tr)) : Orderly mp p tr :=
  h.imp (fun h => (along_cons.1 h).2) fun h => (along_cons.1 h).2

/-- Pools under a discipline are calm. -/
theorem calm_of_orderly {h₀ : Heap} (hr : (machine h₀ mp T).Run tr s) (hord : ∀ p, Orderly mp p tr) : Calm tr := by
  induction hr with
  | init => trivial
  | @step tr s act s' hr hs ih =>
    refine ⟨?_, ih fun p => (hord p).tail⟩
    cases act with
    | acquire | multiAcquire | ret => trivial
    | run t sp ms =>
      simp only [CalmAt]
      split
      swap
      · trivial
      rename_i p a b hpc
      rcases (hord p).tail with hone | hphased
      · exact fun _ => .inl ((single_of_run hr hone).quiet t (.inr ⟨a, b, hpc⟩))
      · exact fun _ => .inr ((oneSided_of_run hr hphased).quiet t (.inr ⟨a, b, hpc⟩))

/-- **Two safe disciplines.** If on each pool either acquires are made one at a
time, or no acquire overlaps with a return, every node is in one place, in all
states of the run. -/
theorem run_orderly [Fintype T] {h₀ : Heap} (hb : Blank h₀) (hr : (machine h₀ mp T).Run tr s)
    (hown : Along (Owned mp) tr) (hord : ∀ p, Orderly mp p tr) : Always Exclusive tr s :=
  hr.always (Q := fun s a => Owned mp s a ∧ NoAba s a)
    (fun _ _ hr hok => (conserved_of_run hb hr (along_and.1 hok).1 (along_and.1 hok).2).exclusive)
    (along_and.2 ⟨hown, (watched_of_run hb hr hown (calm_of_orderly hr hord)).2⟩)

end

/-- Thread 1 takes the head that thread 0 has read, and puts it back after the
compare-and-swap of thread 0 has failed. -/
theorem run_calm_two : ∃ tr s, (machine onePool noMultiPool (Fin 2)).Run tr s ∧ (s.threads 0).held = [28] ∧
    Always Exclusive tr s := by
  have h := exists_run (m := machine onePool noMultiPool (Fin 2)) (s := ⟨onePool, fun _ => {}⟩)
    (l := [acquireNew 1 (10, 20), acquireNew 1 (11, 40), [.ret 1 48], runs 1 4, [.ret 1 28], runs 1 4,
      [.acquire 0 1], runs 0 2, [.acquire 1 1], runs 1 4, runs 0 1, [.ret 1 28], runs 1 4, runs 0 4].flatten)
    (p := fun tr s => decide (Along (Owned noMultiPool) tr ∧ Calm tr ∧ (s.threads 0).held = [28]))
    ⟨rfl, fun _ => rfl⟩ (by decide +kernel)
  obtain ⟨tr, s, hr, hp⟩ := h
  simp only [decide_eq_true_eq] at hp
  obtain ⟨hown, hcalm, hheld⟩ := hp
  exact ⟨tr, s, hr, hheld, run_calm onePool_blank hr hown hcalm⟩

/-- Both threads have read the head when thread 0 pops it; thread 1 goes round its
loop and pops the next. -/
theorem run_stack_two : ∃ tr s, (machine onePool noMultiPool (Fin 2)).Run tr s ∧
    log (event noMultiPool 1) tr = [.call 0 .pop, .answer 0 (.made 28), .call 1 .pop, .answer 1 (.made 48),
      .call 0 (.push 28), .answer 0 .done, .call 1 (.push 48), .answer 1 .done, .call 0 .pop, .call 1 .pop,
      .answer 0 (.item 48), .answer 1 (.item 28)] ∧ Simulates noMultiPool 1 tr s := by
  have h := exists_run (m := machine onePool noMultiPool (Fin 2)) (s := ⟨onePool, fun _ => {}⟩)
    (l := [acquireNew 0 (10, 20), acquireNew 1 (11, 40), [.ret 0 28], runs 0 4, [.ret 1 48], runs 1 4,
      [.acquire 0 1, .acquire 1 1], runs 0 2, runs 1 2, runs 0 2, runs 1 5].flatten)
    (p := fun tr _ => decide (Along (Owned noMultiPool) tr ∧ Calm tr ∧
      log (event noMultiPool 1) tr = [.call 0 .pop, .answer 0 (.made 28), .call 1 .pop, .answer 1 (.made 48),
      .call 0 (.push 28), .answer 0 .done, .call 1 (.push 48), .answer 1 .done, .call 0 .pop, .call 1 .pop,
      .answer 0 (.item 48), .answer 1 (.item 28)]))
    ⟨rfl, fun _ => rfl⟩ (by decide +kernel)
  obtain ⟨tr, s, hr, hp⟩ := h
  simp only [decide_eq_true_eq] at hp
  obtain ⟨hown, hcalm, hlog⟩ := hp
  refine ⟨tr, s, hr, hlog, run_stack onePool_blank (fun p q hq => ?_) hr hown hcalm ⟨_, rfl⟩⟩
  simp only [onePool, setPool_pools, Option.ite_none_right_eq_some, Option.some.injEq] at hq
  rw [← hq.2]
  decide

/-- An acquire is one on pool `p`. -/
def onlyPool {T : Type} (p : Addr) : Act T → Bool
  | .acquire _ pool => pool == p
  | .multiAcquire _ _ => false
  | .ret _ _ | .run _ _ _ => true

/-- Both threads acquire at once, then both return at once. -/
theorem run_orderly_phases : ∃ tr s, (machine onePool noMultiPool (Fin 2)).Run tr s ∧ s.heap.headOf 1 = 11 ∧
    Always Exclusive tr s := by
  have h := exists_run (m := machine onePool noMultiPool (Fin 2)) (s := ⟨onePool, fun _ => {}⟩)
    (l := [[.acquire 0 1, .acquire 1 1], runs 0 1, runs 1 1, [.run 0 false (10, 20), .run 1 false (11, 40)],
      runs 0 1, runs 1 1, [.ret 0 28, .ret 1 48], runs 0 2, runs 1 2, runs 0 2, runs 1 5].flatten)
    (p := fun tr s => decide (Along (Owned noMultiPool) tr ∧ Along (PhasedOn noMultiPool 1) tr ∧
      (∀ e ∈ tr, onlyPool 1 e.2 = true) ∧ s.heap.headOf 1 = 11))
    ⟨rfl, fun _ => rfl⟩ (by decide +kernel)
  obtain ⟨tr, s, hr, hp⟩ := h
  simp only [decide_eq_true_eq] at hp
  obtain ⟨hown, hphased, hall, hhead⟩ := hp
  refine ⟨tr, s, hr, hhead, run_orderly onePool_blank hr hown fun p => ?_⟩
  by_cases hp : p = 1
  · subst hp
    exact .inr hphased
  · refine .inl fun e he => ?_
    have hact := hall e he
    cases ha : e.2 with
    | acquire t pool =>
      rw [ha] at hact
      exact fun hpool => absurd (hpool.symm.trans (beq_iff_eq.1 hact)) hp
    | multiAcquire t size =>
      rw [ha] at hact
      cases hact
    | ret | run => trivial

end Dxpool.Simple
