/-
One acquire at a time on a pool: the pool is then linearizable to a stack of
blocks (`run_lifo`), however many returns are in progress.

A return takes effect when its compare-and-swap succeeds; an acquire when its
own does, or when it loads a NULL head and goes on to allocate. Between the
load of `next` and the compare-and-swap of the only acquire, others can push on
top of the node it read but not remove it, so the `next` it read stays there
(`Lone`): its compare-and-swap is no ABA.
-/
import Dxpool.Simple.Ownership
import Dxpool.Atomic

namespace Dxpool.Simple

open Machine Stack

/-- In an acquire on pool `p`. -/
def acquiring (p : Addr) : Pc → Bool
  | .acquireLoadHead q | .acquireLoadNext q _ | .acquireCas q _ _ | .acquireTrack q _ | .acquireAlloc q
  | .acquireTrackAlloc q _ => q == p
  | _ => false

section
variable {T : Type}

/-- An acquire on a pool is called only while none is in progress on it. -/
def OneAcquirer (mp : MultiPool) (s : State T) : Act T → Prop
  | .acquire _ pool => ∀ u, acquiring pool (s.threads u).pc = false
  | .multiAcquire _ size => ∀ pool, mp.pick size = some pool → ∀ u, acquiring pool (s.threads u).pc = false
  | .ret _ _ | .run _ _ _ => True

instance [Fintype T] (mp : MultiPool) (s : State T) (a : Act T) : Decidable (OneAcquirer mp s a) :=
  match a with
  | .acquire _ pool => inferInstanceAs (Decidable (∀ u, acquiring pool (s.threads u).pc = false))
  | .multiAcquire _ size => decidable_of_iff (∀ pool ∈ mp.pick size, ∀ u, acquiring pool (s.threads u).pc = false) Iff.rfl
  | .ret _ _ | .run _ _ _ => .isTrue trivial

/-- Node `a` is in the chain of pool `p`. -/
def Chained (h : Heap) (p a : Addr) : Prop := ∃ chain, Linked h.nextOf NULL (h.headOf p) chain ∧ a ∈ chain

/-- The only acquire on a pool: the node it read is in the chain, with the
`next` it read. -/
structure Lone (s : State T) : Prop where
  one : ∀ p t u, acquiring p (s.threads t).pc = true → acquiring p (s.threads u).pc = true → t = u
  head : ∀ t p a, (s.threads t).pc = .acquireLoadNext p a → Chained s.heap p a
  next : ∀ t p a b, (s.threads t).pc = .acquireCas p a b → Chained s.heap p a ∧ s.heap.nextOf a = b

/-- The phase, as a client of pool `p`, of a thread at `pc`. -/
def phase (h : Heap) (p : Addr) : Pc → Phase (Op Addr) (Res Addr)
  | .idle | .crashed => .idle
  | .acquireLoadHead q | .acquireLoadNext q _ | .acquireCas q _ _ => if q = p then .called .pop else .idle
  | .acquireTrack q a => if q = p then .done (.popped (h.dataOf a)) else .idle
  | .acquireAlloc q | .acquireTrackAlloc q _ => if q = p then .done .fresh else .idle
  | .returnLoadHead a q | .returnStoreNext a q _ | .returnCas a q _ =>
    if q = p then .called (.push (h.dataOf a)) else .idle
  | .returnTrack q => if q = p then .done .pushed else .idle

/-- The answer of a call that ends at `pc`: a block from the chain, or one
allocated for it. -/
def answerAt : Pc → Option Addr → Ans Addr
  | .acquireTrack _ _, some data => .item data
  | _, some data => .made data
  | _, none => .done

/-- What the clients of pool `p` see of a step. -/
def event (mp : MultiPool) (p : Addr) (s : State T) : Act T → Option (Event T (Op Addr) (Ans Addr))
  | .acquire t pool => if pool = p then some (.call t .pop) else none
  | .multiAcquire t size => if mp.pick size = some p then some (.call t .pop) else none
  | .ret t data => if (returnEntry s.heap data).pool = some p then some (.call t (.push data)) else none
  | .run t sp ms =>
    if (s.threads t).pc.pool = some p then
      match (advance s.heap sp ms (s.threads t).pc).2 with
      | (.idle, data) => some (.answer t (answerAt (s.threads t).pc data))
      | _ => none
    else none

end

/-! ## The only acquire -/

section
variable {h h' : Heap}

theorem Move.acquiring {sp ms pc pc' d p} (hm : Move h sp ms pc h' pc' d) (ha : Simple.acquiring p pc' = true) :
    Simple.acquiring p pc = true := by
  cases hm <;> first | exact ha | cases ha

theorem acquiring_entry {p q : Addr} (ha : acquiring p (acquireEntry q) = true) : q = p := by
  unfold acquireEntry at ha
  split at ha
  · cases ha
  · simpa [acquiring] using ha

theorem acquiring_returnEntry {p d : Addr} : acquiring p (returnEntry h d) = false := by
  unfold returnEntry
  split
  · rfl
  · split
    · rfl
    · split <;> rfl

end

section
variable {T : Type}

theorem Lone.noAba {s : State T} (h : Lone s) (a : Act T) : NoAba s a := by
  cases a with
  | run t sp ms =>
    simp only [NoAba]
    split
    · rename_i p a b hpc
      exact fun _ => (h.next t p a b hpc).2
    · trivial
  | _ => trivial

section
variable [DecidableEq T] [Fintype T] {mp : MultiPool} {s s' : State T} {p : Addr} {chain : List Addr}

/-- A step that takes nothing off the chain of a pool and puts nothing on it
leaves it as it is linked. -/
theorem Conserved.linked_step {act : Act T} (h : Conserved s) (hs : Step mp s act s')
    (hl : Linked s.heap.nextOf NULL (s.heap.headOf p) chain)
    (htake : ∀ t sp ms a b, act = .run t sp ms → (s.threads t).pc = .acquireCas p a b →
      ¬(s.heap.headOf p = a ∧ sp = false))
    (hput : ∀ t sp ms a b, act = .run t sp ms → (s.threads t).pc = .returnCas a p b →
      ¬(s.heap.headOf p = b ∧ sp = false)) :
    Linked s'.heap.nextOf NULL (s'.heap.headOf p) chain ∧ ∀ x ∈ chain, s'.heap.nextOf x = s.heap.nextOf x := by
  cases hs with
  | acquire | multiAcquire | ret => exact ⟨hl, fun _ _ => rfl⟩
  | @run t sp ms h' pc' d hms hm =>
    have hhead : ∀ {q r'}, q ≠ p → (s.heap.setPool q r').headOf p = s.heap.headOf p := fun hqp => by
      rw [setPool_headOf, if_neg (Ne.symm hqp)]
    generalize hpc : (s.threads t).pc = pc at hm
    cases hm with
    | @acquireTake q a b r hq hhd hsp =>
      refine ⟨?_, fun _ _ => rfl⟩
      rw [set_heap, hhead]
      · exact hl
      · rintro rfl; exact htake t sp ms _ _ rfl hpc ⟨(headOf_eq hq).trans hhd, hsp⟩
    | @returnPut a q b r hq hhd hsp =>
      refine ⟨?_, fun _ _ => rfl⟩
      rw [set_heap, hhead]
      · exact hl
      · rintro rfl; exact hput t sp ms _ _ rfl hpc ⟨(headOf_eq hq).trans hhd, hsp⟩
    | @alloc q r hq _ h₁ h₂ =>
      have hnext : (s.heap.allocPoolableMem q r ms.1 ms.2).nextOf = s.heap.nextOf := by
        funext x; exact alloc_nextOf r (hms.1 h₁).1.1
      exact ⟨by rw [set_heap, hnext]; exact hl, fun _ _ => by rw [set_heap, hnext]⟩
    | @returnStore a q b m ha =>
      have hnot := h.not_mem (t := t) ha (by simp [share, inHand, hpc]) hl
      have hnext : ∀ x ∈ chain, (s.heap.setNode a { m with next := b }).nextOf x = s.heap.nextOf x := by
        intro x hx
        rw [setNode_nextOf, if_neg]
        rintro rfl
        exact hnot hx
      exact ⟨hl.congr hnext, hnext⟩
    | acquireDone hq | allocDone hq | returnDone hq =>
      refine ⟨?_, fun _ _ => rfl⟩
      rw [set_heap, setPool_headOf_eq hq]
      · exact hl
      · rfl
    | _ => exact ⟨hl, fun _ _ => rfl⟩

omit [DecidableEq T] in
/-- A return that succeeds puts its node on the chain. -/
theorem Conserved.linked_put {t : T} {a b : Addr} {q : MemPool} (h : Conserved s)
    (hl : Linked s.heap.nextOf NULL (s.heap.headOf p) chain) (hpc : (s.threads t).pc = .returnCas a p b)
    (hq : s.heap.pools p = some q) (hhead : q.head = b) :
    Linked (s.heap.setPool p { q with head := a }).nextOf NULL ((s.heap.setPool p { q with head := a }).headOf p)
      (a :: chain) := by
  have hnode : NodeOf s.heap p a := by have := h.pure.pc t; rw [hpc] at this; exact this.1
  rw [setPool_headOf, if_pos rfl]
  refine .cons (hnode.ne_null h.pure.heap) ?_
  rw [setPool_nextOf, h.stored t a p b hpc, ← hhead, ← headOf_eq hq]
  exact hl

/-- What is in the chain of a pool stays there, linked as it is, in a step that
is not at the compare-and-swap of an acquire on it. -/
theorem Conserved.chained_step {act : Act T} (h : Conserved s) (hs : Step mp s act s') {c : Addr}
    (hc : Chained s.heap p c)
    (hno : ∀ t sp ms a b, act = .run t sp ms → (s.threads t).pc = .acquireCas p a b → False) :
    Chained s'.heap p c ∧ s'.heap.nextOf c = s.heap.nextOf c := by
  obtain ⟨chain, hl, hmem⟩ := hc
  by_cases hput : ∀ t sp ms a b, act = .run t sp ms → (s.threads t).pc = .returnCas a p b →
      ¬(s.heap.headOf p = b ∧ sp = false)
  · obtain ⟨hl', hnext⟩ := h.linked_step hs hl (fun t sp ms a b ha hpc => (hno t sp ms a b ha hpc).elim) hput
    exact ⟨⟨chain, hl', hmem⟩, hnext c hmem⟩
  · simp only [not_forall, not_not] at hput
    obtain ⟨t, sp, ms, a, b, rfl, hpc, hhead, rfl⟩ := hput
    cases hs with
    | @run _ _ _ h' pc' d hms hm =>
      have hgood := h.pure.pc t
      rw [hpc] at hm hgood
      cases hm with
      | crash hf => obtain ⟨_, _, hbad, -⟩ := hgood.faulty h.pure.heap hf; cases hbad
      | returnPut hq hhd _ => exact ⟨⟨a :: chain, h.linked_put hl hpc hq hhd, List.mem_cons_of_mem _ hmem⟩, rfl⟩
      | returnFail hq hfail => exact absurd ⟨(headOf_eq hq).symm.trans hhead, rfl⟩ hfail

end

variable [DecidableEq T]

/-- A call of another kind, or the first acquire on its pool. -/
theorem Lone.call {s : State T} {t : T} {th : Thread} (h : Lone s)
    (hth : ∀ p, acquiring p th.pc = true → ∀ u, acquiring p (s.threads u).pc = false)
    (hhead : ∀ p a, th.pc ≠ .acquireLoadNext p a) (hcas : ∀ p a b, th.pc ≠ .acquireCas p a b) :
    Lone (s.set t th) := by
  refine ⟨fun p x y hx hy => ?_, ?_, ?_⟩
  · by_cases hxt : x = t <;> by_cases hyt : y = t
    · rw [hxt, hyt]
    · subst hxt
      rw [set_self] at hx
      rw [set_ne hyt, hth p hx y] at hy
      cases hy
    · subst hyt
      rw [set_self] at hy
      rw [set_ne hxt, hth p hy x] at hx
      cases hx
    · rw [set_ne hxt] at hx
      rw [set_ne hyt] at hy
      exact h.one p x y hx hy
  · exact forall_set (P := fun _ th => ∀ p a, th.pc = .acquireLoadNext p a → Chained s.heap p a)
      (fun p a hx => absurd hx (hhead p a)) fun u _ => h.head u
  · exact forall_set (P := fun _ th => ∀ p a b, th.pc = .acquireCas p a b → Chained s.heap p a ∧ s.heap.nextOf a = b)
      (fun p a b hx => absurd hx (hcas p a b)) fun u _ => h.next u

variable [Fintype T]

theorem Lone.step {mp} {s s' : State T} {a : Act T} (h : Lone s) (hc : Conserved s) (hone : OneAcquirer mp s a)
    (hs : Step mp s a s') : Lone s' := by
  have hstep := hs
  cases hs with
  | @acquire t p hpc =>
    refine h.call (fun q hq u => ?_) ?_ ?_
    · rw [← acquiring_entry hq]; exact hone u
    all_goals intros; simp only [acquireEntry]; split <;> simp
  | @multiAcquire t size hpc =>
    cases hpick : mp.pick size with
    | none => exact h.call (by simp [acquiring]) (by simp) (by simp)
    | some p =>
      refine h.call (fun q hq u => ?_) ?_ ?_
      · rw [← acquiring_entry hq]; exact hone p hpick u
      all_goals intros; simp only [Option.elim_some, acquireEntry]; split <;> simp
  | @ret t d hpc =>
    refine h.call (fun p hp => ?_) ?_ ?_
    · rw [acquiring_returnEntry] at hp; cases hp
    all_goals
      intros
      unfold returnEntry
      split
      · simp
      · split
        · simp
        · split <;> simp
  | @run t sp ms h' pc' d hms hm =>
    have hkeep : ∀ {x p c}, x ≠ t → acquiring p (s.threads x).pc = true → Chained s.heap p c →
        Chained h' p c ∧ h'.nextOf c = s.heap.nextOf c := by
      intro x p c hxt hx hch
      refine hc.chained_step hstep hch fun t' sp' ms' e b ha hpc => ?_
      cases ha
      exact hxt (h.one p x t hx (by rw [hpc]; exact beq_self_eq_true p))
    have hacq : ∀ x p, acquiring p (({ s with heap := h' }.set t { s.threads t with
        pc := pc', held := gain d ++ (s.threads t).held }).threads x).pc = true → acquiring p (s.threads x).pc = true :=
      forall_set (P := fun x th => ∀ p, acquiring p th.pc = true → acquiring p (s.threads x).pc = true)
        (fun _ => hm.acquiring) fun _ _ _ hx => hx
    refine ⟨fun p x y hx hy => h.one p x y (hacq x p hx) (hacq y p hy), ?_, ?_⟩
    · refine forall_set (P := fun _ th => ∀ p a, th.pc = .acquireLoadNext p a → Chained h' p a) (fun p a hx => ?_)
        fun x hxt p a hx => ?_
      · cases hx
        generalize (s.threads t).pc = pc at hm
        cases hm with
        | @acquireHead _ q hq hne =>
          obtain ⟨chain, hl, -⟩ := hc.exclusive p ⟨q, hq⟩
          obtain ⟨rest, rfl, -⟩ := hl.of_ne (headOf_eq hq ▸ hne)
          exact ⟨_, hl, headOf_eq hq ▸ List.mem_cons_self⟩
      · have hx : (s.threads x).pc = .acquireLoadNext p a := hx
        exact (hkeep hxt (by rw [hx]; exact beq_self_eq_true p) (h.head x p a hx)).1
    · refine forall_set (P := fun _ th => ∀ p a b, th.pc = .acquireCas p a b → Chained h' p a ∧ h'.nextOf a = b)
        (fun p a b hx => ?_) fun x hxt p a b hx => ?_
      · cases hx
        generalize hpc : (s.threads t).pc = pc at hm
        cases hm with
        | @acquireNext _ _ m hm => exact ⟨h.head t p a hpc, nextOf_eq hm⟩
      · have hx : (s.threads x).pc = .acquireCas p a b := hx
        obtain ⟨hch, hnext⟩ := h.next x p a b hx
        obtain ⟨hch', hnext'⟩ := hkeep hxt (by rw [hx]; exact beq_self_eq_true p) hch
        exact ⟨hch', hnext'.trans hnext⟩

theorem lone_of_run {h₀ mp} (hb : Blank h₀) {tr : Trace (State T) (Act T)} {s : State T}
    (hr : (machine h₀ mp T).Run tr s) (hown : Along (Owned mp) tr) (hone : Along (OneAcquirer mp) tr)
    (hno : Along NoAba tr) : Lone s :=
  hr.invariantT (I := fun _ s => Lone s) (Q := fun s a => (Owned mp s a ∧ NoAba s a) ∧ OneAcquirer mp s a)
    (fun s h => ⟨by simp [h.2, acquiring], by simp [h.2], by simp [h.2]⟩)
    (fun _ _ _ _ hr hok hi ha h =>
      have hok := along_and.1 (along_and.1 hok).1
      hi.step (conserved_of_run hb hr hok.1 hok.2) ha.2 (step_cases h))
    (along_and.2 ⟨along_and.2 ⟨hown, hno⟩, hone⟩)

/-- One acquire at a time on a pool is no ABA. -/
theorem noAba_of_run {h₀ mp} (hb : Blank h₀) {tr : Trace (State T) (Act T)} {s : State T}
    (hr : (machine h₀ mp T).Run tr s) (hown : Along (Owned mp) tr) (hone : Along (OneAcquirer mp) tr) :
    Along NoAba tr :=
  hr.along_of (I := fun _ s => Lone s) (W := fun s a => Owned mp s a ∧ OneAcquirer mp s a)
    (fun _ _ hr hw hok => lone_of_run hb hr (along_and.1 hw).1 (along_and.1 hw).2 hok)
    (fun _ _ a _ hi _ => hi.noAba a) (along_and.2 ⟨hown, hone⟩)

end

/-! ## The stack -/

section
variable {h h' : Heap} {p : Addr}

theorem NodeOf.dataOf {a q} (hn : NodeOf h q a) (hg : Grows h h') : h'.dataOf a = h.dataOf a := by
  obtain ⟨m, hm, -⟩ := hn
  obtain ⟨m', hm', hd, -⟩ := hg.node hm
  simp [Heap.dataOf, hm, hm', hd]

theorem phase_grows {pc} (hpc : PcPure h pc) (hg : Grows h h') : phase h' p pc = phase h p pc := by
  cases pc with
  | acquireTrack | returnLoadHead => simp only [phase, NodeOf.dataOf hpc hg]
  | returnStoreNext | returnCas => simp only [phase, NodeOf.dataOf hpc.1 hg]
  | _ => rfl

/-- A thread in no call on pool `p` is idle as its client. -/
theorem phase_idle {pc : Pc} (hpc : pc.pool ≠ some p) : phase h p pc = .idle := by
  cases pc <;> simp_all [phase, Pc.pool]

/-- The pools of a heap have blocks of some size. -/
def HasSizes (h : Heap) : Prop := ∀ p q, h.pools p = some q → q.memSize ≠ 0

theorem HasSizes.grows (hs : HasSizes h) (hg : Grows h h') : HasSizes h' := by
  intro p q hq
  obtain ⟨q₀, hq₀, hsize⟩ := hg.pool_of hq
  rw [← hsize]
  exact hs p q₀ hq₀

end

section
variable {T : Type} [DecidableEq T] {mp : MultiPool} {p : Addr} {s : State T} {tr : Trace (State T) (Act T)}

/-- The history of pool `p` is one of a stack, of the blocks in its chain. -/
def Simulates (mp : MultiPool) (p : Addr) (tr : Trace (State T) (Act T)) (s : State T) : Prop :=
  ∃ chain, Linked s.heap.nextOf NULL (s.heap.headOf p) chain ∧
    Atomic (object Addr) (log (event mp p) tr) (chain.map s.heap.dataOf) fun t => phase s.heap p (s.threads t).pc

/-- The phases of the threads after one of them moved. -/
theorem phases_set {k : Heap} {t : T} {th : Thread} (hpure : Pure s) (hg : Grows s.heap k) :
    (fun u => phase k p (({ s with heap := k }.set t th).threads u).pc) =
      Function.update (fun u => phase s.heap p (s.threads u).pc) t (phase k p th.pc) := by
  funext u
  by_cases hu : u = t
  · subst hu; rw [set_self, Function.update_self]
  · rw [set_ne hu, Function.update_of_ne hu, phase_grows (hpure.pc u) hg]

omit [DecidableEq T] in
/-- The blocks of a chain after a step. -/
theorem map_dataOf {k : Heap} {chain : List Addr} (hpure : Pure s) (hg : Grows s.heap k)
    (hl : Linked s.heap.nextOf NULL (s.heap.headOf p) chain) : chain.map k.dataOf = chain.map s.heap.dataOf :=
  List.map_congr_left fun x hx => (hpure.heap.chain_head hl x hx).dataOf hg

/-- A step that no client of the pool sees, and that changes neither its chain
nor the phase of the thread. -/
theorem Simulates.quiet {k : Heap} {t : T} {th : Thread} {a : Act T} {chain : List Addr} (hpure : Pure s)
    (hg : Grows s.heap k) (hl : Linked s.heap.nextOf NULL (s.heap.headOf p) chain)
    (hat : Atomic (object Addr) (log (event mp p) tr) (chain.map s.heap.dataOf) fun t => phase s.heap p (s.threads t).pc)
    (hl' : Linked k.nextOf NULL (k.headOf p) chain) (he : event mp p s a = none)
    (hph : phase k p th.pc = phase s.heap p (s.threads t).pc) :
    Simulates mp p ((s, a) :: tr) ({ s with heap := k }.set t th) := by
  refine ⟨chain, hl', ?_⟩
  rw [log_none he, set_heap, map_dataOf hpure hg hl, phases_set hpure hg, hph, Function.update_eq_self]
  exact hat

/-- A call. -/
theorem Simulates.call {t : T} {th : Thread} {a : Act T} {o : Op Addr} {chain : List Addr} (hpure : Pure s)
    (hl : Linked s.heap.nextOf NULL (s.heap.headOf p) chain)
    (hat : Atomic (object Addr) (log (event mp p) tr) (chain.map s.heap.dataOf) fun t => phase s.heap p (s.threads t).pc)
    (he : event mp p s a = some (.call t o)) (hidle : (s.threads t).pc = .idle)
    (hph : phase s.heap p th.pc = .called o) : Simulates mp p ((s, a) :: tr) (s.set t th) := by
  refine ⟨chain, hl, ?_⟩
  rw [log_some he, set_heap, phases_set (k := s.heap) hpure (.refl _), hph]
  exact hat.call t o (by rw [hidle]; rfl)

/-- An answer. -/
theorem Simulates.answer {k : Heap} {t : T} {th : Thread} {a : Act T} {chain : List Addr} {r : Res Addr}
    {ans : Ans Addr} (hpure : Pure s) (hg : Grows s.heap k)
    (hl : Linked s.heap.nextOf NULL (s.heap.headOf p) chain)
    (hat : Atomic (object Addr) (log (event mp p) tr) (chain.map s.heap.dataOf) fun t => phase s.heap p (s.threads t).pc)
    (hl' : Linked k.nextOf NULL (k.headOf p) chain) (he : event mp p s a = some (.answer t ans))
    (hdone : phase s.heap p (s.threads t).pc = .done r) (hans : answers r ans)
    (hph : phase k p th.pc = .idle) : Simulates mp p ((s, a) :: tr) ({ s with heap := k }.set t th) := by
  refine ⟨chain, hl', ?_⟩
  rw [log_some he, set_heap, map_dataOf hpure hg hl, phases_set hpure hg, hph]
  exact hat.answer t r ans hdone hans

/-- An operation takes effect. -/
theorem Simulates.effect {k : Heap} {t : T} {th : Thread} {a : Act T} {chain l : List Addr} {o : Op Addr} {r : Res Addr}
    (hpure : Pure s) (hg : Grows s.heap k)
    (hat : Atomic (object Addr) (log (event mp p) tr) (chain.map s.heap.dataOf) fun t => phase s.heap p (s.threads t).pc)
    (hl' : Linked k.nextOf NULL (k.headOf p) l) (he : event mp p s a = none)
    (hcalled : phase s.heap p (s.threads t).pc = .called o)
    (heff : effect (chain.map s.heap.dataOf) o = (l.map k.dataOf, r))
    (hph : phase k p th.pc = .done r) : Simulates mp p ((s, a) :: tr) ({ s with heap := k }.set t th) := by
  refine ⟨l, hl', ?_⟩
  have := hat.effect t o hcalled
  rw [log_none he, set_heap, phases_set hpure hg, hph]
  simpa only [object, heff] using this

variable [Fintype T]

/-- Each step of the pool is a step of the stack, or none. -/
theorem Simulates.step {s' : State T} {a : Act T} (hsim : Simulates mp p tr s) (h : Conserved s)
    (hsizes : HasSizes s.heap) (hnull : s.heap.pools NULL = none) (hown : Owned mp s a) (hno : NoAba s a)
    (hs : Step mp s a s') : Simulates mp p ((s, a) :: tr) s' := by
  obtain ⟨chain, hl, hat⟩ := hsim
  have hentry : ∀ {q}, IsPool s.heap q → acquireEntry q = .acquireLoadHead q := by
    rintro q ⟨r, hr⟩
    rw [acquireEntry, if_neg]
    rintro rfl
    rw [hnull] at hr; cases hr
  have hstep := hs
  cases hs with
  | @acquire t q hpc =>
    by_cases hqp : q = p
    · refine .call (o := .pop) h.pure hl hat (by simp [event, hqp]) hpc ?_
      rw [hentry hown, hqp]
      simp [phase]
    · refine .quiet (k := s.heap) h.pure (.refl _) hl hat hl (by simp [event, hqp]) ?_
      rw [hentry hown, hpc]
      simp [phase, hqp]
  | @multiAcquire t size hpc =>
    obtain ⟨q, hpick, hq⟩ := hown
    by_cases hqp : q = p
    · refine .call (o := .pop) h.pure hl hat (by simp [event, hpick, hqp]) hpc ?_
      rw [hpick, Option.elim_some, hentry hq, hqp]
      simp [phase]
    · refine .quiet (k := s.heap) h.pure (.refl _) hl hat hl (by simp [event, hpick, hqp]) ?_
      rw [hpick, Option.elim_some, hentry hq, hpc]
      simp [phase, hqp]
  | @ret t d hpc =>
    obtain ⟨b, m, hb, rfl⟩ := h.pure.held t d hown
    have hent := h.pure.heap.returnEntry hb
    by_cases hqp : m.pool = p
    · refine .call (o := .push m.data) h.pure hl hat (by simp [event, hent, Pc.pool, hqp]) hpc ?_
      simp [hent, phase, hqp, Heap.dataOf, hb]
    · refine .quiet (k := s.heap) h.pure (.refl _) hl hat hl (by simp [event, hent, Pc.pool, hqp]) ?_
      simp [hent, hpc, phase, hqp]
  | @run t sp ms h' pc' d hms hm =>
    have hg := hm.grows hms
    have hgood := h.pure.pc t
    have hevent : event mp p s (.run t sp ms) = if (s.threads t).pc.pool = some p then
        match (pc', d) with
        | (.idle, data) => some (.answer t (answerAt (s.threads t).pc data))
        | _ => none else none := by
      rw [event, hm.advance_eq]
    have hpool := hm.pool
    by_cases hqp : (s.threads t).pc.pool = some p
    swap
    · -- a call on another pool
      rw [if_neg hqp] at hevent
      have hidle' : phase h' p pc' = .idle := phase_idle (by rcases hpool with hn | he <;> simp_all)
      have hkeep := (h.linked_step hstep hl (fun t' sp' ms' a b ha hpc => by
        cases ha; rw [hpc] at hqp; exact absurd rfl hqp) fun t' sp' ms' a b ha hpc => by
        cases ha; rw [hpc] at hqp; exact absurd rfl hqp).1
      exact .quiet h.pure hg hl hat hkeep hevent (by rw [hidle', phase_idle hqp])
    rw [if_pos hqp] at hevent
    have hnoRun := hno
    simp only [NoAba] at hnoRun
    generalize hpc : (s.threads t).pc = pc at hm hgood hevent hqp hnoRun
    have hkeep : (∀ a b, pc = .acquireCas p a b → ¬(s.heap.headOf p = a ∧ sp = false)) →
        (∀ a b, pc = .returnCas a p b → ¬(s.heap.headOf p = b ∧ sp = false)) →
        Linked h'.nextOf NULL (h'.headOf p) chain := fun htake hput =>
      (h.linked_step hstep hl (fun t' sp' ms' a b ha hpc' => by cases ha; exact htake a b (hpc.symm.trans hpc'))
        fun t' sp' ms' a b ha hpc' => by cases ha; exact hput a b (hpc.symm.trans hpc')).1
    cases hm with
    | stay => cases hqp
    | crash hf =>
      obtain ⟨q, r, rfl, hq, hzero⟩ := hgood.faulty h.pure.heap hf
      exact absurd hzero (hsizes q r hq)
    | @acquireEmpty q r hq hnone =>
      cases hqp
      rw [headOf_eq hq, hnone] at hl
      have hnil := hl.of_null
      subst hnil
      refine .effect (o := .pop) (l := []) (r := .fresh) h.pure hg hat ?_ hevent ?_ rfl ?_
      · rw [headOf_eq hq, hnone]; exact hl
      · simp [hpc, phase]
      · simp [phase]
    | acquireHead | acquireNext =>
      cases hqp
      exact .quiet h.pure hg hl hat (hkeep (by simp) (by simp)) hevent (by simp [hpc, phase])
    | @acquireTake q a b r hq hhd hsp =>
      cases hqp
      have hne : s.heap.headOf p ≠ NULL := by
        rw [headOf_eq hq, hhd]; exact hgood.1.ne_null h.pure.heap
      obtain ⟨rest, rfl, hrest⟩ := hl.of_ne hne
      rw [headOf_eq hq, hhd] at hrest hl hat
      rw [hnoRun ⟨(headOf_eq hq).trans hhd, hsp⟩] at hrest
      refine .effect (o := .pop) (l := rest) (r := .popped (s.heap.dataOf a)) h.pure hg hat ?_ hevent ?_ rfl ?_
      · rw [setPool_headOf, if_pos rfl]; exact hrest
      · simp [hpc, phase]
      · simp [phase]; rfl
    | @acquireFail q a b r hq hfail =>
      cases hqp
      refine .quiet h.pure hg hl hat (hkeep ?_ (by simp)) hevent (by simp [hpc, phase])
      intro a' b' he
      cases he
      rwa [headOf_eq hq]
    | @acquireDone q a r m hq ha =>
      cases hqp
      refine .answer (r := .popped (s.heap.dataOf a)) h.pure hg hl hat (hkeep (by simp) (by simp)) hevent ?_ ?_ rfl
      · simp [hpc, phase]
      · simp [answers, answerAt, Heap.dataOf, ha]
    | allocFail =>
      cases hqp
      exact .answer (r := .fresh) h.pure hg hl hat (hkeep (by simp) (by simp)) hevent (by simp [hpc, phase]) ⟨_, rfl⟩ rfl
    | alloc =>
      cases hqp
      exact .quiet h.pure hg hl hat (hkeep (by simp) (by simp)) hevent (by simp [hpc, phase])
    | allocDone =>
      cases hqp
      exact .answer (r := .fresh) h.pure hg hl hat (hkeep (by simp) (by simp)) hevent (by simp [hpc, phase]) ⟨_, rfl⟩ rfl
    | returnHead =>
      cases hqp
      exact .quiet h.pure hg hl hat (hkeep (by simp) (by simp)) hevent (by simp [hpc, phase])
    | returnStore =>
      cases hqp
      refine .quiet h.pure hg hl hat (hkeep (by simp) (by simp)) hevent ?_
      simp [hpc, phase, NodeOf.dataOf hgood.1 hg]
    | @returnPut a q b r hq hhd hsp =>
      cases hqp
      refine .effect (o := .push (s.heap.dataOf a)) (l := a :: chain) (r := .pushed) h.pure hg hat
        (h.linked_put hl hpc hq hhd) hevent ?_ rfl ?_
      · simp [hpc, phase]
      · simp [phase]
    | @returnFail a q b r hq hfail =>
      cases hqp
      refine .quiet h.pure hg hl hat (hkeep (by simp) ?_) hevent (by simp [hpc, phase])
      intro a' b' he
      cases he
      rwa [headOf_eq hq]
    | returnDone =>
      cases hqp
      exact .answer (r := .pushed) h.pure hg hl hat (hkeep (by simp) (by simp)) hevent (by simp [hpc, phase]) rfl rfl

omit [Fintype T] in
theorem Simulates.init {h₀} (hb : Blank h₀) (hp : IsPool h₀ p) (h : (machine h₀ mp T).init s) :
    Simulates mp p [] s := by
  obtain ⟨q, hq⟩ := hp
  obtain ⟨rfl, ht⟩ := h
  refine ⟨[], ?_, ?_⟩
  · rw [headOf_eq hq, hb.head p q hq]
    exact .nil
  · rw [show (fun t => phase s.heap p (s.threads t).pc) = fun _ => .idle by funext t; rw [ht]; rfl]
    exact .start

/-- **The pool is a stack** to its clients, along every run in which they
return only what they hold, and acquire from a pool only while nobody else does. -/
theorem run_lifo {h₀} (hb : Blank h₀) (hsizes : HasSizes h₀) (hp : IsPool h₀ p)
    (hr : (machine h₀ mp T).Run tr s) (hown : Along (Owned mp) tr) (hone : Along (OneAcquirer mp) tr) :
    Simulates mp p tr s := by
  have hno := noAba_of_run hb hr hown hone
  refine hr.invariantT (I := Simulates mp p) (Q := fun s a => Owned mp s a ∧ NoAba s a) (fun s h => .init hb hp h)
    (fun tr s a s' hr hok hi ha h => ?_) (along_and.2 ⟨hown, hno⟩)
  have hg := grows_of_run hr
  have hok := along_and.1 hok
  refine hi.step (conserved_of_run hb hr hok.1 hok.2) (hsizes.grows hg) ?_ ha.1 ha.2 (step_cases h)
  have := hg.sizes NULL
  rw [hb.null, Option.map_none, Option.map_eq_none_iff] at this
  exact this

end

/-- Two returns overlap, and an acquire overlaps the second: it pops the block
that was pushed last. -/
theorem run_lifo_two : ∃ tr s, (machine onePool noMultiPool (Fin 2)).Run tr s ∧
    log (event noMultiPool 1) tr = [.call 0 .pop, .answer 0 (.made 28), .call 1 .pop, .answer 1 (.made 48),
      .call 0 (.push 28), .call 1 (.push 48), .answer 0 .done, .call 0 .pop, .answer 0 (.item 48), .answer 1 .done] ∧
    Simulates noMultiPool 1 tr s := by
  have h := exists_run (m := machine onePool noMultiPool (Fin 2)) (s := ⟨onePool, fun _ => {}⟩)
    (l := acquireNew 0 (10, 20) ++ acquireNew 1 (11, 40) ++ [.ret 0 28, .ret 1 48] ++ runs 1 1 ++ runs 0 4 ++ runs 1 5 ++
      [.acquire 0 1] ++ runs 0 4 ++ runs 1 1)
    (p := fun tr _ => decide (Along (Owned noMultiPool) tr ∧ Along (OneAcquirer noMultiPool) tr ∧
      log (event noMultiPool 1) tr = [.call 0 .pop, .answer 0 (.made 28), .call 1 .pop, .answer 1 (.made 48),
      .call 0 (.push 28), .call 1 (.push 48), .answer 0 .done, .call 0 .pop, .answer 0 (.item 48), .answer 1 .done]))
    ⟨rfl, fun _ => rfl⟩ (by decide +kernel)
  obtain ⟨tr, s, hr, hp⟩ := h
  simp only [decide_eq_true_eq] at hp
  obtain ⟨hown, hone, hlog⟩ := hp
  refine ⟨tr, s, hr, hlog, run_lifo onePool_blank (fun p q hq => ?_) ⟨_, rfl⟩ hr hown hone⟩
  simp only [onePool, setPool_pools, Option.ite_none_right_eq_some, Option.some.injEq] at hq
  rw [← hq.2]
  decide

end Dxpool.Simple
