/-
Exclusive ownership and conservation: every node is once in the chain of its
pool, held by one thread, or in the hands of one call.

`pool_mem_acquire` compares the head only, not the `next` it read from it, so
another thread can take the head and more, and bring the head back: the stale
`next` then becomes the head while somebody holds it (`aba`). This is the only
way to lose ownership: it is kept along a run exactly when each successful
compare-and-swap of an acquire finds the `next` it read still there
(`exclusive_iff_noAba`).
-/
import Dxpool.Simple.Purity
import Dxpool.Linked
import Dxpool.Tally

namespace Dxpool.Simple

open Machine

/-- The node in the hands of a call. -/
def inHand : Pc → List Addr
  | .acquireTrack _ a | .acquireTrackAlloc _ a | .returnLoadHead a _ | .returnStoreNext a _ _ | .returnCas a _ _ => [a]
  | _ => []

/-- A thread's share of the places of node `a` with data `d`. -/
def share (a d : Addr) (th : Thread) : Nat := th.held.count d + (inHand th.pc).count a

section
variable {T : Type}

/-- In how many places node `a` with data `d` is, for the chain of its pool. -/
def places [Fintype T] (s : State T) (chain : List Addr) (a d : Addr) : Nat :=
  chain.count a + ∑ t, share a d (s.threads t)

/-- The chain of every pool ends, and every node of it is in one place. -/
def Exclusive [Fintype T] (s : State T) : Prop :=
  ∀ p, IsPool s.heap p → ∃ chain, Linked s.heap.nextOf NULL (s.heap.headOf p) chain ∧
    ∀ a m, s.heap.nodes a = some m → m.pool = p → places s chain a m.data = 1

/-- The clients' contract: a thread returns only a block it holds. -/
def Owned (mp : MultiPool) (s : State T) : Act T → Prop
  | .acquire _ pool => IsPool s.heap pool
  | .multiAcquire _ size => ∃ pool, mp.pick size = some pool ∧ IsPool s.heap pool
  | .ret t data => data ∈ (s.threads t).held
  | .run _ _ _ => True

/-- An acquire takes a head off only if that still has the `next` it read. -/
def NoAba (s : State T) : Act T → Prop
  | .run t sp _ =>
    match (s.threads t).pc with
    | .acquireCas p a b => s.heap.headOf p = a ∧ sp = false → s.heap.nextOf a = b
    | _ => True
  | _ => True

instance (mp : MultiPool) (s : State T) (a : Act T) : Decidable (Owned mp s a) :=
  match a with
  | .acquire _ pool => inferInstanceAs (Decidable (IsPool s.heap pool))
  | .multiAcquire _ size =>
    match h : mp.pick size with
    | none => isFalse fun ⟨_, hp, _⟩ => by simp [h] at hp
    | some pool => decidable_of_iff (IsPool s.heap pool) (by simp [Owned, h])
  | .ret t data => inferInstanceAs (Decidable (data ∈ (s.threads t).held))
  | .run _ _ _ => isTrue trivial

instance (s : State T) (a : Act T) : Decidable (NoAba s a) :=
  match a with
  | .run t sp ms =>
    match h : (s.threads t).pc with
    | .acquireCas p a b => decidable_of_iff (s.heap.headOf p = a ∧ sp = false → s.heap.nextOf a = b)
        (by simp only [NoAba, h])
    | .idle | .crashed | .acquireLoadHead _ | .acquireLoadNext _ _ | .acquireTrack _ _ | .acquireAlloc _
    | .acquireTrackAlloc _ _ | .returnLoadHead _ _ | .returnStoreNext _ _ _ | .returnCas _ _ _ | .returnTrack _ =>
      isTrue (by simp only [NoAba, h])
  | .acquire _ _ | .multiAcquire _ _ | .ret _ _ => isTrue trivial

theorem Owned.obtained {mp} {s : State T} {a : Act T} (h : Owned mp s a) (hp : Pure s) : Obtained mp s a := by
  cases a with
  | ret t d => exact hp.held t d h
  | _ => exact h

end

section
variable {h : Heap}

/-- The chain of a pool has nodes of that pool only. -/
theorem HeapPure.chain (h0 : HeapPure h) {p a : Addr} {l : List Addr} (hl : Linked h.nextOf NULL a l)
    (ha : Link h p a) : ∀ x ∈ l, NodeOf h p x := by
  induction hl with
  | nil => simp
  | @cons a l hne _ ih =>
    have hn := ha.resolve_left hne
    refine List.forall_mem_cons.2 ⟨hn, ih ?_⟩
    obtain ⟨m, hm, rfl⟩ := hn
    rw [nextOf_eq hm]
    exact h0.next a m hm

theorem HeapPure.chain_head (h0 : HeapPure h) {p : Addr} {l : List Addr}
    (hl : Linked h.nextOf NULL (h.headOf p) l) : ∀ x ∈ l, NodeOf h p x := by
  refine h0.chain hl ?_
  cases hp : h.pools p with
  | none => exact .inl (by rw [Heap.headOf, hp, Option.elim_none])
  | some q => exact headOf_eq hp ▸ h0.head p q hp

theorem PcPure.inHand {pc} (hpc : PcPure h pc) {a : Addr} (ha : a ∈ Simple.inHand pc) : ∃ p, NodeOf h p a := by
  cases pc <;> simp only [Simple.inHand, List.mem_singleton, List.not_mem_nil] at ha <;> subst ha
  case acquireTrack | acquireTrackAlloc | returnLoadHead => exact ⟨_, hpc⟩
  case returnStoreNext | returnCas => exact ⟨_, hpc.1⟩

/-- Holding a node's data is holding the node. -/
theorem HeapPure.data_eq (h0 : HeapPure h) {a c m n} (ha : h.nodes a = some m) (hc : h.nodes c = some n) :
    m.data = n.data ↔ a = c := by
  constructor
  · exact h0.data_inj ha hc
  · rintro rfl; cases ha.symm.trans hc; rfl

end

section
variable {T : Type} [Fintype T]

/-- What every step keeps, if it is no ABA: a call about to push has its node
linked to the head it read. -/
structure Conserved (s : State T) : Prop where
  pure : Pure s
  exclusive : Exclusive s
  stored : ∀ t a p b, (s.threads t).pc = .returnCas a p b → s.heap.nextOf a = b

variable [DecidableEq T] {mp : MultiPool} {s : State T}

/-- The places of a node after a thread is replaced. -/
theorem places_set (s : State T) (k : Heap) (chain : List Addr) (a d : Addr) (t : T) (th : Thread) :
    places ({ s with heap := k }.set t th) chain a d + share a d (s.threads t) = places s chain a d + share a d th := by
  have := Tally.sum_update s.threads (share a d) t th
  simp only [places, State.set]
  omega

omit [DecidableEq T] in
/-- A node with a share in a thread is in no chain. -/
theorem Conserved.not_mem (h : Conserved s) {t : T} {a m p chain} (ha : s.heap.nodes a = some m)
    (hs : 0 < share a m.data (s.threads t)) (hc : Linked s.heap.nextOf NULL (s.heap.headOf p) chain) : a ∉ chain := by
  intro hmem
  obtain ⟨m', ha', hp⟩ := h.pure.heap.chain_head hc a hmem
  cases ha.symm.trans ha'
  obtain ⟨chain', hc', hone⟩ := h.exclusive p (hp ▸ NodeOf.isPool h.pure.heap ⟨m, ha, rfl⟩)
  cases hc.unique hc'
  have h₁ := hone a m ha hp
  have h₂ := Tally.le_sum s.threads (share a m.data) t
  have h₃ := List.count_pos_iff.2 hmem
  rw [places] at h₁
  omega

/-- A node with a share in a thread has none in another. -/
theorem Conserved.share_unique (h : Conserved s) {t u : T} {a m} (ha : s.heap.nodes a = some m)
    (ht : 0 < share a m.data (s.threads t)) (hu : 0 < share a m.data (s.threads u)) : t = u := by
  by_contra hne
  obtain ⟨chain, -, hone⟩ := h.exclusive m.pool (NodeOf.isPool h.pure.heap ⟨m, ha, rfl⟩)
  have h₁ := hone a m ha rfl
  have h₂ := Tally.add_le_sum s.threads (share a m.data) hne
  rw [places] at h₁
  omega

/-- A pool that a thread step leaves alone, with the shares of its nodes in
the thread. -/
theorem Conserved.exclusive_set {k : Heap} {t : T} {th : Thread} {p : Addr} (h : Conserved s) (hp : IsPool s.heap p)
    (hn : k.nodes = s.heap.nodes) (hh : k.headOf p = s.heap.headOf p)
    (hs : ∀ a m, s.heap.nodes a = some m → m.pool = p → share a m.data th = share a m.data (s.threads t)) :
    ∃ chain, Linked k.nextOf NULL (k.headOf p) chain ∧
      ∀ a m, k.nodes a = some m → m.pool = p → places ({ s with heap := k }.set t th) chain a m.data = 1 := by
  have hnext : k.nextOf = s.heap.nextOf := by funext a; simp only [Heap.nextOf, hn]
  obtain ⟨chain, hc, hone⟩ := h.exclusive p hp
  refine ⟨chain, by rw [hnext, hh]; exact hc, fun a m ha hmp => ?_⟩
  rw [hn] at ha
  have h₁ := hone a m ha hmp
  have h₂ := places_set s k chain a m.data t th
  have h₃ := hs a m ha hmp
  omega

/-- A thread step that leaves the nodes and the heads alone, and every node's
share in the thread. -/
theorem Conserved.quiet {k : Heap} {t : T} {th : Thread} (h : Conserved s)
    (hp : Pure ({ s with heap := k }.set t th)) (hg : Grows s.heap k) (hn : k.nodes = s.heap.nodes)
    (hh : ∀ p, k.headOf p = s.heap.headOf p)
    (hs : ∀ a m, s.heap.nodes a = some m → share a m.data th = share a m.data (s.threads t))
    (hst : ∀ a p b, th.pc = .returnCas a p b → (s.threads t).pc = .returnCas a p b) :
    Conserved ({ s with heap := k }.set t th) := by
  refine ⟨hp, fun p ⟨q', hq'⟩ => ?_, ?_⟩
  · obtain ⟨q, hq, -⟩ := hg.pool_of hq'
    exact h.exclusive_set ⟨q, hq⟩ hn (hh p) fun a m ha _ => hs a m ha
  · rw [set_heap, show k.nextOf = s.heap.nextOf by funext a; simp only [Heap.nextOf, hn]]
    exact forall_set (P := fun _ th => ∀ a p b, th.pc = .returnCas a p b → s.heap.nextOf a = b)
      (fun a p b hx => h.stored t a p b (hst a p b hx)) fun u _ => h.stored u

/-- A successful compare-and-swap on pool `p`: it moves node `a` between the
chain and the hands of the thread. -/
theorem Conserved.cas {t : T} {p a c : Addr} {q : MemPool} {pc : Pc} (h : Conserved s)
    (hp : Pure ({ s with heap := s.heap.setPool p { q with head := c } }.set t { s.threads t with pc }))
    (hq : s.heap.pools p = some q) (ha : NodeOf s.heap p a) (hpc : ∀ x p' b, pc ≠ .returnCas x p' b)
    (hhand : ∀ x, x ≠ a → (inHand pc).count x = (inHand (s.threads t).pc).count x)
    (hmove : ∀ chain, Linked s.heap.nextOf NULL (s.heap.headOf p) chain → ∃ chain', Linked s.heap.nextOf NULL c chain' ∧
      ∀ x, chain'.count x + (inHand pc).count x = chain.count x + (inHand (s.threads t).pc).count x) :
    Conserved ({ s with heap := s.heap.setPool p { q with head := c } }.set t { s.threads t with pc }) := by
  refine ⟨hp, fun p' ⟨r, hr⟩ => ?_, ?_⟩
  · rw [set_heap, setPool_pools] at hr
    by_cases hpp : p' = p
    · subst hpp
      obtain ⟨chain, hc, hone⟩ := h.exclusive p' ⟨q, hq⟩
      obtain ⟨chain', hc', hcount⟩ := hmove chain hc
      refine ⟨chain', by rw [set_heap, setPool_headOf, if_pos rfl]; exact hc', fun x n hn hnp => ?_⟩
      have h₁ := hone x n hn hnp
      have h₂ := places_set s (s.heap.setPool p' { q with head := c }) chain' x n.data t { s.threads t with pc }
      have h₃ := hcount x
      simp only [places, share] at h₁ h₂ ⊢
      omega
    · rw [if_neg hpp] at hr
      refine h.exclusive_set ⟨r, hr⟩ rfl (by rw [set_heap, setPool_headOf, if_neg hpp]) fun x n hn hnp => ?_
      obtain ⟨m, hm, hmp⟩ := ha
      have hxa : x ≠ a := by
        rintro rfl
        cases hm.symm.trans hn
        exact hpp (hnp.symm.trans hmp)
      rw [share, share, hhand x hxa]
  · exact forall_set (P := fun _ th => ∀ a p b, th.pc = .returnCas a p b → s.heap.nextOf a = b)
      (fun x p' b hx => absurd hx (hpc x p' b)) fun u _ => h.stored u

/-- An acquire takes the head off. -/
theorem Conserved.take {t : T} {p a b : Addr} {q : MemPool} (h : Conserved s)
    (hp : Pure ({ s with heap := s.heap.setPool p { q with head := b } }.set t
      { s.threads t with pc := .acquireTrack p a }))
    (hpc : (s.threads t).pc = .acquireCas p a b) (hq : s.heap.pools p = some q) (hhead : q.head = a)
    (hnext : s.heap.nextOf a = b) : Conserved ({ s with heap := s.heap.setPool p { q with head := b } }.set t
      { s.threads t with pc := .acquireTrack p a }) := by
  have hnode : NodeOf s.heap p a := by have := h.pure.pc t; rw [hpc] at this; exact this.1
  refine h.cas hp hq hnode (by simp) (fun x hx => ?_) fun chain hc => ?_
  · simp [inHand, hpc, Ne.symm hx]
  · rw [headOf_eq hq, hhead] at hc
    obtain ⟨rest, rfl, hrest⟩ := hc.of_ne (hnode.ne_null h.pure.heap)
    exact ⟨rest, hnext ▸ hrest, fun x => by simp only [hpc, inHand, List.count_cons, List.count_nil]; omega⟩

/-- A return pushes its node. -/
theorem Conserved.put {t : T} {p a b : Addr} {q : MemPool} (h : Conserved s)
    (hp : Pure ({ s with heap := s.heap.setPool p { q with head := a } }.set t
      { s.threads t with pc := .returnTrack p }))
    (hpc : (s.threads t).pc = .returnCas a p b) (hq : s.heap.pools p = some q) (hhead : q.head = b) :
    Conserved ({ s with heap := s.heap.setPool p { q with head := a } }.set t
      { s.threads t with pc := .returnTrack p }) := by
  have hnode : NodeOf s.heap p a := by have := h.pure.pc t; rw [hpc] at this; exact this.1
  refine h.cas hp hq hnode (by simp) (fun x hx => ?_) fun chain hc => ?_
  · simp [inHand, hpc, Ne.symm hx]
  · rw [headOf_eq hq, hhead, ← h.stored t a p b hpc] at hc
    exact ⟨a :: chain, .cons (hnode.ne_null h.pure.heap) hc,
      fun x => by simp only [hpc, inHand, List.count_cons, List.count_nil]; omega⟩

/-- A new node is in the hands of the call that allocated it. -/
theorem Conserved.alloc {t : T} {p : Addr} {q : MemPool} {n d : Addr} (h : Conserved s)
    (hp : Pure ({ s with heap := s.heap.allocPoolableMem p q n d }.set t
      { s.threads t with pc := .acquireTrackAlloc p n }))
    (hpc : (s.threads t).pc = .acquireAlloc p) (hn : s.heap.nodes n = none)
    (hd : s.heap.blocks d = none) : Conserved ({ s with heap := s.heap.allocPoolableMem p q n d }.set t
      { s.threads t with pc := .acquireTrackAlloc p n }) := by
  have hnext : (s.heap.allocPoolableMem p q n d).nextOf = s.heap.nextOf := by
    funext a; exact alloc_nextOf q hn
  have hnew : ∀ p', ¬NodeOf s.heap p' n := fun p' ⟨m, hm, _⟩ => by rw [hn] at hm; cases hm
  have hnone : ∀ u, share n (d + headerSize) (s.threads u) = 0 := by
    intro u
    have hheld : d + headerSize ∉ (s.threads u).held := by
      intro hmem
      obtain ⟨a, m, ha, hdata⟩ := h.pure.held u _ hmem
      obtain ⟨-, r, -, hb⟩ := h.pure.heap.node a m ha
      have := hb.block
      rw [hdata, Nat.add_sub_cancel, hd] at this
      cases this
    have hhand : n ∉ inHand (s.threads u).pc := by
      intro hmem
      obtain ⟨p', hnode⟩ := (h.pure.pc u).inHand hmem
      exact hnew p' hnode
    rw [share, List.count_eq_zero.2 hheld, List.count_eq_zero.2 hhand]
  refine ⟨hp, fun p' hpool => ?_, ?_⟩
  · obtain ⟨chain, hc, hone⟩ := h.exclusive p' hpool
    refine ⟨chain, by rw [set_heap, hnext]; exact hc, fun c m hm hmp => ?_⟩
    have h₂ := places_set s (s.heap.allocPoolableMem p q n d) chain c m.data t
      { s.threads t with pc := .acquireTrackAlloc p n }
    simp only [share, hpc, inHand, List.count_singleton, beq_iff_eq, List.count_nil] at h₂ ⊢
    rw [set_heap, alloc_nodes] at hm
    split at hm
    · cases hm
      subst_vars
      have hcount : chain.count c = 0 := List.count_eq_zero.2 fun hmem => hnew p (h.pure.heap.chain_head hc c hmem)
      rw [show places s chain c (d + headerSize) = 0 by simp [places, hcount, hnone], if_pos rfl] at h₂
      omega
    · rename_i hcn
      have h₁ := hone c m hm hmp
      rw [if_neg (Ne.symm hcn)] at h₂
      omega
  · rw [set_heap, hnext]
    exact forall_set (P := fun _ th => ∀ a p b, th.pc = .returnCas a p b → s.heap.nextOf a = b)
      (fun _ _ _ hx => by cases hx) fun u _ => h.stored u

/-- A return links its node, which is in no chain, to the head it read. -/
theorem Conserved.store {t : T} {p a b : Addr} {m : MemNode} (h : Conserved s)
    (hp : Pure ({ s with heap := s.heap.setNode a { m with next := b } }.set t
      { s.threads t with pc := .returnCas a p b }))
    (hpc : (s.threads t).pc = .returnStoreNext a p b) (ha : s.heap.nodes a = some m) :
    Conserved ({ s with heap := s.heap.setNode a { m with next := b } }.set t
      { s.threads t with pc := .returnCas a p b }) := by
  have hmine : 0 < share a m.data (s.threads t) := by simp [share, inHand, hpc]
  refine ⟨hp, fun p' hpool => ?_, ?_⟩
  · obtain ⟨chain, hc, hone⟩ := h.exclusive p' hpool
    have hno := h.not_mem ha hmine hc
    refine ⟨chain, hc.congr fun x hx => ?_, fun c n hn hnp => ?_⟩
    · rw [set_heap, setNode_nextOf, if_neg]
      rintro rfl
      exact hno hx
    · have hold : ∃ n', s.heap.nodes c = some n' ∧ n'.data = n.data ∧ n'.pool = n.pool := by
        rw [set_heap, setNode_nodes] at hn
        split at hn
        · cases hn; subst_vars; exact ⟨m, ha, rfl, rfl⟩
        · exact ⟨n, hn, rfl, rfl⟩
      obtain ⟨n', hn', hdata, hpool'⟩ := hold
      have h₁ := hone c n' hn' (hpool'.trans hnp)
      have h₂ := places_set s (s.heap.setNode a { m with next := b }) chain c n.data t
        { s.threads t with pc := .returnCas a p b }
      rw [hdata] at h₁
      simp only [share, hpc, inHand] at h₂ ⊢
      omega
  · refine forall_set (P := fun _ th => ∀ c p e, th.pc = .returnCas c p e →
      (s.heap.setNode a { m with next := b }).nextOf c = e) (fun c p' e hx => ?_) fun u hut c p' e hx => ?_
    · cases hx
      rw [setNode_nextOf, if_pos rfl]
    · rw [setNode_nextOf, if_neg]
      · exact h.stored u c p' e hx
      · rintro rfl
        refine hut (h.share_unique (t := u) ha ?_ hmine)
        rw [share, show (s.threads u).pc = .returnCas c p' e from hx]
        simp [inHand]

/-- Every step of clients that keep their contract, if it is no ABA. -/
theorem Conserved.step {s' : State T} {a : Act T} (h : Conserved s) (hown : Owned mp s a) (hno : NoAba s a)
    (hs : Step mp s a s') : Conserved s' := by
  have hp := h.pure.step (hown.obtained h.pure) hs
  cases hs with
  | @acquire t p hpc =>
    refine h.quiet (k := s.heap) hp (.refl _) rfl (fun _ => rfl) (fun a m _ => ?_) fun a q b hx => ?_
    · simp only [share, acquireEntry, hpc]
      split <;> rfl
    · unfold acquireEntry at hx
      split at hx <;> cases hx
  | @multiAcquire t size hpc =>
    obtain ⟨p, hpick, -⟩ := hown
    refine h.quiet (k := s.heap) hp (.refl _) rfl (fun _ => rfl) (fun a m _ => ?_) fun a q b hx => ?_
    · simp only [share, hpick, Option.elim_some, acquireEntry, hpc]
      split <;> rfl
    · simp only [hpick, Option.elim_some, acquireEntry] at hx
      split at hx <;> cases hx
  | @ret t d hpc =>
    obtain ⟨a, m, ha, rfl⟩ := h.pure.held t d hown
    have hentry := h.pure.heap.returnEntry ha
    refine h.quiet (k := s.heap) hp (.refl _) rfl (fun _ => rfl) (fun c n hc => ?_) fun c q b hx => ?_
    · have herase := Tally.count_erase_of_mem n.data (show m.data ∈ (s.threads t).held from hown)
      simp only [h.pure.heap.data_eq ha hc] at herase
      simp only [share, hentry, hpc, inHand, List.count_singleton, beq_iff_eq, List.count_nil]
      omega
    · rw [hentry] at hx; cases hx
  | @run t sp ms h' pc' dd hms hm =>
    have hg := hm.grows hms
    have hgood := h.pure.pc t
    have hquiet : h'.nodes = s.heap.nodes → (∀ p, h'.headOf p = s.heap.headOf p) →
        (∀ a m, s.heap.nodes a = some m → (gain dd).count m.data + (inHand pc').count a =
          (inHand (s.threads t).pc).count a) →
        (∀ a p b, pc' = .returnCas a p b → (s.threads t).pc = .returnCas a p b) → Conserved ({ s with heap := h' }.set t
          { s.threads t with pc := pc', held := gain dd ++ (s.threads t).held }) := by
      intro hn hh hsh hst
      refine h.quiet hp hg hn hh (fun a m ha => ?_) hst
      have := hsh a m ha
      simp only [share, List.count_append]
      omega
    have hdone : ∀ {p a m}, (s.threads t).pc = .acquireTrack p a ∨ (s.threads t).pc = .acquireTrackAlloc p a →
        s.heap.nodes a = some m → ∀ c n, s.heap.nodes c = some n → (gain (some m.data)).count n.data +
          (inHand Pc.idle).count c = (inHand (s.threads t).pc).count c := by
      intro p a m hpc ha c n hc
      have hhand : inHand (s.threads t).pc = [a] := by rcases hpc with hpc | hpc <;> rw [hpc] <;> rfl
      rw [gain_some (h.pure.heap.data_ne ha), hhand]
      simp only [List.count_singleton, beq_iff_eq, h.pure.heap.data_eq ha hc, inHand, List.count_nil, Nat.add_zero]
    simp only [NoAba] at hno
    generalize hpc : (s.threads t).pc = pc at hm hno hgood
    cases hm with
    | crash hf =>
      obtain ⟨p, q, rfl, -, -⟩ := hgood.faulty h.pure.heap hf
      exact hquiet rfl (fun _ => rfl) (fun _ _ _ => by simp [inHand, hpc]) (by simp)
    | acquireTake hq hhead hsp =>
      exact h.take hp hpc hq hhead (hno ⟨(headOf_eq hq).trans hhead, hsp⟩)
    | returnPut hq hhead => exact h.put hp hpc hq hhead
    | alloc _ _ h₁ h₂ => exact h.alloc hp hpc (hms.1 h₁).1.1 (hms.2 h₂).2.2
    | returnStore ha => exact h.store hp hpc ha
    | acquireDone hq ha => exact hquiet rfl (fun _ => setPool_headOf_eq hq rfl) (hdone (.inl hpc) ha) (by simp)
    | allocDone hq ha => exact hquiet rfl (fun _ => setPool_headOf_eq hq rfl) (hdone (.inr hpc) ha) (by simp)
    | returnDone hq => exact hquiet rfl (fun _ => setPool_headOf_eq hq rfl) (fun _ _ _ => by simp [inHand, hpc]) (by simp)
    | _ => exact hquiet rfl (fun _ => rfl) (fun _ _ _ => by simp [inHand, hpc]) (by simp)

/-- A step after which ownership is still exclusive was no ABA: a stale head
would have to start a chain of the same nodes. -/
theorem Conserved.noAba {s' : State T} {a : Act T} (h : Conserved s) (hown : Owned mp s a) (hs : Step mp s a s')
    (hex : Exclusive s') : NoAba s a := by
  have hp := h.pure.step (hown.obtained h.pure) hs
  cases hs with
  | acquire | multiAcquire | ret => trivial
  | @run t sp ms h' pc' d hms hm =>
    simp only [NoAba]
    split
    swap
    · trivial
    rename_i p a b hpc
    rintro ⟨hhead, rfl⟩
    rw [hpc] at hm
    obtain ⟨m, ha, hmp⟩ : NodeOf s.heap p a := by have := h.pure.pc t; rw [hpc] at this; exact this.1
    obtain ⟨q, hq⟩ := NodeOf.isPool h.pure.heap ⟨m, ha, hmp⟩
    have hqa : q.head = a := (headOf_eq hq).symm.trans hhead
    cases hm with
    | crash hf =>
      have hgood := h.pure.pc t
      rw [hpc] at hgood
      obtain ⟨_, _, hbad, -⟩ := hgood.faulty h.pure.heap hf
      cases hbad
    | acquireFail hq' hfail =>
      cases hq.symm.trans hq'
      exact absurd ⟨hqa, rfl⟩ hfail
    | acquireTake hq' _ _ =>
      cases hq.symm.trans hq'
      obtain ⟨chain, hc, hone⟩ := h.exclusive p ⟨q, hq⟩
      rw [hhead] at hc
      obtain ⟨rest, rfl, hrest⟩ := hc.of_ne (h.pure.heap.node a m ha).1
      obtain ⟨chain', hc', hone'⟩ := hex p ⟨_, by rw [set_heap, setPool_pools, if_pos rfl]⟩
      have hnodes' := hp.heap.chain_head hc'
      rw [set_heap, setPool_headOf, if_pos rfl] at hc'
      refine hrest.eq_of_perm hc' (List.perm_iff_count.2 fun x => ?_)
      by_cases hx : NodeOf s.heap p x
      · obtain ⟨n, hn, hnp⟩ := hx
        have h₁ := hone x n hn hnp
        have h₁' := hone' x n hn hnp
        have h₂ := places_set s (s.heap.setPool p { q with head := b }) chain' x n.data t
          { s.threads t with pc := .acquireTrack p a, held := gain none ++ (s.threads t).held }
        simp only [places, share, inHand, hpc, gain_none, List.nil_append, List.count_cons, List.count_nil] at h₁ h₁' h₂
        omega
      · rw [List.count_eq_zero.2 fun hmem => hx (h.pure.heap.chain_head (hhead ▸ hc) x (List.mem_cons_of_mem _ hmem)),
          List.count_eq_zero.2 fun hmem => hx (hnodes' x hmem)]

theorem Conserved.init {h₀} (hb : Blank h₀) (h : (machine h₀ mp T).init s) : Conserved s := by
  have hp := Pure.init hb h
  obtain ⟨rfl, ht⟩ := h
  refine ⟨hp, fun p ⟨q, hq⟩ => ⟨[], ?_, fun a m ha => ?_⟩, by simp [ht]⟩
  · rw [headOf_eq hq, hb.head p q hq]
    exact .nil
  · rw [hb.nodes] at ha; cases ha

theorem conserved_of_run {h₀} (hb : Blank h₀) {tr : Trace (State T) (Act T)} (hr : (machine h₀ mp T).Run tr s)
    (hown : Along (Owned mp) tr) (hno : Along NoAba tr) : Conserved s :=
  hr.invariant (Q := fun s a => Owned mp s a ∧ NoAba s a) (fun _ h => .init hb h)
    (fun _ _ _ hi ha h => hi.step ha.1 ha.2 (step_cases h)) (along_and.2 ⟨hown, hno⟩)

/-- **Exclusive ownership and conservation** hold in all states of a run, whose
clients return only what they hold, if and only if no acquire takes a head off
whose `next` is not the one it read. -/
theorem exclusive_iff_noAba {h₀} (hb : Blank h₀) {tr : Trace (State T) (Act T)} (hr : (machine h₀ mp T).Run tr s)
    (hown : Along (Owned mp) tr) : Always Exclusive tr s ↔ Along NoAba tr := by
  constructor
  · intro hex
    induction hr with
    | init => exact along_nil
    | step hr hs ih =>
      rw [along_cons] at hown ⊢
      rw [always_step] at hex
      have hno := ih hown.2 hex.1
      exact ⟨(conserved_of_run hb hr hown.2 hno).noAba hown.1 (step_cases hs) hex.2, hno⟩
  · intro hno
    exact hr.always (Q := fun s a => Owned mp s a ∧ NoAba s a)
      (fun tr s hr hok => (conserved_of_run hb hr (along_and.1 hok).1 (along_and.1 hok).2).exclusive)
      (along_and.2 ⟨hown, hno⟩)

end

/-- One pool of blocks of 8 bytes, at address 1. -/
def onePool : Heap := ({} : Heap).setPool 1 { memSize := 8 }

def noMultiPool : MultiPool := ⟨fun _ => NULL⟩

/-- A thread acquires a new block, for which `malloc` gives these addresses. -/
def acquireNew {T : Type} (t : T) (mallocs : Addr × Addr) : List (Act T) :=
  [.acquire t 1] ++ runs t 1 ++ [.run t false mallocs] ++ runs t 1

theorem onePool_blank : Blank onePool := by
  refine ⟨rfl, fun _ => rfl, fun _ => rfl, fun p q hq => ?_⟩
  simp only [onePool, setPool_pools, Option.ite_none_right_eq_some, Option.some.injEq] at hq
  rw [← hq.2]

/-- Nodes 10 and 11 are chained. Thread `t` reads the head, 10, and its `next`,
11; thread `u` acquires both and returns 10; thread `t` then takes 10 off and
makes 11, which thread `u` holds, the head; and acquires it. -/
def abaActs {T : Type} (t u : T) : List (Act T) :=
  acquireNew u (10, 20) ++ acquireNew u (11, 40) ++ [.ret u 48] ++ runs u 4 ++ [.ret u 28] ++ runs u 4 ++
  [.acquire t 1] ++ runs t 2 ++
  [.acquire u 1] ++ runs u 4 ++ [.acquire u 1] ++ runs u 4 ++ [.ret u 28] ++ runs u 4 ++
  runs t 2 ++ [.acquire t 1] ++ runs t 4

/-- **Two holders of one block**: the clients keep their contract, and both
threads hold the block at 48. -/
theorem aba : ∃ tr s, (machine onePool noMultiPool (Fin 2)).Run tr s ∧ Along (Owned noMultiPool) tr ∧
    (s.threads 0).held = [48, 28] ∧ (s.threads 1).held = [48] ∧ ¬Exclusive s := by
  have h := exists_run (m := machine onePool noMultiPool (Fin 2)) (s := ⟨onePool, fun _ => {}⟩) (l := abaActs 0 1)
    (p := fun tr s => decide (Along (Owned noMultiPool) tr ∧ (s.threads 0).held = [48, 28] ∧
      (s.threads 1).held = [48] ∧ IsPool s.heap 1) && decide (s.heap.nodes 11 = some ⟨NULL, 48, 1⟩ ∧
      ∑ t, share 11 48 (s.threads t) = 2)) ⟨rfl, fun _ => rfl⟩ (by decide +kernel)
  obtain ⟨tr, s, hr, hp⟩ := h
  simp only [Bool.and_eq_true, decide_eq_true_eq] at hp
  obtain ⟨⟨hown, h0, h1, hpool⟩, hnode, hshare⟩ := hp
  refine ⟨tr, s, hr, hown, h0, h1, fun hex => ?_⟩
  obtain ⟨chain, -, hone⟩ := hex 1 hpool
  have := hone 11 _ hnode rfl
  rw [places, hshare] at this
  omega

/-- Two threads, one of which returns the block that the other then takes. -/
theorem exclusive_two : ∃ tr s, (machine onePool noMultiPool (Fin 2)).Run tr s ∧ (s.threads 1).held = [28] ∧
    Always Exclusive tr s := by
  have h := exists_run (m := machine onePool noMultiPool (Fin 2)) (s := ⟨onePool, fun _ => {}⟩)
    (l := acquireNew 0 (10, 20) ++ [.ret 0 28] ++ runs 0 3 ++ [.acquire 1 1] ++ runs 1 4 ++ runs 0 1)
    (p := fun tr s => decide (Along (Owned noMultiPool) tr ∧ Along NoAba tr ∧ (s.threads 1).held = [28]))
    ⟨rfl, fun _ => rfl⟩ (by decide +kernel)
  obtain ⟨tr, s, hr, hp⟩ := h
  simp only [decide_eq_true_eq] at hp
  obtain ⟨hown, hno, hheld⟩ := hp
  exact ⟨tr, s, hr, hheld, (exclusive_iff_noAba onePool_blank hr hown).2 hno⟩

end Dxpool.Simple
