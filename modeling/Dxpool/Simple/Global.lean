/-
The global multipool. Nothing in the source says when it may be created, used
and freed: `_global_multipool` is NULL at first, and still points where the record was
after `global_multipool_free`; and a block that is held when its multipool is freed
stays allocated, with a node that still points where its pool was. A program may call
anything at any time. Which call faults, and how, is what the pointer is at, and where
the node of the block that it returns points (`run_global`).
-/
import Dxpool.Simple.Multipool
import Dxpool.Simple.Session

namespace Dxpool.Simple

open Machine

/-- The memory, with the variable `_global_multipool`. -/
structure GlobalMem extends MultiMem where
  globalMultipool : Addr := NULL

namespace GlobalMem

def globalMultipoolCreate (malloc : Malloc) (m : GlobalMem) : GlobalMem :=
  let (multipool, mem) := MultiMem.multipoolCreate malloc m.toMultiMem
  { toMultiMem := mem, globalMultipool := multipool }

def globalMultipoolMemAcquire (malloc : Malloc) (m : GlobalMem) (size : UInt32) (failures : List Bool) :
    Except Fault (Addr × GlobalMem) := do
  assert (m.globalMultipool ≠ NULL)
  let (data, mem) ← MultiMem.multipoolMemAcquire malloc m.toMultiMem m.globalMultipool size failures
  return (data, { m with toMultiMem := mem })

def globalMultipoolFree (m : GlobalMem) : Except Fault GlobalMem := do
  let mem ← MultiMem.multipoolFree m.toMultiMem m.globalMultipool
  return { m with toMultiMem := mem }

end GlobalMem

/-! ## A client -/

/-- A program that uses the global multipool, and the blocks it holds: those of the
multipool that the pointer is at, of others that a creation took the pointer from,
and of freed ones. -/
structure GlobalSession where
  mem : GlobalMem := {}
  held : List Addr := []

inductive GlobalCall
  | create
  | acquire (size : UInt32) (failures : List Bool)
  | ret (data : Addr) (failures : List Bool)
  | free
  deriving DecidableEq, Repr

namespace GlobalSession

/-- The client's contract: a block returned is one that it holds. -/
def Allows (s : GlobalSession) : GlobalCall → Prop
  | .ret data _ => data ∈ s.held
  | .create | .acquire _ _ | .free => True

instance (s : GlobalSession) (c : GlobalCall) : Decidable (s.Allows c) :=
  match c with
  | .ret _ _ => inferInstanceAs (Decidable (_ ∈ _))
  | .create | .acquire _ _ | .free => isTrue trivial

def exec (malloc : Malloc) (s : GlobalSession) : GlobalCall → Except Fault GlobalSession
  | .create => .ok { s with mem := s.mem.globalMultipoolCreate malloc }
  | .acquire size failures => do
    let (data, mem) ← s.mem.globalMultipoolMemAcquire malloc size failures
    return { s with mem, held := if data = NULL then s.held else data :: s.held }
  | .ret data failures => do
    let mem ← poolMemReturn s.mem.toMem data failures
    return { mem := { s.mem with toMem := mem }, held := s.held.erase data }
  | .free => do
    let mem ← s.mem.globalMultipoolFree
    return { s with mem }

end GlobalSession

/-- The program: its calls one after another, until one faults. -/
def globalProgram (malloc : Malloc) : Machine (Except Fault GlobalSession) GlobalCall where
  init r := r = .ok {}
  step r c :=
    match r with
    | .error _ => none
    | .ok s => if s.Allows c then some (s.exec malloc c) else none

/-- What `_global_multipool` is at. -/
inductive Pointer
  | unset
  /- The record was freed. -/
  | dangling
  | live (mp : MultiPool)

def GlobalMem.pointer (m : GlobalMem) : Pointer :=
  if m.globalMultipool = NULL then .unset
  else
    match m.multipools m.globalMultipool with
    | none => .dangling
    | some mp => .live mp

/-- The fault that a call ends in. A multipool may lack pools that `malloc` failed for,
and where the pool of a block was there may be none, or another one since. -/
def GlobalSession.fault (s : GlobalSession) : GlobalCall → Option Fault
  | .create => none
  | .acquire size _ =>
    match s.mem.pointer with
    | .unset => some .assertion
    | .dangling => some .badPointer
    | .live mp => if (mp.pick size).getD NULL = NULL then some .assertion else none
  | .ret data _ => if ((s.mem.heap.poolOf data).bind s.mem.heap.pools).isNone then some .badPointer else none
  | .free =>
    match s.mem.pointer with
    | .unset => some .assertion
    | .dangling => some .badPointer
    | .live mp => if ∃ i, mp.pools i = NULL then some .assertion else none

/-- No creation while the pointer is at a multipool. -/
def Renews (r : Except Fault GlobalSession) : GlobalCall → Prop
  | .create => ∀ s, r = .ok s → ∀ mp, s.mem.pointer ≠ .live mp
  | .acquire _ _ | .ret _ _ | .free => True

instance (r : Except Fault GlobalSession) (c : GlobalCall) : Decidable (Renews r c) :=
  match c with
  | .create =>
    match r with
    | .error _ => isTrue fun _ hs => nomatch hs
    | .ok s =>
      match h : s.mem.pointer with
      | .live mp => isFalse fun hno => hno s rfl mp h
      | .unset | .dangling => isTrue fun _ hs mp hlive => by cases hs; cases h.symm.trans hlive
  | .acquire _ _ | .ret _ _ | .free => isTrue trivial

/-! ## Strays -/

/-- A node whose pool is gone. -/
def Stray (h : Heap) (a : Addr) : Prop := ∃ p, Whole h p a ∧ h.pools p = none

section
variable {h h' : Heap} {m : Mem} {shelf : Shelf} {shelves others old : List Shelf} {rest strays l : List Addr} {a p data : Addr}

theorem Whole.agree (hw : Whole h p a) (hagree : h.Agree h' l) (hl : h.parts a ⊆ l) :
    Whole h' p a ∧ h'.dataOf a = h.dataOf a := by
  have hnode := (hagree a (hl (by simp [Heap.parts]))).1
  exact ⟨hw.congr hnode (hagree _ (hl (by simp [Heap.parts]))).2.2, dataOf_congr hnode⟩

theorem Whole.poolOf (hw : Whole h p a) : h.poolOf (h.dataOf a) = some p := by
  obtain ⟨n, hn, hpool, -⟩ := hw.node
  rw [Heap.poolOf, hw.getMemnodeInData, Option.bind_some, hn, Option.map_some, hpool]

/-- Strays stay so where nothing becomes of them. -/
theorem strays_spares (hs : ∀ a ∈ strays, Stray h a) (hspares : h.Spares h' l) (hl : strays.flatMap h.parts ⊆ l) :
    (∀ a ∈ strays, Stray h' a) ∧ strays.map h'.dataOf = strays.map h.dataOf ∧
      strays.flatMap h'.parts = strays.flatMap h.parts := by
  have hparts : ∀ a ∈ strays, h.parts a ⊆ l := fun a ha b hb => hl (List.mem_flatMap.2 ⟨a, ha, hb⟩)
  have hsame : ∀ a ∈ strays, h'.dataOf a = h.dataOf a := by
    intro a ha
    obtain ⟨p, hw, -⟩ := hs a ha
    exact (hw.agree hspares.agree (hparts a ha)).2
  refine ⟨fun a ha => ?_, List.map_congr_left hsame, List.flatMap_congr fun a ha => parts_congr (hsame a ha)⟩
  obtain ⟨p, hw, hp⟩ := hs a ha
  exact ⟨p, (hw.agree hspares.agree (hparts a ha)).1, hspares.pools p hp⟩

/-- A node that points to a pool counts as one that is out on its shelf, whichever pool
was there when it was allocated. -/
theorem Shelved.adopt (hm : Shelved m (shelf :: others) (m.heap.parts a ++ rest)) (hw : Whole m.heap shelf.pool a) :
    Shelved m ({ pool := shelf.pool, chain := shelf.chain, out := a :: shelf.out } :: others) rest := by
  obtain ⟨⟨hlinked, hwhole, hpool⟩, hothers⟩ := List.forall_mem_cons.1 hm.stands
  refine ⟨List.forall_mem_cons.2 ⟨⟨hlinked, fun x hx => ?_, hpool⟩, hothers⟩, hm.ledger.trans ?_, hm.nodup, hm.null, hm.outside⟩
  · rcases List.mem_cons.1 (List.perm_middle.mem_iff.1 hx) with rfl | hx
    · exact hw
    · exact hwhole x hx
  · have hregion : (Shelf.region m.heap { pool := shelf.pool, chain := shelf.chain, out := a :: shelf.out }).Perm
        (shelf.region m.heap ++ m.heap.parts a) := by
      refine ((List.perm_middle.flatMap_right m.heap.parts).trans ?_).cons shelf.pool
      rw [List.flatMap_cons]
      exact List.perm_append_comm
    rw [List.flatMap_cons, List.flatMap_cons, List.append_assoc, List.append_assoc]
    refine List.Perm.trans ?_ (hregion.symm.append_right _)
    rw [List.append_assoc]
    exact List.Perm.append_left _ (List.perm_append_comm_assoc ..)

/-- Each node is out on the shelf of the pool that it points to, or a stray. -/
theorem Shelved.settle (hm : Shelved m (shelves ++ old) (strays.flatMap m.heap.parts ++ rest))
    (hs : ∀ a ∈ strays, ∃ p, Whole m.heap p a ∧ (p ∈ shelves.map Shelf.pool ∨ m.heap.pools p = none)) :
    ∃ shelves' : List Shelf, ∃ strays' : List Addr, Shelved m (shelves' ++ old) (strays'.flatMap m.heap.parts ++ rest) ∧
      (shelves'.map Shelf.pool).Perm (shelves.map Shelf.pool) ∧ (∀ a ∈ strays', Stray m.heap a) ∧
      (shelves'.flatMap (·.blocks m.heap) ++ strays'.map m.heap.dataOf).Perm
        (shelves.flatMap (·.blocks m.heap) ++ strays.map m.heap.dataOf) := by
  induction strays generalizing shelves rest with
  | nil => exact ⟨shelves, [], hm, .refl _, by simp, .refl _⟩
  | cons a strays ih =>
    obtain ⟨⟨p, hw, hp⟩, hs⟩ := List.forall_mem_cons.1 hs
    rw [List.flatMap_cons, List.append_assoc] at hm
    rcases hp with hp | hp
    · obtain ⟨shelf, others, rfl, hothers⟩ := exists_shelf hp
      have hpools : (({ pool := shelf.pool, chain := shelf.chain, out := a :: shelf.out } :: others).map Shelf.pool).Perm
          (shelves.map Shelf.pool) := (hothers.map Shelf.pool).symm
      obtain ⟨shelves', strays', hm', hpools', hs', hblocks⟩ := ih ((hm.perm (hothers.append_right old)).adopt hw) fun b hb => by
        obtain ⟨p', hw', hp'⟩ := hs b hb
        exact ⟨p', hw', hp'.imp_left hpools.mem_iff.2⟩
      refine ⟨shelves', strays', hm', hpools'.trans hpools, hs', hblocks.trans ?_⟩
      have hall := (hothers.flatMap_right (·.blocks m.heap)).symm.append_right ((a :: strays).map m.heap.dataOf)
      refine List.Perm.trans ?_ hall
      simp only [List.flatMap_cons, Shelf.blocks, List.map_cons, List.cons_append]
      exact List.perm_middle.symm
    · have hm₁ : Shelved m (shelves ++ old) (strays.flatMap m.heap.parts ++ (m.heap.parts a ++ rest)) :=
        hm.rest_perm (List.perm_append_comm_assoc ..)
      obtain ⟨shelves', strays', hm', hpools, hs', hblocks⟩ := ih hm₁ hs
      refine ⟨shelves', a :: strays', hm'.rest_perm ?_, hpools, List.forall_mem_cons.2 ⟨⟨p, hw, hp⟩, hs'⟩, ?_⟩
      · rw [List.flatMap_cons, List.append_assoc]
        exact List.perm_append_comm_assoc ..
      · exact List.perm_middle.trans ((hblocks.cons _).trans List.perm_middle.symm)

end

/-! ## What a program has -/

/-- What the pointer is at, with the shelves of its multipool. What is live beside
shelves and strays is the record of that, and those that are `lost`. -/
inductive Points (m : GlobalMem) (lost : List Addr) : List Shelf → List Addr → Prop
  | unset : m.globalMultipool = NULL → Points m lost [] lost
  | dangling : m.globalMultipool ≠ NULL → m.multipools m.globalMultipool = none → Points m lost [] lost
  | live {mp shelves} : m.globalMultipool ≠ NULL → m.multipools m.globalMultipool = some mp →
      (shelves.map Shelf.pool).Perm (mp.made (List.finRange multipoolEntryCount)) →
      Points m lost shelves (m.globalMultipool :: lost)

/-- The program has the shelves of its multipool, `old` ones that the pointer was
taken from, and the strays that were left when others were freed. -/
structure Owns (tr : Trace (Except Fault GlobalSession) GlobalCall) (s : GlobalSession) (shelves old : List Shelf)
    (strays rest lost : List Addr) : Prop where
  points : Points s.mem lost shelves rest
  shelved : Shelved s.mem.toMem (shelves ++ old) (strays.flatMap s.mem.heap.parts ++ rest)
  stray : ∀ a ∈ strays, Stray s.mem.heap a
  held : s.held.Perm ((shelves ++ old).flatMap (·.blocks s.mem.heap) ++ strays.map s.mem.heap.dataOf)
  renewed : Along Renews tr → old = [] ∧ lost = []
  unfreed : (∀ r, (r, .free) ∉ tr) → strays = []

section
variable {malloc : Malloc} {tr : Trace (Except Fault GlobalSession) GlobalCall} {s : GlobalSession}
  {shelves old : List Shelf} {strays rest lost : List Addr} {m : GlobalMem} {mp : MultiPool} {data : Addr}

theorem pointer_unset (h : m.globalMultipool = NULL) : m.pointer = .unset := by rw [GlobalMem.pointer, if_pos h]

theorem pointer_dangling (hne : m.globalMultipool ≠ NULL) (h : m.multipools m.globalMultipool = none) :
    m.pointer = .dangling := by
  rw [GlobalMem.pointer, if_neg hne, h]

theorem pointer_live (hne : m.globalMultipool ≠ NULL) (h : m.multipools m.globalMultipool = some mp) :
    m.pointer = .live mp := by
  rw [GlobalMem.pointer, if_neg hne, h]

theorem Points.nothing (h : Points m lost shelves rest) (hno : ∀ mp, m.pointer ≠ .live mp) : shelves = [] ∧ rest = lost := by
  cases h with
  | unset | dangling => exact ⟨rfl, rfl⟩
  | live hne hrecord => exact absurd (pointer_live hne hrecord) (hno _)

theorem Points.congr {m' : GlobalMem} {shelves' : List Shelf} (h : Points m lost shelves rest)
    (hp : shelves'.map Shelf.pool = shelves.map Shelf.pool) (hg : m'.globalMultipool = m.globalMultipool)
    (hm : m'.multipools = m.multipools) : Points m' lost shelves' rest := by
  cases h with
  | unset hnull =>
    obtain rfl := List.map_eq_nil_iff.1 hp
    exact .unset (hg.trans hnull)
  | dangling hne hnone =>
    obtain rfl := List.map_eq_nil_iff.1 hp
    exact .dangling (hg ▸ hne) (by rw [hm, hg]; exact hnone)
  | live hne hrecord hperm =>
    rw [← hg]
    exact .live (hg ▸ hne) (by rw [hm, hg]; exact hrecord) (hp ▸ hperm)

/-! ## Calls -/

/-- A run without a free, before its last call. -/
theorem unfreed_cons {c : GlobalCall} {r : Except Fault GlobalSession} (h : ∀ r', (r', .free) ∉ (r, c) :: tr) :
    ∀ r', (r', .free) ∉ tr := fun r' hin => h r' (List.mem_cons_of_mem _ hin)

theorem Owns.create (h : Owns tr s shelves old strays rest lost) (hmalloc : malloc.Fresh) :
    ∃ shelves' strays' rest', Owns ((.ok s, .create) :: tr) { s with mem := s.mem.globalMultipoolCreate malloc }
      shelves' (shelves ++ old) strays' rest' rest := by
  have hrenewed : Along Renews ((.ok s, .create) :: tr) → shelves ++ old = [] ∧ rest = [] := by
    intro hr
    obtain ⟨hlive, hr⟩ := along_cons.1 hr
    obtain ⟨hold, hlost⟩ := h.renewed hr
    obtain ⟨hnil, hrest⟩ := h.points.nothing (hlive s rfl)
    rw [hnil, hold, hrest, hlost]
    exact ⟨rfl, rfl⟩
  rcases Shelved.multipoolCreate (m := s.mem.toMultiMem) h.shelved hmalloc with
    ⟨m', hcreate, hheap, hledger⟩ | ⟨a, mp, new, m', hcreate, hne, hrecord, hs, hperm, hout, hnodes, hblocks, hother⟩
  · have hmem : s.mem.globalMultipoolCreate malloc = { toMultiMem := m', globalMultipool := NULL } := by
      rw [GlobalMem.globalMultipoolCreate, hcreate]
    rw [hmem]
    refine ⟨[], strays, rest, .unset rfl, ?_, ?_, ?_, hrenewed, fun hno => h.unfreed (unfreed_cons hno)⟩
    · simp only [hheap]
      exact h.shelved.of_eq hheap hledger
    · simp only [hheap]
      exact h.stray
    · simp only [hheap]
      exact h.held
  · have hmem : s.mem.globalMultipoolCreate malloc = { toMultiMem := m', globalMultipool := a } := by
      rw [GlobalMem.globalMultipoolCreate, hcreate]
    have hdata : m'.heap.dataOf = s.mem.heap.dataOf := funext fun x => dataOf_congr (by rw [hnodes])
    have hparts : m'.heap.parts = s.mem.heap.parts := funext fun x => parts_congr (by rw [hdata])
    have hs' : Shelved m'.toMem (new ++ (shelves ++ old)) (strays.flatMap m'.heap.parts ++ a :: rest) := by
      rw [hparts]
      exact hs.rest_perm List.perm_middle.symm
    obtain ⟨shelves', strays', hshelved, hpools, hstray, hall⟩ := hs'.settle fun x hx => by
      obtain ⟨p, hw, hp⟩ := h.stray x hx
      refine ⟨p, hw.congr (by rw [hnodes]) (by rw [hblocks]), ?_⟩
      by_cases hnew : p ∈ new.map Shelf.pool
      · exact .inl hnew
      · exact .inr ((hother p hnew).trans hp)
    have hnil : new.flatMap (·.blocks m'.heap) = [] :=
      List.flatMap_eq_nil_iff.2 fun t ht => by rw [Shelf.blocks, hout t ht]; rfl
    rw [hnil, List.nil_append] at hall
    rw [hmem]
    refine ⟨shelves', strays', a :: rest, .live hne hrecord (hpools.trans hperm), hshelved, hstray, ?_, hrenewed, fun hno => ?_⟩
    · have hkept : s.held.Perm ((shelves ++ old).flatMap (·.blocks m'.heap) ++ strays.map m'.heap.dataOf) := by
        have hheld := h.held
        simp only [Shelf.blocks, hdata] at hheld ⊢
        exact hheld
      refine hkept.trans ((hall.symm.append_left _).trans ?_)
      rw [@List.flatMap_append _ _ shelves', List.append_assoc]
      exact List.perm_append_comm_assoc ..
    · rw [h.unfreed (unfreed_cons hno)] at hall
      exact List.map_eq_nil_iff.1 (List.append_eq_nil_iff.1 hall.eq_nil).2

/-- The acquire of a size that the multipool has a pool for. -/
theorem Owns.acquire {size : UInt32} {pool : Addr} (h : Owns tr s shelves old strays rest lost) (hmalloc : malloc.Fresh)
    (hne : s.mem.globalMultipool ≠ NULL) (hrecord : s.mem.multipools s.mem.globalMultipool = some mp)
    (hpick : mp.pick size = some pool) (hpool : pool ≠ NULL) (failures : List Bool) :
    ∃ s' shelves', s.exec malloc (.acquire size failures) = .ok s' ∧
      Owns ((.ok s, .acquire size failures) :: tr) s' shelves' old strays rest lost := by
  have hpoints := h.points
  obtain ⟨i, -, hi⟩ := pick_some hpick
  cases hpoints with
  | unset hnull => exact absurd hnull hne
  | dangling _ hnone => cases hnone.symm.trans hrecord
  | live _ hrecord' hperm =>
    cases hrecord'.symm.trans hrecord
    have hmade : pool ∈ mp.made (List.finRange multipoolEntryCount) :=
      List.mem_filter.2 ⟨List.mem_map.2 ⟨i, List.mem_finRange i, hi⟩, by simpa using hpool⟩
    obtain ⟨shelf, others, rfl, hothers⟩ := exists_shelf (hperm.mem_iff.2 hmade)
    have hm : Shelved s.mem.toMem (shelf :: (others ++ old)) (strays.flatMap s.mem.heap.parts ++ s.mem.globalMultipool :: lost) :=
      h.shelved.perm (hothers.append_right old)
    have hexec : s.exec malloc (.acquire size failures) = (do
        let r ← poolMemAcquire malloc s.mem.toMem shelf.pool failures
        return { s with mem := { s.mem with toMem := r.2 }, held := if r.1 = NULL then s.held else r.1 :: s.held }) := by
      simp only [GlobalSession.exec, GlobalMem.globalMultipoolMemAcquire, MultiMem.multipoolMemAcquire, assert, if_pos hne,
        ok_bind, hrecord, access, hpick]
      cases poolMemAcquire malloc s.mem.toMem shelf.pool failures <;> rfl
    have hrenewed : Along Renews ((.ok s, .acquire size failures) :: tr) → old = [] ∧ lost = [] := fun hr =>
      h.renewed (along_cons.1 hr).2
    rw [hexec]
    rcases hm.acquire hmalloc failures with
      ⟨m', hacquire, hheap, hledger⟩ | ⟨b, chain, m', hacquire, hdata, hm', hblocks, hspares⟩
    · rw [hacquire, ok_bind]
      refine ⟨_, shelves, rfl, .live hne hrecord hperm, ?_, ?_, ?_, hrenewed, fun hno => h.unfreed (unfreed_cons hno)⟩
      · simp only [hheap]
        exact h.shelved.of_eq hheap hledger
      · simp only [hheap]
        exact h.stray
      · simp only [if_true, hheap]
        exact h.held
    · obtain ⟨hstray, hmap, hparts⟩ := strays_spares h.stray hspares
        (List.Subset.trans (List.subset_append_left ..) (List.subset_append_right ..))
      rw [hacquire, ok_bind]
      refine ⟨_, { pool := shelf.pool, chain, out := b :: shelf.out } :: others, rfl,
        .live hne hrecord ((hothers.map Shelf.pool).symm.trans hperm), ?_, hstray, ?_, hrenewed,
        fun hno => h.unfreed (unfreed_cons hno)⟩
      · simp only [hparts]
        exact hm'
      · simp only [if_neg hdata, hmap]
        rw [List.cons_append, hblocks]
        exact (h.held.trans (((hothers.append_right old).flatMap_right _).append_right _)).cons _

/-- The return of a block whose pool is there, whichever multipool it is of. -/
theorem Owns.ret (malloc : Malloc) (h : Owns tr s shelves old strays rest lost)
    (hd : data ∈ (shelves ++ old).flatMap (·.blocks s.mem.heap)) (failures : List Bool) :
    ∃ s' shelves' old', s.exec malloc (.ret data failures) = .ok s' ∧
      Owns ((.ok s, .ret data failures) :: tr) s' shelves' old' strays rest lost := by
  obtain ⟨m', all, hreturn, hm', hpools, hblocks, hspares⟩ := h.shelved.takeBack hd failures
  obtain ⟨hstray, hmap, hparts⟩ := strays_spares h.stray hspares (List.subset_append_left ..)
  -- the pools are where they were
  have hsplit : all = all.take shelves.length ++ all.drop shelves.length := (List.take_append_drop ..).symm
  have hshelves : (all.take shelves.length).map Shelf.pool = shelves.map Shelf.pool := by
    rw [List.map_take, hpools, List.map_append, List.take_left' (List.length_map ..)]
  have hold : (all.drop shelves.length).map Shelf.pool = old.map Shelf.pool := by
    rw [List.map_drop, hpools, List.map_append, List.drop_left' (List.length_map ..)]
  simp only [GlobalSession.exec, hreturn, ok_bind]
  refine ⟨_, all.take shelves.length, all.drop shelves.length, rfl, h.points.congr hshelves rfl rfl, ?_, hstray, ?_,
    fun hr => ?_, fun hno => h.unfreed (unfreed_cons hno)⟩
  · rw [← hsplit]
    simp only [hparts]
    exact hm'
  · rw [← hsplit]
    simp only [hmap]
    exact (List.cons_perm_iff_perm_erase.1 ((hblocks.append_right _).trans h.held.symm)).2.symm
  · obtain ⟨rfl, hlost⟩ := h.renewed (along_cons.1 hr).2
    exact ⟨List.map_eq_nil_iff.1 hold, hlost⟩

/-- The return of a stray follows its pointer to no pool. -/
theorem Owns.ret_stray (malloc : Malloc) (h : Owns tr s shelves old strays rest lost)
    (hd : data ∈ strays.map s.mem.heap.dataOf) (failures : List Bool) :
    (s.mem.heap.poolOf data).bind s.mem.heap.pools = none ∧ s.exec malloc (.ret data failures) = .error .badPointer := by
  obtain ⟨a, ha, rfl⟩ := List.mem_map.1 hd
  obtain ⟨p, hw, hp⟩ := h.stray a ha
  obtain ⟨n, hn, rfl, -⟩ := hw.node
  have hdata : s.mem.heap.dataOf a ≠ NULL := by rw [hw.dataOf]; exact Nat.succ_ne_zero _
  refine ⟨by rw [hw.poolOf, Option.bind_some, hp], ?_⟩
  simp only [GlobalSession.exec, poolMemReturn, assert, if_pos hdata, ok_bind, hw.getMemnodeInData, access, hn]
  rw [returnLoop, hp]
  rfl

/-- A block on a shelf has its pool. -/
theorem Owns.poolOf (h : Owns tr s shelves old strays rest lost)
    (hd : data ∈ (shelves ++ old).flatMap (·.blocks s.mem.heap)) :
    ∃ q, (s.mem.heap.poolOf data).bind s.mem.heap.pools = some q := by
  obtain ⟨shelf, l₁, l₂, a, hsplit, ha, rfl⟩ := shelf_of_block hd
  obtain ⟨-, hwhole, q, hq, -⟩ := h.shelved.stands shelf (by simp [hsplit])
  exact ⟨q, by rw [(hwhole a (List.mem_append_right _ ha)).poolOf, Option.bind_some, hq]⟩

/-- The end of a multipool that has all its pools: what is out becomes stray. -/
theorem Owns.free (malloc : Malloc) (h : Owns tr s shelves old strays rest lost) (hne : s.mem.globalMultipool ≠ NULL)
    (hrecord : s.mem.multipools s.mem.globalMultipool = some mp) (hall : ∀ i, mp.pools i ≠ NULL) :
    ∃ s' strays', s.exec malloc .free = .ok s' ∧ Owns ((.ok s, .free) :: tr) s' [] old strays' lost lost := by
  have hpoints := h.points
  cases hpoints with
  | unset hnull => exact absurd hnull hne
  | dangling _ hnone => cases hnone.symm.trans hrecord
  | live _ hrecord' hperm =>
    cases hrecord'.symm.trans hrecord
    rw [made_eq fun i _ => hall i] at hperm
    obtain ⟨m', hfree, hmultipools, hm', hagree, hgone⟩ :=
      (h.shelved.rest_perm List.perm_middle).multipoolFree (m := s.mem.toMultiMem) hrecord hperm
    have hspares := hm'.spares hagree
    have hout : ∀ a ∈ shelves.flatMap Shelf.out, ∃ t ∈ shelves, Whole s.mem.heap t.pool a := by
      intro a ha
      obtain ⟨t, ht, ha⟩ := List.mem_flatMap.1 ha
      exact ⟨t, ht, (h.shelved.stands t (List.mem_append_left _ ht)).whole a (List.mem_append_right _ ha)⟩
    have hsub : ∀ a ∈ shelves.flatMap Shelf.out, s.mem.heap.parts a ⊆ old.flatMap (·.region s.mem.heap) ++
        (shelves.flatMap (fun t => t.out.flatMap s.mem.heap.parts) ++ (strays.flatMap s.mem.heap.parts ++ lost)) := by
      intro a ha b hb
      obtain ⟨t, ht, ha⟩ := List.mem_flatMap.1 ha
      exact List.mem_append_right _ (List.mem_append_left _ (List.mem_flatMap.2 ⟨t, ht, List.mem_flatMap.2 ⟨a, ha, hb⟩⟩))
    have hsame : ∀ a ∈ shelves.flatMap Shelf.out, m'.heap.dataOf a = s.mem.heap.dataOf a := by
      intro a ha
      obtain ⟨t, -, hw⟩ := hout a ha
      exact (hw.agree hagree (hsub a ha)).2
    obtain ⟨hstray, hmap, hparts⟩ := strays_spares h.stray hspares
      (List.Subset.trans (List.subset_append_left ..)
        (List.Subset.trans (List.subset_append_right ..) (List.subset_append_right ..)))
    have hexec : s.exec malloc .free = .ok { s with mem := { s.mem with toMultiMem := m' } } := by
      simp only [GlobalSession.exec, GlobalMem.globalMultipoolFree, hfree, ok_bind]
      rfl
    refine ⟨_, shelves.flatMap Shelf.out ++ strays, hexec, .dangling hne ?_, ?_, ?_, ?_, fun hr => h.renewed (along_cons.1 hr).2,
      fun hno => absurd List.mem_cons_self (hno (.ok s))⟩
    · simp only [hmultipools]
      exact Function.update_self ..
    · simp only [List.nil_append]
      rw [List.flatMap_append, hparts, List.flatMap_congr fun a ha => parts_congr (hsame a ha), List.flatMap_assoc,
        List.append_assoc]
      exact hm'
    · intro a ha
      rcases List.mem_append.1 ha with ha | ha
      · obtain ⟨t, ht, hw⟩ := hout a ha
        exact ⟨t.pool, (hw.agree hagree (hsub a ha)).1, hgone t ht⟩
      · exact hstray a ha
    · have hblocks : (shelves.flatMap Shelf.out).map m'.heap.dataOf = shelves.flatMap (·.blocks s.mem.heap) := by
        rw [List.map_congr_left hsame, List.map_flatMap]
        rfl
      have hold : old.flatMap (·.blocks m'.heap) = old.flatMap (·.blocks s.mem.heap) := agree_blocks hagree
      simp only [List.nil_append]
      rw [List.map_append, hmap, hblocks, hold, ← List.append_assoc]
      refine h.held.trans ?_
      rw [List.flatMap_append]
      exact List.perm_append_comm.append_right _

/-! ## Runs -/

/-- One call: it does its work, or ends in the fault that its pointers make. -/
theorem Owns.step {c : GlobalCall} (h : Owns tr s shelves old strays rest lost) (hmalloc : malloc.Fresh) (hc : s.Allows c) :
    s.fault c = none ∧ (∃ s' shelves' old' strays' rest' lost', s.exec malloc c = .ok s' ∧
        Owns ((.ok s, c) :: tr) s' shelves' old' strays' rest' lost') ∨
      ∃ e, s.fault c = some e ∧ s.exec malloc c = .error e := by
  cases c with
  | create =>
    obtain ⟨shelves', strays', rest', hnew⟩ := h.create hmalloc
    exact .inl ⟨rfl, _, shelves', _, strays', rest', _, rfl, hnew⟩
  | ret data failures =>
    rcases List.mem_append.1 (h.held.mem_iff.1 hc) with hd | hd
    · obtain ⟨q, hq⟩ := h.poolOf hd
      obtain ⟨s', shelves', old', hexec, h'⟩ := h.ret malloc hd failures
      refine .inl ⟨?_, s', shelves', old', strays, rest, lost, hexec, h'⟩
      rw [GlobalSession.fault, hq]
      rfl
    · obtain ⟨hnone, hexec⟩ := h.ret_stray malloc hd failures
      refine .inr ⟨.badPointer, ?_, hexec⟩
      rw [GlobalSession.fault, hnone]
      rfl
  | acquire size failures =>
    cases h.points with
    | unset hnull =>
      refine .inr ⟨.assertion, by simp only [GlobalSession.fault, pointer_unset hnull], ?_⟩
      simp only [GlobalSession.exec, GlobalMem.globalMultipoolMemAcquire, assert, hnull, ne_eq, not_true, if_false]
      rfl
    | dangling hne hnone =>
      refine .inr ⟨.badPointer, by simp only [GlobalSession.fault, pointer_dangling hne hnone], ?_⟩
      simp only [GlobalSession.exec, GlobalMem.globalMultipoolMemAcquire, MultiMem.multipoolMemAcquire, assert, if_pos hne,
        ok_bind, hnone, access]
      rfl
    | @live mp _ hne hrecord hperm =>
      simp only [GlobalSession.fault, pointer_live hne hrecord]
      by_cases hnull : (mp.pick size).getD NULL = NULL
      · refine .inr ⟨.assertion, if_pos hnull, ?_⟩
        simp only [GlobalSession.exec, GlobalMem.globalMultipoolMemAcquire, MultiMem.multipoolMemAcquire, assert, if_pos hne,
          ok_bind, hrecord, access]
        cases hpick : mp.pick size with
        | none => rfl
        | some pool =>
          rw [hpick, Option.getD_some] at hnull
          simp only [poolMemAcquire, assert, hnull, ne_eq, not_true, if_false]
          rfl
      · obtain ⟨pool, hpick⟩ : ∃ pool, mp.pick size = some pool :=
          Option.ne_none_iff_exists'.1 fun hnone => hnull (by rw [hnone, Option.getD_none])
        have hpool : pool ≠ NULL := fun he => hnull (by rw [hpick, Option.getD_some, he])
        obtain ⟨s', shelves', hexec, h'⟩ := h.acquire hmalloc hne hrecord hpick hpool failures
        exact .inl ⟨if_neg hnull, s', shelves', old, strays, _, lost, hexec, h'⟩
  | free =>
    cases h.points with
    | unset hnull =>
      refine .inr ⟨.assertion, by simp only [GlobalSession.fault, pointer_unset hnull], ?_⟩
      simp only [GlobalSession.exec, GlobalMem.globalMultipoolFree, MultiMem.multipoolFree, assert, hnull, ne_eq, not_true,
        if_false]
      rfl
    | dangling hne hnone =>
      refine .inr ⟨.badPointer, by simp only [GlobalSession.fault, pointer_dangling hne hnone], ?_⟩
      simp only [GlobalSession.exec, GlobalMem.globalMultipoolFree, MultiMem.multipoolFree, assert, if_pos hne, ok_bind,
        hnone, access]
      rfl
    | @live mp _ hne hrecord hperm =>
      simp only [GlobalSession.fault, pointer_live hne hrecord]
      by_cases hnull : ∃ i, mp.pools i = NULL
      · refine .inr ⟨.assertion, if_pos hnull, ?_⟩
        obtain ⟨i, hi⟩ := hnull
        have hloop := h.shelved.freeLoop_null hperm ⟨i, List.mem_finRange i, hi⟩
        simp only [GlobalSession.exec, GlobalMem.globalMultipoolFree, MultiMem.multipoolFree, assert, if_pos hne, ok_bind,
          hrecord, access, hloop]
        rfl
      · obtain ⟨s', strays', hexec, h'⟩ := h.free malloc hne hrecord fun i hi => hnull ⟨i, hi⟩
        exact .inl ⟨if_neg hnull, s', [], old, strays', lost, lost, hexec, h'⟩

theorem owns_of_run {r : Except Fault GlobalSession} (hmalloc : malloc.Fresh) (hr : (globalProgram malloc).Run tr r) :
    ∀ s, r = .ok s → ∃ shelves old strays rest lost, Owns tr s shelves old strays rest lost := by
  induction hr with
  | init h =>
    intro s hs
    cases h.symm.trans hs
    refine ⟨[], [], [], [], [], .unset rfl, ⟨by simp, .refl _, List.nodup_nil, by simp, fun a _ => ⟨rfl, rfl, rfl⟩⟩, by simp,
      .refl _, fun _ => ⟨rfl, rfl⟩, fun _ => rfl⟩
  | @step tr r c r' _ hs ih =>
    intro s' hs'
    cases r with
    | error => cases hs
    | ok s =>
      simp only [globalProgram, Option.ite_none_right_eq_some, Option.some.injEq] at hs
      obtain ⟨hc, rfl⟩ := hs
      obtain ⟨shelves, old, strays, rest, lost, h⟩ := ih s rfl
      rcases h.step hmalloc hc with ⟨-, s'', shelves', old', strays', rest', lost', hexec, h'⟩ | ⟨e, -, hexec⟩
      · cases hexec.symm.trans hs'
        exact ⟨shelves', old', strays', rest', lost', h'⟩
      · cases hexec.symm.trans hs'

/-- The data areas of nodes are among their allocations. -/
theorem sublist_data (h : Heap) (l : List Addr) : ((l.map h.dataOf).map (· - headerSize)).Sublist (l.flatMap h.parts) := by
  induction l with
  | nil => exact .slnil
  | cons a l ih => exact (ih.cons a).cons_cons _

/-- The data areas of what is out are among the allocations. -/
theorem sublist_region (h : Heap) (shelves : List Shelf) :
    ((shelves.flatMap (·.blocks h)).map (· - headerSize)).Sublist (shelves.flatMap (·.region h)) := by
  induction shelves with
  | nil => exact .slnil
  | cons t shelves ih =>
    rw [List.flatMap_cons, List.flatMap_cons, List.map_append]
    refine List.Sublist.append ?_ ih
    rw [Shelf.region, List.flatMap_append]
    exact ((sublist_data h t.out).trans (List.sublist_append_right ..)).cons _

/-- No block is held twice. -/
theorem Owns.held_nodup (h : Owns tr s shelves old strays rest lost) : s.held.Nodup := by
  have hlive := h.shelved.ledger.nodup_iff.1 h.shelved.nodup
  rw [← List.append_assoc] at hlive
  have hsub := (sublist_region s.mem.heap (shelves ++ old)).append (sublist_data s.mem.heap strays)
  rw [← List.map_append] at hsub
  exact h.held.nodup_iff.2 ((List.nodup_append.1 hlive).1.sublist hsub).of_map

/-- **The global multipool**, called at any time in any order, whichever calls of
`malloc` fail: a call faults exactly if the pointers it follows make it, and no return
does before a multipool is freed; no block is held twice; and if each multipool is freed
before the next is created, then once it is freed nothing is live but the two allocations
of each block still held. -/
theorem run_global {c : GlobalCall} (hmalloc : malloc.Fresh) (hr : (globalProgram malloc).Run tr (.ok s)) (hc : s.Allows c) :
    (∀ e, s.exec malloc c = .error e ↔ s.fault c = some e) ∧
    ((∀ r, (r, .free) ∉ tr) → ∀ data ∈ s.held, ∀ failures, s.fault (.ret data failures) = none) ∧ s.held.Nodup ∧
    (Along Renews tr → (∀ mp, s.mem.pointer ≠ .live mp) → s.mem.ledger.Perm (s.held.flatMap s.mem.heap.allocations)) := by
  obtain ⟨shelves, old, strays, rest, lost, h⟩ := owns_of_run hmalloc hr s rfl
  refine ⟨fun e => ?_, fun hno data hd failures => ?_, h.held_nodup, fun hrenews hno => ?_⟩
  · rcases h.step hmalloc hc with ⟨hfault, s', -, -, -, -, -, hexec, -⟩ | ⟨e', hfault, hexec⟩
    · rw [hfault, hexec]
      simp
    · rw [hfault, hexec]
      simp
  · have hheld := h.held
    rw [h.unfreed hno, List.map_nil, List.append_nil] at hheld
    obtain ⟨q, hq⟩ := h.poolOf (hheld.mem_iff.1 hd)
    rw [GlobalSession.fault, hq]
    rfl
  · obtain ⟨rfl, rfl⟩ := h.renewed hrenews
    obtain ⟨rfl, rfl⟩ := h.points.nothing hno
    have hparts : strays.flatMap s.mem.heap.parts = (strays.map s.mem.heap.dataOf).flatMap s.mem.heap.allocations := by
      rw [List.flatMap_map]
      refine List.flatMap_congr fun a ha => ?_
      obtain ⟨p, hw, -⟩ := h.stray a ha
      exact hw.allocations.symm
    have hledger := h.shelved.ledger
    rw [List.append_nil, List.flatMap_nil, List.nil_append, List.append_nil, hparts] at hledger
    exact hledger.trans (h.held.symm.flatMap_right _)

end

/-- Two multipools, one after the other. A block of the first is held when that is
freed: its two allocations stay, and its return finds no pool; the acquire after the
end of the second follows the pointer to nothing. -/
theorem run_global_two : ∃ tr s, (globalProgram above).Run tr (.ok s) ∧ s.held = [280] ∧ s.mem.ledger.Perm [272, 256] ∧
    s.exec above (.ret 280 []) = .error .badPointer ∧ s.exec above (.acquire 512 []) = .error .badPointer := by
  have h := exists_run (m := globalProgram above) (s := .ok {})
    (l := [.create, .acquire 512 [], .free, .create, .acquire 2000 [], .ret 552 [true], .free])
    (p := fun tr r => decide (Along Renews tr) && r.toOption.any fun s =>
      decide (s.held = [280] ∧ s.mem.heap.allocations 280 = [272, 256]) &&
      decide (s.fault (.ret 280 []) = some .badPointer ∧ s.fault (.acquire 512 []) = some .badPointer)) rfl (by decide +kernel)
  obtain ⟨tr, r, hr, hp⟩ := h
  rw [Bool.and_eq_true, decide_eq_true_eq] at hp
  obtain ⟨hrenews, hp⟩ := hp
  cases r with
  | error => cases hp
  | ok s =>
    simp only [Except.toOption, Option.any_some, Bool.and_eq_true, decide_eq_true_eq] at hp
    obtain ⟨⟨hheld, hallocations⟩, hret, hacquire⟩ := hp
    have hallows : s.Allows (.ret 280 []) := by simp [GlobalSession.Allows, hheld]
    obtain ⟨hexec, -, -, hledger⟩ := run_global above_fresh hr hallows
    obtain ⟨hexec', -⟩ := run_global (c := .acquire 512 []) above_fresh hr trivial
    have hno : ∀ mp, s.mem.pointer ≠ .live mp := by
      intro mp hlive
      simp only [GlobalSession.fault, hlive] at hacquire
      split at hacquire <;> cases hacquire
    replace hledger := hledger hrenews hno
    rw [hheld, List.flatMap_singleton, hallocations] at hledger
    exact ⟨tr, s, hr, hheld, hledger, (hexec _).2 hret, (hexec' _).2 hacquire⟩

end Dxpool.Simple
