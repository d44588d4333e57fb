/-
A pool with `ConcurrentIndexer` (src/Pool.h, src/PoolItem.h,
src/ConcurrentIndexer.h): `Take` and the destructors go through the indexer one
atomic operation at a time, in any number of threads at once, and a reset may
use the pool again.

To the indexer, a thread of the pool is a client that passes on what it takes:
every run is a run of `Indexer.machine`, with one client more, which has the
indices of the objects, and none of them returns what it does not hold. So
`items.at` throws in no run, and an index is in one place in every run in which
the waits on the slots end alone (`run_shared`).
-/
import Dxpool.Indexer.Fifo
import Dxpool.Indexer.Range
import Dxpool.Pool.Ownership
import Dxpool.Refine

namespace Dxpool.Pool

open Indexer Machine

/-! ## The pool -/

/-- The indexer, and where each thread is in it. -/
structure Inside (T : Type) where
  indexer : ConcurrentIndexer
  pc : T → Pc := fun _ => .idle

/-- What can happen next, as in `Act`; a weak compare-and-swap can fail. -/
inductive AtomicAct (T : Type)
  | take (t : T)
  | move (t : T) (k : Nat)
  | destroy (t : T) (k : Nat)
  | get (t : T) (k : Nat)
  | run (t : T) (spurious : Bool)
  deriving DecidableEq, Repr

section
variable {T : Type} [DecidableEq T]

/-- The indexer and thread `t` go on. -/
def Inside.set (x : Inside T) (t : T) (indexer : ConcurrentIndexer) (pc : Pc) : Inside T :=
  { indexer, pc := Function.update x.pc t pc }

def atomicStep (bits : Nat) (resetable : Bool) (numItems : Nat) (s : State (Inside T) T) :
    AtomicAct T → Option (State (Inside T) T)
  | .take t =>
    if client (s.threads t) then
      some ({ s with indexer := s.indexer.set t s.indexer.indexer .nextLoadRead }.set t (.takeNext :: s.threads t))
    else none
  | .move t k =>
    match s.object k with
    | none => none
    | some obj =>
      if client (s.threads t) then
        some { s with objects := s.objects.set k (some obj.move.2) ++ [some obj.move.1] }
      else none
  | .destroy t k =>
    match s.object k with
    | none => none
    | some obj =>
      if client (s.threads t) then
        some ({ s with objects := s.objects.set k none }.set t (destroy resetable obj ++ s.threads t))
      else none
  | .get t k =>
    match s.object k with
    | none => none
    | some obj => if client (s.threads t) ∧ obj.empty = false then some s else none
  | .run t spurious =>
    let (indexer, pc, answer) := advance bits s.indexer.indexer spurious (s.indexer.pc t)
    match s.threads t with
    | [] | .thrown :: _ | .undefined :: _ => none
    | .takeNext :: rest =>
      match answer with
      | none => some ({ s with indexer := s.indexer.set t indexer pc }.set t (.takeNext :: rest))
      | some holder => some ({ s with indexer := s.indexer.set t indexer pc }.set t (.takeItem holder :: rest))
    | .takeItem holder :: rest =>
      match takeItem numItems holder with
      | none => some (s.set t (.thrown :: rest))
      | some obj => some ({ s with objects := s.objects ++ [some obj] }.set t rest)
    | .resetting _ obj :: rest =>
      some ({ s with indexer := s.indexer.set t s.indexer.indexer (.returnLoadWrite obj.index) }.set t
        (.returning obj :: rest))
    | .returning obj :: rest =>
      some ({ s with indexer := s.indexer.set t indexer pc }.set t (if pc = Pc.idle then rest else .returning obj :: rest))

/-- A pool with `ConcurrentIndexer`. -/
def atomicPool (bits : Nat) (resetable : Bool) (numItems : Nat) (T : Type) [DecidableEq T] :
    Machine (State (Inside T) T) (AtomicAct T) where
  init s := ∃ indexer, ConcurrentIndexer.construct bits numItems = .ok indexer ∧
    s = { indexer := { indexer }, threads := fun _ => [] }
  step := atomicStep bits resetable numItems

end

section
variable {T : Type}

/-- The calls in the indexer. -/
def Inside.state (x : Inside T) : Indexer.State T := ⟨x.indexer, fun t => { pc := x.pc t }⟩

/-- A call that leaves its wait on a slot does so alone. -/
def WaitsAlone (s : State (Inside T) T) : AtomicAct T → Prop
  | .run t _ => LeavesAlone s.indexer.state (s.indexer.pc t)
  | _ => True

instance (s : State (Inside T) T) (a : AtomicAct T) [Fintype T] : Decidable (WaitsAlone s a) :=
  match a with
  | .run t _ => inferInstanceAs (Decidable (LeavesAlone s.indexer.state (s.indexer.pc t)))
  | .take _ | .move _ _ | .destroy _ _ | .get _ _ => isTrue trivial

/-- The index that an object holds. -/
def PoolItem.indices (obj : PoolItem) : List Nat := if obj.empty then [] else [obj.index]

/-- The index that a call has, outside the indexer. -/
def Frame.indices : Frame → List Nat
  | .takeItem holder => holder.indices
  | .resetting _ obj => [obj.index]
  | _ => []

/-- The indices that the objects hold. -/
def shelved (objects : List (Option PoolItem)) : List Nat := objects.flatMap fun o => o.elim [] PoolItem.indices

/-- In how many places index `i` is: in slots that are not read, in objects, and in
calls. -/
def places [Fintype T] [DecidableEq T] (s : State (Inside T) T) (i : Nat) : Nat :=
  (unread s.indexer.state).count (i + 1) + (shelved s.objects).count i +
    ∑ t, (((s.threads t).flatMap Frame.indices).count i + (carried (s.indexer.pc t)).count i)

end

/-! ## What the indexer sees -/

/-- Where a call of the pool is in the indexer. -/
def Frame.Stands (pc : Pc) : Frame → Prop
  | .takeNext => inNext pc = true
  | .returning obj => inReturn pc = true ∧ carried pc = [obj.index]
  | _ => pc = .idle

/-- Only the innermost call is in the indexer. -/
def Stands (pc : Pc) : List Frame → Prop
  | [] => pc = .idle
  | f :: _ => f.Stands pc

theorem Stands.idle {pc : Pc} {fs : List Frame} (h : Stands pc fs) (hc : client fs = true) : pc = .idle := by
  cases fs with
  | nil => exact h
  | cons f fs =>
    cases f with
    | resetting => exact h
    | _ => cases hc

/-- An operation of a call in the indexer: it goes on, or is done. -/
theorem Move.stands {bits : Nat} {ix ix' : ConcurrentIndexer} {sp : Bool} {pc pc' : Pc} {answer : Option IndexHolder}
    (hm : Move bits ix sp pc ix' pc' answer) :
    (inNext pc = true → answer = none ∧ inNext pc' = true ∨ ∃ holder, answer = some holder ∧ pc' = .idle) ∧
    (inReturn pc = true → answer = none ∧ (pc' = .idle ∨ pc' ≠ .idle ∧ inReturn pc' = true ∧ carried pc' = carried pc)) := by
  cases hm <;> simp [inNext, inReturn, carried]

section
variable {objects : List (Option PoolItem)} {k : Nat} {obj : PoolItem}

theorem shelved_append (objects : List (Option PoolItem)) (obj : PoolItem) :
    shelved (objects ++ [some obj]) = shelved objects ++ obj.indices := by simp [shelved]

/-- Object `k` is replaced. -/
theorem shelved_set (hobj : objects[k]?.join = some obj) (o : Option PoolItem) :
    (obj.indices ++ shelved (objects.set k o)).Perm (o.elim [] PoolItem.indices ++ shelved objects) := by
  have hk : k < objects.length := by
    by_contra hk
    rw [List.getElem?_eq_none (by omega)] at hobj
    cases hobj
  obtain ⟨l₁, l₂, hl, -, hset⟩ := @List.exists_of_set _ _ o _ hk
  rw [List.getElem?_eq_getElem hk, Option.join_some] at hobj
  rw [hset, hl, hobj]
  simp only [shelved, List.flatMap_append, List.flatMap_cons, Option.elim_some]
  refine List.perm_iff_count.2 fun i => ?_
  simp only [List.count_append]
  omega

/-- A destruction starts a reset of what the object holds, if it does. -/
theorem PoolItem.Sound.destroy (h : obj.Sound) (resetable : Bool) :
    (∃ reset, Pool.destroy resetable obj = [.resetting reset obj]) ∧ (Frame.resetting .itemReset obj).Sound ∧ obj.empty = false ∨
      Pool.destroy resetable obj = [] ∧ obj.empty = true := by
  rcases h with hown | ⟨hcallback, hempty⟩
  · obtain ⟨reset, hd⟩ := destroy_owning resetable obj.index
    rw [← hown] at hd
    exact .inl ⟨⟨reset, hd⟩, hown, by rw [hown]; rfl⟩
  · exact .inr ⟨by simp [Pool.destroy, hcallback], hempty⟩

end

section
variable {T : Type} {bits n : Nat} {s s' : State (Inside T) T} {S : Indexer.State (Option T)} {t : T}

/-- The threads are clients of the indexer, and one client more has what the objects
hold. -/
structure Seen (n : Nat) (s : State (Inside T) T) (S : Indexer.State (Option T)) : Prop where
  indexer : S.indexer = s.indexer.indexer
  pc : ∀ t, (S.threads (some t)).pc = s.indexer.pc t
  rest : (S.threads none).pc = .idle
  objects : (S.threads none).held.Perm (shelved s.objects)
  calls : ∀ t, (S.threads (some t)).held.Perm ((s.threads t).flatMap Frame.indices)
  object : ∀ k obj, s.object k = some obj → obj.Sound
  frame : ∀ t, ∀ f ∈ s.threads t, f.Sound
  stands : ∀ t, Stands (s.indexer.pc t) (s.threads t)
  nested : Nested s
  ranged : Ranged n S

/-- A wait that ends alone in the pool does so in the indexer. -/
theorem Seen.leavesAlone (h : Seen n s S) {pc : Pc} (halone : LeavesAlone s.indexer.state pc) : LeavesAlone S pc := by
  cases pc with
  | nextLoadSlot c =>
    intro hload u
    rw [h.indexer] at hload ⊢
    cases u with
    | none => simp [h.rest, clearsSlot]
    | some u =>
      rw [h.pc u]
      exact halone hload u
  | returnLoadSlot i c =>
    intro hload u
    rw [h.indexer] at hload ⊢
    cases u with
    | none => simp [h.rest, fillsSlot]
    | some u =>
      rw [h.pc u]
      exact halone hload u
  | _ => trivial

/-- The innermost call of thread `t`, and those around it. -/
theorem Seen.top {f : Frame} {rest : List Frame} (h : Seen n s S) (ht : s.threads t = f :: rest) :
    f.Stands (s.indexer.pc t) ∧ (S.threads (some t)).held.Perm (f.indices ++ rest.flatMap Frame.indices) ∧ f.Sound ∧
      (∀ g ∈ rest, g.Sound) ∧ ∀ g ∈ rest, client [g] = true := by
  have hstands := h.stands t
  have hcalls := h.calls t
  have hframe := h.frame t
  have hnested := h.nested t
  rw [ht] at hstands hcalls hframe hnested
  obtain ⟨hf, hrest⟩ := List.forall_mem_cons.1 hframe
  exact ⟨hstands, hcalls, hf, hrest, hnested⟩

variable [DecidableEq T]

/-- Thread `t` goes on, and the objects stay. -/
theorem Seen.set (h : Seen n s S) (ix : ConcurrentIndexer) {th : Indexer.Thread} (fs : List Frame)
    (hranged : Ranged n ({ S with indexer := ix }.set (some t) th)) (hheld : th.held.Perm (fs.flatMap Frame.indices))
    (hsound : ∀ f ∈ fs, f.Sound) (hstands : Stands th.pc fs) (hnested : ∀ f ∈ fs.tail, client [f] = true) :
    Seen n ({ s with indexer := s.indexer.set t ix th.pc }.set t fs) ({ S with indexer := ix }.set (some t) th) := by
  have hother : ∀ {u : T}, u ≠ t → (({ S with indexer := ix } : Indexer.State (Option T)).set (some t) th).threads (some u) =
      S.threads (some u) := fun hu => Indexer.set_ne (by simpa using hu)
  have hnone : (({ S with indexer := ix } : Indexer.State (Option T)).set (some t) th).threads none = S.threads none :=
    Indexer.set_ne (by simp)
  refine ⟨rfl, fun u => ?_, hnone ▸ h.rest, hnone ▸ h.objects, fun u => ?_, h.object, fun u => ?_, fun u => ?_, fun u => ?_, hranged⟩
  all_goals by_cases hu : u = t
  · subst hu
    simp [Inside.set]
  · rw [hother hu, h.pc u, Pool.set_indexer, Inside.set]
    exact (Function.update_of_ne hu ..).symm
  · subst hu
    simpa using hheld
  · rw [hother hu, Pool.set_ne hu]
    exact h.calls u
  · subst hu
    simpa using hsound
  · rw [Pool.set_ne hu]
    exact h.frame u
  · subst hu
    simpa [Inside.set] using hstands
  · rw [Pool.set_ne hu, Pool.set_indexer, Inside.set]
    simp only [Function.update_of_ne hu]
    exact h.stands u
  · subst hu
    simpa using hnested
  · rw [Pool.set_ne hu]
    exact h.nested u

/-- Objects change, and with them what thread `t` has outside the indexer. -/
theorem Seen.give {S' : Indexer.State (Option T)} {objects : List (Option PoolItem)} {fs : List Frame} (h : Seen n s S)
    (hindexer : S'.indexer = S.indexer) (hpc : ∀ u, (S'.threads u).pc = (S.threads u).pc)
    (hobjects : (S'.threads none).held.Perm (shelved objects))
    (hheld : (S'.threads (some t)).held.Perm (fs.flatMap Frame.indices))
    (hother : ∀ u, u ≠ t → (S'.threads (some u)).held = (S.threads (some u)).held)
    (hobject : ∀ (k : Nat) obj, objects[k]?.join = some obj → PoolItem.Sound obj) (hsound : ∀ f ∈ fs, f.Sound)
    (hstands : Stands (s.indexer.pc t) fs) (hnested : ∀ f ∈ fs.tail, client [f] = true) (hranged : Ranged n S') :
    Seen n ({ s with objects }.set t fs) S' := by
  refine ⟨hindexer.trans h.indexer, fun u => (hpc _).trans (h.pc u), (hpc _).trans h.rest, hobjects, fun u => ?_, hobject,
    fun u => ?_, fun u => ?_, fun u => ?_, hranged⟩
  all_goals by_cases hu : u = t
  · subst hu
    rwa [Pool.set_self]
  · rw [hother u hu, Pool.set_ne hu]
    exact h.calls u
  · subst hu
    rwa [Pool.set_self]
  · rw [Pool.set_ne hu]
    exact h.frame u
  · subst hu
    rwa [Pool.set_self]
  · rw [Pool.set_ne hu]
    exact h.stands u
  · subst hu
    rwa [Pool.set_self]
  · rw [Pool.set_ne hu]
    exact h.nested u

/-- The indexer's client has kept its contract in what the pool does next. -/
def Kept (c : Prop) (S : Indexer.State (Option T)) (a : Indexer.Act (Option T)) : Prop := Owned S a ∧ (c → SlotAlone S a)

/-- One step of the indexer's clients. -/
theorem Seen.reaches {c : Prop} {a : Indexer.Act (Option T)} {S' : Indexer.State (Option T)} (h : Seen n s S) (hn : 0 < n)
    (hown : Owned S a) (halone : c → SlotAlone S a) (hs : Indexer.step bits S a = some S') :
    (Indexer.machine bits n (Option T)).Reaches (Kept c) S S' ∧ Ranged n S' :=
  ⟨.cons ⟨hown, halone⟩ hs (.refl _), h.ranged.step hn hown (Indexer.step_cases hs)⟩

/-- `Take` is called. -/
theorem Seen.take {c : Prop} (h : Seen n s S) (hn : 0 < n) (hc : client (s.threads t) = true) :
    ∃ S', (Indexer.machine bits n (Option T)).Reaches (Kept c) S S' ∧
      Seen n ({ s with indexer := s.indexer.set t s.indexer.indexer .nextLoadRead }.set t (.takeNext :: s.threads t)) S' := by
  have hidle : (S.threads (some t)).pc = .idle := (h.pc t).trans ((h.stands t).idle hc)
  have hs : Indexer.step bits S (.next (some t)) =
      some (S.set (some t) { S.threads (some t) with pc := .nextLoadRead }) := if_pos hidle
  obtain ⟨hreaches, hranged⟩ := h.reaches (c := c) (a := .next (some t)) hn trivial (fun _ => trivial) hs
  rw [← h.indexer]
  exact ⟨_, hreaches, h.set S.indexer (.takeNext :: s.threads t) hranged (h.calls t)
    (List.forall_mem_cons.2 ⟨trivial, h.frame t⟩) rfl (h.nested.client hc)⟩

/-- A thread goes on in the indexer. -/
theorem Seen.run {c : Prop} {sp : Bool} {ix : ConcurrentIndexer} {pc : Pc} {answer : Option IndexHolder} (h : Seen n s S)
    (hn : 0 < n) (hne : s.indexer.pc t ≠ .idle) (halone : c → LeavesAlone s.indexer.state (s.indexer.pc t))
    (hadv : advance bits s.indexer.indexer sp (s.indexer.pc t) = (ix, pc, answer)) :
    (Indexer.machine bits n (Option T)).Reaches (Kept c) S
        ({ S with indexer := ix }.set (some t) { pc, held := gain answer ++ (S.threads (some t)).held }) ∧
      Ranged n ({ S with indexer := ix }.set (some t) { pc, held := gain answer ++ (S.threads (some t)).held }) := by
  have hs : Indexer.step bits S (.run (some t) sp) = some ({ S with indexer := ix }.set (some t)
      { pc, held := gain answer ++ (S.threads (some t)).held }) := by
    simp only [Indexer.step, h.pc t, if_neg hne, h.indexer, hadv]
    rfl
  refine h.reaches (a := .run (some t) sp) hn trivial (fun hc => ?_) hs
  simp only [SlotAlone, h.pc t]
  exact h.leavesAlone (halone hc)

/-- A thread goes on in `Next`. -/
theorem Seen.next {c : Prop} {sp : Bool} {ix : ConcurrentIndexer} {pc : Pc} {answer : Option IndexHolder} {rest : List Frame}
    (h : Seen n s S) (hn : 0 < n) (ht : s.threads t = .takeNext :: rest)
    (halone : c → LeavesAlone s.indexer.state (s.indexer.pc t))
    (hadv : advance bits s.indexer.indexer sp (s.indexer.pc t) = (ix, pc, answer)) :
    ∃ S', (Indexer.machine bits n (Option T)).Reaches (Kept c) S S' ∧
      Seen n ({ s with indexer := s.indexer.set t ix pc }.set t (answer.elim .takeNext .takeItem :: rest)) S' := by
  obtain ⟨hin, hcalls, -, hsound, hnested⟩ := h.top ht
  have hne : s.indexer.pc t ≠ .idle := by
    intro he
    rw [he] at hin
    cases hin
  obtain ⟨hreaches, hranged⟩ := h.run hn hne halone hadv
  refine ⟨_, hreaches, h.set ix (answer.elim .takeNext .takeItem :: rest) hranged ?_ (List.forall_mem_cons.2 ⟨?_, hsound⟩)
    ?_ hnested⟩
  · rw [List.flatMap_cons]
    cases answer with
    | none => exact hcalls
    | some holder => exact hcalls.append_left _
  · cases answer <;> trivial
  · rcases (Move.stands (advance_cases hadv hne)).1 hin with ⟨rfl, hin'⟩ | ⟨holder, rfl, rfl⟩
    · exact hin'
    · rfl

/-- A reset is over, and `Return` is called. -/
theorem Seen.reset {c : Prop} {reset : Reset} {obj : PoolItem} {rest : List Frame} (h : Seen n s S) (hn : 0 < n)
    (ht : s.threads t = .resetting reset obj :: rest) :
    ∃ S', (Indexer.machine bits n (Option T)).Reaches (Kept c) S S' ∧
      Seen n ({ s with indexer := s.indexer.set t s.indexer.indexer (.returnLoadWrite obj.index) }.set t
        (.returning obj :: rest)) S' := by
  obtain ⟨hstands, hcalls, hobj, hsound, hnested⟩ := h.top ht
  have hidle : (S.threads (some t)).pc = .idle := (h.pc t).trans hstands
  have hs : Indexer.step bits S (.ret (some t) obj.index) = some (S.set (some t)
      { pc := .returnLoadWrite obj.index, held := (S.threads (some t)).held.erase obj.index }) := if_pos hidle
  have hmem : obj.index ∈ (S.threads (some t)).held := hcalls.mem_iff.2 List.mem_cons_self
  obtain ⟨hreaches, hranged⟩ := h.reaches (c := c) (a := .ret (some t) obj.index) hn hmem (fun _ => trivial) hs
  rw [← h.indexer]
  refine ⟨_, hreaches, h.set S.indexer (.returning obj :: rest) hranged ?_ (List.forall_mem_cons.2 ⟨hobj, hsound⟩)
    ⟨rfl, rfl⟩ hnested⟩
  have herase := hcalls.erase obj.index
  rw [Frame.indices, List.singleton_append, List.erase_cons_head] at herase
  exact herase

theorem Stands.around {fs : List Frame} (h : client fs = true) : Stands .idle fs := by
  cases fs with
  | nil => rfl
  | cons f fs =>
    cases f with
    | resetting => rfl
    | _ => cases h

/-- A thread goes on in `Return`. -/
theorem Seen.giveBack {c : Prop} {sp : Bool} {ix : ConcurrentIndexer} {pc : Pc} {answer : Option IndexHolder} {obj : PoolItem}
    {rest : List Frame} (h : Seen n s S) (hn : 0 < n) (ht : s.threads t = .returning obj :: rest)
    (halone : c → LeavesAlone s.indexer.state (s.indexer.pc t))
    (hadv : advance bits s.indexer.indexer sp (s.indexer.pc t) = (ix, pc, answer)) :
    ∃ S', (Indexer.machine bits n (Option T)).Reaches (Kept c) S S' ∧
      Seen n ({ s with indexer := s.indexer.set t ix pc }.set t (if pc = Pc.idle then rest else .returning obj :: rest)) S' := by
  obtain ⟨⟨hin, hcarried⟩, hcalls, hobj, hsound, hnested⟩ := h.top ht
  have hne : s.indexer.pc t ≠ .idle := by
    intro he
    rw [he] at hin
    cases hin
  obtain ⟨hreaches, hranged⟩ := h.run hn hne halone hadv
  refine ⟨_, hreaches, ?_⟩
  obtain ⟨rfl, hpc⟩ := (Move.stands (advance_cases hadv hne)).2 hin
  rcases hpc with rfl | ⟨hpc, hin', hcarried'⟩
  · rw [if_pos rfl]
    refine h.set ix rest hranged hcalls hsound (Stands.around (h.nested.around ht)) fun g hg => ?_
    exact hnested g (List.mem_of_mem_tail hg)
  · rw [if_neg hpc]
    exact h.set ix (.returning obj :: rest) hranged hcalls (List.forall_mem_cons.2 ⟨hobj, hsound⟩)
      ⟨hin', hcarried'.trans hcarried⟩ hnested

/-- Thread `u` passes an index on. -/
theorem Seen.pass (bits : Nat) {c : Prop} {u v : Option T} {i : Nat} (h : Seen n s S) (hn : 0 < n) (hne : u ≠ v)
    (hi : i ∈ (S.threads u).held) : ∃ S', (Indexer.machine bits n (Option T)).Reaches (Kept c) S S' ∧ Ranged n S' ∧
      S'.indexer = S.indexer ∧ (∀ x, (S'.threads x).pc = (S.threads x).pc) ∧
      (S'.threads u).held = (S.threads u).held.erase i ∧ (S'.threads v).held = i :: (S.threads v).held ∧
      ∀ x, x ≠ u → x ≠ v → (S'.threads x).held = (S.threads x).held := by
  have hs : Indexer.step bits S (.give u v i) = some ((S.set u { S.threads u with held := (S.threads u).held.erase i }).set v
      { S.threads v with held := i :: (S.threads v).held }) := if_pos ⟨hne, hi⟩
  obtain ⟨hreaches, hranged⟩ := h.reaches (c := c) (a := .give u v i) hn trivial (fun _ => trivial) hs
  refine ⟨_, hreaches, hranged, rfl, Indexer.give_pc, ?_, ?_, fun x hu hv => ?_⟩
  · rw [Indexer.set_ne hne, Indexer.set_self]
  · rw [Indexer.set_self]
  · rw [Indexer.set_ne hv, Indexer.set_ne hu]

/-- `Take` constructs its object. -/
theorem Seen.item (bits : Nat) {c : Prop} {holder : IndexHolder} {rest : List Frame} (h : Seen n s S) (hn : 0 < n)
    (ht : s.threads t = .takeItem holder :: rest) : ∃ obj S', takeItem n holder = some obj ∧
      (Indexer.machine bits n (Option T)).Reaches (Kept c) S S' ∧
      Seen n ({ s with objects := s.objects ++ [some obj] }.set t rest) S' := by
  obtain ⟨hstands, hcalls, -, hsound, hnested⟩ := h.top ht
  have hidle : Stands (s.indexer.pc t) rest := by
    rw [show s.indexer.pc t = .idle from hstands]
    exact Stands.around (h.nested.around ht)
  have htail : ∀ f ∈ rest.tail, client [f] = true := fun f hf => hnested f (List.mem_of_mem_tail hf)
  have hobject : ∀ {obj : PoolItem}, obj.Sound → ∀ (k : Nat) o, (s.objects ++ [some obj])[k]?.join = some o →
      PoolItem.Sound o := by
    intro obj hobj k o ho
    rcases object_append ho with rfl | ho
    · exact hobj
    · exact h.object k o ho
  by_cases hempty : holder.empty = true
  · refine ⟨.blank, S, if_pos hempty, .refl _, ?_⟩
    rw [Frame.indices, IndexHolder.indices, if_pos hempty, List.nil_append] at hcalls
    refine h.give rfl (fun _ => rfl) ?_ hcalls (fun _ _ => rfl) (hobject .blank) hsound hidle htail h.ranged
    rw [shelved_append, show PoolItem.blank.indices = [] from rfl, List.append_nil]
    exact h.objects
  · rw [Frame.indices, IndexHolder.indices, if_neg hempty, List.singleton_append] at hcalls
    have hi : holder.value ∈ (S.threads (some t)).held := hcalls.mem_iff.2 List.mem_cons_self
    have hitem : takeItem n holder = some (.construct .returnToPool (some holder.value) holder.value) := by
      rw [takeItem, if_neg hempty, if_pos (h.ranged.held _ _ hi)]
    obtain ⟨S', hreaches, hranged, hindexer, hpc, hfrom, hto, hother⟩ := h.pass bits (c := c) hn
      (Option.some_ne_none t) hi
    refine ⟨_, S', hitem, hreaches, h.give hindexer hpc ?_ ?_ (fun u hu => ?_) (hobject (.inl rfl)) hsound hidle htail hranged⟩
    · rw [hto, shelved_append]
      exact (h.objects.cons _).trans (List.perm_append_singleton ..).symm
    · rw [hfrom]
      have herase := hcalls.erase holder.value
      rwa [List.erase_cons_head] at herase
    · exact hother _ (by simpa using hu) (by simp)

/-- An object is moved from. -/
theorem Seen.move {k : Nat} {obj : PoolItem} (h : Seen n s S) (t : T) (hobj : s.object k = some obj) :
    Seen n { s with objects := s.objects.set k (some obj.move.2) ++ [some obj.move.1] } S := by
  have hmove := (h.object k obj hobj).move
  have hset : State.set { s with objects := s.objects.set k (some obj.move.2) ++ [some obj.move.1] } t (s.threads t) =
      { s with objects := s.objects.set k (some obj.move.2) ++ [some obj.move.1] } := by
    rw [State.set, Function.update_eq_self]
  rw [← hset]
  refine h.give rfl (fun _ => rfl) (h.objects.trans ?_) (h.calls t) (fun _ _ => rfl) (fun k' o ho => ?_) (h.frame t)
    (h.stands t) (h.nested t) h.ranged
  · rw [shelved_append]
    exact ((shelved_set hobj (some obj.move.2)).symm.trans List.perm_append_comm)
  · rcases object_append ho with rfl | ho
    · exact hmove.1
    · rcases object_set ho with ho | ho
      · cases ho
        exact hmove.2
      · exact h.object k' o ho

/-- An object is destroyed. -/
theorem Seen.destroy {c : Prop} {k : Nat} {obj : PoolItem} (h : Seen n s S) (hn : 0 < n) (hc : client (s.threads t) = true)
    (hobj : s.object k = some obj) (resetable : Bool) : ∃ S', (Indexer.machine bits n (Option T)).Reaches (Kept c) S S' ∧
      Seen n ({ s with objects := s.objects.set k none }.set t (Pool.destroy resetable obj ++ s.threads t)) S' := by
  have hset := shelved_set hobj none
  rw [Option.elim_none, List.nil_append, PoolItem.indices] at hset
  have hobject : ∀ (k' : Nat) o, (s.objects.set k none)[k']?.join = some o → PoolItem.Sound o := by
    intro k' o ho
    rcases object_set ho with ho | ho
    · cases ho
    · exact h.object k' o ho
  rcases (h.object k obj hobj).destroy resetable with ⟨⟨reset, hd⟩, hsound, hempty⟩ | ⟨hd, hempty⟩
  · rw [hempty, if_neg Bool.false_ne_true, List.singleton_append] at hset
    have hi : obj.index ∈ (S.threads none).held := (h.objects.trans hset.symm).mem_iff.2 List.mem_cons_self
    obtain ⟨S', hreaches, hranged, hindexer, hpc, hfrom, hto, hother⟩ := h.pass bits (c := c) hn
      (Option.some_ne_none t).symm hi
    rw [hd, List.singleton_append]
    refine ⟨S', hreaches, h.give hindexer hpc ?_ ?_ (fun u hu => ?_) hobject (List.forall_mem_cons.2 ⟨hsound, h.frame t⟩)
      ((h.stands t).idle hc) (h.nested.client hc) hranged⟩
    · rw [hfrom]
      have herase := (h.objects.trans hset.symm).erase obj.index
      rwa [List.erase_cons_head] at herase
    · rw [hto]
      exact (h.calls t).cons _
    · exact hother _ (by simp) (by simpa using hu)
  · rw [hempty, if_pos rfl, List.nil_append] at hset
    rw [hd, List.nil_append]
    exact ⟨S, .refl _, h.give rfl (fun _ => rfl) (h.objects.trans hset.symm) (h.calls t) (fun _ _ => rfl) hobject (h.frame t)
      (h.stands t) (h.nested t) h.ranged⟩

end

/-! ## Runs -/

section
variable {T : Type} [DecidableEq T] {bits n : Nat} {resetable : Bool} {s : State (Inside T) T}
  {tr : Trace (State (Inside T) T) (AtomicAct T)}

theorem atomicPool_refines (hn : 0 < n) (hmax : 2 * n < 2 ^ bits) (c : Prop) :
    Refines (atomicPool bits resetable n T) (Indexer.machine bits n (Option T)) (fun s a => c → WaitsAlone s a) (Kept c)
      (Seen n) where
  init := by
    intro s hs
    obtain ⟨ix, hix, rfl⟩ := hs
    have hinit : (Indexer.machine bits n (Option T)).init ⟨ix, fun _ => {}⟩ := ⟨hix, fun _ => rfl⟩
    exact ⟨_, hinit, rfl, fun _ => rfl, rfl, .refl _, fun _ => .refl _, by simp [State.object], by simp,
      fun _ => rfl, fun _ _ hf => absurd hf List.not_mem_nil, .init hn hmax hinit⟩
  step := by
    intro s a s' S h hwait hs
    cases a with
    | take t =>
      simp only [atomicPool, atomicStep, Option.ite_none_right_eq_some, Option.some.injEq] at hs
      obtain ⟨hc, rfl⟩ := hs
      exact h.take hn hc
    | move t k =>
      simp only [atomicPool, atomicStep] at hs
      split at hs
      · cases hs
      · simp only [Option.ite_none_right_eq_some, Option.some.injEq] at hs
        obtain ⟨-, rfl⟩ := hs
        exact ⟨S, .refl _, h.move t ‹_›⟩
    | destroy t k =>
      simp only [atomicPool, atomicStep] at hs
      split at hs
      · cases hs
      · simp only [Option.ite_none_right_eq_some, Option.some.injEq] at hs
        obtain ⟨hc, rfl⟩ := hs
        exact h.destroy hn hc ‹_› resetable
    | get t k =>
      simp only [atomicPool, atomicStep] at hs
      split at hs
      · cases hs
      · simp only [Option.ite_none_right_eq_some, Option.some.injEq] at hs
        obtain ⟨-, rfl⟩ := hs
        exact ⟨S, .refl _, h⟩
    | run t sp =>
      simp only [atomicPool, atomicStep] at hs
      generalize hadv : advance bits s.indexer.indexer sp (s.indexer.pc t) = r at hs
      obtain ⟨ix, pc, answer⟩ := r
      split at hs
      · cases hs
      · cases hs
      · cases hs
      · have hnext := h.next (c := c) hn ‹_› hwait hadv
        cases answer <;> cases hs <;> exact hnext
      · obtain ⟨obj, S', hitem, hreaches, h'⟩ := h.item bits (c := c) hn ‹_›
        rw [hitem] at hs
        cases hs
        exact ⟨S', hreaches, h'⟩
      · cases hs
        exact h.reset hn ‹_›
      · cases hs
        exact h.giveBack hn ‹_› hwait hadv

variable [Fintype T]

/-- The places of an index are those that the indexer's clients have it in. -/
theorem Seen.places {S : Indexer.State (Option T)} (h : Seen n s S) (i : Nat) : places s i = copies S i := by
  have hunread : unread S = unread s.indexer.state := by
    have hfilter : ∀ k, (∀ u, clearsSlot s.indexer.indexer.size (S.threads u).pc k = false) ↔
        ∀ t, clearsSlot s.indexer.indexer.size (s.indexer.pc t) k = false := by
      intro k
      rw [Option.forall, h.rest]
      simp only [h.pc]
      exact and_iff_right rfl
    simp only [unread, h.indexer, Inside.state]
    exact congrArg _ (List.filter_congr fun k _ => decide_eq_decide.2 (hfilter k))
  have hcalls : ∀ t, ((s.threads t).flatMap Frame.indices).count i + (carried (s.indexer.pc t)).count i =
      (S.threads (some t)).held.count i + (carried (S.threads (some t)).pc).count i := fun t => by
    rw [(h.calls t).count_eq, h.pc]
  rw [Pool.places, copies, hunread, Fintype.sum_option, ← h.objects.count_eq, h.rest,
    Finset.sum_congr rfl fun t _ => hcalls t]
  simp only [carried, List.count_nil, Nat.add_zero, Nat.add_assoc]

/-- **A pool with `ConcurrentIndexer`**, one atomic operation at a time. Its threads
are clients of the indexer that keep the contract, whatever the interleaving, each with
the indices that its calls have, and one client more has those of the objects: `items.at`
does not throw, nothing is undefined, and an object that is not empty has the
element of its index. In every run whose waits on the slots end alone, each index is
moreover in one place: no two objects have one element, and a reset runs on an
element that no other object or call has. -/
theorem run_shared (hn : 0 < n) (hmax : 2 * n < 2 ^ bits) (hr : (atomicPool bits resetable n T).Run tr s) :
    (∃ tr' S, (Indexer.machine bits n (Option T)).Run tr' S ∧ Along Owned tr' ∧ S.indexer = s.indexer.indexer ∧
      ((S.threads none).pc = .idle ∧ (S.threads none).held.Perm (shelved s.objects)) ∧
      ∀ t, (S.threads (some t)).pc = s.indexer.pc t ∧
        (S.threads (some t)).held.Perm ((s.threads t).flatMap Frame.indices)) ∧
    (∀ t, .thrown ∉ s.threads t ∧ .undefined ∉ s.threads t) ∧
    (∀ k obj, s.object k = some obj → obj.empty = false → obj.item = some obj.index ∧ obj.index < n) ∧
    (Along WaitsAlone tr → ∀ i < n, places s i = 1) := by
  obtain ⟨tr', S, hr', hok, h⟩ := (atomicPool_refines hn hmax False).run hr fun _ _ hfalse => hfalse.elim
  refine ⟨⟨tr', S, hr', (along_and.1 hok).1, h.indexer, ⟨h.rest, h.objects⟩, fun t => ⟨h.pc t, h.calls t⟩⟩,
    fun t => ⟨h.frame t _, h.frame t _⟩, fun k obj hobj hempty => ?_, fun halone i hi => ?_⟩
  · rcases h.object k obj hobj with hown | ⟨-, hempty'⟩
    · have hmem : some obj ∈ s.objects := List.mem_of_getElem? (Option.join_eq_some_iff.1 hobj)
      have hindex : obj.index ∈ shelved s.objects := List.mem_flatMap.2 ⟨some obj, hmem, by simp [PoolItem.indices, hempty]⟩
      exact ⟨by rw [hown]; rfl, h.ranged.held none _ (h.objects.mem_iff.2 hindex)⟩
    · cases hempty.symm.trans hempty'
  · obtain ⟨tr', S, hr', hok, h⟩ := (atomicPool_refines hn hmax True).run hr fun e he _ => halone e he
    obtain ⟨hown, hslots⟩ := along_and.1 hok
    rw [h.places]
    exact (placed_of_run hn hmax hr' hown fun e he => hslots e he trivial).copies hi

end

/-- The next `k` operations of thread `t`. -/
def operations {T : Type} (t : T) (k : Nat) : List (AtomicAct T) := List.replicate k (.run t false)

/-- Thread 1 destroys what thread 0 has taken and moved; its reset takes nothing. Thread
0 calls `Take` again before the index is back in its slot, and gets it. -/
theorem run_shared_one : ∃ tr s, (atomicPool 64 true 1 (Fin 2)).Run tr s ∧ s.threads 0 = [.takeItem (.of 0)] ∧
    s.objects = [none, none, some .blank] ∧ places s 0 = 1 := by
  have h := exists_run (m := atomicPool 64 true 1 (Fin 2))
    (s := { indexer := { indexer := { writePos := 1, indices := [1, 0], size := 2, maxPositionSize := 2 ^ 64 - 2 } },
            threads := fun _ => [] })
    (l := [[.take 0], operations 0 7, [.move 0 0, .destroy 0 0, .destroy 1 1, .take 1], operations 1 6, [.take 0],
      operations 0 1, operations 1 2, operations 0 5].flatten)
    (p := fun tr s => decide (Along WaitsAlone tr) && decide (s.threads 0 = [.takeItem (.of 0)] ∧
      s.objects = [none, none, some .blank])) ⟨_, rfl, rfl⟩ (by decide +kernel)
  obtain ⟨tr, s, hr, hp⟩ := h
  rw [Bool.and_eq_true, decide_eq_true_eq, decide_eq_true_eq] at hp
  exact ⟨tr, s, hr, hp.2.1, hp.2.2, (run_shared (by decide) (by decide) hr).2.2.2 hp.1 0 (by decide)⟩

end Dxpool.Pool
