/-
What happens to one element of a pool between two hand-outs: it is accessed
through the objects that refer to it, then one reset runs on it, then its
index becomes free (`run_resets`). Each of these is an event of the run
(`use`); the stage that the life of its index has led to says which can come
next (`Turn.next`).
-/
import Dxpool.Pool.Ownership

namespace Dxpool.Pool

open Indexer Machine

/-! ## The uses of an element -/

/-- What happens to an element: a `Take` hands it out, client code gets at it
through an object, a destructor begins its reset and is through with it, its
index becomes free. -/
inductive Use
  | handOut
  | access
  | resetBegin (reset : Reset)
  | resetEnd (reset : Reset)
  | free
  deriving DecidableEq, Repr

/-- Where an element is between two hand-outs. -/
inductive Turn
  | unused
  | inUse
  | resetting
  | reset
  deriving DecidableEq, Repr

/-- The one way round, by a reset of the given kind. -/
def Turn.next (reset : Reset) : Turn → Use → Option Turn
  | .unused, .handOut => some .inUse
  | .inUse, .access => some .inUse
  | .inUse, .resetBegin r => if r = reset then some .resetting else none
  | .resetting, .resetEnd r => if r = reset then some .reset else none
  | .reset, .free => some .unused
  | _, _ => none

/-- The reset of a pool: `ItemType::Reset` where it exists. -/
def resetOf (resetable : Bool) : Reset := if resetable then .itemReset else .customResetCallback

/-- An unused element is handed out next. -/
theorem Turn.unused_run {reset : Reset} {l : List Use} {u : Turn} (h : l.foldlM (Turn.next reset) .unused = some u)
    (hno : .handOut ∉ l) : l = [] := by
  cases l with
  | nil => rfl
  | cons e l => cases e <;> simp_all [Turn.next]

/-- From its hand-out an element gets round by accesses, one reset, and the
return of its index. -/
theorem Turn.inUse_run {reset : Reset} {l : List Use} (h : l.foldlM (Turn.next reset) .inUse = some .unused)
    (hno : .handOut ∉ l) : ∃ a, l = .replicate a .access ++ [.resetBegin reset, .resetEnd reset, .free] := by
  induction l with
  | nil => cases h
  | cons e l ih =>
    rw [List.foldlM_cons] at h
    cases e with
    | handOut => exact absurd List.mem_cons_self hno
    | access =>
      obtain ⟨a, rfl⟩ := ih h fun hl => hno (List.mem_cons_of_mem _ hl)
      exact ⟨a + 1, rfl⟩
    | resetBegin r =>
      refine ⟨0, ?_⟩
      by_cases hr : r = reset
      swap
      · simp [Turn.next, hr] at h
      subst hr
      simp only [Turn.next, if_true, Option.bind_eq_bind, Option.bind_some] at h
      match l, h with
      | .resetEnd r' :: .free :: l, h =>
        simp only [List.foldlM_cons, Turn.next, Option.bind_eq_bind, Option.bind_eq_some_iff] at h
        obtain ⟨_, hr', h⟩ := h
        split at hr'
        · cases hr'
          obtain ⟨_, hf, h⟩ := h
          cases hf
          rw [Turn.unused_run h fun hl => hno (by simp [hl])]
          simp_all
        · cases hr'
      | [], h => cases h
      | .resetEnd r' :: [], h | .resetEnd r' :: .handOut :: _, h | .resetEnd r' :: .access :: _, h
      | .resetEnd r' :: .resetBegin _ :: _, h | .resetEnd r' :: .resetEnd _ :: _, h =>
        by_cases hr' : r' = r <;> simp [Turn.next, hr'] at h
      | .handOut :: _, h | .access :: _, h | .resetBegin _ :: _, h | .free :: _, h => cases h
    | resetEnd | free => cases h

/-- **Between two hand-outs.** -/
theorem Turn.between {reset : Reset} {l₁ mid l₂ : List Use} {u : Turn}
    (h : (l₁ ++ .handOut :: mid ++ .handOut :: l₂).foldlM (Turn.next reset) .unused = some u) (hno : .handOut ∉ mid) :
    ∃ a, mid = .replicate a .access ++ [.resetBegin reset, .resetEnd reset, .free] := by
  simp only [List.foldlM_append, List.foldlM_cons, Option.bind_eq_bind, Option.bind_eq_some_iff] at h
  obtain ⟨u₁, ⟨u₂, -, u₃, h₃, hmid⟩, u₄, h₄, -⟩ := h
  have hstart : ∀ {u v : Turn}, u.next reset .handOut = some v → u = .unused ∧ v = .inUse := by
    intro u v h
    cases u <;> simp_all [Turn.next]
  obtain ⟨-, rfl⟩ := hstart h₃
  obtain ⟨rfl, -⟩ := hstart h₄
  exact Turn.inUse_run hmid hno

section
variable {ι T : Type}

/-- What a step does to element `i`. -/
def use (resetable : Bool) (numItems i : Nat) (s : State ι T) : Act T → Option Use
  | .take _ | .move _ _ => none
  | .get _ k => if ∃ obj ∈ s.object k, obj.item = some i then some .access else none
  | .destroy _ k =>
    match (s.object k).elim [] (Pool.destroy resetable) with
    | .resetting reset obj :: _ => if obj.item = some i then some (.resetBegin reset) else none
    | _ => none
  | .run t =>
    match s.threads t with
    | .takeItem holder :: _ => if ∃ obj ∈ takeItem numItems holder, obj.item = some i then some .handOut else none
    | .resetting reset obj :: _ => if obj.item = some i then some (.resetEnd reset) else none
    | .returning obj :: _ => if obj.index = i then some .free else none
    | _ => none

end

/-! ## The objects that refer to an element -/

/-- An object is empty when it refers to no element. -/
def PoolItem.Matched (obj : PoolItem) : Prop := obj.empty = obj.item.isNone

/-- A sound object refers to the element that its index is of. -/
theorem PoolItem.Sound.item_iff {obj : PoolItem} (h : obj.Sound) (hm : obj.Matched) (i : Nat) :
    obj.item = some i ↔ obj.holds i := by
  rcases h with h | ⟨-, hempty⟩
  · rw [h]
    simp [PoolItem.holds, PoolItem.construct]
  · have hnone : obj.item = none := by rw [PoolItem.Matched, hempty] at hm; simpa using hm.symm
    simp [PoolItem.holds, hempty, hnone]

/-- The same in a destruction in progress. -/
theorem Frame.Sound.item_iff {reset : Reset} {obj : PoolItem} (h : (Frame.resetting reset obj).Sound) (i : Nat) :
    obj.item = some i ↔ obj.index = i := by
  rw [show obj = _ from h]
  simp [PoolItem.construct]

theorem takeItem_matched {numItems : Nat} {holder : IndexHolder} {obj : PoolItem}
    (h : takeItem numItems holder = some obj) : obj.Matched := by
  unfold takeItem at h
  split at h
  · cases h; rfl
  · split at h <;> cases h
    rfl

theorem reset_of_destroy {resetable : Bool} {obj o : PoolItem} {r : Reset}
    (h : .resetting r o ∈ destroy resetable obj) : r = resetOf resetable := by
  unfold destroy at h
  split at h
  · cases h
  · rw [List.mem_singleton] at h
    unfold invokeReset at h
    split at h
    · split at h <;> cases h
      simp [resetOf, *]
    · cases h
      simp [resetOf, *]

section
variable {ι T : Type} {calls : Calls ι} {n : Nat} {s s' : State ι T} {resetable : Bool}

/-- All objects are matched, and all resets in progress are of the pool's kind. -/
structure Kinds (resetable : Bool) (s : State ι T) : Prop where
  object : ∀ k obj, s.object k = some obj → obj.Matched
  reset : ∀ t r obj, .resetting r obj ∈ s.threads t → r = resetOf resetable

variable [DecidableEq T]

theorem Kinds.step {a : Act T} (h : Kinds resetable s) (hs : Step calls resetable n s a s') : Kinds resetable s' := by
  have hset : ∀ {s₁ : State ι T} {t fs}, s₁.threads = s.threads → s₁.objects = s.objects →
      (∀ r obj, .resetting r obj ∈ fs → .resetting r obj ∈ s.threads t ∨ r = resetOf resetable) →
      Kinds resetable (s₁.set t fs) := by
    intro s₁ t fs ht ho hfs
    refine ⟨fun k obj hk => h.object k obj (by rw [State.object, ← ho]; exact hk), fun u r obj hu => ?_⟩
    by_cases hut : u = t
    · subst hut
      rw [set_self] at hu
      rcases hfs r obj hu with hold | hr
      · exact h.reset u r obj hold
      · exact hr
    · rw [set_ne hut, ht] at hu
      exact h.reset u r obj hu
  have hrest : ∀ {t f fs}, s.threads t = f :: fs → ∀ r obj, .resetting r obj ∈ fs → .resetting r obj ∈ s.threads t :=
    fun ht r obj hr => by rw [ht]; exact List.mem_cons_of_mem _ hr
  cases hs with
  | take => exact hset rfl rfl fun r obj hr => .inl (by simpa using hr)
  | @move t k obj hc hobj =>
    refine ⟨fun k' obj' h' => ?_, h.reset⟩
    rcases object_append h' with rfl | h'
    · exact h.object k obj hobj
    · rcases object_set h' with h' | h'
      · cases h'; rfl
      · exact h.object k' obj' h'
  | @destroy t k obj hc hobj =>
    have hk := @hset s t (Pool.destroy resetable obj ++ s.threads t) rfl rfl fun r o hr => by
      rcases List.mem_append.1 hr with hr | hr
      · exact .inr (reset_of_destroy hr)
      · exact .inl hr
    refine ⟨fun k' obj' h' => ?_, hk.reset⟩
    rcases object_set h' with h' | h'
    · cases h'
    · exact h.object k' obj' h'
  | get => exact h
  | @item t holder rest obj ht hobj =>
    have hk := @hset s t rest rfl rfl fun r obj hr => .inl (hrest ht r obj hr)
    refine ⟨fun k' obj' h' => ?_, hk.reset⟩
    rcases object_append h' with rfl | h'
    · exact takeItem_matched hobj
    · exact h.object k' obj' h'
  | next ht | nextUndefined ht | itemThrown ht | reset ht | giveBackUndefined ht =>
    exact hset rfl rfl fun r obj hr => .inl (hrest ht r obj (by simpa using hr))
  | giveBack ht => exact hset rfl rfl fun r obj hr => .inl (hrest ht r obj hr)

theorem kinds_of_run {start : ι} {tr : Trace (State ι T) (Act T)} (hr : (machine calls start resetable n T).Run tr s) :
    Kinds resetable s :=
  hr.invariant' (fun s h => by subst h; exact ⟨by simp [State.object], by simp⟩) (fun _ _ _ hi h => hi.step (step_cases h))

end

/-! ## Every run -/

/-- Where an element is when its index is at a stage. -/
def Stage.turn : Stage → Turn
  | .free | .taken => .unused
  | .held _ => .inUse
  | .destroyed => .resetting
  | .reset => .reset

/-- What an element undergoes when its index does. -/
def Event.use (reset : Reset) : Event → Option Use
  | .next | .move _ _ => none
  | .item _ => some .handOut
  | .destroy _ => some (.resetBegin reset)
  | .reset => some (.resetEnd reset)
  | .giveBack => some .free

/-- A step of an index takes its element round. -/
theorem Stage.next_turn {reset : Reset} {st st' : Stage} {e : Event} (h : st.next e = some st') :
    (e.use reset).toList.foldlM (Turn.next reset) st.turn = some st'.turn := by
  cases st <;> cases e <;> simp_all [Stage.next, Event.use, Stage.turn, Turn.next] <;> (obtain ⟨-, rfl⟩ := h; rfl)

section
variable {ι T : Type} [Fintype T] {calls : Calls ι} {n i : Nat} {bag : Bag calls n} {resetable : Bool}
  {tr : Trace (State ι T) (Act T)} {s s' : State ι T}

/-- An element that a destructor resets has no object. -/
theorem Ownership.unreferenced (h : Ownership bag tr s) (hkinds : Kinds resetable s) {t : T} {reset : Reset}
    {obj o : PoolItem} {k : Nat} (hf : .resetting reset obj ∈ s.threads t) (hk : s.object k = some o)
    (hi : obj.item = some i) : o.item ≠ some i := by
  intro ho
  have hidx := (Frame.Sound.item_iff (h.frame t _ hf) i).1 hi
  have hholds := ((h.object k o hk).item_iff (hkinds.object k o hk) i).1 ho
  have h₁ : Stage.destroyed ∈ whereabouts (bag.free s.indexer) s i := mem_whereabouts_call hf (by simp [Frame.at, hidx])
  have h₂ : Stage.held k ∈ whereabouts (bag.free s.indexer) s i :=
    mem_whereabouts_object (object_lt hk) (by rw [hk, atObject_some, if_pos hholds]; exact Multiset.mem_singleton_self _)
  obtain ⟨st, hw, -⟩ := h.one i (h.lt h₁)
  rw [hw, Multiset.mem_singleton] at h₁ h₂
  rw [← h₁] at h₂
  cases h₂

variable [DecidableEq T]

/-- An element undergoes what its index does, and is accessed only while an
object refers to it. -/
theorem Ownership.use (h : Ownership bag tr s) (hkinds : Kinds resetable s) {a : Act T}
    (hs : Step calls resetable n s a s') :
    use resetable n i s a = (event calls i s a).bind (Event.use (resetOf resetable)) ∨
    event calls i s a = none ∧ use resetable n i s a = some .access ∧
      ∃ k, Stage.held k ∈ whereabouts (bag.free s.indexer) s i := by
  have hitem : ∀ {k obj}, s.object k = some obj → (obj.item = some i ↔ obj.holds i) := fun hk =>
    (h.object _ _ hk).item_iff (hkinds.object _ _ hk) i
  cases hs with
  | take => exact .inl rfl
  | @move t k obj hc hobj =>
    left
    by_cases hi : obj.holds i <;> simp [Pool.use, event, hobj, hi, Event.use]
  | @destroy t k obj hc hobj =>
    left
    have hiff := hitem hobj
    rcases h.object k obj hobj with hown | ⟨hcb, hempty⟩
    · obtain ⟨reset, hd⟩ := destroy_owning resetable obj.index
      rw [← hown] at hd
      have hr : reset = resetOf resetable := reset_of_destroy (by rw [hd]; exact List.mem_cons_self)
      subst hr
      by_cases hi : obj.holds i <;> simp [Pool.use, event, hobj, hd, hiff, hi, Event.use]
    · have hno : ¬obj.holds i := by simp [PoolItem.holds, hempty]
      simp [Pool.use, event, hobj, Pool.destroy, hcb, hno]
  | @get t k obj hc hobj hempty =>
    by_cases hi : obj.item = some i
    · refine .inr ⟨rfl, by simp [Pool.use, hobj, hi], k, ?_⟩
      exact mem_whereabouts_object (object_lt hobj) (by simp [hobj, (hitem hobj).1 hi])
    · exact .inl (by simp [Pool.use, event, hobj, hi])
  | @next t rest holder indexer ht hnext =>
    left
    by_cases hi : i ∈ holder.indices <;> simp [Pool.use, event, ht, hnext, hi, Event.use]
  | nextUndefined ht hnext => exact .inl (by simp [Pool.use, event, ht, hnext])
  | @item t holder rest obj ht hobj =>
    left
    obtain ⟨hsound, -, hholds⟩ := takeItem_sound hobj
    have hiff := (hsound.item_iff (takeItem_matched hobj) i).trans (hholds i)
    by_cases hi : i ∈ holder.indices <;> simp [Pool.use, event, ht, hobj, hiff, hi, Event.use]
  | @itemThrown t holder rest ht hobj => exact absurd hobj (h.takeItem_ne_none ht)
  | @reset t reset obj rest ht =>
    left
    have hmem : .resetting reset obj ∈ s.threads t := by rw [ht]; exact List.mem_cons_self
    have hr := hkinds.reset t reset obj hmem
    have hiff := (h.frame t _ hmem).item_iff i
    subst hr
    by_cases hi : obj.index = i <;> simp [Pool.use, event, ht, hiff, hi, Event.use]
  | @giveBack t obj rest indexer ht =>
    left
    by_cases hi : obj.index = i <;> simp [Pool.use, event, ht, hi, Event.use]
  | @giveBackUndefined t obj rest ht =>
    left
    by_cases hi : obj.index = i <;> simp [Pool.use, event, ht, hi, Event.use]

/-- The uses of an element take it where the life of its index has led. -/
theorem turn_of_run {start : ι} (hinv : bag.inv start) (hfree : (bag.free start).Perm (List.range n))
    (hr : (machine calls start resetable n T).Run tr s) (hi : i < n) {st : Stage} (hst : life calls i tr = some st) :
    (log (use resetable n i) tr).foldlM (Turn.next (resetOf resetable)) .unused = some st.turn := by
  induction hr generalizing st with
  | init => cases hst; rfl
  | @step tr s a s' hr hs ih =>
    have hown := ownership_of_run hinv hfree hr
    obtain ⟨st₀, hw, hl⟩ := hown.one i hi
    have hfold := ih hl
    have hlog : log (use resetable n i) ((s, a) :: tr) = log (use resetable n i) tr ++ (use resetable n i s a).toList := rfl
    rw [hlog, List.foldlM_append, hfold]
    rcases hown.use (kinds_of_run hr) (step_cases hs) (i := i) with huse | ⟨he, huse, k, hk⟩
    · cases he : event calls i s a with
      | none =>
        rw [life_none he, hl] at hst
        cases hst
        rw [huse, he]
        rfl
      | some e =>
        rw [life_some he hl] at hst
        rw [huse, he]
        exact Stage.next_turn hst
    · rw [life_none he, hl] at hst
      cases hst
      rw [hw, Multiset.mem_singleton] at hk
      subst hk
      rw [huse]
      rfl

end

section
variable {bits n : Nat} {resetable : Bool} {T : Type} [DecidableEq T] [Fintype T]
  {tr : Trace (State MutexIndexer T) (Act T)} {s : State MutexIndexer T}

/-- **One reset between two uses.** Between two consecutive hand-outs of an
element, it is accessed some times, then one reset begins and ends, of the
kind the item type has, and then its index becomes free; and while a reset
runs no object refers to its element. -/
theorem run_resets (hn : n < 2 ^ bits) (hr : (mutexPool bits resetable n T).Run tr s) :
    (∀ i < n, ∀ l₁ mid l₂, log (use resetable n i) tr = l₁ ++ .handOut :: mid ++ .handOut :: l₂ → .handOut ∉ mid →
      ∃ a, mid = .replicate a .access ++ [.resetBegin (resetOf resetable), .resetEnd (resetOf resetable), .free]) ∧
    ∀ t reset obj, .resetting reset obj ∈ s.threads t → reset = resetOf resetable ∧
      ∃ i < n, obj.item = some i ∧ ∀ k o, s.object k = some o → o.item ≠ some i := by
  obtain ⟨hinv, hfree⟩ := mutexBag_construct hn
  have hown := ownership_of_run hinv hfree hr
  have hkinds := kinds_of_run hr
  refine ⟨fun i hi l₁ mid l₂ hlog hno => ?_, fun t reset obj hf => ⟨hkinds.reset t reset obj hf, ?_⟩⟩
  · obtain ⟨st, -, hl⟩ := hown.one i hi
    have hturn := turn_of_run hinv hfree hr hi hl
    rw [hlog] at hturn
    exact Turn.between hturn hno
  · have hsome : obj.item = some obj.index := ((hown.frame t _ hf).item_iff obj.index).2 rfl
    have hat : Stage.destroyed ∈ (Frame.resetting reset obj).at obj.index := by simp [Frame.at]
    have hlt := hown.lt (mem_whereabouts_call hf hat)
    exact ⟨obj.index, hlt, hsome, fun k o hk => hown.unreferenced hkinds hf hk hsome⟩

end

/-- Thread 0 takes the only item, accesses it, moves it and destroys what it
was moved to; thread 1 takes nothing while the reset runs, and then the item. -/
theorem run_resets_one : ∃ tr s mid, (mutexPool 64 false 1 (Fin 2)).Run tr s ∧
    log (use false 1 0) tr = .handOut :: mid ++ [.handOut] ∧ mid.length = 4 ∧
    ∃ a, mid = .replicate a .access ++ [.resetBegin .customResetCallback, .resetEnd .customResetCallback, .free] := by
  have h := exists_run (m := mutexPool 64 false 1 (Fin 2)) (s := { indexer := .construct 1, threads := fun _ => [] })
    (l := [.take 0, .run 0, .run 0, .get 0 0, .move 0 0, .destroy 0 0, .destroy 0 1, .take 1, .run 1, .run 1, .run 0,
      .run 0, .take 1, .run 1, .run 1])
    (p := fun tr _ => decide (log (use false 1 0) tr = .handOut :: ((log (use false 1 0) tr).tail.take 4) ++ [.handOut] ∧
      ((log (use false 1 0) tr).tail.take 4).length = 4 ∧ .handOut ∉ (log (use false 1 0) tr).tail.take 4)) rfl
    (by decide +kernel)
  obtain ⟨tr, s, hr, hp⟩ := h
  simp only [decide_eq_true_eq] at hp
  obtain ⟨hlog, hlen, hno⟩ := hp
  exact ⟨tr, s, _, hr, hlog, hlen, (run_resets (by decide) hr).1 0 (by decide) [] _ [] hlog hno⟩

end Dxpool.Pool
