/-
Ownership of pool items: in every state an index is free, or in the hands of
one call, or held by one object (`whereabouts`), and along every run it goes
round the same way: taken, held, moved from object to object, destroyed with
the last of them, reset, returned (`Stage.next`).

The callback of an object is the invariant behind it: the objects that return
an index when destroyed are those that are not empty. A move leaves an empty
one behind.
-/
import Dxpool.Pool.Items
import Dxpool.Tally
import Mathlib.Data.Multiset.Replicate

namespace Dxpool.Pool

open Indexer Machine

/-! ## The life of an index -/

/-- Where an index is: free, in a `Take` that has it, held by an object, in a
destruction before or after the reset. -/
inductive Stage
  | free
  | taken
  | held (k : Nat)
  | destroyed
  | reset
  deriving DecidableEq, Repr

/-- What happens to an index. -/
inductive Event
  | next
  | item (k : Nat)
  | move (k k' : Nat)
  | destroy (k : Nat)
  | reset
  | giveBack
  deriving DecidableEq, Repr

/-- The one way round. -/
def Stage.next : Stage → Event → Option Stage
  | .free, .next => some .taken
  | .taken, .item k => some (.held k)
  | .held k, .move k₁ k₂ => if k = k₁ then some (.held k₂) else none
  | .held k, .destroy k₁ => if k = k₁ then some .destroyed else none
  | .destroyed, .reset => some .reset
  | .reset, .giveBack => some .free
  | _, _ => none

/-- An object that holds index `i`. -/
def PoolItem.holds (i : Nat) (obj : PoolItem) : Prop := obj.empty = false ∧ obj.index = i

instance (i : Nat) (obj : PoolItem) : Decidable (obj.holds i) := inferInstanceAs (Decidable (_ ∧ _))

section
variable {ι T : Type}

/-- What a step does to index `i`. -/
def event (calls : Calls ι) (i : Nat) (s : State ι T) : Act T → Option Event
  | .take _ | .get _ _ => none
  | .move _ k => if ∃ obj ∈ s.object k, obj.holds i then some (.move k s.objects.length) else none
  | .destroy _ k => if ∃ obj ∈ s.object k, obj.holds i then some (.destroy k) else none
  | .run t =>
    match s.threads t with
    | .takeNext :: _ => if ∃ r ∈ calls.next s.indexer, i ∈ r.1.indices then some .next else none
    | .takeItem holder :: _ => if i ∈ holder.indices then some (.item s.objects.length) else none
    | .resetting _ obj :: _ => if obj.index = i then some .reset else none
    | .returning obj :: _ => if obj.index = i then some .giveBack else none
    | _ => none

/-- The stage of index `i` after a run, unless it went another way. -/
def life (calls : Calls ι) (i : Nat) (tr : Trace (State ι T) (Act T)) : Option Stage :=
  (log (event calls i) tr).foldlM Stage.next .free

/-! ## Where an index is -/

/-- Where a call has index `i`. -/
def Frame.at (i : Nat) : Frame → Multiset Stage
  | .takeItem holder => if i ∈ holder.indices then {.taken} else 0
  | .resetting _ obj => if obj.index = i then {.destroyed} else 0
  | .returning obj => if obj.index = i then {.reset} else 0
  | .takeNext | .thrown | .undefined => 0

/-- Where the calls of a thread have index `i`. -/
def atFrames (i : Nat) (frames : List Frame) : Multiset Stage := (frames.map (Frame.at i)).sum

/-- Where object `k` has index `i`. -/
def atObject (i k : Nat) (obj : Option PoolItem) : Multiset Stage :=
  if ∃ o ∈ obj, o.holds i then {.held k} else 0

/-- All places where index `i` is: once for each time it is free, for each
object that holds it and for each call that has it. -/
def whereabouts [Fintype T] (free : List Nat) (s : State ι T) (i : Nat) : Multiset Stage :=
  .replicate (free.count i) .free + ∑ k ∈ Finset.range s.objects.length, atObject i k (s.object k) +
    ∑ t, atFrames i (s.threads t)

end

section
variable {ι T : Type} [Fintype T] {s : State ι T} {t : T} {i k : Nat} {b b' : List Nat}

@[simp] theorem atFrames_nil : atFrames i [] = 0 := rfl

@[simp] theorem atFrames_cons (f : Frame) (fs : List Frame) : atFrames i (f :: fs) = f.at i + atFrames i fs := rfl

theorem whereabouts_object (o : Option PoolItem) (hk : k < s.objects.length) :
    whereabouts b { s with objects := s.objects.set k o } i + atObject i k (s.object k) =
      whereabouts b s i + atObject i k o := by
  have h := Tally.sum_replace (f := fun k => atObject i k (s.object k))
    (g := fun k' => atObject i k' (s.objects.set k o)[k']?.join) (Finset.mem_range.2 hk) fun b _ hb => by
      simp only [State.object, List.getElem?_set_ne (Ne.symm hb)]
  simp only [List.getElem?_set_self hk, Option.join_some] at h
  simp only [whereabouts, State.object, List.length_set] at h ⊢
  rw [add_right_comm, add_assoc _ _ (atObject _ _ _), h]
  ac_rfl

theorem whereabouts_append (o : Option PoolItem) :
    whereabouts b { s with objects := s.objects ++ [o] } i =
      whereabouts b s i + atObject i s.objects.length o := by
  have h : ∀ k ∈ Finset.range s.objects.length, atObject i k (s.objects ++ [o])[k]?.join = atObject i k (s.object k) :=
    fun k hk => by rw [List.getElem?_append_left (Finset.mem_range.1 hk), State.object]
  simp only [whereabouts, State.object, List.length_append, List.length_singleton, Finset.sum_range_succ] at h ⊢
  rw [Finset.sum_congr rfl h]
  simp only [List.getElem?_concat_length, Option.join_some]
  ac_rfl

theorem mem_whereabouts_free (h : i ∈ b) : .free ∈ whereabouts b s i := by
  simp only [whereabouts, Multiset.mem_add, Multiset.mem_replicate]
  exact .inl (.inl ⟨(List.count_pos_iff.2 h).ne', trivial⟩)

theorem mem_whereabouts_object {st : Stage} (hk : k < s.objects.length) (h : st ∈ atObject i k (s.object k)) :
    st ∈ whereabouts b s i := by
  simp only [whereabouts, Multiset.mem_add, Multiset.mem_sum]
  exact .inl (.inr ⟨k, Finset.mem_range.2 hk, h⟩)

/-- A call that has an index has it among all places of the index. -/
theorem mem_whereabouts_call {st : Stage} {f : Frame} (hf : f ∈ s.threads t) (h : st ∈ f.at i) :
    st ∈ whereabouts b s i := by
  have hmem : st ∈ atFrames i (s.threads t) := by
    generalize s.threads t = fs at hf
    induction fs with
    | nil => cases hf
    | cons g fs ih =>
      rw [atFrames_cons, Multiset.mem_add]
      rcases List.mem_cons.1 hf with rfl | hf
      · exact .inl h
      · exact .inr (ih hf)
  simp only [whereabouts, Multiset.mem_add, Multiset.mem_sum]
  exact .inr ⟨t, Finset.mem_univ t, hmem⟩

theorem mem_whereabouts_frame {st : Stage} {f : Frame} {fs : List Frame} (ht : s.threads t = f :: fs) (h : st ∈ f.at i) :
    st ∈ whereabouts b s i :=
  mem_whereabouts_call (by rw [ht]; exact List.mem_cons_self) h

theorem whereabouts_free {holder : IndexHolder} (h : b.Perm (holder.indices ++ b')) :
    whereabouts b s i = whereabouts b' s i + if i ∈ holder.indices then {.free} else 0 := by
  have hcount : holder.indices.count i = if i ∈ holder.indices then 1 else 0 := by
    unfold IndexHolder.indices
    split
    · simp
    · by_cases h : i = holder.value
      · simp [h]
      · simp [h, Ne.symm h]
  simp only [whereabouts, h.count_eq i, List.count_append, hcount, Multiset.replicate_add]
  split
  · rw [Multiset.replicate_one]; ac_rfl
  · rw [Multiset.replicate_zero]; ac_rfl

variable [DecidableEq T]

theorem whereabouts_set (fs : List Frame) :
    whereabouts b (s.set t fs) i + atFrames i (s.threads t) = whereabouts b s i + atFrames i fs := by
  have h := Tally.sum_update s.threads (atFrames i) t fs
  simp only [whereabouts, State.set, State.object, add_assoc] at h ⊢
  rw [h]

end

/-! ## The invariant -/

/-- An object that returns an index holds its item, one that does not is empty. -/
def PoolItem.Sound (obj : PoolItem) : Prop :=
  obj = .construct .returnToPool (some obj.index) obj.index ∨ (obj.onDestroyCallback = .noOp ∧ obj.empty = true)

/-- A destruction in progress is of an object that holds an item. -/
def Frame.Sound : Frame → Prop
  | .takeNext | .takeItem _ => True
  | .resetting _ obj | .returning obj => obj = .construct .returnToPool (some obj.index) obj.index
  | .thrown | .undefined => False

theorem PoolItem.Sound.blank : blank.Sound := .inr ⟨rfl, rfl⟩

/-- A move leaves an object that is sound, as is the new one. -/
theorem PoolItem.Sound.move {obj : PoolItem} (h : obj.Sound) : obj.move.1.Sound ∧ obj.move.2.Sound :=
  ⟨h, .inr ⟨rfl, rfl⟩⟩

section
variable {ι T : Type} [Fintype T] {calls : Calls ι} {n : Nat}

/-- Objects and calls are sound, and each index is in one place: the one its
life so far has led to. -/
structure Ownership (bag : Bag calls n) (tr : Trace (State ι T) (Act T)) (s : State ι T) : Prop where
  inv : bag.inv s.indexer
  object : ∀ k obj, s.object k = some obj → obj.Sound
  frame : ∀ t, ∀ f ∈ s.threads t, f.Sound
  one : ∀ i < n, ∃ st, whereabouts (bag.free s.indexer) s i = {st} ∧ life calls i tr = some st
  out : ∀ i, n ≤ i → whereabouts (bag.free s.indexer) s i = 0

variable {bag : Bag calls n} {tr : Trace (State ι T) (Act T)} {s : State ι T}

theorem Ownership.card_le (h : Ownership bag tr s) (i : Nat) : (whereabouts (bag.free s.indexer) s i).card ≤ 1 := by
  by_cases hi : i < n
  · obtain ⟨st, hw, -⟩ := h.one i hi
    simp [hw]
  · simp [h.out i (by omega)]

theorem Ownership.lt (h : Ownership bag tr s) {i : Nat} {st : Stage} (hst : st ∈ whereabouts (bag.free s.indexer) s i) :
    i < n := by
  by_contra hi
  rw [h.out i (by omega)] at hst
  exact absurd hst (Multiset.notMem_zero _)

theorem Ownership.free_nodup (h : Ownership bag tr s) : (bag.free s.indexer).Nodup := by
  refine List.nodup_iff_count_le_one.2 fun i => ?_
  have := h.card_le i
  simp only [whereabouts, Multiset.card_add, Multiset.card_replicate] at this
  omega

theorem Ownership.free_lt (h : Ownership bag tr s) : ∀ i ∈ bag.free s.indexer, i < n := fun _ hi =>
  h.lt (mem_whereabouts_free hi)

/-- An index that a call has is not free. -/
theorem Ownership.not_free (h : Ownership bag tr s) {t : T} {i : Nat} {f : Frame} {fs : List Frame} {st : Stage}
    (ht : s.threads t = f :: fs) (hf : f.at i = {st}) : i ∉ bag.free s.indexer := by
  intro hi
  have hcount := List.count_pos_iff.2 hi
  have hcard := h.card_le i
  have hsum := Finset.single_le_sum (f := fun t => atFrames i (s.threads t)) (fun _ _ => Multiset.zero_le _)
    (Finset.mem_univ t)
  have hle := Multiset.card_le_card hsum
  simp only [ht, atFrames_cons, hf, Multiset.card_add, Multiset.card_singleton] at hle
  simp only [whereabouts, Multiset.card_add, Multiset.card_replicate] at hcard
  omega

/-- A destruction that has run the reset can return its index. -/
theorem Ownership.giveBack (h : Ownership bag tr s) {t : T} {obj : PoolItem} {fs : List Frame}
    (ht : s.threads t = .returning obj :: fs) : ∃ x', calls.giveBack s.indexer obj.index = some x' ∧ bag.inv x' ∧
      (bag.free x').Perm (obj.index :: bag.free s.indexer) := by
  have hat : Frame.at obj.index (.returning obj) = {.reset} := by simp [Frame.at]
  refine bag.giveBack h.inv (List.nodup_cons.2 ⟨h.not_free ht hat, h.free_nodup⟩) fun j hj => ?_
  rcases List.mem_cons.1 hj with rfl | hj
  · exact h.lt (mem_whereabouts_frame ht (by rw [hat]; exact Multiset.mem_singleton_self _))
  · exact h.free_lt j hj

/-- `items.at` does not throw. -/
theorem Ownership.takeItem_ne_none (h : Ownership bag tr s) {t : T} {holder : IndexHolder} {fs : List Frame}
    (ht : s.threads t = .takeItem holder :: fs) : takeItem n holder ≠ none := by
  intro hnone
  unfold takeItem at hnone
  split at hnone
  · cases hnone
  · rename_i he
    have hin : holder.value ∈ holder.indices := by simp [IndexHolder.indices, he]
    have hat : Stage.taken ∈ Frame.at holder.value (.takeItem holder) := by simp [Frame.at, hin]
    have := h.lt (mem_whereabouts_frame ht hat)
    simp [this] at hnone

/-- Index `i` after a step: where it was, or one stage further. -/
def Follows (calls : Calls ι) (s : State ι T) (a : Act T) (i : Nat) (w w' : Multiset Stage) : Prop :=
  (event calls i s a = none ∧ w' = w) ∨ ∃ e st st', event calls i s a = some e ∧ st ∈ w ∧ st.next e = some st' ∧
    w' + {st} = w + {st'}

omit [Fintype T] in
/-- A step that moves index `i` on, if it is the index the step is about. -/
theorem Follows.of_ite {a : Act T} {i : Nat} {w w' : Multiset Stage} {p : Prop} [Decidable p] {e : Event} {x y : Stage}
    (hevent : event calls i s a = if p then some e else none) (hx : p → x ∈ w) (hnext : x.next e = some y)
    (hw : w' + (if p then {x} else 0) = w + if p then {y} else 0) : Follows calls s a i w w' := by
  by_cases hp : p
  · rw [if_pos hp] at hevent
    rw [if_pos hp, if_pos hp] at hw
    exact .inr ⟨e, x, y, hevent, hx hp, hnext, hw⟩
  · rw [if_neg hp] at hevent
    rw [if_neg hp, if_neg hp, add_zero, add_zero] at hw
    exact .inl ⟨hevent, hw⟩

/-! ## Steps -/

omit [Fintype T] in
theorem object_lt {k : Nat} {obj : PoolItem} (h : s.object k = some obj) : k < s.objects.length := by
  by_contra hk
  rw [State.object, List.getElem?_eq_none (by omega)] at h
  cases h

@[simp] theorem atObject_some (i k : Nat) (obj : PoolItem) :
    atObject i k (some obj) = if obj.holds i then {.held k} else 0 := by simp [atObject]

@[simp] theorem atObject_none (i k : Nat) : atObject i k none = 0 := by simp [atObject]

/-- `Take` constructs an object that holds what it took. -/
theorem takeItem_sound {holder : IndexHolder} {obj : PoolItem} (h : takeItem n holder = some obj) :
    obj.Sound ∧ obj.empty = holder.empty ∧ ∀ i, obj.holds i ↔ i ∈ holder.indices := by
  unfold takeItem at h
  split at h
  · rename_i he
    cases h
    exact ⟨.blank, he.symm, by simp [PoolItem.holds, PoolItem.blank, PoolItem.construct, IndexHolder.indices, he]⟩
  · rename_i he
    simp only [Option.ite_none_right_eq_some, Option.some.injEq] at h
    obtain ⟨-, rfl⟩ := h
    simp only [Bool.not_eq_true] at he
    exact ⟨.inl rfl, he.symm, by simp [PoolItem.holds, PoolItem.construct, IndexHolder.indices, he, eq_comm]⟩

/-- The destructor of an object that holds an item starts its reset. -/
theorem destroy_owning (resetable : Bool) (i : Nat) : ∃ reset, destroy resetable (.construct .returnToPool (some i) i) =
    [.resetting reset (.construct .returnToPool (some i) i)] := by
  cases resetable
  · exact ⟨.customResetCallback, rfl⟩
  · exact ⟨.itemReset, rfl⟩

variable [DecidableEq T]

/-- A step inside a call, that leaves objects and b indices as they are. -/
theorem whereabouts_frame {b : List Nat} {t : T} {i : Nat} {f g : Frame} {fs : List Frame}
    (ht : s.threads t = f :: fs) :
    whereabouts b (s.set t (g :: fs)) i + f.at i = whereabouts b s i + g.at i := by
  have h := whereabouts_set (s := s) (t := t) (i := i) (b := b) (g :: fs)
  rw [ht, atFrames_cons, atFrames_cons, ← add_assoc, ← add_assoc] at h
  exact add_right_cancel h

/-- A call that ends. -/
theorem whereabouts_pop {b : List Nat} {t : T} {i : Nat} {f : Frame} {fs : List Frame}
    (ht : s.threads t = f :: fs) : whereabouts b (s.set t fs) i + f.at i = whereabouts b s i := by
  have h := whereabouts_set (s := s) (t := t) (i := i) (b := b) fs
  rw [ht, atFrames_cons, ← add_assoc] at h
  exact add_right_cancel h

/-- A call that starts. -/
theorem whereabouts_push {b : List Nat} {t : T} {i : Nat} {f : Frame} :
    whereabouts b (s.set t (f :: s.threads t)) i = whereabouts b s i + f.at i := by
  have h := whereabouts_set (s := s) (t := t) (i := i) (b := b) (f :: s.threads t)
  rw [atFrames_cons, ← add_assoc] at h
  exact add_right_cancel h

theorem Ownership.follows {resetable : Bool} {s' : State ι T} {a : Act T} (h : Ownership bag tr s)
    (hs : Step calls resetable n s a s') (i : Nat) :
    Follows calls s a i (whereabouts (bag.free s.indexer) s i) (whereabouts (bag.free s'.indexer) s' i) := by
  cases hs with
  | take =>
    refine .inl ⟨rfl, ?_⟩
    rw [set_indexer, whereabouts_push]
    exact add_zero _
  | @move t k obj hc hobj =>
    have hk := object_lt hobj
    have h₁ := whereabouts_object (s := s) (b := bag.free s.indexer) (i := i) (some obj.move.2) hk
    have h₂ := whereabouts_append (s := { s with objects := s.objects.set k (some obj.move.2) })
      (b := bag.free s.indexer) (i := i) (some obj.move.1)
    have hrest : ¬obj.move.2.holds i := by simp [PoolItem.holds, PoolItem.move]
    rw [hobj, atObject_some, atObject_some, if_neg hrest, add_zero] at h₁
    rw [atObject_some, List.length_set] at h₂
    refine .of_ite (p := obj.holds i) (e := .move k s.objects.length) (x := .held k) (y := .held s.objects.length)
      (by simp [event, hobj]) (fun hi => ?_) (by simp [Stage.next]) ?_
    · exact mem_whereabouts_object hk (by simp [hobj, hi])
    · rw [h₂, ← h₁]
      exact add_right_comm _ _ _
  | @destroy t k obj hc hobj =>
    have hk := object_lt hobj
    have h₁ := whereabouts_object (s := s) (b := bag.free s.indexer) (i := i) none hk
    rw [hobj, atObject_some, atObject_none, add_zero] at h₁
    rcases h.object k obj hobj with hown | ⟨hcb, hempty⟩
    · obtain ⟨reset, hd⟩ := destroy_owning resetable obj.index
      rw [← hown] at hd
      have h₂ := whereabouts_push (s := { s with objects := s.objects.set k none }) (b := bag.free s.indexer) (t := t)
        (i := i) (f := .resetting reset obj)
      have hholds : obj.holds i ↔ obj.index = i := and_iff_right (by rw [hown]; rfl)
      simp only [hholds] at h₁
      rw [hd, List.singleton_append, set_indexer]
      refine .of_ite (p := obj.index = i) (e := .destroy k) (x := .held k) (y := .destroyed)
        (by simp [event, hobj, hholds]) (fun hi => ?_) (by simp [Stage.next]) ?_
      · exact mem_whereabouts_object hk (by simp [hobj, hholds, hi])
      · rw [h₂, ← h₁, Frame.at]
        exact add_right_comm _ _ _
    · have hno : ¬obj.holds i := by simp [PoolItem.holds, hempty]
      have hd : destroy resetable obj = [] := by simp [destroy, hcb]
      have h₂ := whereabouts_set (s := { s with objects := s.objects.set k none }) (b := bag.free s.indexer) (t := t)
        (i := i) (s.threads t)
      refine .inl ⟨by simp [event, hobj, hno], ?_⟩
      rw [if_neg hno, add_zero] at h₁
      rw [hd, List.nil_append, set_indexer, add_right_cancel h₂, h₁]
  | get => exact .inl ⟨rfl, rfl⟩
  | @next t rest holder indexer ht hnext =>
    obtain ⟨holder', x', heq, -, hperm, -⟩ := bag.next h.inv
    rw [hnext, Option.some.injEq, Prod.mk.injEq] at heq
    obtain ⟨rfl, rfl⟩ := heq
    have h₁ := whereabouts_free (s := s) (i := i) hperm
    have h₂ := whereabouts_frame (s := { s with indexer }) (b := bag.free indexer) (i := i) (g := .takeItem holder) ht
    simp only [Frame.at, add_zero] at h₂
    refine .of_ite (p := i ∈ holder.indices) (e := .next) (x := .free) (y := .taken) (by simp [event, ht, hnext])
      (fun hi => ?_) rfl ?_
    · exact mem_whereabouts_free (hperm.mem_iff.2 (List.mem_append_left _ hi))
    · rw [set_indexer, h₂, h₁]
      exact add_right_comm _ _ _
  | nextUndefined _ hnext =>
    obtain ⟨_, _, heq, -⟩ := bag.next h.inv
    rw [hnext] at heq; cases heq
  | @item t holder rest obj ht hobj =>
    have hholds := (takeItem_sound hobj).2.2
    have h₁ := whereabouts_append (s := s) (b := bag.free s.indexer) (i := i) (some obj)
    have h₂ := whereabouts_pop (s := { s with objects := s.objects ++ [some obj] }) (b := bag.free s.indexer) (i := i) ht
    simp only [atObject_some, hholds] at h₁
    rw [Frame.at, h₁] at h₂
    refine .of_ite (p := i ∈ holder.indices) (e := .item s.objects.length) (x := .taken) (by simp [event, ht])
      (fun hi => ?_) rfl h₂
    exact mem_whereabouts_frame ht (by simp [Frame.at, hi])
  | itemThrown ht hobj => exact absurd hobj (h.takeItem_ne_none ht)
  | @reset t reset obj rest ht =>
    have h₁ := whereabouts_frame (s := s) (b := bag.free s.indexer) (i := i) (g := .returning obj) ht
    rw [Frame.at, Frame.at] at h₁
    refine .of_ite (p := obj.index = i) (e := .reset) (x := .destroyed) (by simp [event, ht]) (fun hi => ?_) rfl h₁
    exact mem_whereabouts_frame ht (by simp [Frame.at, hi])
  | @giveBack t obj rest indexer ht hback =>
    obtain ⟨x', heq, -, hperm⟩ := h.giveBack ht
    rw [hback, Option.some.injEq] at heq
    subst heq
    have hperm : (bag.free indexer).Perm ((IndexHolder.of obj.index).indices ++ bag.free s.indexer) := hperm
    have h₁ := whereabouts_free (s := s) (i := i) hperm
    have h₂ := whereabouts_pop (s := { s with indexer }) (b := bag.free indexer) (i := i) ht
    simp only [Frame.at, IndexHolder.indices_of, List.mem_singleton, eq_comm (a := i)] at h₁ h₂
    refine .of_ite (p := obj.index = i) (e := .giveBack) (x := .reset) (by simp [event, ht]) (fun hi => ?_) rfl ?_
    · exact mem_whereabouts_frame ht (by simp [Frame.at, hi])
    · rw [set_indexer, h₂, ← h₁]
      rfl
  | giveBackUndefined ht hback =>
    obtain ⟨_, heq, -⟩ := h.giveBack ht
    rw [hback] at heq; cases heq

omit [Fintype T] [DecidableEq T] in
/-- The object `k'` after `k` is replaced. -/
theorem object_set {objects : List (Option PoolItem)} {k k' : Nat} {o : Option PoolItem} {obj : PoolItem}
    (h : (objects.set k o)[k']?.join = some obj) : o = some obj ∨ objects[k']?.join = some obj := by
  by_cases hk : k = k'
  · subst hk
    by_cases hlt : k < objects.length
    · rw [List.getElem?_set_self hlt, Option.join_some] at h; exact .inl h
    · rw [List.getElem?_eq_none (by rw [List.length_set]; omega)] at h; cases h
  · rw [List.getElem?_set_ne hk] at h; exact .inr h

omit [Fintype T] [DecidableEq T] in
/-- The object `k` after one is constructed. -/
theorem object_append {objects : List (Option PoolItem)} {k : Nat} {o obj : PoolItem}
    (h : (objects ++ [some o])[k]?.join = some obj) : o = obj ∨ objects[k]?.join = some obj := by
  by_cases hk : k < objects.length
  · rw [List.getElem?_append_left hk] at h; exact .inr h
  · rw [List.getElem?_append_right (by omega)] at h
    cases hi : k - objects.length with
    | zero => rw [hi] at h; exact .inl (Option.some.inj h)
    | succ j => rw [hi] at h; simp at h

theorem Ownership.object_step {resetable : Bool} {s' : State ι T} {a : Act T} (h : Ownership bag tr s)
    (hs : Step calls resetable n s a s') : ∀ k obj, s'.object k = some obj → obj.Sound := by
  cases hs with
  | @move t k obj hc hobj =>
    intro k' obj' h'
    have hmove := (h.object k obj hobj).move
    rcases object_append h' with rfl | h'
    · exact hmove.1
    · rcases object_set h' with h' | h'
      · cases h'; exact hmove.2
      · exact h.object k' obj' h'
  | destroy =>
    intro k' obj' h'
    rcases object_set h' with h' | h'
    · cases h'
    · exact h.object k' obj' h'
  | item ht hobj =>
    intro k' obj' h'
    rcases object_append h' with rfl | h'
    · exact (takeItem_sound hobj).1
    · exact h.object k' obj' h'
  | _ => exact h.object

theorem Ownership.frame_step {resetable : Bool} {s' : State ι T} {a : Act T} (h : Ownership bag tr s)
    (hs : Step calls resetable n s a s') : ∀ t, ∀ f ∈ s'.threads t, f.Sound := by
  have hset : ∀ {s₁ : State ι T} {t fs}, s₁.threads = s.threads → (∀ f ∈ fs, f.Sound) →
      ∀ u, ∀ f ∈ (s₁.set t fs).threads u, f.Sound := by
    intro s₁ t fs hs₁ hfs u
    by_cases hu : u = t
    · subst hu; rwa [set_self]
    · rw [set_ne hu, hs₁]; exact h.frame u
  cases hs with
  | @take t =>
    refine hset rfl fun f hf => ?_
    rcases List.mem_cons.1 hf with rfl | hf
    · trivial
    · exact h.frame t f hf
  | @destroy t k obj _ hobj =>
    refine hset rfl fun f hf => ?_
    rcases List.mem_append.1 hf with hf | hf
    · rcases h.object k obj hobj with hown | ⟨hcb, -⟩
      · obtain ⟨reset, hd⟩ := destroy_owning resetable obj.index
        rw [hown, hd, List.mem_singleton] at hf
        subst hf
        rfl
      · simp [destroy, hcb] at hf
    · exact h.frame t f hf
  | @next t rest holder _ ht =>
    have hold := h.frame t
    rw [ht, List.forall_mem_cons] at hold
    exact hset rfl (List.forall_mem_cons.2 ⟨trivial, hold.2⟩)
  | nextUndefined _ hnext =>
    obtain ⟨_, _, heq, -⟩ := bag.next h.inv
    rw [hnext] at heq; cases heq
  | @item t holder rest _ ht =>
    have hold := h.frame t
    rw [ht, List.forall_mem_cons] at hold
    exact hset rfl hold.2
  | itemThrown ht hobj => exact absurd hobj (h.takeItem_ne_none ht)
  | @reset t _ obj rest ht =>
    have hold := h.frame t
    rw [ht, List.forall_mem_cons] at hold
    exact hset rfl (List.forall_mem_cons.2 hold)
  | @giveBack t obj rest _ ht =>
    have hold := h.frame t
    rw [ht, List.forall_mem_cons] at hold
    exact hset rfl hold.2
  | giveBackUndefined ht hback =>
    obtain ⟨_, heq, -⟩ := h.giveBack ht
    rw [hback] at heq; cases heq
  | _ => exact h.frame

omit [Fintype T] [DecidableEq T] in
theorem life_none {i : Nat} {a : Act T} (h : event calls i s a = none) : life calls i ((s, a) :: tr) = life calls i tr := by
  rw [life, log_none h, life]

omit [Fintype T] [DecidableEq T] in
theorem life_some {i : Nat} {a : Act T} {e : Event} {st : Stage} (h : event calls i s a = some e)
    (hl : life calls i tr = some st) : life calls i ((s, a) :: tr) = st.next e := by
  rw [life] at hl ⊢
  rw [log_some h, List.foldlM_append, hl]
  simp

theorem Ownership.step {resetable : Bool} {s' : State ι T} {a : Act T} (h : Ownership bag tr s)
    (hs : Step calls resetable n s a s') : Ownership bag ((s, a) :: tr) s' := by
  refine ⟨?_, h.object_step hs, h.frame_step hs, fun i hi => ?_, fun i hi => ?_⟩
  · cases hs with
    | next _ hnext =>
      obtain ⟨_, _, heq, hinv, -⟩ := bag.next h.inv
      rw [hnext] at heq; cases heq
      exact hinv
    | giveBack ht hback =>
      obtain ⟨_, heq, hinv, -⟩ := h.giveBack ht
      rw [hback] at heq; cases heq
      exact hinv
    | _ => exact h.inv
  · obtain ⟨st, hw, hl⟩ := h.one i hi
    rcases h.follows hs i with ⟨he, hw'⟩ | ⟨e, st₁, st', he, hst, hnext, hw'⟩
    · exact ⟨st, hw'.trans hw, by rw [life_none he, hl]⟩
    · rw [hw, Multiset.mem_singleton] at hst
      subst hst
      refine ⟨st', ?_, by rw [life_some he hl, hnext]⟩
      rw [hw, add_comm] at hw'
      exact add_left_cancel hw'
  · rcases h.follows hs i with ⟨-, hw'⟩ | ⟨e, st₁, st', -, hst, -⟩
    · exact hw'.trans (h.out i hi)
    · rw [h.out i hi] at hst
      exact absurd hst (Multiset.notMem_zero _)

theorem Ownership.init {start : ι} {resetable : Bool} (hinv : bag.inv start) (hfree : (bag.free start).Perm (List.range n))
    (h : (machine calls start resetable n T).init s) : Ownership bag [] s := by
  subst h
  have hw : ∀ i, whereabouts (bag.free start) (⟨start, [], fun _ => []⟩ : State ι T) i =
      if i < n then {.free} else 0 := by
    intro i
    have hcount : (bag.free start).count i = if i < n then 1 else 0 := by
      rw [hfree.count_eq, List.count_range]
    simp only [whereabouts, hcount, atFrames_nil, List.length_nil, Finset.range_zero, Finset.sum_empty,
      Finset.sum_const_zero, add_zero]
    split <;> rfl
  refine ⟨hinv, by simp [State.object], by simp, fun i hi => ⟨.free, ?_, rfl⟩, fun i hi => ?_⟩
  · rw [hw, if_pos hi]
  · rw [hw, if_neg (by omega)]

theorem ownership_of_run {start : ι} {resetable : Bool} (hinv : bag.inv start)
    (hfree : (bag.free start).Perm (List.range n)) (hr : (machine calls start resetable n T).Run tr s) :
    Ownership bag tr s :=
  hr.invariantT (Q := fun _ _ => True) (fun _ h => .init hinv hfree h)
    (fun _ _ _ _ _ _ hi _ h => hi.step (step_cases h)) (fun _ _ => trivial)

end

/-! ## What `Take` answers -/

section
variable {ι T : Type} {calls : Calls ι} {n : Nat} {bag : Bag calls n} {tr : Trace (State ι T) (Act T)} {s : State ι T}

/-- The object that a step of `Take` constructs. -/
def answer (numItems : Nat) (s : State ι T) : Act T → Option PoolItem
  | .run t =>
    match s.threads t with
    | .takeItem holder :: _ => takeItem numItems holder
    | _ => none
  | _ => none

theorem client_cons (f : Frame) (fs : List Frame) : client (f :: fs) = client [f] := by cases f <;> rfl

/-- The calls around the innermost one are resets. -/
def Nested (s : State ι T) : Prop := ∀ t, ∀ f ∈ (s.threads t).tail, client [f] = true

theorem Nested.client (h : Nested s) {t : T} (hc : client (s.threads t) = true) :
    ∀ f ∈ s.threads t, Pool.client [f] = true := by
  intro f hf
  cases ht : s.threads t with
  | nil => rw [ht] at hf; cases hf
  | cons g gs =>
    have htail := h t
    rw [ht] at hf hc htail
    rcases List.mem_cons.1 hf with rfl | hf
    · rwa [← client_cons _ gs]
    · exact htail f hf

/-- What is around a call runs client code. -/
theorem Nested.around (h : Nested s) {t : T} {f : Frame} {fs : List Frame} (ht : s.threads t = f :: fs) :
    Pool.client fs = true := by
  cases fs with
  | nil => rfl
  | cons g gs =>
    rw [client_cons]
    exact h t g (by rw [ht]; exact List.mem_cons_self)

variable [DecidableEq T]

/-- The last step of thread `t`, with the state it was taken in. -/
def lastOf (t : T) (tr : Trace (State ι T) (Act T)) : Option (State ι T × Act T) := tr.find? fun e => e.2.thread = t

/-- A `Take` that has its holder got it in the thread's last step: an empty one
if and only if no index was free. -/
def Sectioned (bag : Bag calls n) (tr : Trace (State ι T) (Act T)) (s : State ι T) : Prop :=
  ∀ t holder fs, s.threads t = .takeItem holder :: fs → ∃ s₀, lastOf t tr = some (s₀, .run t) ∧
    (s₀.threads t).head? = some .takeNext ∧ (holder.empty = true ↔ bag.free s₀.indexer = [])

theorem Step.threads_ne {resetable : Bool} {s' : State ι T} {a : Act T} (hs : Step calls resetable n s a s') {u : T}
    (hu : u ≠ a.thread) : s'.threads u = s.threads u := by
  cases hs with
  | move | get => rfl
  | _ => exact set_ne hu

theorem Nested.step {resetable : Bool} {s' : State ι T} {a : Act T} (h : Nested s)
    (hs : Step calls resetable n s a s') : Nested s' := by
  intro u
  by_cases hu : u = a.thread
  swap
  · rw [hs.threads_ne hu]; exact h u
  have hrest : ∀ {f fs}, s.threads u = f :: fs → ∀ g ∈ fs, Pool.client [g] = true := fun ht => by
    have := h u; rwa [ht] at this
  subst hu
  cases hs with
  | take hc => rw [Act.thread, set_self]; exact h.client hc
  | move | get => exact h _
  | @destroy t k obj hc =>
    rw [Act.thread, set_self]
    unfold Pool.destroy
    split
    · exact h t
    · exact h.client hc
  | next ht | nextUndefined ht | itemThrown ht | reset ht | giveBackUndefined ht =>
    rw [Act.thread, set_self]; exact hrest ht
  | item ht | giveBack ht => rw [Act.thread, set_self]; exact fun f hf => hrest ht f (List.mem_of_mem_tail hf)

theorem Sectioned.step {resetable : Bool} {s' : State ι T} {a : Act T} (h : Sectioned bag tr s) (hnest : Nested s)
    (hinv : bag.inv s.indexer) (hs : Step calls resetable n s a s') : Sectioned bag ((s, a) :: tr) s' := by
  intro u holder fs hu'
  by_cases hu : u = a.thread
  swap
  · rw [hs.threads_ne hu] at hu'
    obtain ⟨s₀, hlast, hsec⟩ := h u holder fs hu'
    exact ⟨s₀, by rw [lastOf, List.find?_cons_of_neg (by simpa using Ne.symm hu)]; exact hlast, hsec⟩
  subst hu
  have hno : client (s'.threads a.thread) ≠ true := by rw [hu']; simp [client]
  cases hs with
  | @next t rest holder' indexer ht hnext =>
    rw [Act.thread, set_self] at hu'
    cases hu'
    obtain ⟨_, _, heq, -, -, hiff⟩ := bag.next hinv
    rw [hnext] at heq; cases heq
    exact ⟨s, by simp [lastOf, Act.thread], by rw [Act.thread, ht]; rfl, hiff⟩
  | take | nextUndefined | itemThrown | reset | giveBackUndefined => rw [Act.thread, set_self] at hu'; cases hu'
  | move hc | get hc => exact absurd hc hno
  | item ht | giveBack ht => rw [Act.thread, set_self] at hno; exact absurd (hnest.around ht) hno
  | @destroy t k obj hc hobj =>
    simp only [Act.thread, set_self, Pool.destroy, invokeReset] at hu'
    split at hu'
    · rw [List.nil_append] at hu'
      rw [hu'] at hc
      cases hc
    · split at hu'
      · split at hu' <;> cases hu'
      · cases hu'

theorem sectioned_of_run [Fintype T] {start : ι} {resetable : Bool} (hinv : bag.inv start)
    (hfree : (bag.free start).Perm (List.range n)) (hr : (machine calls start resetable n T).Run tr s) :
    Nested s ∧ Sectioned bag tr s :=
  hr.invariantT (I := fun tr s => Nested s ∧ Sectioned bag tr s) (Q := fun _ _ => True)
    (fun s h => by subst h; exact ⟨fun _ _ hf => absurd hf List.not_mem_nil, fun _ _ _ ht => by cases ht⟩)
    (fun _ _ _ _ hr _ hi _ h => ⟨hi.1.step (step_cases h),
      hi.2.step hi.1 (ownership_of_run hinv hfree hr).inv (step_cases h)⟩) (fun _ _ => trivial)

end

/-! ## The pool with `MutexIndexer` -/

section
variable {bits n : Nat} {resetable : Bool} {T : Type} [DecidableEq T] [Fintype T]
  {tr : Trace (State MutexIndexer T) (Act T)} {s : State MutexIndexer T}

/-- A new `MutexIndexer` has all indices free. -/
theorem mutexBag_construct (hn : n < 2 ^ bits) : (mutexBag hn).inv (.construct n) ∧
    ((mutexBag hn).free (.construct n)).Perm (List.range n) := by
  refine ⟨⟨by rw [MutexIndexer.construct_indices, List.length_range], Nat.zero_le _⟩, ?_⟩
  show (MutexIndexer.free _).Perm _
  rw [MutexIndexer.free, MutexIndexer.construct_indices]
  exact .refl _

/-- **Ownership of pool items.** In every state of every run each index below
`n` is in one place, the one its life has led to; `indexPos` is in range,
`items.at` does not throw and no access is undefined; and the object that a
`Take` answers is empty if and only if no index was free when it asked. -/
theorem run_items (hn : n < 2 ^ bits) (hr : (mutexPool bits resetable n T).Run tr s) :
    (∀ i < n, ∃ st, whereabouts s.indexer.free s i = {st} ∧ life (mutexCalls bits) i tr = some st) ∧
    (∀ i, n ≤ i → whereabouts s.indexer.free s i = 0) ∧ s.indexer.indexPos ≤ n ∧
    (∀ t, .thrown ∉ s.threads t ∧ .undefined ∉ s.threads t) ∧
    ∀ t obj, answer n s (.run t) = some obj → ∃ s₀, lastOf t tr = some (s₀, .run t) ∧
      (s₀.threads t).head? = some .takeNext ∧ (obj.empty = true ↔ s₀.indexer.free = []) := by
  obtain ⟨hinv, hfree⟩ := mutexBag_construct hn
  have hown := ownership_of_run hinv hfree hr
  have hpos : s.indexer.Sized n := hown.inv
  refine ⟨hown.one, hown.out, hpos.pos, fun t => ⟨hown.frame t _, hown.frame t _⟩, fun t obj hobj => ?_⟩
  simp only [answer] at hobj
  split at hobj
  · rename_i holder fs ht
    obtain ⟨s₀, hlast, htop, hiff⟩ := (sectioned_of_run hinv hfree hr).2 t holder fs ht
    exact ⟨s₀, hlast, htop, by rw [(takeItem_sound hobj).2.1]; exact hiff⟩
  · cases hobj

end

/-- Thread 0 takes the only item, thread 1 destroys what it was moved to, and
takes nothing in its reset; the next `Take` gets the item again. -/
theorem run_items_one : ∃ tr s, (mutexPool 64 true 1 (Fin 2)).Run tr s ∧
    log (event (mutexCalls 64) 0) tr = [.next, .item 0, .move 0 1, .destroy 1, .reset, .giveBack, .next] ∧
    whereabouts s.indexer.free s 0 = {.taken} := by
  have h := exists_run (m := mutexPool 64 true 1 (Fin 2)) (s := { indexer := .construct 1, threads := fun _ => [] })
    (l := [.take 0, .run 0, .run 0, .move 0 0, .destroy 1 0, .destroy 1 1, .take 1, .run 1, .run 1, .run 1, .run 1,
      .take 0, .run 0])
    (p := fun tr _ => decide (log (event (mutexCalls 64) 0) tr =
      [.next, .item 0, .move 0 1, .destroy 1, .reset, .giveBack, .next])) rfl (by decide +kernel)
  obtain ⟨tr, s, hr, hlog⟩ := h
  simp only [decide_eq_true_eq] at hlog
  obtain ⟨st, hw, hl⟩ := (run_items (by decide) hr).1 0 (by decide)
  refine ⟨tr, s, hr, hlog, ?_⟩
  rw [life, hlog] at hl
  cases hl
  exact hw

end Dxpool.Pool
