/-
Pools in sequential use. A script of operations is run by one thread, each to
its end before the next. If the indexer is a bag, the pool answers as a mere
counter of live items does (`script_counts`): the live items' elements and the
free indices are always all there are. So `MutexIndexer` and
`ConcurrentIndexer` are interchangeable (`script_agree`).
-/
import Dxpool.Indexer.Sequential
import Dxpool.Pool.Ownership

namespace Dxpool.Pool

open Indexer Machine

/-- `Take`, or the destruction of the `j`-th live item from the oldest on. -/
inductive Op
  | take
  | destroy (j : Nat)
  deriving DecidableEq, Repr

/-- The pointer of an object that lives and is not empty. -/
def liveItem (o : Option PoolItem) : Option (Option Nat) :=
  o.bind fun obj => if obj.empty then none else some obj.item

/-- The numbers of the live items, the oldest first. -/
def live (objects : List (Option PoolItem)) : List Nat :=
  (List.range objects.length).filter fun k => (liveItem objects[k]?.join).isSome

/-- The elements that the live items refer to. -/
def elements (objects : List (Option PoolItem)) : List (Option Nat) := objects.filterMap liveItem

section
variable {ι : Type}

/-- The steps of an operation. -/
def Op.acts (s : State ι Unit) : Op → List (Act Unit)
  | .take => [.take (), .run (), .run ()]
  | .destroy j =>
    match (live s.objects)[j]? with
    | none => []
    | some k => [.destroy () k, .run (), .run ()]

def perform (m : Machine (State ι Unit) (Act Unit)) (s : State ι Unit) (op : Op) : Option (State ι Unit) :=
  (m.play [] s (op.acts s)).map Prod.snd

/-- The states after the operations of a script. -/
def script (m : Machine (State ι Unit) (Act Unit)) : State ι Unit → List Op → Option (List (State ι Unit))
  | _, [] => some []
  | s, op :: ops => (perform m s op).bind fun s' => (script m s' ops).map fun ss => s' :: ss

/-- What the client sees after an operation: whether `Take` answered an empty
item, and how many items live. -/
def observe (op : Op) (s : State ι Unit) : Option Bool × Nat :=
  (match op with
    | .take => s.objects.getLast?.join.map PoolItem.empty
    | .destroy _ => none,
  (live s.objects).length)

/-- The live items refer to different elements of the pool. -/
def Distinct (n : Nat) (s : State ι Unit) : Prop :=
  (elements s.objects).Nodup ∧ ∀ e ∈ elements s.objects, ∃ i < n, e = some i

end

/-! ## The counter -/

/-- What a pool of `n` items answers with `c` of them live, and how many are then. -/
def Op.count (n c : Nat) : Op → Option Bool × Nat
  | .take => if c = n then (some true, c) else (some false, c + 1)
  | .destroy j => (none, if j < c then c - 1 else c)

def counts (n : Nat) : Nat → List Op → List (Option Bool × Nat)
  | _, [] => []
  | c, op :: ops => op.count n c :: counts n (op.count n c).2 ops

/-! ## Live items -/

section
variable {objects : List (Option PoolItem)} {k : Nat}

theorem live_length (objects : List (Option PoolItem)) : (live objects).length = (elements objects).length := by
  have hmap : objects = (List.range objects.length).map fun k => objects[k]?.join := by
    refine List.ext_getElem (by simp) fun k hk _ => ?_
    simp [hk]
  rw [elements, List.length_filterMap_eq_countP]
  conv_rhs => rw [hmap, List.countP_map]
  rw [live, List.countP_eq_length_filter]
  rfl

theorem mem_live (h : k ∈ live objects) : ∃ obj, objects[k]?.join = some obj ∧ obj.empty = false := by
  obtain ⟨-, hk⟩ := List.mem_filter.1 h
  obtain ⟨e, he⟩ := Option.isSome_iff_exists.1 hk
  obtain ⟨obj, hobj, hif⟩ := Option.bind_eq_some_iff.1 he
  refine ⟨obj, hobj, ?_⟩
  cases hempty : obj.empty with
  | false => rfl
  | true => rw [hempty] at hif; cases hif

theorem elements_append (o : Option PoolItem) : elements (objects ++ [o]) = elements objects ++ (liveItem o).toList := by
  rw [elements, List.filterMap_append, List.filterMap_cons]
  cases liveItem o <;> rfl

/-- One live item less. -/
theorem elements_destroy {obj : PoolItem} (hobj : objects[k]?.join = some obj) (hempty : obj.empty = false) :
    (elements objects).Perm (obj.item :: elements (objects.set k none)) := by
  have hget : objects[k]? = some (some obj) := Option.join_eq_some_iff.1 hobj
  obtain ⟨hlt, hk⟩ := List.getElem?_eq_some_iff.1 hget
  have hlive : liveItem (some obj) = some obj.item := by simp [liveItem, hempty]
  have hsplit : objects = objects.take k ++ some obj :: objects.drop (k + 1) := by
    rw [← hk, List.getElem_cons_drop, List.take_append_drop]
  rw [elements, elements, List.set_eq_take_append_cons_drop, if_pos hlt]
  conv_lhs => rw [hsplit]
  rw [List.filterMap_append, List.filterMap_append, List.filterMap_cons_some hlive,
    List.filterMap_cons_none (show liveItem none = none from rfl)]
  exact List.perm_middle

end

/-! ## Between two operations -/

section
variable {ι : Type} {calls : Calls ι} {n : Nat} {bag : Bag calls n} {start : ι} {resetable : Bool} {s : State ι Unit}

/-- No call is in progress, and the elements of the live items and the free
indices are all elements of the pool, each once. -/
structure Settled (bag : Bag calls n) (s : State ι Unit) : Prop where
  inv : bag.inv s.indexer
  idle : s.threads () = []
  object : ∀ k obj, s.object k = some obj → obj.Sound
  perm : (elements s.objects ++ (bag.free s.indexer).map some).Perm ((List.range n).map some)

theorem range_nodup (n : Nat) : ((List.range n).map some).Nodup := List.nodup_range.map (Option.some_injective _)

theorem Settled.distinct (h : Settled bag s) : Distinct n s := by
  refine ⟨(h.perm.nodup_iff.2 (range_nodup n)).of_append_left, fun e he => ?_⟩
  obtain ⟨i, hi, rfl⟩ := List.mem_map.1 (h.perm.mem_iff.1 (List.mem_append_left _ he))
  exact ⟨i, List.mem_range.1 hi, rfl⟩

theorem Settled.length (h : Settled bag s) : (live s.objects).length + (bag.free s.indexer).length = n := by
  have := h.perm.length_eq
  rw [List.length_append, List.length_map, List.length_map, List.length_range, ← live_length] at this
  exact this

theorem play_three {σ α : Type} {m : Machine σ α} {s x y z : σ} {a b c : α} (hx : m.step s a = some x)
    (hy : m.step x b = some y) (hz : m.step y c = some z) : (m.play [] s [a, b, c]).map Prod.snd = some z := by
  simp only [Machine.play, hx, hy, hz, Option.map_some]

/-- What `Take` makes of an index is a live item of that element, or an empty one. -/
theorem liveItem_takeItem {holder : IndexHolder} {obj : PoolItem} (hobj : takeItem n holder = some obj) :
    (liveItem (some obj)).toList = holder.indices.map some := by
  simp only [liveItem, Option.bind_some, (takeItem_sound hobj).2.1, IndexHolder.indices]
  cases he : holder.empty with
  | true => rfl
  | false =>
    have hitem : obj.item = some holder.value := by
      simp only [takeItem, he, Bool.false_eq_true, if_false, Option.ite_none_right_eq_some, Option.some.injEq] at hobj
      rw [← hobj.2]; rfl
    simp [hitem]

/-- `items.at` does not throw. -/
theorem Settled.takeItem (h : Settled bag s) {holder : IndexHolder} (hin : ∀ i ∈ holder.indices, i ∈ bag.free s.indexer) :
    ∃ obj, takeItem n holder = some obj := by
  unfold Pool.takeItem
  split
  · exact ⟨_, rfl⟩
  · rename_i he
    have hfree := hin holder.value (by simp [IndexHolder.indices, he])
    obtain ⟨i, hi, hv⟩ := List.mem_map.1 (h.perm.mem_iff.1 (List.mem_append_right _ (List.mem_map_of_mem hfree)))
    cases hv
    rw [if_pos (List.mem_range.1 hi)]
    exact ⟨_, rfl⟩

/-- `Take` takes a free index, if there is one. -/
theorem Settled.take (h : Settled bag s) : ∃ s', perform (machine calls start resetable n Unit) s .take = some s' ∧
    Settled bag s' ∧ observe .take s' = Op.count n (live s.objects).length .take := by
  obtain ⟨holder, x', hnext, hinv, hperm, hiff⟩ := bag.next h.inv
  have hlength := h.length
  have hall := (hperm.map some).append_left (elements s.objects) |>.symm.trans h.perm
  obtain ⟨obj, hobj⟩ := h.takeItem fun i hi => hperm.mem_iff.2 (List.mem_append_left _ hi)
  obtain ⟨hsound, hempty, hholds⟩ := takeItem_sound hobj
  have hlive := liveItem_takeItem hobj
  refine ⟨⟨x', s.objects ++ [some obj], fun _ => []⟩, ?_, ⟨hinv, rfl, ?_, ?_⟩, ?_⟩
  · refine play_three (x := s.set () [.takeNext]) (y := State.set { s with indexer := x' } () [.takeItem holder])
      ?_ ?_ ?_
    · simp [machine, step, h.idle, client]
    · simp [machine, step, hnext, State.set]
    · simp only [machine, step, set_self, hobj]
      rw [Option.some.injEq, State.set]
      congr 1
  · intro k o ho
    rcases object_append ho with rfl | ho
    · exact hsound
    · exact h.object k o ho
  · rw [elements_append, hlive, List.append_assoc, ← List.map_append]
    exact hall
  · have hlast : (s.objects ++ [some obj]).getLast?.join.map PoolItem.empty = some holder.empty := by simp [hempty]
    simp only [observe, hlast, Op.count, live_length, elements_append, hlive, List.length_append, List.length_map]
    rw [live_length] at hlength
    cases he : holder.empty with
    | true =>
      have hnil := hiff.1 he
      rw [hnil, List.length_nil, Nat.add_zero] at hlength
      rw [if_pos hlength]
      simp [IndexHolder.indices, he]
    | false =>
      have hne : bag.free s.indexer ≠ [] := fun hnil => by rw [hiff.2 hnil] at he; cases he
      have := List.length_pos_of_ne_nil hne
      rw [if_neg (by omega)]
      simp [IndexHolder.indices, he]

/-- The elements of the other live items, the index of one that is destroyed
and the free indices are all there are. -/
theorem Settled.without (h : Settled bag s) {k : Nat} {obj : PoolItem} (hobj : s.object k = some obj)
    (hempty : obj.empty = false) (hown : obj = .construct .returnToPool (some obj.index) obj.index) :
    (elements (s.objects.set k none) ++ (obj.index :: bag.free s.indexer).map some).Perm ((List.range n).map some) := by
  have hel := elements_destroy hobj hempty
  rw [show obj.item = some obj.index by rw [hown]; rfl] at hel
  rw [List.map_cons]
  exact List.perm_middle.trans ((hel.append_right _).symm.trans h.perm)

/-- Its index can be given back. -/
theorem Settled.giveBack (h : Settled bag s) {k : Nat} {obj : PoolItem} (hobj : s.object k = some obj)
    (hempty : obj.empty = false) (hown : obj = .construct .returnToPool (some obj.index) obj.index) :
    ∃ x', calls.giveBack s.indexer obj.index = some x' ∧ bag.inv x' ∧
      (bag.free x').Perm (obj.index :: bag.free s.indexer) := by
  have hall := h.without hobj hempty hown
  have hnd : ((obj.index :: bag.free s.indexer).map some).Nodup :=
    (hall.nodup_iff.2 (range_nodup n)).of_append_right
  refine bag.giveBack h.inv (hnd.of_map _) fun i hi => ?_
  obtain ⟨i', hi', he⟩ := List.mem_map.1 (hall.mem_iff.1 (List.mem_append_right _ (List.mem_map_of_mem hi)))
  cases he
  exact List.mem_range.1 hi'

/-- The destruction of a live item frees its index. -/
theorem Settled.destroy (h : Settled bag s) (j : Nat) :
    ∃ s', perform (machine calls start resetable n Unit) s (.destroy j) = some s' ∧ Settled bag s' ∧
      observe (.destroy j) s' = Op.count n (live s.objects).length (.destroy j) := by
  cases hk : (live s.objects)[j]? with
  | none =>
    have hle : (live s.objects).length ≤ j := List.getElem?_eq_none_iff.1 hk
    refine ⟨s, by simp [perform, Op.acts, hk, Machine.play], h, ?_⟩
    simp only [observe, Op.count, if_neg (Nat.not_lt.2 hle)]
  | some k =>
    have hlt : j < (live s.objects).length := (List.getElem?_eq_some_iff.1 hk).1
    obtain ⟨obj, hobj, hempty⟩ := mem_live (List.mem_of_getElem? hk)
    have hown : obj = .construct .returnToPool (some obj.index) obj.index := by
      rcases h.object k obj hobj with hown | ⟨-, he⟩
      · exact hown
      · rw [hempty] at he; cases he
    obtain ⟨x', hback, hinv, hperm⟩ := h.giveBack hobj hempty hown
    obtain ⟨reset, hd⟩ := destroy_owning resetable obj.index
    rw [← hown] at hd
    refine ⟨⟨x', s.objects.set k none, fun _ => []⟩, ?_, ⟨hinv, rfl, ?_, ?_⟩, ?_⟩
    · rw [perform, Op.acts, hk]
      refine play_three (x := State.set { s with objects := s.objects.set k none } () [.resetting reset obj])
        (y := State.set { s with objects := s.objects.set k none } () [.returning obj]) ?_ ?_ ?_
      · simp [machine, step, State.object, hobj, h.idle, client, hd]
      · simp [machine, step, State.set]
      · simp only [machine, step, set_self, set_indexer, hback]
        rw [Option.some.injEq, State.set]
        congr 1
    · intro k' o ho
      rcases object_set ho with ho | ho
      · cases ho
      · exact h.object k' o ho
    · exact ((hperm.map some).append_left _).trans (h.without hobj hempty hown)
    · have hlength := (elements_destroy hobj hempty).length_eq
      rw [List.length_cons] at hlength
      simp only [observe, Op.count, live_length] at hlt ⊢
      rw [if_pos hlt, hlength, Nat.add_sub_cancel]

theorem Settled.perform (h : Settled bag s) (op : Op) :
    ∃ s', perform (machine calls start resetable n Unit) s op = some s' ∧ Settled bag s' ∧
      observe op s' = op.count n (live s.objects).length := by
  cases op with
  | take => exact h.take
  | destroy j => exact h.destroy j

/-- **A pool is a counter** of its live items, as far as it answers, and hands
out different elements. -/
theorem script_counts {ops : List Op} : ∀ {s : State ι Unit}, Settled bag s →
    ∃ ss, script (machine calls start resetable n Unit) s ops = some ss ∧ ss.length = ops.length ∧
      List.zipWith observe ops ss = counts n (live s.objects).length ops ∧ ∀ s ∈ ss, Distinct n s := by
  induction ops with
  | nil => exact fun _ => ⟨[], rfl, rfl, rfl, by simp⟩
  | cons op ops ih =>
    intro s h
    obtain ⟨s', hs', hset, hobs⟩ : ∃ s', Pool.perform (machine calls start resetable n Unit) s op = some s' ∧
      Settled bag s' ∧ observe op s' = op.count n (live s.objects).length := h.perform op
    obtain ⟨ss, hss, hlen, hzip, hdist⟩ := ih hset
    have hcount : (live s'.objects).length = (op.count n (live s.objects).length).2 := by rw [← hobs]; rfl
    refine ⟨s' :: ss, ?_, ?_, ?_, ?_⟩
    · rw [script, hs', Option.bind_some, hss, Option.map_some]
    · rw [List.length_cons, List.length_cons, hlen]
    · rw [List.zipWith_cons_cons, hobs, hzip, hcount]; rfl
    · exact List.forall_mem_cons.2 ⟨hset.distinct, hdist⟩

theorem settled_init (hinv : bag.inv start) (hfree : (bag.free start).Perm (List.range n)) :
    Settled bag ({ indexer := start, threads := fun _ => [] } : State ι Unit) :=
  ⟨hinv, rfl, fun k obj h => by simp [State.object] at h, by simpa [elements] using hfree.map some⟩

end

/-- A pool with `ConcurrentIndexer`, used sequentially. -/
def concurrentPool (bits : Nat) (ix : ConcurrentIndexer) (failures : List Bool) (resetable : Bool) (numItems : Nat) :
    Machine (State (ConcurrentIndexer × List Bool) Unit) (Act Unit) :=
  machine (concurrentCalls bits) (ix, failures) resetable numItems Unit

/-- **Interchangeable indexers.** On every script, and however the weak
compare-and-swaps fail, the two pools answer the same after every operation,
and each hands out different elements. -/
theorem script_agree {bits n : Nat} {ix : ConcurrentIndexer} (hn : 0 < n) (hmax : 2 * n < 2 ^ bits)
    (hix : ConcurrentIndexer.construct bits n = .ok ix) (failures : List Bool) (resetable : Bool) (ops : List Op) :
    ∃ ss₁ ss₂,
      script (mutexPool bits resetable n Unit) { indexer := .construct n, threads := fun _ => [] } ops = some ss₁ ∧
      script (concurrentPool bits ix failures resetable n) { indexer := (ix, failures), threads := fun _ => [] } ops =
        some ss₂ ∧
      ss₁.length = ops.length ∧ ss₂.length = ops.length ∧
      List.zipWith observe ops ss₁ = List.zipWith observe ops ss₂ ∧
      (∀ s ∈ ss₁, Distinct n s) ∧ ∀ s ∈ ss₂, Distinct n s := by
  have hlt : n < 2 ^ bits := by omega
  obtain ⟨hinv, hfree⟩ := mutexBag_construct hlt
  obtain ⟨hkept, hrange⟩ := kept_construct hn hmax hix
  have hrange' : ((concurrentBag bits n).free (ix, failures)).Perm (List.range n) := by
    show ix.free.Perm _
    rw [hrange]
  have hkept' : (concurrentBag bits n).inv (ix, failures) := ⟨0, hkept⟩
  obtain ⟨ss₁, h₁, hlen₁, hzip₁, hdist₁⟩ := script_counts (settled_init hinv hfree)
  obtain ⟨ss₂, h₂, hlen₂, hzip₂, hdist₂⟩ := script_counts (settled_init hkept' hrange')
  exact ⟨ss₁, ss₂, h₁, h₂, hlen₁, hlen₂, hzip₁.trans hzip₂.symm, hdist₁, hdist₂⟩

/-- The indexer of a pool of two whose counters wrap every four positions. -/
def ringOfTwo : ConcurrentIndexer := { writePos := 2, indices := [1, 2, 0, 0], size := 4, maxPositionSize := 4 }

/-- Takes until empty, and items destroyed out of order. -/
def scriptOfTwo : List Op :=
  [.take, .take, .take, .destroy 1, .destroy 0, .take, .destroy 5, .take, .destroy 0, .take, .destroy 1, .take]

/-- The third `Take` finds both pools empty. The first claim fails once. -/
theorem script_agree_two : ∃ ss₁ ss₂,
    script (mutexPool 3 true 2 Unit) { indexer := .construct 2, threads := fun _ => [] } scriptOfTwo = some ss₁ ∧
    script (concurrentPool 3 ringOfTwo [false, false, false, true] true 2)
      { indexer := (ringOfTwo, [false, false, false, true]), threads := fun _ => [] } scriptOfTwo = some ss₂ ∧
    List.zipWith observe scriptOfTwo ss₁ = List.zipWith observe scriptOfTwo ss₂ ∧
    (List.zipWith observe scriptOfTwo ss₂)[2]? = some (some true, 2) := by
  have h := script_agree (n := 2) (by decide) (by decide) (show ConcurrentIndexer.construct 3 2 = .ok ringOfTwo from rfl)
    [false, false, false, true] true scriptOfTwo
  obtain ⟨ss₁, ss₂, h₁, h₂, -, -, hzip, -⟩ := h
  refine ⟨ss₁, ss₂, h₁, h₂, hzip, ?_⟩
  rw [← hzip]
  have hplay : (script (mutexPool 3 true 2 Unit) { indexer := .construct 2, threads := fun _ => [] } scriptOfTwo).map
      (fun ss => (List.zipWith observe scriptOfTwo ss)[2]?) = some (some (some true, 2)) := by decide
  rw [h₁] at hplay
  exact Option.some.inj hplay

end Dxpool.Pool
