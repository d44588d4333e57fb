/-
Collections ordered by a key, no two elements with the same: the sets and maps
that are kept as ordered trees. What is in one determines it (`Keyed.ext`), and
an element is found by its key.
-/
import Mathlib.Data.List.Nodup
import Mathlib.Data.List.Perm.Basic
import Mathlib.Order.Lattice

namespace Dxpool

/-- Elements in the order of their keys. -/
structure Keyed {α κ : Type} [LinearOrder κ] (key : α → κ) where
  toList : List α := []
  sorted : toList.Pairwise fun a b => key a < key b := by exact .nil

namespace Keyed

variable {α κ : Type} [LinearOrder κ] {key : α → κ} {s t : Keyed key} {a b : α} {k : κ} {l : List α}

instance : EmptyCollection (Keyed key) := ⟨{}⟩

instance : Membership α (Keyed key) := ⟨fun s a => a ∈ s.toList⟩

instance [DecidableEq α] (a : α) (s : Keyed key) : Decidable (a ∈ s) := inferInstanceAs (Decidable (a ∈ s.toList))

instance [DecidableEq α] : DecidableEq (Keyed key) := fun s t =>
  decidable_of_iff (s.toList = t.toList) (by cases s; cases t; simp)

def isEmpty (s : Keyed key) : Bool := s.toList.isEmpty

def size (s : Keyed key) : Nat := s.toList.length

def find? (s : Keyed key) (k : κ) : Option α := s.toList.find? fun a => key a = k

/-- `a` into its place, which may be taken. -/
def putList (key : α → κ) (a : α) : List α → List α
  | [] => [a]
  | b :: l =>
    if key a < key b then a :: b :: l
    else if key b < key a then b :: putList key a l
    else a :: l

theorem mem_putList (hl : l.Pairwise fun a b => key a < key b) :
    b ∈ putList key a l ↔ b = a ∨ b ∈ l ∧ key b ≠ key a := by
  induction l with
  | nil => simp [putList]
  | cons c l ih =>
    have hc : ∀ x ∈ l, key c < key x := fun x hx => List.rel_of_pairwise_cons hl hx
    unfold putList
    split
    · rename_i hac
      have hne : ∀ x ∈ c :: l, key x ≠ key a := by
        intro x hx
        rcases List.mem_cons.1 hx with rfl | hx
        · exact hac.ne'
        · exact (hac.trans (hc x hx)).ne'
      rw [List.mem_cons]
      exact or_congr_right ⟨fun hb => ⟨hb, hne b hb⟩, And.left⟩
    · split
      · rename_i _ hca
        rw [List.mem_cons, ih hl.of_cons, List.mem_cons]
        constructor
        · intro h
          rcases h with rfl | rfl | ⟨hb, hne⟩
          · exact .inr ⟨.inl rfl, hca.ne⟩
          · exact .inl rfl
          · exact .inr ⟨.inr hb, hne⟩
        · intro h
          rcases h with rfl | ⟨rfl | hb, hne⟩
          · exact .inr (.inl rfl)
          · exact .inl rfl
          · exact .inr (.inr ⟨hb, hne⟩)
      · rename_i hac hca
        have heq : key c = key a := le_antisymm (not_lt.1 hac) (not_lt.1 hca)
        rw [List.mem_cons, List.mem_cons]
        constructor
        · intro h
          rcases h with rfl | hb
          · exact .inl rfl
          · exact .inr ⟨.inr hb, heq ▸ (hc b hb).ne'⟩
        · intro h
          rcases h with rfl | ⟨rfl | hb, hne⟩
          · exact .inl rfl
          · exact absurd heq hne
          · exact .inr hb

theorem sorted_putList (hl : l.Pairwise fun a b => key a < key b) :
    (putList key a l).Pairwise fun a b => key a < key b := by
  induction l with
  | nil => exact List.pairwise_singleton ..
  | cons c l ih =>
    have hc : ∀ x ∈ l, key c < key x := fun x hx => List.rel_of_pairwise_cons hl hx
    unfold putList
    split
    · rename_i hac
      refine .cons (fun x hx => ?_) hl
      rcases List.mem_cons.1 hx with rfl | hx
      · exact hac
      · exact hac.trans (hc x hx)
    · split
      · rename_i _ hca
        refine .cons (fun x hx => ?_) (ih hl.of_cons)
        rcases (mem_putList hl.of_cons).1 hx with rfl | ⟨hx, -⟩
        · exact hca
        · exact hc x hx
      · rename_i hac hca
        have heq : key c = key a := le_antisymm (not_lt.1 hac) (not_lt.1 hca)
        exact .cons (fun x hx => heq ▸ hc x hx) hl.of_cons

/-- `a`, in the place of the element with its key if there is one. -/
def put (a : α) (s : Keyed key) : Keyed key := ⟨putList key a s.toList, sorted_putList s.sorted⟩

/-- `a`, unless there is an element with its key. -/
def insert (a : α) (s : Keyed key) : Keyed key :=
  match s.find? (key a) with
  | some _ => s
  | none => s.put a

/-! ## What is in one -/

@[simp] theorem not_mem_empty : a ∉ (∅ : Keyed key) := List.not_mem_nil

theorem mem_put : b ∈ s.put a ↔ b = a ∨ b ∈ s ∧ key b ≠ key a := mem_putList s.sorted

theorem nodup_keys (s : Keyed key) : (s.toList.map key).Nodup :=
  List.pairwise_map.2 (s.sorted.imp fun h => h.ne)

theorem nodup (s : Keyed key) : s.toList.Nodup := s.nodup_keys.of_map key

/-- No two elements have the same key. -/
theorem eq_of_key (ha : a ∈ s) (hb : b ∈ s) (h : key a = key b) : a = b :=
  List.inj_on_of_nodup_map s.nodup_keys ha hb h

theorem find?_eq_some : s.find? k = some a ↔ a ∈ s ∧ key a = k := by
  unfold find?
  constructor
  · intro h
    exact ⟨List.mem_of_find?_eq_some h, by simpa using List.find?_some h⟩
  · intro h
    obtain ⟨ha, rfl⟩ := h
    cases hfind : s.toList.find? fun b => key b = key a with
    | none =>
      have hne : key a ≠ key a := by simpa using List.find?_eq_none.1 hfind a ha
      exact absurd rfl hne
    | some b =>
      have hb : key b = key a := by simpa using List.find?_some hfind
      rw [eq_of_key (List.mem_of_find?_eq_some hfind) ha hb]

theorem find?_eq_none : s.find? k = none ↔ ∀ a ∈ s, key a ≠ k := by
  unfold find?
  rw [List.find?_eq_none]
  exact forall₂_congr fun a _ => by simp

theorem mem_insert : b ∈ s.insert a ↔ b ∈ s ∨ b = a ∧ ∀ c ∈ s, key c ≠ key a := by
  unfold insert
  split
  · rename_i c hc
    obtain ⟨hc, hkey⟩ := find?_eq_some.1 hc
    exact ⟨.inl, fun h => h.elim id fun ⟨_, hno⟩ => absurd hkey (hno c hc)⟩
  · rename_i hnone
    have hno := find?_eq_none.1 hnone
    rw [mem_put, or_comm]
    exact or_congr ⟨And.left, fun hb => ⟨hb, hno b hb⟩⟩ ⟨fun hb => ⟨hb, hno⟩, And.left⟩

/-- Where the key is the element. -/
theorem mem_insert_of_injective (hkey : Function.Injective key) : b ∈ s.insert a ↔ b = a ∨ b ∈ s := by
  rw [mem_insert]
  constructor
  · intro h
    rcases h with hb | ⟨rfl, -⟩
    · exact .inr hb
    · exact .inl rfl
  · intro h
    rcases h with rfl | hb
    · by_cases hb : b ∈ s
      · exact .inl hb
      · exact .inr ⟨rfl, fun c hc heq => hb (hkey heq ▸ hc)⟩
    · exact .inl hb

/-- What is in it determines it. -/
theorem ext (h : ∀ a, a ∈ s ↔ a ∈ t) : s = t := by
  have hperm : s.toList.Perm t.toList := (List.perm_ext_iff_of_nodup s.nodup t.nodup).2 h
  have heq : s.toList = t.toList :=
    hperm.eq_of_pairwise (fun _ _ _ _ hab hba => absurd hba hab.asymm) s.sorted t.sorted
  cases s
  cases t
  cases heq
  rfl

section
variable {β : Type} {f : β → α}

/-- Elements with different keys, inserted one after another. -/
theorem mem_foldl_insert {l : List β} (hl : (l.map (key ∘ f)).Nodup) (hs : ∀ c ∈ s, ∀ b ∈ l, key c ≠ key (f b)) :
    a ∈ l.foldl (fun s b => s.insert (f b)) s ↔ a ∈ s ∨ ∃ b ∈ l, a = f b := by
  induction l generalizing s with
  | nil => simp
  | cons b l ih =>
    rw [List.map_cons, List.nodup_cons] at hl
    have hnew : ∀ c, c ∈ s.insert (f b) ↔ c ∈ s ∨ c = f b := fun c => by
      rw [mem_insert, and_iff_left fun c hc => hs c hc b List.mem_cons_self]
    rw [List.foldl_cons, ih hl.2, hnew, or_assoc]
    · simp only [List.mem_cons, exists_eq_or_imp]
    · intro c hc b' hb'
      rcases (hnew c).1 hc with hc | rfl
      · exact hs c hc b' (List.mem_cons_of_mem _ hb')
      · exact fun he => hl.1 (List.mem_map.2 ⟨b', hb', he.symm⟩)

theorem mem_foldl_insert_of_injective (hkey : Function.Injective key) {l : List β} :
    a ∈ l.foldl (fun s b => s.insert (f b)) s ↔ a ∈ s ∨ ∃ b ∈ l, a = f b := by
  induction l generalizing s with
  | nil => simp
  | cons b l ih =>
    rw [List.foldl_cons, ih, mem_insert_of_injective hkey]
    simp only [List.mem_cons, exists_eq_or_imp]
    exact or_assoc.trans or_left_comm

end

theorem isEmpty_iff : s.isEmpty = true ↔ s = ∅ := by
  unfold isEmpty
  rw [List.isEmpty_iff]
  constructor
  · intro h
    refine ext fun a => ⟨fun ha => ?_, fun ha => absurd ha not_mem_empty⟩
    exact absurd (show a ∈ s.toList from ha) (h ▸ List.not_mem_nil)
  · rintro rfl
    rfl

theorem size_pos_iff : 0 < s.size ↔ s ≠ ∅ := by
  unfold size
  rw [List.length_pos_iff, ne_eq, ← List.isEmpty_iff, ne_eq, ← isEmpty_iff]
  rfl

end Keyed

end Dxpool
