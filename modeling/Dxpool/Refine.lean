/-
Refinement between machines whose steps are of different size: a step of the
one is a few steps of the other, or none, and every run of the one is a run of the
other that ends in a related state (`Refines.run`).
-/
import Dxpool.Machine
import Mathlib.Logic.Relation

namespace Dxpool.Machine

variable {σ α σ' α' : Type} {m : Machine σ α} {m' : Machine σ' α'} {Q : σ → α → Prop} {Q' : σ' → α' → Prop} {R : σ' → σ → Prop}

/-- Steps that meet `Q` lead from the one state to the other. -/
def Reaches (m : Machine σ α) (Q : σ → α → Prop) : σ → σ → Prop :=
  Relation.ReflTransGen fun s s' => ∃ a, Q s a ∧ m.step s a = some s'

theorem Reaches.refl (s : σ) : m.Reaches Q s s := Relation.ReflTransGen.refl

theorem Reaches.trans {s s' s'' : σ} (h : m.Reaches Q s s') (h' : m.Reaches Q s' s'') : m.Reaches Q s s'' :=
  Relation.ReflTransGen.trans h h'

/-- One step, and the others after it. -/
theorem Reaches.cons {s s' s'' : σ} {a : α} (ha : Q s a) (hs : m.step s a = some s') (h : m.Reaches Q s' s'') :
    m.Reaches Q s s'' :=
  Relation.ReflTransGen.head ⟨a, ha, hs⟩ h

/-- A run goes on with them. -/
theorem Run.reaches {tr : Trace σ α} {s s' : σ} (hr : m.Run tr s) (hok : Along Q tr) (h : m.Reaches Q s s') :
    ∃ tr', m.Run tr' s' ∧ Along Q tr' := by
  induction h with
  | refl => exact ⟨tr, hr, hok⟩
  | tail _ hs ih =>
    obtain ⟨tr', hr', hok'⟩ := ih
    obtain ⟨a, ha, hs⟩ := hs
    exact ⟨_, hr'.step hs, along_cons.2 ⟨ha, hok'⟩⟩

/-- Each step of `m'` that meets `Q'` is steps of `m` that meet `Q`, from
related states to related states. -/
structure Refines (m' : Machine σ' α') (m : Machine σ α) (Q' : σ' → α' → Prop) (Q : σ → α → Prop) (R : σ' → σ → Prop) :
    Prop where
  init : ∀ {s'}, m'.init s' → ∃ s, m.init s ∧ R s' s
  step : ∀ {s' a s'' s}, R s' s → Q' s' a → m'.step s' a = some s'' → ∃ t, m.Reaches Q s t ∧ R s'' t

/-- **Refinement**: a run of `m'` is a run of `m`. -/
theorem Refines.run (h : Refines m' m Q' Q R) {tr' : Trace σ' α'} {s' : σ'} (hr : m'.Run tr' s') (hok' : Along Q' tr') :
    ∃ tr s, m.Run tr s ∧ Along Q tr ∧ R s' s := by
  induction hr with
  | init hi =>
    obtain ⟨s, hs, hR⟩ := h.init hi
    exact ⟨[], s, .init hs, along_nil, hR⟩
  | step _ hs ih =>
    obtain ⟨ha, hok'⟩ := along_cons.1 hok'
    obtain ⟨tr, s, hr, hok, hR⟩ := ih hok'
    obtain ⟨t, hreaches, hR'⟩ := h.step hR ha hs
    obtain ⟨tr', hr', hok⟩ := hr.reaches hok hreaches
    exact ⟨tr', t, hr', hok, hR'⟩

end Dxpool.Machine
