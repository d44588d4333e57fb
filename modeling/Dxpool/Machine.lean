/-
Machines that take one atomic step at a time: runs, what holds along a run,
and the records a run leaves (`log`, `moments`).

A run keeps the list of its steps, each with the state it was taken in, the
latest first. So "some moment of the call", "the answers so far" are
functions of the run, and the machine itself needs no ghost state.
-/
import Mathlib.Data.List.Basic
import Mathlib.Data.List.Infix

namespace Dxpool

/-- States `σ` changed by actions `α`. An action not enabled has no step. -/
structure Machine (σ α : Type) where
  init : σ → Prop
  step : σ → α → Option σ

/-- The steps of a run, the latest first. -/
abbrev Trace (σ α : Type) := List (σ × α)

namespace Machine

variable {σ α β : Type} {m : Machine σ α}

/-- A run of `m` by the steps of a trace, and the state it is in. -/
inductive Run (m : Machine σ α) : Trace σ α → σ → Prop
  | init {s} : m.init s → Run m [] s
  | step {tr s a s'} : Run m tr s → m.step s a = some s' → Run m ((s, a) :: tr) s'

/-- Every step of the run meets `ok`. -/
def Along (ok : σ → α → Prop) (tr : Trace σ α) : Prop := ∀ e ∈ tr, ok e.1 e.2

instance (ok : σ → α → Prop) [∀ s a, Decidable (ok s a)] (tr : Trace σ α) : Decidable (Along ok tr) :=
  inferInstanceAs (Decidable (∀ e ∈ tr, ok e.1 e.2))

/-- Every state of the run, the one it is in included, meets `P`. -/
def Always (P : σ → Prop) (tr : Trace σ α) (s : σ) : Prop := (∀ e ∈ tr, P e.1) ∧ P s

theorem along_nil {ok : σ → α → Prop} : Along ok [] := by simp [Along]

theorem along_cons {ok : σ → α → Prop} {s a tr} :
    Along ok ((s, a) :: tr) ↔ ok s a ∧ Along ok tr := by simp [Along]

theorem along_and {p q : σ → α → Prop} {tr} :
    Along (fun s a => p s a ∧ q s a) tr ↔ Along p tr ∧ Along q tr := by
  unfold Along
  exact ⟨fun h => ⟨fun e he => (h e he).1, fun e he => (h e he).2⟩, fun h e he => ⟨h.1 e he, h.2 e he⟩⟩

theorem always_step {P : σ → Prop} {s : σ} {a : α} {tr s'} :
    Always P ((s, a) :: tr) s' ↔ Always P tr s ∧ P s' := by
  simp only [Always, List.forall_mem_cons]
  exact ⟨fun h => ⟨⟨h.1.2, h.1.1⟩, h.2⟩, fun h => ⟨⟨h.1.2, h.1.1⟩, h.2⟩⟩

/-! ## Invariants -/

/-- What holds at the start and is kept by every step that meets `Q` holds
of every run whose steps all meet `Q`. -/
theorem Run.invariantT {I : Trace σ α → σ → Prop} {Q : σ → α → Prop}
    (h0 : ∀ s, m.init s → I [] s)
    (hs : ∀ tr s a s', m.Run tr s → Along Q tr → I tr s → Q s a → m.step s a = some s' → I ((s, a) :: tr) s')
    {tr s} (hr : m.Run tr s) (hok : Along Q tr) : I tr s := by
  induction hr with
  | init h => exact h0 _ h
  | step hr h ih =>
    rw [along_cons] at hok
    exact hs _ _ _ _ hr hok.2 (ih hok.2) hok.1 h

/-- The same for an invariant of the state alone. -/
theorem Run.invariant {I : σ → Prop} {Q : σ → α → Prop} (h0 : ∀ s, m.init s → I s)
    (hs : ∀ s a s', I s → Q s a → m.step s a = some s' → I s')
    {tr s} (hr : m.Run tr s) (hok : Along Q tr) : I s :=
  hr.invariantT (I := fun _ s => I s) h0 (fun _ _ _ _ _ _ hi ha h => hs _ _ _ hi ha h) hok

/-- The same for an invariant every step keeps. -/
theorem Run.invariant' {I : σ → Prop} (h0 : ∀ s, m.init s → I s)
    (hs : ∀ s a s', I s → m.step s a = some s' → I s') {tr s} (hr : m.Run tr s) : I s :=
  hr.invariant (Q := fun _ _ => True) h0 (fun _ _ _ hi _ h => hs _ _ _ hi h) (fun _ _ => trivial)

/-- An invariant under `Q`, where it and `W` imply `Q`: `W` along the
run is enough. -/
theorem Run.along_of {I : Trace σ α → σ → Prop} {W Q : σ → α → Prop}
    (hI : ∀ tr s, m.Run tr s → Along W tr → Along Q tr → I tr s)
    (hok : ∀ tr s a, m.Run tr s → I tr s → W s a → Q s a)
    {tr s} (hr : m.Run tr s) (hw : Along W tr) : Along Q tr := by
  induction hr with
  | init => exact along_nil
  | step hr _ ih =>
    rw [along_cons] at hw ⊢
    exact ⟨hok _ _ _ hr (hI _ _ hr hw.2 (ih hw.2)) hw.1, ih hw.2⟩

/-- What holds in the state of every run holds all along a run. -/
theorem Run.always {P : σ → Prop} {Q : σ → α → Prop}
    (h : ∀ tr s, m.Run tr s → Along Q tr → P s) {tr s} (hr : m.Run tr s) (hok : Along Q tr) :
    Always P tr s := by
  induction hr with
  | init h0 => exact ⟨by simp, h _ _ (.init h0) hok⟩
  | step hr hs ih => exact always_step.2 ⟨ih (along_cons.1 hok).2, h _ _ (.step hr hs) hok⟩

/-- A run started somewhere. -/
theorem Run.starts {tr : Trace σ α} {s : σ} (hr : m.Run tr s) : ∃ s₀, m.init s₀ := by
  induction hr with
  | init h => exact ⟨_, h⟩
  | step _ _ ih => exact ih

/-- The steps a run has taken up to one of its moments are a run. -/
theorem Run.before {post tr : Trace σ α} {e : σ × α} {s : σ} (hr : m.Run (post ++ e :: tr) s) : m.Run tr e.1 := by
  induction post generalizing s with
  | nil => cases hr with | step hr _ => exact hr
  | cons e' post ih => cases hr with | step hr _ => exact ih hr

/-! ## Records of a run -/

/-- What `f` records at each step, the earliest first. -/
def log (f : σ → α → Option β) : Trace σ α → List β
  | [] => []
  | (s, a) :: tr => log f tr ++ (f s a).toList

@[simp] theorem log_nil (f : σ → α → Option β) : log f [] = [] := rfl

theorem log_none {f : σ → α → Option β} {s a tr} (h : f s a = none) : log f ((s, a) :: tr) = log f tr := by
  simp [log, h]

theorem log_some {f : σ → α → Option β} {s a tr b} (h : f s a = some b) :
    log f ((s, a) :: tr) = log f tr ++ [b] := by
  simp [log, h]

theorem log_length_le (f : σ → α → Option β) (tr : Trace σ α) : (log f tr).length ≤ tr.length := by
  induction tr with
  | nil => exact Nat.le_refl _
  | cons e tr ih =>
    have : (f e.1 e.2).toList.length ≤ 1 := by cases f e.1 e.2 <;> simp
    rw [log, List.length_append, List.length_cons]
    omega

theorem log_append {f : σ → α → Option β} {pre : Trace σ α} (post : Trace σ α) :
    log f (post ++ pre) = log f pre ++ log f post := by
  induction post with
  | nil => simp
  | cons e post ih => simp [log, ih]

/-- The moments since the last step that meets `p`, the latest first: each
step after it with the run and the state it was taken in. -/
def moments (p : α → Bool) : Trace σ α → List (Trace σ α × σ)
  | [] => []
  | (s, a) :: tr => if p a then [] else (tr, s) :: moments p tr

theorem moments_here {p : α → Bool} {s : σ} {a tr} (h : p a = true) : moments p ((s, a) :: tr) = [] := by
  simp [moments, h]

theorem moments_cons {p : α → Bool} {s : σ} {a tr} (h : p a = false) :
    moments p ((s, a) :: tr) = (tr, s) :: moments p tr := by
  simp [moments, h]

/-! ## Components -/

section
variable {σ' α' : Type} {m' : Machine σ' α'} {f : σ → σ'} {g : σ → α → Option α'}

/-- What a component takes part in: `f` is its state, `g` its share of a step. -/
def project (f : σ → σ') (g : σ → α → Option α') : Trace σ α → Trace σ' α'
  | [] => []
  | (s, a) :: tr => ((g s a).toList.map fun b => (f s, b)) ++ project f g tr

/-- A component of a run runs itself, if its share of every step is a step of
its own machine. -/
theorem Run.project (h0 : ∀ s, m.init s → m'.init (f s))
    (h : ∀ s a s', m.step s a = some s' → (g s a).elim (f s' = f s) fun b => m'.step (f s) b = some (f s')) {tr s}
    (hr : m.Run tr s) : m'.Run (project f g tr) (f s) := by
  induction hr with
  | init hi => exact .init (h0 _ hi)
  | @step tr s a s' hr hs ih =>
    have hstep := h s a s' hs
    unfold Machine.project
    cases hg : g s a with
    | none => rw [hg] at hstep; rw [show f s' = f s from hstep]; exact ih
    | some b => rw [hg] at hstep; exact ih.step hstep

theorem log_project {r : σ' → α' → Option β} {tr : Trace σ α} :
    log r (project f g tr) = log (fun s a => (g s a).bind (r (f s))) tr := by
  induction tr with
  | nil => rfl
  | cons e tr ih =>
    obtain ⟨s, a⟩ := e
    cases hg : g s a <;> simp [project, log, hg, ih]

end

/-! ## Playing a list of actions -/

/-- The run that plays the actions from a state, recorded on top of `tr`. -/
def play (m : Machine σ α) : Trace σ α → σ → List α → Option (Trace σ α × σ)
  | tr, s, [] => some (tr, s)
  | tr, s, a :: as =>
    match m.step s a with
    | none => none
    | some s' => play m ((s, a) :: tr) s' as

theorem Run.play {as : List α} : ∀ {tr s tr' s'}, m.Run tr s → m.play tr s as = some (tr', s') → m.Run tr' s' := by
  induction as with
  | nil =>
    intro tr s tr' s' hr h
    simp only [Machine.play, Option.some.injEq, Prod.mk.injEq] at h
    obtain ⟨rfl, rfl⟩ := h
    exact hr
  | cons a as ih =>
    intro tr s tr' s' hr h
    unfold Machine.play at h
    split at h
    · cases h
    · rename_i hs; exact ih (hr.step hs) h

/-- A run that plays to an end that passes a test. -/
theorem exists_run {s l} {p : Trace σ α → σ → Bool} (h0 : m.init s)
    (h : (m.play [] s l).any (fun r => p r.1 r.2) = true) : ∃ tr s', m.Run tr s' ∧ p tr s' = true := by
  cases hp : m.play [] s l with
  | none => rw [hp] at h; cases h
  | some r => rw [hp] at h; exact ⟨r.1, r.2, Run.play (.init h0) hp, h⟩

end Machine

end Dxpool
