/-
Calls that run alone. Undisturbed, a call is a function of the state it finds
and of the spurious failures to come. It ends if something falls with each of
its steps that does not fail (`Progress`): run as a function it needs fuel for
the failures and for that (`Progress.drive_eq`), and as a component of a
machine, that takes only its steps, it is done after finitely many
(`Progress.ends`).
-/
import Dxpool.Machine

namespace Dxpool

/-- The actions, one after another from `s`, come to a state that is done. -/
inductive Machine.Ends {σ α : Type} (m : Machine σ α) (done : σ → Prop) : σ → (Nat → α) → Prop
  | here {s acts} : done s → Ends m done s acts
  | step {s acts s'} : m.step s (acts 0) = some s' → Ends m done s' (fun k => acts (k + 1)) → Ends m done s acts

/-- What never gets out of `P` is never done, if nothing in `P` is. -/
theorem Machine.Ends.not_of_stuck {σ α : Type} {m : Machine σ α} {done P : σ → Prop} {a : α}
    (hdone : ∀ {s}, P s → ¬done s) (hstep : ∀ {s s'}, P s → m.step s a = some s' → P s') {s : σ} (hs : P s) :
    ¬m.Ends done s fun _ => a := by
  intro hends
  generalize hacts : (fun _ => a : Nat → α) = acts at hends
  induction hends with
  | here h => exact hdone hs h
  | step h _ ih =>
    subst hacts
    exact ih (hstep hs h) rfl

section
variable {σ : Type}

/-- Runs a call to its end. The failures to come are used up one at a step;
then there are no more. -/
def drive (adv : Bool → σ → σ) (stop : σ → Bool) : (fuel : Nat) → List Bool → σ → Option (σ × List Bool)
  | 0, failures, s => if stop s then some (s, failures) else none
  | fuel + 1, failures, s =>
    if stop s then some (s, failures) else drive adv stop fuel failures.tail (adv (failures.headD false) s)

/-- Every step of a call keeps `I`, and `μ` falls with it unless it fails. -/
structure Progress (adv : Bool → σ → σ) (stop : σ → Bool) (I : σ → Prop) (μ : σ → Nat) : Prop where
  keep : ∀ {s b}, I s → stop s = false → I (adv b s)
  fall : ∀ {s}, I s → stop s = false → μ (adv false s) < μ s

namespace Progress

variable {adv : Bool → σ → σ} {stop : σ → Bool} {I : σ → Prop} {μ : σ → Nat}

theorem drive_nil (h : Progress adv stop I μ) {fuel : Nat} : ∀ {s}, I s → μ s ≤ fuel →
    ∃ s', drive adv stop fuel [] s = some (s', []) ∧ stop s' = true ∧ I s' := by
  induction fuel with
  | zero =>
    intro s hI hμ
    cases hs : stop s with
    | true => exact ⟨s, by rw [drive, if_pos hs], hs, hI⟩
    | false => have := h.fall hI hs; omega
  | succ fuel ih =>
    intro s hI hμ
    cases hs : stop s with
    | true => exact ⟨s, by rw [drive, if_pos hs], hs, hI⟩
    | false =>
      obtain ⟨s', hd, hs', hI'⟩ := ih (h.keep hI hs) (show μ (adv false s) ≤ fuel by have := h.fall hI hs; omega)
      exact ⟨s', by rw [drive, hs]; exact hd, hs', hI'⟩

/-- **Enough fuel**: one step for each failure, and as many as `μ` can fall by. -/
theorem drive_eq (h : Progress adv stop I μ) {bound : Nat} (hbound : ∀ s, I s → μ s ≤ bound) {failures : List Bool} :
    ∀ {fuel s}, I s → failures.length + bound ≤ fuel →
      ∃ s' rest, drive adv stop fuel failures s = some (s', rest) ∧ stop s' = true ∧ I s' := by
  induction failures with
  | nil =>
    intro fuel s hI hfuel
    have hμ : μ s ≤ fuel := Nat.le_trans (hbound s hI) (by simpa using hfuel)
    obtain ⟨s', hd, hs', hI'⟩ := h.drive_nil hI hμ
    exact ⟨s', [], hd, hs', hI'⟩
  | cons b failures ih =>
    intro fuel s hI hfuel
    rw [List.length_cons] at hfuel
    obtain ⟨fuel, rfl⟩ : ∃ f, fuel = f + 1 := ⟨fuel - 1, by omega⟩
    cases hs : stop s with
    | true => exact ⟨s, b :: failures, by rw [drive, if_pos hs], hs, hI⟩
    | false =>
      have hfuel' : failures.length + bound ≤ fuel := by omega
      obtain ⟨s', rest, hd, hs', hI'⟩ := ih (h.keep (b := b) hI hs) hfuel'
      exact ⟨s', rest, by rw [drive, hs]; exact hd, hs', hI'⟩

/-- **A call run alone ends**, when it fails finitely often: `R` relates the
state of the machine, whose actions `a` are the steps of the call, to it. -/
theorem ends {σ' α : Type} {m : Machine σ' α} {R : σ' → σ → Prop} {done : σ' → Prop} {a : Bool → α}
    (h : Progress adv stop I μ)
    (hstep : ∀ {s x b}, R s x → stop x = false → ∃ s', m.step s (a b) = some s' ∧ R s' (adv b x))
    (hdone : ∀ {s x}, R s x → stop x = true → done s) {sp : Nat → Bool} {N : Nat} :
    ∀ {s x}, (∀ k, N ≤ k → sp k = false) → R s x → I x → m.Ends done s (fun k => a (sp k)) := by
  induction N generalizing sp with
  | zero =>
    intro s x hsp hR hI
    -- no more failures: by what is left of `μ`
    have key : ∀ j s x, μ x ≤ j → R s x → I x → m.Ends done s fun _ => a false := by
      intro j
      induction j with
      | zero =>
        intro s x hμ hR hI
        cases hs : stop x with
        | true => exact .here (hdone hR hs)
        | false => have := h.fall hI hs; omega
      | succ j ih =>
        intro s x hμ hR hI
        cases hs : stop x with
        | true => exact .here (hdone hR hs)
        | false =>
          obtain ⟨s', hstep, hR'⟩ := hstep (b := false) hR hs
          have hfall := h.fall hI hs
          exact .step hstep (ih s' _ (by omega) hR' (h.keep hI hs))
    rw [show (fun k => a (sp k)) = fun _ => a false from funext fun k => by rw [hsp k (Nat.zero_le _)]]
    exact key _ s x (Nat.le_refl _) hR hI
  | succ N ih =>
    intro s x hsp hR hI
    cases hs : stop x with
    | true => exact .here (hdone hR hs)
    | false =>
      obtain ⟨s', hstep, hR'⟩ := hstep (b := sp 0) hR hs
      have hrest : ∀ k, N ≤ k → sp (k + 1) = false := fun k hk => hsp (k + 1) (by omega)
      exact .step hstep (ih hrest hR' (h.keep hI hs))

end Progress

end

end Dxpool
