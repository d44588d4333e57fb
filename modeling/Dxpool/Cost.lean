/-
What a run costs. Each step is paid for by a potential of the state it is
taken in, or by what the step itself is given; so the length of a run is
bounded by what its steps were given in all.
-/
import Dxpool.Machine

namespace Dxpool.Machine

variable {σ α : Type} {m : Machine σ α}

/-- The number of steps of a kind. -/
def count (p : σ → α → Bool) (tr : Trace σ α) : Nat := tr.countP fun e => p e.1 e.2

/-- What the steps of a run are given. -/
def total (cost : σ → α → Nat) : Trace σ α → Nat
  | [] => 0
  | (s, a) :: tr => cost s a + total cost tr

@[simp] theorem total_nil (cost : σ → α → Nat) : total cost [] = 0 := rfl

@[simp] theorem total_cons (cost : σ → α → Nat) (s : σ) (a : α) (tr : Trace σ α) :
    total cost ((s, a) :: tr) = cost s a + total cost tr := rfl

/-- What is given for several reasons. -/
theorem total_add (f g : σ → α → Nat) (tr : Trace σ α) :
    total (fun s a => f s a + g s a) tr = total f tr + total g tr := by
  induction tr with
  | nil => rfl
  | cons e tr ih => rw [total_cons, total_cons, total_cons, ih]; omega

/-- What is given to the steps of a kind, the same to each. -/
theorem total_ite (p : σ → α → Bool) (k : Nat) (tr : Trace σ α) :
    total (fun s a => if p s a then k else 0) tr = k * count p tr := by
  induction tr with
  | nil => rfl
  | cons e tr ih =>
    rw [total_cons, ih, count, count, List.countP_cons, Nat.mul_add]
    split <;> omega

/-- **Amortization**: a run whose steps each lower `μ`, but for what they are
given, has no more steps than `μ` at its start and what they are given. -/
theorem Run.length_le {μ : σ → Nat} {c : σ → α → Nat} {Q : σ → α → Prop} {I : σ → Prop} {b : Nat}
    (h0 : ∀ s, m.init s → I s ∧ μ s ≤ b) (hI : ∀ s a s', I s → Q s a → m.step s a = some s' → I s')
    (hpay : ∀ s a s', I s → Q s a → m.step s a = some s' → μ s' + 1 ≤ μ s + c s a) {tr s} (hr : m.Run tr s)
    (hok : Along Q tr) : tr.length + μ s ≤ b + total c tr := by
  induction hr with
  | init h => simpa using (h0 _ h).2
  | @step tr s a s' hr hs ih =>
    rw [along_cons] at hok
    have hinv := hr.invariant (fun s h => (h0 s h).1) hI hok.2
    have hstep := hpay s a s' hinv hok.1 hs
    have := ih hok.2
    rw [List.length_cons, total_cons]
    omega

end Dxpool.Machine
