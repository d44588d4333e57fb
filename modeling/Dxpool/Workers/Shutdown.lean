/-
Several calls of `Shutdown`. The guard at its start is a read of `isAlive`
and, a step later, a write: two calls that both read before one writes both
join all workers; and a call that reads the flag down returns at once, while
the first may still wait for workers (`shutdown_twice`).

Where neither happens, one call passes the guard, and joins every worker once;
no call returns before all have exited (`run_joins`).
-/
import Dxpool.Workers.Pool

namespace Dxpool.Workers

open Machine

/-- How many workers a call of `Shutdown` has joined. -/
def Call.joined {numThreads : Nat} : Call numThreads → Nat
  | .joining i | .inJoin i => i
  | .returned => numThreads
  | .idle | .read | .write | .adding _ | .failed => 0

/-- On how many workers it has called `join`. -/
def Call.begun {numThreads : Nat} : Call numThreads → Nat
  | .joining i => i
  | .inJoin i => i + 1
  | .returned => numThreads
  | .idle | .read | .write | .adding _ | .failed => 0

/-- It has put the flag down, and has not returned. -/
def Call.closing {numThreads : Nat} : Call numThreads → Bool
  | .adding _ | .joining _ | .inJoin _ | .failed => true
  | .idle | .read | .write | .returned => false

section
variable {τ C : Type} {numThreads : Nat}

/-- The worker that a step calls `join` on. -/
def joined (s : State τ numThreads C) : Act τ numThreads C → Option (Fin numThreads)
  | .run c _ =>
    match s.calls c with
    | .joining w => some w
    | _ => none
  | .submit _ _ | .hasWork | .work _ | .wake _ | .shutdown _ => none

/-- A call reads the flag up only while no other is about to put it down, and
reads it down only after the call that put it down has returned. -/
def Serial (s : State τ numThreads C) : Act τ numThreads C → Prop
  | .run c _ => s.calls c = .read →
    if s.isAlive then ∀ d, s.calls d ≠ .write else ∀ d, (s.calls d).closing = false
  | .submit _ _ | .hasWork | .work _ | .wake _ | .shutdown _ => True

instance [Fintype C] (s : State τ numThreads C) (a : Act τ numThreads C) : Decidable (Serial s a) :=
  match a with
  | .run c _ => inferInstanceAs (Decidable (s.calls c = .read →
      if s.isAlive then ∀ d, s.calls d ≠ .write else ∀ d, (s.calls d).closing = false))
  | .submit _ _ | .hasWork | .work _ | .wake _ | .shutdown _ => .isTrue trivial

end

section
variable {numThreads i : Nat}

theorem joinFrom_joined (h : i ≤ numThreads) : (joinFrom numThreads i).joined = i := by
  unfold joinFrom
  split
  · rfl
  · show numThreads = i; omega

theorem addFrom_joined : (addFrom numThreads i).joined = 0 := by
  unfold addFrom
  split
  · rfl
  · exact joinFrom_joined (Nat.zero_le _)

/-- Between two joins a call has ended those it has begun. -/
theorem joinFrom_begun : (joinFrom numThreads i).begun = (joinFrom numThreads i).joined := by
  unfold joinFrom
  split <;> rfl

theorem addFrom_begun : (addFrom numThreads i).begun = 0 := by
  unfold addFrom
  split
  · rfl
  · rw [joinFrom_begun, joinFrom_joined (Nat.zero_le _)]

theorem joinFrom_returned (h : joinFrom numThreads i = .returned) : numThreads ≤ i := by
  unfold joinFrom at h
  split at h
  · cases h
  · omega

theorem addFrom_returned (h : addFrom numThreads i = .returned) : numThreads = 0 := by
  unfold addFrom at h
  split at h
  · cases h
  · have := joinFrom_returned h; omega

/-- A call past the guard, in none of its joins twice. -/
def Call.past : Call numThreads → Bool
  | .adding _ | .joining _ | .inJoin _ | .returned => true
  | .idle | .read | .write | .failed => false

/-- Past the guard and over, it has joined every worker. -/
theorem Call.joined_of_past {call : Call numThreads} (h : call.past = true) (hover : call.closing = false) :
    call.joined = numThreads ∧ call.begun = numThreads := by
  cases call with
  | returned => exact ⟨rfl, rfl⟩
  | idle | read | write | failed => cases h
  | adding | joining | inJoin => cases hover

@[simp] theorem joinFrom_past : (joinFrom numThreads i).past = true := by
  unfold joinFrom
  split <;> rfl

@[simp] theorem addFrom_past : (addFrom numThreads i).past = true := by
  simp only [addFrom]
  split
  · rfl
  · exact joinFrom_past

end

section
variable {τ C : Type} {numThreads : Nat} [DecidableEq C] {s s' : State τ numThreads C}
  {tr : Trace (State τ numThreads C) (Act τ numThreads C)}

/-- No call is past the guard, and one at most is about to put the flag down. -/
structure Open (tr : Trace (State τ numThreads C) (Act τ numThreads C)) (s : State τ numThreads C) : Prop where
  alive : s.isAlive = true
  order : log joined tr = []
  joinable : ∀ w, s.joinable w = true
  calls : ∀ c, s.calls c = .idle ∨ s.calls c = .read ∨ s.calls c = .write
  one : ∀ c d, s.calls c = .write → s.calls d = .write → c = d

/-- Call `c` is past the guard, and has joined the workers up to some. It alone calls
`join`, on one worker after another. -/
structure Closed (c : C) (tr : Trace (State τ numThreads C) (Act τ numThreads C)) (s : State τ numThreads C) : Prop where
  dead : s.isAlive = false
  past : (s.calls c).past = true
  calls : ∀ d, d ≠ c → s.calls d = .idle ∨ s.calls d = .read ∨ s.calls d = .returned
  order : log joined tr = (List.finRange numThreads).take (s.calls c).begun
  joinable : ∀ w, s.joinable w = true ↔ (s.calls c).joined ≤ w
  exited : ∀ w : Fin numThreads, w < (s.calls c).joined → s.workers w = .exited
  returned : ∀ d, s.calls d = .returned → ∀ w, s.workers w = .exited

/-- A worker that has exited stays so. -/
theorem Step.exited {a : Act τ numThreads C} (hs : Step s a s') {w : Fin numThreads} (hw : s.workers w = .exited) :
    s'.workers w = .exited := by
  have hset : ∀ {q : WorkQueue (Task τ) (Fin numThreads)} {v k}, s.workers v ≠ .exited →
      ({ s with workQueue := q }.setWorker v k).workers w = .exited := by
    intro q v k hv
    have hne : w ≠ v := by rintro rfl; exact hv hw
    rw [setWorker_ne hne]
    exact hw
  cases hs with
  | start hv | goOn hv | exit hv | lock hv | invoke hv | finish hv => exact hset (by simp [hv])
  | _ => exact hw

omit [DecidableEq C] in
theorem joined_none {a : Act τ numThreads C} (h : ∀ c n w, a = .run c n → s.calls c ≠ .joining w) :
    joined s a = none := by
  cases a with
  | run c n =>
    simp only [joined]
    split
    · exact absurd ‹_› (h c n _ rfl)
    · rfl
  | _ => rfl

theorem Open.step {a : Act τ numThreads C} (h : Open tr s) (hok : Serial s a) (hs : Step s a s') :
    Open ((s, a) :: tr) s' ∨ ∃ c, Closed c ((s, a) :: tr) s' := by
  have hlog : log joined ((s, a) :: tr) = [] := by
    rw [log_none (joined_none fun c _ w _ => ?_), h.order]
    rcases h.calls c with hc | hc | hc <;> simp [hc]
  have hcalls : ∀ {c k}, (k = .idle ∨ k = .read ∨ k = .write) →
      ∀ d, (s.setCall c k).calls d = .idle ∨ (s.setCall c k).calls d = .read ∨ (s.setCall c k).calls d = .write := by
    intro c k hk d
    by_cases hd : d = c
    · subst hd; rw [setCall_self]; exact hk
    · rw [setCall_ne hd]; exact h.calls d
  cases hs with
  | @shutdown c hc =>
    refine .inl ⟨h.alive, hlog, h.joinable, hcalls (.inr (.inl rfl)), fun d e hd he => ?_⟩
    have hne : ∀ {x}, (s.setCall c .read).calls x = .write → s.calls x = .write := by
      intro x hx
      by_cases hxc : x = c
      · subst hxc; rw [setCall_self] at hx; cases hx
      · rwa [setCall_ne hxc] at hx
    exact h.one d e (hne hd) (hne he)
  | @readAlive c n hc ha =>
    simp only [Serial, ha, if_true] at hok
    have hno := hok hc
    refine .inl ⟨h.alive, hlog, h.joinable, hcalls (.inr (.inr rfl)), fun d e hd he => ?_⟩
    have heq : ∀ {x}, (s.setCall c .write).calls x = .write → x = c := by
      intro x hx
      by_contra hxc
      rw [setCall_ne hxc] at hx
      exact hno x hx
    rw [heq hd, heq he]
  | readDead hc ha => rw [h.alive] at ha; cases ha
  | @write c n hc =>
    have hother : ∀ d, d ≠ c → (State.setCall { s with isAlive := false } c (addFrom numThreads 0)).calls d = .idle ∨
        (State.setCall { s with isAlive := false } c (addFrom numThreads 0)).calls d = .read := by
      intro d hd
      rw [setCall_ne hd]
      rcases h.calls d with hk | hk | hk
      · exact .inl hk
      · exact .inr hk
      · exact absurd (h.one d c hk hc) hd
    refine .inr ⟨c, rfl, ?_, fun d hd => (hother d hd).imp_right .inl, ?_, fun w => ?_, fun w hw => ?_, fun d hd => ?_⟩
    · rw [setCall_self, addFrom_past]
    · rw [setCall_self, addFrom_begun, hlog, List.take_zero]
    · rw [setCall_self, addFrom_joined]
      exact iff_of_true (h.joinable w) (Nat.zero_le _)
    · rw [setCall_self, addFrom_joined] at hw
      exact absurd hw (Nat.not_lt_zero _)
    · by_cases hdc : d = c
      · subst hdc
        rw [setCall_self] at hd
        have := addFrom_returned hd
        intro w
        exact absurd w.isLt (by omega)
      · rcases hother d hdc with hk | hk <;> rw [hk] at hd <;> cases hd
  | add hc | startJoin hc | join hc | joinFailed hc => rcases h.calls _ with hk | hk | hk <;> rw [hk] at hc <;> cases hc
  | _ => exact .inl ⟨h.alive, hlog, h.joinable, h.calls, h.one⟩

theorem Closed.step {a : Act τ numThreads C} {c : C} (h : Closed c tr s) (hok : Serial s a) (hs : Step s a s') :
    Closed c ((s, a) :: tr) s' := by
  -- the other calls are before the guard, or back from it
  have hother : ∀ {d k}, s.calls d = k → k ≠ .idle ∧ k ≠ .read ∧ k ≠ .returned → d = c := by
    rintro d k rfl ⟨h₁, h₂, h₃⟩
    by_contra hd
    rcases h.calls d hd with hk | hk | hk
    · exact h₁ hk
    · exact h₂ hk
    · exact h₃ hk
  have hquiet : joined s a = none → s'.isAlive = s.isAlive → s'.joinable = s.joinable → s'.calls = s.calls →
      Closed c ((s, a) :: tr) s' := by
    intro hlog ha hj hcalls
    refine ⟨ha.trans h.dead, by rw [hcalls]; exact h.past, by rw [hcalls]; exact h.calls, ?_, ?_, ?_, ?_⟩
    · rw [log_none hlog, hcalls]; exact h.order
    · rw [hj, hcalls]; exact h.joinable
    · intro w hw; rw [hcalls] at hw; exact hs.exited (h.exited w hw)
    · intro d hd w; rw [hcalls] at hd; exact hs.exited (h.returned d hd w)
  -- a step of another call
  have hset : ∀ {d k}, joined s a = none → d ≠ c → (k = .read ∨ k = .returned) →
      (k = .returned → ∀ w, s.workers w = .exited) → s' = s.setCall d k → Closed c ((s, a) :: tr) s' := by
    rintro d k hlog hd hk hret rfl
    have hc : (s.setCall d k).calls c = s.calls c := setCall_ne (Ne.symm hd)
    refine ⟨h.dead, hc ▸ h.past, fun e he => ?_, by rw [log_none hlog, hc]; exact h.order, hc ▸ h.joinable,
      hc ▸ h.exited, fun e he => ?_⟩
    · by_cases hed : e = d
      · subst hed; rw [setCall_self]; exact .inr hk
      · rw [setCall_ne hed]; exact h.calls e he
    · by_cases hed : e = d
      · subst hed; rw [setCall_self] at he; exact hret he
      · rw [setCall_ne hed] at he; exact h.returned e he
  have hpast : ∀ {d}, (s.calls d).past = false → d ≠ c := by
    rintro d hd rfl
    rw [h.past] at hd; cases hd
  cases hs with
  | @shutdown d hc =>
    exact hset rfl (hpast (by rw [hc]; rfl)) (.inl rfl) (fun hk => by cases hk) rfl
  | readAlive hc ha => rw [h.dead] at ha; cases ha
  | @readDead d n hc ha =>
    simp only [Serial, ha, Bool.false_eq_true, if_false] at hok
    -- the call past the guard has returned, so it has joined them all
    have hall := (Call.joined_of_past h.past (hok hc c)).1
    refine hset (by simp [joined, hc]) (hpast (by rw [hc]; rfl)) (.inr rfl) (fun _ w => h.exited w ?_) rfl
    rw [hall]
    exact w.isLt
  | write hc => exact absurd (hother hc (by simp)) (hpast (by rw [hc]; rfl))
  | @add d i n hc hn =>
    have hd := hother hc (by simp)
    subst hd
    have h₀ : (s.calls d).joined = (addFrom numThreads (i + 1)).joined := by rw [hc, addFrom_joined]; rfl
    have h₁ : (s.calls d).begun = (addFrom numThreads (i + 1)).begun := by rw [hc, addFrom_begun]; rfl
    refine ⟨h.dead, ?_, fun e he => ?_, ?_, fun w => ?_, fun w hw => ?_, fun e he => ?_⟩
    · rw [setCall_self, addFrom_past]
    · rw [setCall_ne he]; exact h.calls e he
    · rw [log_none (by simp [joined, hc]), setCall_self, ← h₁]; exact h.order
    · rw [setCall_self, ← h₀]; exact h.joinable w
    · rw [setCall_self, ← h₀] at hw; exact h.exited w hw
    · by_cases hed : e = d
      · subst hed
        rw [setCall_self] at he
        have := addFrom_returned he
        exact absurd i.isLt (by omega)
      · rw [setCall_ne hed] at he; exact h.returned e he
  | @startJoin d w n hc hj =>
    have hd := hother hc (by simp)
    subst hd
    have h₀ : (s.calls d).joined = w := by rw [hc]; rfl
    have h₁ : (s.calls d).begun = w := by rw [hc]; rfl
    refine ⟨h.dead, by rw [setCall_self]; rfl, fun e he => ?_, ?_, fun v => ?_, fun v hv => ?_, fun e he => ?_⟩
    · rw [setCall_ne he]; exact h.calls e he
    · rw [log_some (b := w) (by simp [joined, hc]), setCall_self, h.order, h₁, Call.begun,
        List.take_succ_eq_append_getElem (by simp), List.getElem_finRange]
      rfl
    · rw [setCall_self, Call.joined, ← h₀]; exact h.joinable v
    · rw [setCall_self, Call.joined, ← h₀] at hv; exact h.exited v hv
    · by_cases hed : e = d
      · subst hed; rw [setCall_self] at he; cases he
      · rw [setCall_ne hed] at he; exact h.returned e he
  | @join d w n hc hj hw =>
    have hd := hother hc (by simp)
    subst hd
    have h₀ : (s.calls d).joined = w := by rw [hc]; rfl
    have h₁ : (joinFrom numThreads (w + 1)).joined = w + 1 := joinFrom_joined w.isLt
    have hexited : ∀ v : Fin numThreads, v.val < w + 1 → s.workers v = .exited := by
      intro v hv
      rcases Nat.lt_succ_iff_lt_or_eq.1 hv with hv | hv
      · exact h.exited v (by rw [h₀]; exact hv)
      · rw [Fin.ext hv]; exact hw
    refine ⟨h.dead, ?_, fun e he => ?_, ?_, fun v => ?_, fun v hv => ?_, fun e he => ?_⟩
    · rw [setCall_self, joinFrom_past]
    · rw [setCall_ne he]; exact h.calls e he
    · rw [log_none (by simp [joined, hc]), setCall_self, joinFrom_begun, h₁, h.order, hc]
      rfl
    · rw [setCall_self, h₁]
      have := h.joinable v
      rw [h₀] at this
      by_cases hvw : v = w
      · subst hvw
        simp only [State.setCall, Function.update_self, Bool.false_eq_true, false_iff]
        omega
      · have hne : v.val ≠ w := fun he => hvw (Fin.ext he)
        simp only [State.setCall, Function.update_of_ne hvw, this]
        omega
    · rw [setCall_self, h₁] at hv; exact hexited v hv
    · by_cases hed : e = d
      · subst hed
        rw [setCall_self] at he
        have := joinFrom_returned he
        exact fun v => hexited v (by omega)
      · rw [setCall_ne hed] at he; exact h.returned e he
  | @joinFailed d w n hc hj =>
    have hd := hother hc (by simp)
    subst hd
    have := (h.joinable w).2 (by rw [hc]; exact Nat.le_refl _)
    rw [hj] at this; cases this
  | _ => exact hquiet rfl rfl rfl rfl

theorem closed_of_run (hr : (machine τ numThreads C).Run tr s) (hserial : Along Serial tr) :
    Open tr s ∨ ∃ c, Closed c tr s :=
  hr.invariantT (I := fun tr s => Open tr s ∨ ∃ c, Closed c tr s)
    (fun s h => by subst h; exact .inl ⟨rfl, rfl, fun _ => rfl, fun _ => .inl rfl, fun _ _ hc => by cases hc⟩)
    (fun _ _ _ _ _ _ hi hok h => by
      rcases hi with hi | ⟨c, hi⟩
      · exact hi.step hok (step_cases h)
      · exact .inr ⟨c, hi.step hok (step_cases h)⟩) hserial

/-- **One shutdown.** In a run whose reads of the flag meet `Serial`, `join` is
called on no worker twice, a call that has returned left no worker in its loop, and
when all calls have returned, one at least, every worker was joined once. -/
theorem run_joins (hr : (machine τ numThreads C).Run tr s) (hserial : Along Serial tr) :
    (∀ w, (log joined tr).count w ≤ 1) ∧ (∀ c, s.calls c = .returned → ∀ w, s.workers w = .exited) ∧
    (∀ c, s.calls c ≠ .failed) ∧
    ∀ c, s.calls c = .returned → (∀ d, s.calls d = .idle ∨ s.calls d = .returned) → ∀ w, (log joined tr).count w = 1 := by
  rcases closed_of_run hr hserial with h | ⟨c, h⟩
  · have hno : ∀ c, s.calls c ≠ .returned ∧ s.calls c ≠ .failed := by
      intro c
      rcases h.calls c with hk | hk | hk <;> simp [hk]
    exact ⟨by simp [h.order], fun c hc => absurd hc (hno c).1, fun c => (hno c).2, fun c hc => absurd hc (hno c).1⟩
  · have hnodup : ((List.finRange numThreads).take (s.calls c).begun).Nodup :=
      (List.nodup_finRange _).sublist (List.take_sublist _ _)
    refine ⟨fun w => ?_, h.returned, fun d hd => ?_, fun d hd hall w => ?_⟩
    · rw [h.order]; exact List.nodup_iff_count_le_one.1 hnodup w
    · by_cases hdc : d = c
      · subst hdc; have := h.past; rw [hd] at this; cases this
      · rcases h.calls d hdc with hk | hk | hk <;> rw [hk] at hd <;> cases hd
    · have hc : s.calls c = .returned := by
        rcases hall c with hk | hk
        · have := h.past; rw [hk] at this; cases this
        · exact hk
      rw [h.order]
      refine List.count_eq_one_of_mem hnodup ?_
      rw [hc, Call.begun, List.take_of_length_le (by simp)]
      exact List.mem_finRange w

end

/-- Call `d` reads the flag after call `c` put it down. -/
def earlyReturn {C : Type} (c d : C) : List (Act Nat 1 C) :=
  [.shutdown c, .run c none, .run c none, .shutdown d, .run d none]

/-- Both calls read the flag before either puts it down. -/
def bothJoin {C : Type} (c d : C) (w : Fin 1) : List (Act Nat 1 C) :=
  [.shutdown c, .shutdown d, .run c none, .run d none, .run c none, .run d none, .run c none, .run d none,
    .work w, .work w, .run c none, .run c none, .run d none]

/-- **Two shutdowns** of a pool of one worker: the second call returns while
the worker has not exited; or both join it. -/
theorem shutdown_twice :
    (∃ tr s, (machine Nat 1 (Fin 2)).Run tr s ∧ s.calls 1 = .returned ∧ s.workers 0 = .notStarted) ∧
    ∃ tr s, (machine Nat 1 (Fin 2)).Run tr s ∧ (log joined tr).count 0 = 2 ∧ s.calls 1 = .failed := by
  constructor
  · have h := exists_run (m := machine Nat 1 (Fin 2)) (s := {}) (l := earlyReturn 0 1)
      (p := fun _ s => decide (s.calls 1 = .returned ∧ s.workers 0 = .notStarted)) rfl (by decide +kernel)
    simpa only [decide_eq_true_eq] using h
  · have h := exists_run (m := machine Nat 1 (Fin 2)) (s := {}) (l := bothJoin 0 1 0)
      (p := fun tr s => decide ((log joined tr).count 0 = 2 ∧ s.calls 1 = .failed)) rfl (by decide +kernel)
    simpa only [decide_eq_true_eq] using h

/-- A call after the first has returned. -/
theorem run_joins_two : ∃ tr s, (machine Nat 1 (Fin 2)).Run tr s ∧ s.calls 0 = .returned ∧ s.calls 1 = .returned ∧
    (log joined tr).count 0 = 1 := by
  have h := exists_run (m := machine Nat 1 (Fin 2)) (s := {})
    (l := [.shutdown 0, .run 0 none, .run 0 none, .run 0 none, .work 0, .work 0, .run 0 none, .run 0 none, .shutdown 1,
      .run 1 none])
    (p := fun tr s => decide (Along Serial tr ∧ s.calls 0 = .returned ∧ s.calls 1 = .returned)) rfl (by decide +kernel)
  obtain ⟨tr, s, hr, hp⟩ := h
  simp only [decide_eq_true_eq] at hp
  obtain ⟨hserial, h₀, h₁⟩ := hp
  refine ⟨tr, s, hr, h₀, h₁, (run_joins hr hserial).2.2.2 0 h₀ (fun d => ?_) 0⟩
  match d with
  | 0 => exact .inr h₀
  | 1 => exact .inr h₁

end Dxpool.Workers
