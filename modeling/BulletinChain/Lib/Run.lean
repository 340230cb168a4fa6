import Mathlib.Data.List.Basic

-- Runs of a deterministic machine: `step s a` is the state after action `a`, or `none` when `a`
-- cannot be taken in `s`. A `guard` restricts the runs to those whose every action it admits in the
-- state the action is taken in.
inductive Runs (step : σ → α → Option σ) (guard : σ → α → Prop) : σ → List α → σ → Prop
  | nil  : Runs step guard s [] s
  | cons : guard s₁ a → step s₁ a = some s₂ → Runs step guard s₂ as s₃ →
           Runs step guard s₁ (a :: as) s₃

namespace Runs

variable {step : σ → α → Option σ} {guard guard' : σ → α → Prop} {s s₁ s₂ s₃ : σ} {as as' : List α}

-- What holds at the start and is kept by every admitted step holds at the end of every run.
theorem invariant (inv : σ → Prop) (h : inv s₁)
    (hs : ∀ {s a s'}, inv s → guard s a → step s a = some s' → inv s') :
    Runs step guard s₁ as s₂ → inv s₂ := by
  intro r
  induction r
  case nil          => exact h
  case cons g e _ hi => exact hi (hs h g e)

theorem append (h : Runs step guard s₁ as s₂) (h' : Runs step guard s₂ as' s₃) :
    Runs step guard s₁ (as ++ as') s₃ := by
  induction h
  case nil          => exact h'
  case cons g e _ hi => exact .cons g e (hi h')

-- An action in the middle of a run is taken in the state that the actions before it lead to.
theorem middle (h : Runs step guard s₁ (as ++ a :: as') s₃) :
    ∃ s s', Runs step guard s₁ as s ∧ step s a = some s' ∧ Runs step guard s' as' s₃ := by
  induction as generalizing s₁
  case nil =>
    cases h
    case cons s' g e r => exact ⟨s₁, s', .nil, e, r⟩
  case cons hi =>
    cases h
    case cons g e r =>
      obtain ⟨s, s', r₁, e', r₂⟩ := hi r
      exact ⟨s, s', .cons g e r₁, e', r₂⟩

theorem mono (h : ∀ {s a}, guard s a → guard' s a) :
    Runs step guard s₁ as s₂ → Runs step guard' s₁ as s₂ := by
  intro r
  induction r
  case nil          => exact .nil
  case cons g e _ hi => exact .cons (h g) e hi

-- A machine that does what another one does, apart from the actions that the other one does not see.
theorem simulation {step' : τ → β → Option τ} {guard' : τ → β → Prop} (f : σ → τ) (see : α → Option β)
    (inv : σ → Prop) (h : inv s₁)
    (hs : ∀ {s a s'}, inv s → guard s a → step s a = some s' → inv s' ∧
      (see a).elim (f s' = f s) fun b => guard' (f s) b ∧ step' (f s) b = some (f s')) :
    Runs step guard s₁ as s₂ → inv s₂ ∧ Runs step' guard' (f s₁) (as.filterMap see) (f s₂) := by
  intro r
  induction r
  case nil => exact ⟨h, .nil⟩
  case cons a _ _ _ g e _ hi =>
    have ⟨h, hf⟩ := hs h g e
    have ⟨hn, r⟩ := hi h
    refine ⟨hn, ?_⟩
    cases hb : see a
    case none   =>
      rw [hb] at hf
      rw [List.filterMap_cons_none hb]
      exact hf ▸ r
    case some b =>
      rw [hb] at hf
      rw [List.filterMap_cons_some hb]
      exact .cons hf.left hf.right r

-- The actions a run takes are the actions of its list.
theorem mem : Runs step guard s₁ as s₂ → Runs step (fun s a => guard s a ∧ a ∈ as) s₁ as s₂ := by
  intro r
  induction r
  case nil => exact .nil
  case cons g e _ hi =>
    refine .cons ⟨g, List.mem_cons_self ..⟩ e (hi.mono fun h => ⟨h.left, ?_⟩)
    exact List.mem_cons_of_mem _ h.right

end Runs

-- The run of a list of actions, computed, with a decidable guard.
def runWith (step : σ → α → Option σ) (guard : σ → α → Bool) : σ → List α → Option σ
  | s, []      => some s
  | s, a :: as => if guard s a then (step s a).bind (runWith step guard · as) else none

theorem Runs.of_runWith {step : σ → α → Option σ} {guard : σ → α → Bool} {s s' : σ} {as : List α}
    (h : runWith step guard s as = some s') : Runs step (guard · ·) s as s' := by
  induction as generalizing s
  case nil =>
    cases h
    exact .nil
  case cons a as hi =>
    simp only [runWith] at h
    split at h
    case isTrue g =>
      have ⟨_, e, h⟩ := Option.bind_eq_some_iff.mp h
      exact .cons g e (hi h)
    case isFalse => contradiction

-- A run that can be computed ends in a state of which a property can be decided.
theorem Runs.exists_of_any (step : σ → α → Option σ) (guard : σ → α → Bool) (s : σ) (as : List α)
    (p : σ → Prop) [DecidablePred p] (h : (runWith step guard s as).any (p ·)) :
    ∃ s', Runs step (guard · ·) s as s' ∧ p s' := by
  cases hr : runWith step guard s as <;> rw [hr] at h
  case none    => contradiction
  case some s' => exact ⟨s', .of_runWith hr, of_decide_eq_true h⟩

-- The log of the run of a list of actions: what each action emits in the state it is taken in.
def logOf (step : σ → α → Option σ) (emit : σ → α → List ε) : σ → List α → List ε
  | _, []      => []
  | s, a :: as =>
    match step s a with
    | some s' => emit s a ++ logOf step emit s' as
    | none    => []

-- What holds of a state and its log so far, and is kept by every admitted step, holds at the end.
theorem Runs.log_invariant {step : σ → α → Option σ} {guard : σ → α → Prop}
    {emit : σ → α → List ε} {s₁ s₂ : σ} {as : List α} (inv : σ → List ε → Prop) (h : inv s₁ log)
    (hs : ∀ {s a s' log}, inv s log → guard s a → step s a = some s' → inv s' (log ++ emit s a)) :
    Runs step guard s₁ as s₂ → inv s₂ (log ++ logOf step emit s₁ as) := by
  intro r
  induction r generalizing log
  case nil => simpa [logOf] using h
  case cons g e _ hi =>
    rw [logOf, e, ← List.append_assoc]
    exact hi (hs h g e)
