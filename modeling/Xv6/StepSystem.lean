import Mathlib

/-!
# Runs of a labelled step function

A system is a partial step function `step : σ → α → Option σ`: from a
state, an action is either not enabled or leads to one next state. An
interleaving of several parties is a list of actions. `run` replays one,
and the rules say what a whole run keeps: an invariant of the state
(`run_invariant`), or one that needs every action to meet a condition
where it is taken (`run_invariant_along`).
-/

namespace StepSystem

variable {σ α γ : Type}

/-- Replay the actions in order; `none` when one is not enabled. -/
def run (step : σ → α → Option σ) : σ → List α → Option σ
  | s, [] => some s
  | s, a :: as => (step s a).bind fun s' => run step s' as

@[simp] theorem run_nil (step : σ → α → Option σ) (s : σ) : run step s [] = some s := rfl

theorem run_cons {step : σ → α → Option σ} {s t : σ} {a : α} {as : List α} :
    run step s (a :: as) = some t ↔ ∃ s', step s a = some s' ∧ run step s' as = some t := by
  rw [run, Option.bind_eq_some_iff]

theorem run_append {step : σ → α → Option σ} {s t u : σ} {as bs : List α} (h : run step s as = some t)
    (h' : run step t bs = some u) : run step s (as ++ bs) = some u := by
  induction as generalizing s with
  | nil =>
    simp_all
  | cons a as ih =>
    obtain ⟨s', h1, h2⟩ := run_cons.mp h
    exact run_cons.mpr ⟨s', h1, ih h2⟩

/-- What one step preserves, a run preserves. -/
theorem run_invariant {step : σ → α → Option σ} {I : σ → Prop}
    (hstep : ∀ {s a s'}, I s → step s a = some s' → I s') {as : List α} :
    ∀ {s t : σ}, I s → run step s as = some t → I t := by
  induction as with
  | nil =>
    simp
  | cons a as ih =>
    intro s t hs h
    obtain ⟨s', h1, h2⟩ := run_cons.mp h
    exact ih (hstep hs h1) h2

/-- A system that can follow each step of another can follow its runs. -/
theorem run_simulation {τ : Type} {step : σ → α → Option σ} {step' : τ → α → Option τ} {R : σ → τ → Prop}
    (hstep : ∀ {s t a s'}, R s t → step s a = some s' → ∃ t', step' t a = some t' ∧ R s' t') {as : List α} :
    ∀ {s t s'}, R s t → run step s as = some s' → ∃ t', run step' t as = some t' ∧ R s' t' := by
  induction as with
  | nil =>
    simp
  | cons a as ih =>
    intro s t s' hR h
    obtain ⟨s₁, h1, h2⟩ := run_cons.mp h
    obtain ⟨t₁, h1', hR₁⟩ := hstep hR h1
    obtain ⟨t', h2', hR'⟩ := ih hR₁ h2
    exact ⟨t', run_cons.mpr ⟨t₁, h1', h2'⟩, hR'⟩

/-- Every action meets `P` in the state where it is taken. -/
def Along (step : σ → α → Option σ) (P : σ → α → Prop) : σ → List α → Prop
  | _, [] => True
  | s, a :: as => P s a ∧ ∀ s', step s a = some s' → Along step P s' as

/-- A condition that can be decided can be decided along a run. -/
instance Along.decide (step : σ → α → Option σ) (P : σ → α → Prop) [∀ s a, Decidable (P s a)] :
    ∀ s as, Decidable (Along step P s as)
  | _, [] => isTrue trivial
  | s, a :: as =>
      match h : step s a with
      | none => decidable_of_iff (P s a) ⟨fun hp => ⟨hp, fun s' hs => by rw [h] at hs; cases hs⟩,
          fun hp => hp.1⟩
      | some s' =>
          have := Along.decide step P s' as
          decidable_of_iff (P s a ∧ Along step P s' as) ⟨fun hp => ⟨hp.1, fun t ht => by
            rw [h] at ht
            cases ht
            exact hp.2⟩, fun hp => ⟨hp.1, hp.2 s' h⟩⟩

/-- A condition on the actions alone. -/
theorem along_of_forall {step : σ → α → Option σ} {P : α → Prop} {as : List α} (h : ∀ a ∈ as, P a) (s : σ) :
    Along step (fun _ a => P a) s as := by
  induction as generalizing s with
  | nil => trivial
  | cons a as ih => exact ⟨h a List.mem_cons_self, fun s' _ => ih (fun b hb => h b (List.mem_cons_of_mem _ hb)) s'⟩

theorem Along.and {step : σ → α → Option σ} {P Q : σ → α → Prop} {as : List α} {s : σ}
    (hP : Along step P s as) (hQ : Along step Q s as) : Along step (fun s a => P s a ∧ Q s a) s as := by
  induction as generalizing s with
  | nil => trivial
  | cons a as ih => exact ⟨⟨hP.1, hQ.1⟩, fun s' h => ih (hP.2 s' h) (hQ.2 s' h)⟩

/-- What one step preserves under `P`, a run along `P` preserves. -/
theorem run_invariant_along {step : σ → α → Option σ} {P : σ → α → Prop} {I : σ → Prop}
    (hstep : ∀ {s a s'}, I s → P s a → step s a = some s' → I s') {as : List α} :
    ∀ {s t : σ}, I s → Along step P s as → run step s as = some t → I t := by
  induction as with
  | nil =>
    simp_all
  | cons a as ih =>
    intro s t hs hP h
    obtain ⟨s', h1, h2⟩ := run_cons.mp h
    exact ih (hstep hs hP.1 h1) (hP.2 s' h1) h2

/-- Two conditions that agree wherever an invariant holds agree along a
run, if the one of them keeps the invariant. -/
theorem along_iff {step : σ → α → Option σ} {P Q R : σ → α → Prop} {I : σ → Prop}
    (hPQ : ∀ {s a}, I s → R s a → (P s a ↔ Q s a))
    (hstep : ∀ {s a s'}, I s → R s a → Q s a → step s a = some s' → I s') {as : List α} :
    ∀ {s : σ}, I s → Along step R s as → (Along step P s as ↔ Along step Q s as) := by
  induction as with
  | nil => exact fun _ _ => Iff.rfl
  | cons a as ih =>
    intro s hs hR
    refine and_congr_right_iff.mpr ?_ |>.trans (and_congr_left fun _ => hPQ hs hR.1)
    intro hP
    have hQ := (hPQ hs hR.1).mp hP
    exact forall₂_congr fun s' h1 => ih (hstep hs hR.1 hQ h1) (hR.2 s' h1)

end StepSystem
