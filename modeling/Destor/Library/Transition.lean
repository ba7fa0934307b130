/- digest: Runs of a fallible transition system, and their invariants. -/

import Destor.Library.Outcome

set_option autoImplicit false
set_option relaxedAutoImplicit false

namespace Destor.Library.Transition

open Destor.Library.Outcome

variable {ε σ α : Type}

/-- A run that took the actions of a list, the first one first. Each action was admitted by `ok`
in the state in which it was taken, and none failed. -/
inductive Run (step : σ → α → Except ε σ) (ok : σ → α → Prop) (init : σ) : List α → σ → Prop
  | nil : Run step ok init [] init
  | snoc {actions : List α} {s s' : σ} {a : α} (run : Run step ok init actions s) (hok : ok s a)
      (hstep : step s a = .ok s') : Run step ok init (actions ++ [a]) s'

variable {step : σ → α → Except ε σ} {ok ok' : σ → α → Prop} {init s : σ} {actions : List α}

/-- What holds at the start and over each admitted step holds in every state reached. -/
theorem Run.invariant {allowed : ε → Prop} (Inv : σ → Prop) (hinit : Inv init)
    (hstep : ∀ s a, Inv s → ok s a → Ensures allowed Inv (step s a))
    (h : Run step ok init actions s) : Inv s := by
  induction h with
  | nil => exact hinit
  | snoc _ hok heq ih => exact (hstep _ _ ih hok).of_ok heq

/-- The invariant may also speak of the actions taken. -/
theorem Run.invariant_actions {allowed : ε → Prop} (Inv : List α → σ → Prop)
    (hinit : Inv [] init)
    (hstep : ∀ actions s a, Inv actions s → ok s a →
      Ensures allowed (Inv (actions ++ [a])) (step s a))
    (h : Run step ok init actions s) : Inv actions s := by
  induction h with
  | nil => exact hinit
  | snoc _ hok heq ih => exact (hstep _ _ _ ih hok).of_ok heq

theorem Run.after {s' : σ} (run : Run step ok init actions s) (a : α) (hok : ok s a)
    (hstep : step s a = .ok s') : Run step ok init (actions ++ [a]) s' :=
  run.snoc hok hstep

theorem Run.last {a : α} (h : Run step ok init (actions ++ [a]) s) :
    ∃ s₀, Run step ok init actions s₀ ∧ ok s₀ a ∧ step s₀ a = .ok s := by
  generalize hall : actions ++ [a] = all at h
  cases h with
  | nil => exact absurd hall (by simp)
  | snoc run hok hstep =>
      obtain ⟨rfl, rfl⟩ := List.append_singleton_inj.mp hall
      exact ⟨_, run, hok, hstep⟩

/-- The actions determine the state they lead to. -/
theorem Run.unique {s' : σ} (h : Run step ok init actions s) (h' : Run step ok' init actions s') :
    s' = s := by
  induction h generalizing s' with
  | nil =>
      generalize hnil : ([] : List α) = actions at h'
      cases h' with
      | nil => rfl
      | snoc _ _ _ => exact absurd hnil (by simp)
  | snoc _ _ hstep ih =>
      obtain ⟨s₀, hrun, -, hstep'⟩ := h'.last
      rw [ih hrun, hstep] at hstep'
      exact (Except.ok.inj hstep').symm

/-- Actions admitted by one condition are admitted by a weaker one. -/
theorem Run.imp (himp : ∀ s a, ok s a → ok' s a) (h : Run step ok init actions s) :
    Run step ok' init actions s := by
  induction h with
  | nil => exact .nil
  | snoc _ hok hstep ih => exact ih.snoc (himp _ _ hok) hstep

/-- Where each step keeps a property exactly under a condition on the state before it, all states of a
run have the property exactly if all its steps meet the condition. -/
theorem Run.forall_prefix_iff {P : σ → Prop} {C : σ → α → Prop} (hinit : P init)
    (hkeep : ∀ done s a s', Run step ok init done s → done ++ [a] <+: actions → ok s a →
      step s a = .ok s' → P s → (P s' ↔ C s a))
    (h : Run step ok init actions s) :
    (∀ done s', done <+: actions → Run step ok init done s' → P s') ↔
      Run step (fun s a => ok s a ∧ C s a) init actions s := by
  induction h with
  | nil =>
      refine ⟨fun _ => .nil, fun _ done s' hdone hrun => ?_⟩
      rw [List.prefix_nil] at hdone
      subst hdone
      have hnil : Run step ok init [] init := .nil
      rw [Run.unique hnil hrun]
      exact hinit
  | @snoc actions s s' a run hok hstep ih =>
      have hprefix : actions <+: actions ++ [a] := List.prefix_append actions [a]
      have ih := ih fun done s₀ b s₁ hrun hdone => hkeep done s₀ b s₁ hrun (hdone.trans hprefix)
      have hlast := hkeep actions s a s' run (List.prefix_refl _) hok hstep
      constructor
      · intro hall
        have hmeets := ih.mp fun done s₀ hdone => hall done s₀ (hdone.trans hprefix)
        have hC := (hlast (hall actions s hprefix run)).mp
          (hall _ s' (List.prefix_refl _) (run.snoc hok hstep))
        exact hmeets.snoc ⟨hok, hC⟩ hstep
      · intro hmeets done s₁ hdone hrun
        obtain ⟨s₀, hmeets₀, hok₀, -⟩ := hmeets.last
        obtain rfl : s₀ = s := Run.unique run hmeets₀
        have hall := ih.mpr hmeets₀
        obtain rfl | hdone := List.prefix_concat_iff.mp hdone
        · obtain rfl : s₁ = s' := Run.unique (run.snoc hok hstep) hrun
          exact (hlast (hall actions s₀ (List.prefix_refl _) run)).mpr hok₀.2
        · exact hall done s₁ hdone hrun

def exec (step : σ → α → Except ε σ) (admits : σ → α → Bool) : σ → List α → Option σ
  | s, [] => some s
  | s, a :: actions =>
      if admits s a then
        match step s a with
        | .ok s' => exec step admits s' actions
        | .error _ => none
      else none

theorem Run.of_exec {admits : σ → α → Bool} (hok : ∀ s a, admits s a = true → ok s a)
    (h : exec step admits init actions = some s) : Run step ok init actions s := by
  have main : ∀ (actions done : List α) (s₀ : σ), Run step ok init done s₀ →
      exec step admits s₀ actions = some s → Run step ok init (done ++ actions) s := by
    intro actions
    induction actions with
    | nil =>
        intro done s₀ hrun h
        cases h
        rwa [List.append_nil]
    | cons a actions ih =>
        intro done s₀ hrun h
        unfold exec at h
        split at h
        · rename_i hadmits
          cases hstep : step s₀ a with
          | error e => simp [hstep] at h
          | ok s' =>
              simp only [hstep] at h
              have hrun' := ih (done ++ [a]) s' (hrun.snoc (hok _ _ hadmits) hstep) h
              rwa [List.append_assoc, List.singleton_append] at hrun'
        · cases h
  simpa using main actions [] init .nil h

end Destor.Library.Transition
