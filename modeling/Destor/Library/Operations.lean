/- digest: Programs as trees of operations, and the disciplines that they keep whatever they are
   answered. -/

import Mathlib.Logic.Basic

set_option autoImplicit false
set_option relaxedAutoImplicit false

namespace Destor.Library.Operations

/-- A program that performs operations of type `ι`, each answered by a value of its own type, and
ends with a value. -/
inductive Program (ι : Type) (ρ : ι → Type) (α : Type) where
  | done (a : α)
  | perform (op : ι) (next : ρ op → Program ι ρ α)

variable {ι : Type} {ρ : ι → Type} {α β γ : Type}

namespace Program

def bind : Program ι ρ α → (α → Program ι ρ β) → Program ι ρ β
  | done a, f => f a
  | perform op next, f => perform op fun r => (next r).bind f

instance : Monad (Program ι ρ) where
  pure := done
  bind := bind

def call (op : ι) : Program ι ρ (ρ op) := perform op done

end Program

open Program

/-- A discipline follows a program through states: which operations each state allows, which answers
are to be expected, and the state after the answer. -/
structure Discipline (ι : Type) (ρ : ι → Type) (γ : Type) where
  allows : γ → ι → Prop
  expects : γ → (op : ι) → ρ op → Prop
  after : γ → (op : ι) → ρ op → γ

/-- From a state on, a program performs allowed operations only, whatever the expected answers, and
ends with a value and in a state as required. -/
def Obeys (d : Discipline ι ρ γ) (post : γ → α → Prop) : γ → Program ι ρ α → Prop
  | g, done a => post g a
  | g, perform op next =>
      d.allows g op ∧ ∀ r, d.expects g op r → Obeys d post (d.after g op r) (next r)

variable {d : Discipline ι ρ γ} {g : γ} {post post' : γ → α → Prop} {program : Program ι ρ α}

theorem Obeys.mono (h : Obeys d post g program) (himp : ∀ g a, post g a → post' g a) :
    Obeys d post' g program := by
  induction program generalizing g with
  | done a => exact himp g a h
  | perform op next ih => exact ⟨h.1, fun r hr => ih r (h.2 r hr)⟩

/-- The rule of sequential composition. -/
theorem Obeys.bind {mid : γ → α → Prop} {goal : γ → β → Prop} {f : α → Program ι ρ β}
    (h : Obeys d mid g program) (hf : ∀ g a, mid g a → Obeys d goal g (f a)) :
    Obeys d goal g (program >>= f) := by
  induction program generalizing g with
  | done a => exact hf g a h
  | perform op next ih => exact ⟨h.1, fun r hr => ih r (h.2 r hr)⟩

end Destor.Library.Operations
