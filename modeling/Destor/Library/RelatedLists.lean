/- digest: Two lists whose elements are related one by one. -/

import Mathlib.Data.List.Forall2
import Destor.Library.Outcome

set_option autoImplicit false
set_option relaxedAutoImplicit false

namespace Destor.Library.RelatedLists

open Library.Outcome

section Partners

variable {α β : Type} {R S : α → β → Prop} {l : List α} {l' : List β}

theorem mem_forall₂_right (h : List.Forall₂ R l l') {b : β} (hb : b ∈ l') : ∃ a ∈ l, R a b := by
  induction h with
  | nil => cases hb
  | cons hab _ ih =>
      rcases List.mem_cons.mp hb with rfl | hb
      · exact ⟨_, List.mem_cons_self, hab⟩
      · obtain ⟨a, ha, hr⟩ := ih hb
        exact ⟨a, List.mem_cons_of_mem _ ha, hr⟩

theorem mem_forall₂_left (h : List.Forall₂ R l l') {a : α} (ha : a ∈ l) : ∃ b ∈ l', R a b :=
  mem_forall₂_right (R := flip R) h.flip ha

/-- One partner serves two relations. -/
theorem exists_partner (h : List.Forall₂ R l l') (h' : List.Forall₂ S l l') {a : α} (ha : a ∈ l) :
    ∃ b, R a b ∧ S a b := by
  induction h with
  | nil => cases ha
  | cons hab _ ih =>
      cases h' with
      | cons hab' h' =>
          rcases List.mem_cons.mp ha with rfl | ha
          · exact ⟨_, hab, hab'⟩
          · exact ih h' ha

theorem forall₂_imp_of_mem (h : List.Forall₂ R l l') (himp : ∀ a ∈ l, ∀ b, R a b → S a b) :
    List.Forall₂ S l l' := by
  induction h with
  | nil => exact .nil
  | cons hab _ ih =>
      exact .cons (himp _ List.mem_cons_self _ hab)
        (ih fun a ha => himp a (List.mem_cons_of_mem _ ha))

theorem forall_iff_of_forall₂ {P : β → Prop} {Q : α → Prop} (h : List.Forall₂ R l l')
    (hiff : ∀ a ∈ l, ∀ b, R a b → (P b ↔ Q a)) : (∀ b ∈ l', P b) ↔ ∀ a ∈ l, Q a := by
  induction h with
  | nil => exact iff_of_true (fun _ h => absurd h List.not_mem_nil) fun _ h => absurd h List.not_mem_nil
  | cons hab _ ih =>
      have hrest := ih fun a ha => hiff a (List.mem_cons_of_mem _ ha)
      rw [List.forall_mem_cons, List.forall_mem_cons, hrest, hiff _ List.mem_cons_self _ hab]

theorem getLast?_forall₂ (h : List.Forall₂ R l l') {b : β} (hb : l'.getLast? = some b) :
    ∃ a, l.getLast? = some a ∧ R a b := by
  have hrev := List.forall₂_reverse_iff.mpr h
  rw [← List.head?_reverse] at hb ⊢
  generalize l.reverse = r at hrev ⊢
  generalize l'.reverse = r' at hrev hb
  cases hrev with
  | nil => cases hb
  | cons hab _ =>
      cases hb
      exact ⟨_, rfl, hab⟩

/-- The partners of two lists in a row stand in a row. -/
theorem forall₂_append_left {l₁ l₂ : List α} (h : List.Forall₂ R (l₁ ++ l₂) l') :
    ∃ l₁' l₂', List.Forall₂ R l₁ l₁' ∧ List.Forall₂ R l₂ l₂' ∧ l' = l₁' ++ l₂' := by
  induction l₁ generalizing l' with
  | nil => exact ⟨[], l', .nil, h, rfl⟩
  | cons a l₁ ih =>
      cases h with
      | cons hab h =>
          obtain ⟨l₁', l₂', h₁, h₂, rfl⟩ := ih h
          exact ⟨_ :: l₁', l₂', .cons hab h₁, h₂, rfl⟩

/-- The partner of an element stands at the same place. -/
theorem getElem?_forall₂ (h : List.Forall₂ R l l') {n : Nat} {a : α} (ha : l[n]? = some a) :
    ∃ b, l'[n]? = some b ∧ R a b := by
  induction h generalizing n with
  | nil => cases ha
  | cons hab _ ih =>
      cases n with
      | zero =>
          cases ha
          exact ⟨_, rfl, hab⟩
      | succ n => exact ih ha

theorem forall₂_mapIdx {f : Nat → α → β} (h : ∀ i a, l[i]? = some a → R a (f i a)) :
    List.Forall₂ R l (l.mapIdx f) := by
  induction l generalizing f with
  | nil => exact .nil
  | cons a l ih =>
      rw [List.mapIdx_cons]
      exact .cons (h 0 a rfl) (ih fun i b hb => h (i + 1) b hb)

end Partners

theorem forall₂_trans {α : Type} {R : α → α → Prop} (hR : ∀ a b c, R a b → R b c → R a c)
    {l l' l'' : List α} (h : List.Forall₂ R l l') (h' : List.Forall₂ R l' l'') :
    List.Forall₂ R l l'' := by
  induction h generalizing l'' with
  | nil => cases h'; exact .nil
  | cons hab _ ih =>
      cases h' with
      | cons hbc htail => exact .cons (hR _ _ _ hab hbc) (ih htail)

/-- A loop that succeeds relates its results to the elements as its body does. -/
theorem traverseE_forall₂ {ε σ α β : Type} {R : α → β → Prop} {f : σ → α → Except ε (σ × β)}
    (step : ∀ s a s' b, f s a = .ok (s', b) → R a b) {s s' : σ} {l : List α} {bs : List β}
    (h : traverseE f s l = .ok (s', bs)) : List.Forall₂ R l bs := by
  induction l generalizing s bs with
  | nil =>
      cases h
      exact .nil
  | cons a l ih =>
      rw [traverseE] at h
      obtain ⟨⟨s₁, b⟩, hhead, h⟩ := bind_ok_iff.mp h
      obtain ⟨⟨s₂, bs'⟩, htail, h⟩ := bind_ok_iff.mp h
      cases h
      exact .cons (step s a s₁ b hhead) (ih htail)

end Destor.Library.RelatedLists
