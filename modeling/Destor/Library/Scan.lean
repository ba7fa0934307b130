/- digest: The first and the last place of a range at which a test holds. -/

import Mathlib.Tactic.Common

set_option autoImplicit false
set_option relaxedAutoImplicit false

namespace Destor.Library

def scanFirst (hit : Nat → Bool) : Nat → Nat → Option Nat
  | 0, _ => none
  | k + 1, i => if hit i then some i else scanFirst hit k (i + 1)

def scanLast (hit : Nat → Bool) : Nat → Nat → Option Nat → Option Nat
  | 0, _, m => m
  | k + 1, i, m => scanLast hit k (i + 1) (if hit i then some i else m)

section Scan

variable {hit hit' : Nat → Bool} {k i r : Nat} {m : Option Nat}

theorem scanFirst_eq_none_iff : scanFirst hit k i = none ↔ ∀ j, i ≤ j → j < i + k → hit j = false := by
  induction k generalizing i with
  | zero =>
      apply iff_of_true rfl
      intro j hij hj
      omega
  | succ k ih =>
      rw [scanFirst]
      cases hi : hit i with
      | true =>
          apply iff_of_false (by simp)
          intro h
          have hfalse := h i (Nat.le_refl i) (by omega)
          rw [hi] at hfalse
          cases hfalse
      | false =>
          rw [if_neg Bool.false_ne_true, ih]
          constructor
          · intro h j hij hj
            by_cases heq : j = i
            · rw [heq]
              exact hi
            · exact h j (by omega) (by omega)
          · intro h j hij hj
            exact h j (by omega) (by omega)

theorem scanFirst_eq_some_iff : scanFirst hit k i = some r ↔
    i ≤ r ∧ r < i + k ∧ hit r = true ∧ ∀ j, i ≤ j → j < r → hit j = false := by
  induction k generalizing i with
  | zero =>
      apply iff_of_false (by simp [scanFirst])
      intro h
      omega
  | succ k ih =>
      rw [scanFirst]
      cases hi : hit i with
      | true =>
          rw [if_pos rfl, Option.some.injEq]
          constructor
          · rintro rfl
            exact ⟨Nat.le_refl i, by omega, hi, fun j hij hj => absurd hj (by omega)⟩
          · rintro ⟨hir, _, _, hbefore⟩
            by_contra hne
            have hfalse := hbefore i (Nat.le_refl i) (by omega)
            rw [hi] at hfalse
            cases hfalse
      | false =>
          rw [if_neg Bool.false_ne_true, ih]
          constructor
          · rintro ⟨hir, hr, hhit, hbefore⟩
            refine ⟨by omega, by omega, hhit, fun j hij hj => ?_⟩
            by_cases heq : j = i
            · rw [heq]
              exact hi
            · exact hbefore j (by omega) hj
          · rintro ⟨hir, hr, hhit, hbefore⟩
            have hne : i ≠ r := by
              rintro rfl
              rw [hi] at hhit
              cases hhit
            exact ⟨by omega, by omega, hhit, fun j hij hj => hbefore j (by omega) hj⟩

theorem scanFirst_congr (h : ∀ j, i ≤ j → j < i + k → hit j = hit' j) :
    scanFirst hit k i = scanFirst hit' k i := by
  induction k generalizing i with
  | zero => rfl
  | succ k ih =>
      rw [scanFirst, scanFirst, h i (Nat.le_refl i) (by omega),
        ih fun j hij hj => h j (by omega) (by omega)]

/-- A range without a hit may be skipped. -/
theorem scanFirst_skip {a b : Nat} (h : ∀ j, i ≤ j → j < i + a → hit j = false) :
    scanFirst hit (a + b) i = scanFirst hit b (i + a) := by
  induction a generalizing i with
  | zero => rw [Nat.zero_add, Nat.add_zero]
  | succ a ih =>
      have hi := h i (Nat.le_refl i) (by omega)
      have hplace : a + 1 + b = a + b + 1 := by omega
      rw [hplace, scanFirst, hi, if_neg Bool.false_ne_true, ih fun j hij hj => h j (by omega) (by omega)]
      congr 1
      omega

theorem scanLast_eq_of_none (h : ∀ j, i ≤ j → j < i + k → hit j = false) :
    scanLast hit k i m = m := by
  induction k generalizing i with
  | zero => rfl
  | succ k ih =>
      rw [scanLast, h i (Nat.le_refl i) (by omega), if_neg Bool.false_ne_true,
        ih fun j hij hj => h j (by omega) (by omega)]

theorem scanLast_eq_of_last (hir : i ≤ r) (hr : r < i + k) (hhit : hit r = true)
    (hafter : ∀ j, r < j → j < i + k → hit j = false) : scanLast hit k i m = some r := by
  induction k generalizing i m with
  | zero => omega
  | succ k ih =>
      rw [scanLast]
      by_cases heq : i = r
      · rw [heq, hhit, if_pos rfl]
        exact scanLast_eq_of_none fun j hrj hj => hafter j hrj (by omega)
      · exact ih (by omega) (by omega) fun j hrj hj => hafter j hrj (by omega)

theorem scanLast_congr (h : ∀ j, i ≤ j → j < i + k → hit j = hit' j) :
    scanLast hit k i m = scanLast hit' k i m := by
  induction k generalizing i m with
  | zero => rfl
  | succ k ih =>
      rw [scanLast, scanLast, h i (Nat.le_refl i) (by omega),
        ih fun j hij hj => h j (by omega) (by omega)]

/-- Either the test holds nowhere, or there is a last place at which it does. -/
theorem last_or_none (hit : Nat → Bool) (k i : Nat) :
    (∀ j, i ≤ j → j < i + k → hit j = false) ∨
      ∃ r, i ≤ r ∧ r < i + k ∧ hit r = true ∧ ∀ j, r < j → j < i + k → hit j = false := by
  induction k with
  | zero => exact .inl fun j hij hj => absurd hj (by omega)
  | succ k ih =>
      cases hlast : hit (i + k) with
      | true => exact .inr ⟨i + k, by omega, by omega, hlast, fun j hj hlt => absurd hlt (by omega)⟩
      | false =>
          obtain hnone | ⟨r, hir, hr, hhit, hafter⟩ := ih
          · refine .inl fun j hij hj => ?_
            by_cases heq : j = i + k
            · rw [heq]
              exact hlast
            · exact hnone j hij (by omega)
          · refine .inr ⟨r, hir, by omega, hhit, fun j hrj hj => ?_⟩
            by_cases heq : j = i + k
            · rw [heq]
              exact hlast
            · exact hafter j hrj (by omega)

end Scan

end Destor.Library
