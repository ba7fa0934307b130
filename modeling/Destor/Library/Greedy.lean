/- digest: Choosing the best of the candidates that are left, again and again. -/

import Mathlib.Data.List.Basic

set_option autoImplicit false
set_option relaxedAutoImplicit false

namespace Destor.Library.Greedy

variable {α : Type}

structure Best (candidate : α → Prop) (preferred : List α → α → α → Prop) (chosen : List α)
    (a : α) : Prop where
  mem : candidate a
  fresh : a ∉ chosen
  best : ∀ b, candidate b → b ∉ chosen → b ≠ a → preferred chosen a b

inductive GreedyChoice (candidate : α → Prop) (preferred : List α → α → α → Prop) :
    List α → List α → Prop
  | done (chosen : List α) : GreedyChoice candidate preferred chosen []
  | choose {chosen l : List α} {a : α} (ha : Best candidate preferred chosen a)
      (hl : GreedyChoice candidate preferred (chosen ++ [a]) l) :
      GreedyChoice candidate preferred chosen (a :: l)

section Rules

variable {candidate candidate' : α → Prop} {preferred preferred' : List α → α → α → Prop}
variable {chosen l l' : List α}

theorem Best.congr {a : α} (h : Best candidate preferred chosen a)
    (hcandidate : ∀ b, candidate b ↔ candidate' b)
    (hpreferred : ∀ a b, preferred chosen a b ↔ preferred' chosen a b) :
    Best candidate' preferred' chosen a := by
  constructor
  · exact (hcandidate a).mp h.mem
  · exact h.fresh
  · exact fun b hb hfresh hne =>
      (hpreferred a b).mp (h.best b ((hcandidate b).mpr hb) hfresh hne)

theorem Best.unique {a b : α} (hasymm : ∀ a b, preferred chosen a b → ¬ preferred chosen b a)
    (ha : Best candidate preferred chosen a) (hb : Best candidate preferred chosen b) : a = b := by
  by_contra hne
  apply hasymm a b
  · exact ha.best b hb.mem hb.fresh (Ne.symm hne)
  · exact hb.best a ha.mem ha.fresh hne

theorem GreedyChoice.congr (h : GreedyChoice candidate preferred chosen l)
    (hcandidate : ∀ b, candidate b ↔ candidate' b)
    (hpreferred : ∀ chosen a b, preferred chosen a b ↔ preferred' chosen a b) :
    GreedyChoice candidate' preferred' chosen l := by
  induction h with
  | done chosen => exact .done chosen
  | choose ha _ ih => exact .choose (ha.congr hcandidate (hpreferred _)) ih

theorem GreedyChoice.unique (hasymm : ∀ chosen a b, preferred chosen a b → ¬ preferred chosen b a)
    (h : GreedyChoice candidate preferred chosen l)
    (h' : GreedyChoice candidate preferred chosen l') (hlength : l.length = l'.length) :
    l = l' := by
  induction h generalizing l' with
  | done chosen => exact (List.length_eq_zero_iff.mp hlength.symm).symm
  | choose ha _ ih =>
      cases h' with
      | done _ => exact absurd hlength (Nat.succ_ne_zero _)
      | choose hb hl =>
          have heq := ha.unique (hasymm _) hb
          subst heq
          rw [ih hl (Nat.succ.inj hlength)]

theorem GreedyChoice.best_getElem (h : GreedyChoice candidate preferred chosen l) (i : Nat)
    (hi : i < l.length) : Best candidate preferred (chosen ++ l.take i) l[i] := by
  induction h generalizing i with
  | done chosen => exact absurd hi (Nat.not_lt_zero i)
  | @choose chosen l a ha hl ih =>
      cases i with
      | zero => rwa [List.take_zero, List.append_nil]
      | succ i =>
          have hbest := ih i (Nat.lt_of_succ_lt_succ hi)
          rw [List.append_assoc] at hbest
          exact hbest

end Rules

end Destor.Library.Greedy
