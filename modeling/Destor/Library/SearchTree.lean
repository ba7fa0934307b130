/- digest: A search by comparisons through a sequence, however the tree that holds it is balanced. -/

import Mathlib.Data.List.Basic
import Mathlib.Tactic.Common

set_option autoImplicit false
set_option relaxedAutoImplicit false

namespace Destor.Library

/-- A binary tree that holds a sequence in order. -/
inductive SearchTree (α : Type) where
  | leaf
  | node (left : SearchTree α) (x : α) (right : SearchTree α)

namespace SearchTree

variable {α : Type}

def toList : SearchTree α → List α
  | leaf => []
  | node left x right => left.toList ++ x :: right.toList

/-- Goes down from the root: to the left where the element is too large, else to the right. -/
def search (cmp : α → Int) : SearchTree α → Option α
  | leaf => none
  | node left x right =>
      if cmp x = 0 then some x
      else if 0 < cmp x then left.search cmp
      else right.search cmp

/-- From the first element that is not too small on, the elements are too large. -/
def Ascending (cmp : α → Int) (l : List α) : Prop := l.Pairwise fun a b => 0 ≤ cmp a → 0 < cmp b

variable {cmp : α → Int} {tree : SearchTree α}

/-- In a sequence in order, each such tree leads to the element that compares equal. -/
theorem search_eq_find? (h : Ascending cmp tree.toList) :
    tree.search cmp = tree.toList.find? fun x => cmp x == 0 := by
  induction tree with
  | leaf => rfl
  | node left x right ihl ihr =>
      obtain ⟨hleft, hrest, hcross⟩ := List.pairwise_append.mp h
      obtain ⟨hx, hright⟩ := List.pairwise_cons.mp hrest
      rw [search, toList, List.find?_append]
      by_cases hlarge : 0 < cmp x
      · -- Right of an element that is too large there is no match.
        have hnone : (x :: right.toList).find? (fun x => cmp x == 0) = none := by
          apply List.find?_eq_none.mpr
          intro b hb hzero
          have hb0 : cmp b = 0 := eq_of_beq hzero
          rcases List.mem_cons.mp hb with rfl | hb
          · omega
          · have hb1 := hx b hb (by omega)
            omega
        rw [if_neg (by omega), if_pos hlarge, ihl hleft, hnone, Option.or_none]
      · have hnone : left.toList.find? (fun x => cmp x == 0) = none := by
          apply List.find?_eq_none.mpr
          intro a ha hzero
          have ha0 : cmp a = 0 := eq_of_beq hzero
          have hx0 := hcross a ha x List.mem_cons_self (by omega)
          omega
        rw [hnone, Option.none_or]
        by_cases hzero : cmp x = 0
        · rw [if_pos hzero, List.find?_cons_of_pos (by simp [hzero])]
        · rw [if_neg hzero, if_neg hlarge, ihr hright, List.find?_cons_of_neg (by simp [hzero])]

end SearchTree

end Destor.Library
