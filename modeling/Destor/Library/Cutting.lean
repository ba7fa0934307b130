/- digest: Cutting a sequence into pieces: each cut is a function of what is left, and may be made on
   a prefix if it depends on a prefix only. -/

import Mathlib.Data.List.Infix

set_option autoImplicit false
set_option relaxedAutoImplicit false

namespace Destor.Library

variable {α : Type}

structure Cuts (cut : List α → Nat) : Prop where
  pos : ∀ p, p ≠ [] → 1 ≤ cut p
  le_length : ∀ p, p ≠ [] → cut p ≤ p.length

/-- A cut is made by the first `m` elements, when there are as many. -/
def LocalCut (m : Nat) (cut : List α → Nat) : Prop := ∀ p, m ≤ p.length → cut (p.take m) = cut p

def pieces (cut : List α → Nat) : Nat → List α → List (List α)
  | 0, _ => []
  | k + 1, p => if p.length = 0 then [] else p.take (cut p) :: pieces cut k (p.drop (cut p))

def piecesOf (cut : List α → Nat) (p : List α) : List (List α) := pieces cut p.length p

section Pieces

variable {cut : List α → Nat} {m : Nat} {p q : List α}

@[simp] theorem piecesOf_nil : piecesOf cut [] = [] := rfl

private theorem length_drop_cut (h : Cuts cut) (hp : p ≠ []) :
    (p.drop (cut p)).length < p.length := by
  have hpos := h.pos p hp
  have hlen := List.length_pos_iff.mpr hp
  rw [List.length_drop]
  omega

private theorem pieces_of_le (h : Cuts cut) {k : Nat} (hk : p.length ≤ k) :
    pieces cut k p = piecesOf cut p := by
  induction k using Nat.strong_induction_on generalizing p with
  | h k ih =>
      match k, p with
      | 0, [] => rfl
      | k + 1, [] => rfl
      | k + 1, a :: p =>
          have hlt := length_drop_cut h (List.cons_ne_nil a p)
          rw [List.length_cons] at hk hlt
          rw [piecesOf, List.length_cons, pieces, pieces, ih k (by omega) (by omega),
            ih p.length (by omega) (by omega)]

/-- The first piece and the pieces of what is left. -/
theorem piecesOf_cons (h : Cuts cut) (hp : p ≠ []) :
    piecesOf cut p = p.take (cut p) :: piecesOf cut (p.drop (cut p)) := by
  obtain ⟨a, l, rfl⟩ := List.exists_cons_of_ne_nil hp
  have hlt := length_drop_cut h hp
  rw [List.length_cons] at hlt
  rw [piecesOf, List.length_cons, pieces, if_neg (by simp), pieces_of_le h (by omega)]

/-- The pieces make up the sequence. -/
theorem flatten_piecesOf (h : Cuts cut) (p : List α) : (piecesOf cut p).flatten = p := by
  induction hn : p.length using Nat.strong_induction_on generalizing p with
  | h n ih =>
      by_cases hp : p = []
      · rw [hp]
        rfl
      · rw [piecesOf_cons h hp, List.flatten_cons,
          ih _ (hn ▸ length_drop_cut h hp) _ rfl, List.take_append_drop]

/-- Every piece is the first one of some suffix, and the last one if it takes the whole suffix. -/
theorem mem_piecesOf (h : Cuts cut) {r : List α} (hr : r ∈ piecesOf cut p) :
    ∃ s, s ≠ [] ∧ s <:+ p ∧ r = s.take (cut s) := by
  induction hn : p.length using Nat.strong_induction_on generalizing p with
  | h n ih =>
      by_cases hp : p = []
      · rw [hp, piecesOf_nil] at hr
        exact absurd hr List.not_mem_nil
      · rw [piecesOf_cons h hp, List.mem_cons] at hr
        obtain rfl | hr := hr
        · exact ⟨p, hp, List.suffix_refl p, rfl⟩
        · obtain ⟨s, hs, hsuffix, heq⟩ := ih _ (hn ▸ length_drop_cut h hp) hr rfl
          exact ⟨s, hs, hsuffix.trans (List.drop_suffix _ p), heq⟩

theorem mem_dropLast_piecesOf (h : Cuts cut) {r : List α} (hr : r ∈ (piecesOf cut p).dropLast) :
    ∃ s, s ≠ [] ∧ s <:+ p ∧ r = s.take (cut s) ∧ cut s < s.length := by
  induction hn : p.length using Nat.strong_induction_on generalizing p with
  | h n ih =>
      by_cases hp : p = []
      · rw [hp, piecesOf_nil] at hr
        exact absurd hr List.not_mem_nil
      · rw [piecesOf_cons h hp] at hr
        by_cases hrest : p.drop (cut p) = []
        · rw [hrest, piecesOf_nil] at hr
          exact absurd hr List.not_mem_nil
        · have hne : piecesOf cut (p.drop (cut p)) ≠ [] := by
            rw [piecesOf_cons h hrest]
            exact List.cons_ne_nil _ _
          rw [List.dropLast_cons_of_ne_nil hne, List.mem_cons] at hr
          obtain rfl | hr := hr
          · refine ⟨p, hp, List.suffix_refl p, rfl, ?_⟩
            by_contra hge
            exact hrest (List.drop_eq_nil_of_le (by omega))
          · obtain ⟨s, hs, hsuffix, heq, hlt⟩ := ih _ (hn ▸ length_drop_cut h hp) hr rfl
            exact ⟨s, hs, hsuffix.trans (List.drop_suffix _ p), heq, hlt⟩

/-- What arrives later does not move a cut. -/
theorem LocalCut.append (h : LocalCut m cut) (hp : m ≤ p.length) (q : List α) :
    cut (p ++ q) = cut p := by
  rw [← h p hp, ← h (p ++ q) (by rw [List.length_append]; omega), List.take_append_of_le_length hp]

end Pieces

end Destor.Library
