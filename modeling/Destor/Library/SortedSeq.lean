/- digest: Sequences kept in order by inserting after every element that is not greater. -/

import Mathlib.Data.List.Basic

set_option autoImplicit false
set_option relaxedAutoImplicit false

namespace Destor.Library.SortedSeq

variable {α : Type}

/-- Inserts `x` before the first element greater than it, so after its equals.
`gt a b` tells that `a` sorts after `b`. -/
def insertSorted (gt : α → α → Bool) (x : α) : List α → List α
  | [] => [x]
  | a :: l => if gt a x then x :: a :: l else a :: insertSorted gt x l

def sort (gt : α → α → Bool) (l : List α) : List α :=
  l.foldl (fun sorted x => insertSorted gt x sorted) []

section Elements

variable (gt : α → α → Bool)

theorem insertSorted_perm (x : α) (l : List α) : (insertSorted gt x l).Perm (x :: l) := by
  induction l with
  | nil => exact List.Perm.refl _
  | cons a l ih =>
      unfold insertSorted
      split
      · exact List.Perm.refl _
      · exact (ih.cons a).trans (List.Perm.swap x a l)

@[simp] theorem mem_insertSorted {x y : α} {l : List α} :
    y ∈ insertSorted gt x l ↔ y = x ∨ y ∈ l := by
  rw [(insertSorted_perm gt x l).mem_iff, List.mem_cons]

@[simp] theorem length_insertSorted (x : α) (l : List α) :
    (insertSorted gt x l).length = l.length + 1 :=
  (insertSorted_perm gt x l).length_eq

private theorem foldl_insertSorted_perm (l acc : List α) :
    (l.foldl (fun sorted x => insertSorted gt x sorted) acc).Perm (acc ++ l) := by
  induction l generalizing acc with
  | nil => simp
  | cons a l ih =>
      apply (ih _).trans
      apply ((insertSorted_perm gt a acc).append_right l).trans
      exact List.perm_middle.symm

theorem sort_perm (l : List α) : (sort gt l).Perm l :=
  foldl_insertSorted_perm gt l []

@[simp] theorem mem_sort {x : α} {l : List α} : x ∈ sort gt l ↔ x ∈ l :=
  (sort_perm gt l).mem_iff

/-- Insertion sees of the elements only what `gt` sees of them. -/
theorem insertSorted_map {β : Type} {gt : α → α → Bool} {gt' : β → β → Bool} {f : α → β}
    (h : ∀ a b, gt' (f a) (f b) = gt a b) (x : α) (l : List α) :
    insertSorted gt' (f x) (l.map f) = (insertSorted gt x l).map f := by
  induction l with
  | nil => rfl
  | cons a l ih =>
      rw [List.map_cons, insertSorted, insertSorted, h]
      split
      · rfl
      · rw [List.map_cons, ih]

theorem sort_map {β : Type} {gt : α → α → Bool} {gt' : β → β → Bool} {f : α → β}
    (h : ∀ a b, gt' (f a) (f b) = gt a b) (l : List α) : sort gt' (l.map f) = (sort gt l).map f := by
  have main : ∀ rest acc : List α,
      (rest.map f).foldl (fun sorted x => insertSorted gt' x sorted) (acc.map f) =
        (rest.foldl (fun sorted x => insertSorted gt x sorted) acc).map f := by
    intro rest
    induction rest with
    | nil => exact fun acc => rfl
    | cons x rest ih =>
        intro acc
        rw [List.map_cons, List.foldl_cons, List.foldl_cons, insertSorted_map h]
        exact ih _
  exact main l []

theorem sort_concat (l : List α) (x : α) :
    sort gt (l ++ [x]) = insertSorted gt x (sort gt l) :=
  List.foldl_concat _ _ _ _

/-- An element that nothing sorts after goes to the end. -/
theorem insertSorted_eq_concat {x : α} {l : List α} (h : ∀ a ∈ l, gt a x = false) :
    insertSorted gt x l = l ++ [x] := by
  induction l with
  | nil => rfl
  | cons a l ih =>
      obtain ⟨ha, hl⟩ := List.forall_mem_cons.mp h
      rw [insertSorted, ha, if_neg Bool.false_ne_true, ih hl, List.cons_append]

/-- The first `n` elements after an insertion depend on the first `n` before it. -/
theorem take_insertSorted (x : α) (l : List α) (n : Nat) :
    (insertSorted gt x l).take n = (insertSorted gt x (l.take n)).take n := by
  induction l generalizing n with
  | nil => rw [List.take_nil]
  | cons a l ih =>
      cases n with
      | zero => rw [List.take_zero, List.take_zero]
      | succ n =>
          rw [List.take_succ_cons, insertSorted, insertSorted]
          split
          · cases n with
            | zero => rw [List.take_succ_cons, List.take_succ_cons, List.take_zero, List.take_zero]
            | succ n =>
                rw [List.take_succ_cons, List.take_succ_cons, List.take_succ_cons,
                  List.take_succ_cons, List.take_take, Nat.min_eq_left (Nat.le_succ n)]
          · rw [List.take_succ_cons, List.take_succ_cons, ih]

end Elements

section Order

variable {gt : α → α → Bool} {le : α → α → Prop}

/-- Inserting into an ordered list gives an ordered list, `gt` being the negation of the order
where the new element is concerned. -/
theorem insertSorted_pairwise (htrans : ∀ a b c, le a b → le b c → le a c) {x : α} {l : List α}
    (hgt : ∀ a ∈ l, gt a x = true → le x a) (hle : ∀ a ∈ l, gt a x = false → le a x)
    (hl : l.Pairwise le) : (insertSorted gt x l).Pairwise le := by
  induction l with
  | nil => exact List.pairwise_singleton le x
  | cons a l ih =>
      have hal := (List.pairwise_cons.mp hl).1
      unfold insertSorted
      split
      · rename_i hax
        have hxa := hgt a List.mem_cons_self hax
        refine List.pairwise_cons.mpr ⟨fun b hb => ?_, hl⟩
        rcases List.mem_cons.mp hb with rfl | hb
        · exact hxa
        · exact htrans x a b hxa (hal b hb)
      · rename_i hax
        refine List.pairwise_cons.mpr ⟨fun b hb => ?_, ?_⟩
        · rcases (mem_insertSorted gt).mp hb with rfl | hb
          · exact hle a List.mem_cons_self (by simpa using hax)
          · exact hal b hb
        · exact ih (fun b hb => hgt b (List.mem_cons_of_mem a hb))
            (fun b hb => hle b (List.mem_cons_of_mem a hb)) (List.pairwise_cons.mp hl).2

/-- Sorting gives an ordered list, `gt` being the negation of a total order on its elements. -/
theorem sort_pairwise (htrans : ∀ a b c, le a b → le b c → le a c) {l : List α}
    (hgt : ∀ a ∈ l, ∀ b ∈ l, gt a b = true → le b a)
    (hle : ∀ a ∈ l, ∀ b ∈ l, gt a b = false → le a b) : (sort gt l).Pairwise le := by
  have main : ∀ rest acc : List α, (∀ a ∈ acc, a ∈ l) → (∀ a ∈ rest, a ∈ l) → acc.Pairwise le →
      (rest.foldl (fun sorted x => insertSorted gt x sorted) acc).Pairwise le := by
    intro rest
    induction rest with
    | nil => exact fun acc _ _ hacc => hacc
    | cons x rest ih =>
        intro acc hacc hrest hsorted
        have hx := hrest x List.mem_cons_self
        refine ih _ (fun a ha => ?_) (fun a ha => hrest a (List.mem_cons_of_mem x ha)) ?_
        · rcases (mem_insertSorted gt).mp ha with rfl | ha
          · exact hx
          · exact hacc a ha
        · exact insertSorted_pairwise htrans (fun a ha => hgt a (hacc a ha) x hx)
            (fun a ha => hle a (hacc a ha) x hx) hsorted
  exact main l [] (fun a ha => absurd ha (List.not_mem_nil)) (fun a ha => ha) List.Pairwise.nil

/-- Sorting a rearrangement of a list without ties that is in order restores the list. -/
theorem sort_eq_of_perm (htrans : ∀ a b c, le a b → le b c → le a c) {l l' : List α}
    (hgt : ∀ a ∈ l, ∀ b ∈ l, gt a b = true → le b a)
    (hle : ∀ a ∈ l, ∀ b ∈ l, gt a b = false → le a b)
    (hanti : ∀ a ∈ l, ∀ b ∈ l, le a b → le b a → a = b) (hl : l.Pairwise le)
    (hperm : l'.Perm l) : sort gt l' = l := by
  have hmem : ∀ a, a ∈ l' → a ∈ l := fun a => hperm.mem_iff.mp
  refine ((sort_perm gt l').trans hperm).eq_of_pairwise ?_ ?_ hl
  · intro a b ha hb
    exact hanti a (hmem a ((mem_sort gt).mp ha)) b hb
  · exact sort_pairwise htrans (fun a ha b hb => hgt a (hmem a ha) b (hmem b hb))
      fun a ha b hb => hle a (hmem a ha) b (hmem b hb)

end Order

end Destor.Library.SortedSeq
