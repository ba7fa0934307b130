/- digest: Least recently used replacement over a list of pages: what was requested last is held. -/

import Mathlib.Data.List.Nodup

set_option autoImplicit false
set_option relaxedAutoImplicit false

namespace Destor.Library.Lru

variable {α : Type} [DecidableEq α] {bound : Nat} {queue front rest requests : List α} {a b : α}

/-- A request brings the page to the front; what is pushed over the bound is evicted. -/
def access (bound : Nat) (queue : List α) (a : α) : List α := (a :: queue.erase a).take bound

theorem access_hit (ha : a ∈ queue) (hlen : queue.length ≤ bound) :
    access bound queue a = a :: queue.erase a := by
  apply List.take_of_length_le
  have hpos := List.length_pos_of_mem ha
  rw [List.length_cons, List.length_erase_of_mem ha]
  omega

theorem access_miss (ha : a ∉ queue) : access bound queue a = (a :: queue).take bound := by
  rw [access, List.erase_of_not_mem ha]

theorem nodup_access (hnodup : queue.Nodup) : (access bound queue a).Nodup := by
  apply List.Sublist.nodup (List.take_sublist bound _)
  apply List.nodup_cons.mpr
  exact ⟨hnodup.not_mem_erase, hnodup.erase a⟩

/-- The pages in front stay in front as long as they and the requested one fit. -/
theorem access_append (a : α) (rest : List α) (hlen : front.length < bound) :
    ∃ front' rest', access bound (front ++ rest) a = front' ++ rest' ∧
      front'.length ≤ front.length + 1 ∧ a ∈ front' ∧ ∀ b ∈ front, b ∈ front' := by
  refine ⟨a :: front.erase a, ((front ++ rest).erase a).drop (front.erase a).length |>.take
    (bound - (a :: front.erase a).length), ?_, ?_, List.mem_cons_self, fun b hb => ?_⟩
  · have herase : ∃ rest', (front ++ rest).erase a = front.erase a ++ rest' := by
      rw [List.erase_append]
      split
      · exact ⟨rest, rfl⟩
      · rename_i ha
        exact ⟨rest.erase a, by rw [List.erase_of_not_mem ha]⟩
    obtain ⟨rest', herase⟩ := herase
    have hfits : (a :: front.erase a).length ≤ bound := by
      have hle := List.length_erase_le (a := a) (l := front)
      rw [List.length_cons]
      omega
    rw [access, herase, List.drop_left, ← List.cons_append, List.take_append,
      List.take_of_length_le hfits]
  · have hle := List.length_erase_le (a := a) (l := front)
    rw [List.length_cons]
    omega
  · by_cases hba : b = a
    · exact hba ▸ List.mem_cons_self
    · exact List.mem_cons_of_mem a ((List.mem_erase_of_ne hba).mpr hb)

private theorem foldl_access_append (front rest : List α)
    (hlen : front.length + requests.length ≤ bound) :
    ∃ front' rest', requests.foldl (access bound) (front ++ rest) = front' ++ rest' ∧
      (∀ a ∈ requests, a ∈ front') ∧ ∀ b ∈ front, b ∈ front' := by
  induction requests generalizing front rest with
  | nil => exact ⟨front, rest, rfl, fun a ha => absurd ha List.not_mem_nil, fun b hb => hb⟩
  | cons a requests ih =>
      rw [List.length_cons] at hlen
      obtain ⟨front₁, rest₁, haccess, hle, ha, hfront⟩ :=
        access_append a rest (show front.length < bound by omega)
      obtain ⟨front₂, rest₂, hfold, hreq, hfront₁⟩ := ih front₁ rest₁ (by omega)
      refine ⟨front₂, rest₂, ?_, ?_, fun b hb => hfront₁ b (hfront b hb)⟩
      · rw [List.foldl_cons, haccess, hfold]
      · exact List.forall_mem_cons.mpr ⟨hfront₁ a ha, hreq⟩

/-- As many requests as the queue has room for: none of them is evicted by the others. -/
theorem mem_foldl_access (hlen : requests.length ≤ bound) (ha : a ∈ requests) :
    a ∈ requests.foldl (access bound) queue := by
  obtain ⟨front, rest, hfold, hfront, -⟩ :=
    foldl_access_append [] queue (show [].length + requests.length ≤ bound by
      rw [List.length_nil]
      omega)
  rw [List.nil_append] at hfold
  rw [hfold]
  exact List.mem_append_left rest (hfront a ha)

end Destor.Library.Lru
