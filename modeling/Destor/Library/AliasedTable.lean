/- digest: A hash table whose keys are read through pointers each time they are compared. -/

import Mathlib.Data.List.Forall2
import Mathlib.Data.List.Nodup
import Destor.Library.Outcome

set_option autoImplicit false
set_option relaxedAutoImplicit false

namespace Destor.Library.AliasedTable

/-- An entry: where its key lies, and its value. -/
structure Entry (β : Type) where
  key : Nat
  value : β
deriving DecidableEq, Repr

/-- A key is read where nothing is allocated. -/
structure DanglingKey where
  addr : Nat
deriving DecidableEq, Repr

variable {κ β : Type} [DecidableEq κ]

/-- The entry with an equal key, if there is one; `keyAt` reads the memory. -/
def find (keyAt : Nat → Option κ) (k : κ) :
    List (Entry β) → Except DanglingKey (Option (Entry β))
  | [] => .ok none
  | e :: entries =>
      match keyAt e.key with
      | none => .error ⟨e.key⟩
      | some k' => if k' = k then .ok (some e) else find keyAt k entries

/-- Changes the entry with an equal key, or removes it; where there is none, `new` is added. -/
def update (keyAt : Nat → Option κ) (k : κ) (f : Entry β → Option (Entry β))
    (new : Option (Entry β)) : List (Entry β) → Except DanglingKey (List (Entry β))
  | [] => .ok new.toList
  | e :: entries =>
      match keyAt e.key with
      | none => .error ⟨e.key⟩
      | some k' =>
          if k' = k then .ok ((f e).toList ++ entries)
          else
            match update keyAt k f new entries with
            | .error d => .error d
            | .ok entries => .ok (e :: entries)

def Keyed (keyAt : Nat → Option κ) (ks : List κ) (entries : List (Entry β)) : Prop :=
  List.Forall₂ (fun k e => keyAt e.key = some k) ks entries

section Operations

variable {keyAt : Nat → Option κ} {k : κ} {ks : List κ} {entries rest : List (Entry β)}
  {e : Entry β} {f : Entry β → Option (Entry β)} {new : Option (Entry β)}

theorem find_append (h : Keyed keyAt ks entries) (hk : k ∉ ks) :
    find keyAt k (entries ++ rest) = find keyAt k rest := by
  induction h with
  | nil => rfl
  | cons hkey _ ih =>
      have hne := List.ne_of_not_mem_cons hk
      have hrest := List.not_mem_of_not_mem_cons hk
      rw [List.cons_append, find, hkey]
      dsimp only
      rw [if_neg (Ne.symm hne)]
      exact ih hrest

theorem update_append (h : Keyed keyAt ks entries) (hk : k ∉ ks) :
    update keyAt k f new (entries ++ rest) =
      (update keyAt k f new rest).map fun rest => entries ++ rest := by
  induction h with
  | nil =>
      rw [List.nil_append]
      cases update keyAt k f new rest <;> rfl
  | cons hkey _ ih =>
      have hne := List.ne_of_not_mem_cons hk
      have hrest := List.not_mem_of_not_mem_cons hk
      rw [List.cons_append, update, hkey]
      dsimp only
      rw [if_neg (Ne.symm hne), ih hrest]
      cases update keyAt k f new rest <;> rfl

theorem find_of_not_mem (h : Keyed keyAt ks entries) (hk : k ∉ ks) :
    find keyAt k entries = .ok none := by
  have happend : find keyAt k (entries ++ []) = find keyAt k [] := find_append h hk
  rwa [List.append_nil] at happend

theorem update_of_not_mem (h : Keyed keyAt ks entries) (hk : k ∉ ks) :
    update keyAt k f new entries = .ok (entries ++ new.toList) := by
  have happend : update keyAt k f new (entries ++ []) =
      (update keyAt k f new []).map fun rest => entries ++ rest := update_append h hk
  rwa [List.append_nil] at happend

theorem find_of_split (h : Keyed keyAt ks entries) (hk : k ∉ ks) (he : keyAt e.key = some k) :
    find keyAt k (entries ++ e :: rest) = .ok (some e) := by
  rw [find_append h hk, find, he]
  exact if_pos rfl

theorem update_of_split (h : Keyed keyAt ks entries) (hk : k ∉ ks) (he : keyAt e.key = some k) :
    update keyAt k f new (entries ++ e :: rest) = .ok (entries ++ ((f e).toList ++ rest)) := by
  rw [update_append h hk, update, he]
  dsimp only
  rw [if_pos rfl]
  rfl

omit [DecidableEq κ] in
theorem split_of_mem {R : κ → Entry β → Prop} (h : List.Forall₂ R ks entries) (hnodup : ks.Nodup)
    (hk : k ∈ ks) : ∃ before behind front e back, ks = before ++ k :: behind ∧
      entries = front ++ e :: back ∧ k ∉ before ∧ k ∉ behind ∧ List.Forall₂ R before front ∧
      R k e ∧ List.Forall₂ R behind back := by
  induction h with
  | nil => cases hk
  | cons hrel htail ih =>
      obtain ⟨hnew, hnodup'⟩ := List.nodup_cons.mp hnodup
      rcases List.mem_cons.mp hk with rfl | hk
      · exact ⟨[], _, [], _, _, rfl, rfl, List.not_mem_nil, hnew, .nil, hrel, htail⟩
      · obtain ⟨before, behind, front, e, back, rfl, rfl, hbefore, hbehind, hfront, hr, hback⟩ :=
          ih hnodup' hk
        refine ⟨_ :: before, behind, _ :: front, e, back, rfl, rfl, ?_, hbehind,
          .cons hrel hfront, hr, hback⟩
        exact List.not_mem_cons_of_ne_of_not_mem (ne_of_mem_of_not_mem hk hnew) hbefore

end Operations

end Destor.Library.AliasedTable
