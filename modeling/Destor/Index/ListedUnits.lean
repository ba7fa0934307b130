/- digest: The units that the key-value store lists under a key, and what an update or a deletion does to
   them. -/

import Destor.Index.KvstoreDelete

set_option autoImplicit false
set_option relaxedAutoImplicit false

namespace Destor

open Library.Outcome

def assignedIds (value : List Int) : List Int := value.filter (· ≠ temporaryId)

def listedIds (kv : KvStore) (k : Key) : List Int := assignedIds ((kv.lookup k).getD [])

section Values

variable {cfg : Config} {unit : Int → Prop} {value value' ids : List Int} {id : Int}

theorem mem_assignedIds : id ∈ assignedIds value ↔ id ∈ value ∧ id ≠ temporaryId := by
  rw [assignedIds, List.mem_filter, decide_eq_true_eq]

theorem assignedIds_append_replicate (hids : ∀ id ∈ ids, id ≠ temporaryId) (n : Nat) :
    assignedIds (ids ++ List.replicate n temporaryId) = ids := by
  rw [assignedIds, List.filter_append, List.filter_eq_self.mpr fun id hid =>
    decide_eq_true (hids id hid), List.filter_eq_nil_iff.mpr, List.append_nil]
  intro id hid
  rw [List.eq_of_mem_replicate hid]
  exact of_decide_eq_false rfl

theorem ValueShape.assigned (h : ValueShape cfg unit value ids)
    (hassigned : ∀ i, unit i → i ≠ temporaryId) : ∀ id ∈ ids, id ≠ temporaryId :=
  fun id hid => hassigned id (h.units id hid)

theorem ValueShape.assignedIds_eq (h : ValueShape cfg unit value ids)
    (hassigned : ∀ i, unit i → i ≠ temporaryId) : assignedIds value = ids := by
  rw [h.eq]
  exact assignedIds_append_replicate (h.assigned hassigned) _

theorem ValueShape.not_mem_of_split {before tail : List Int}
    (h : ValueShape cfg unit value (before ++ id :: tail)) : id ∉ before := fun hid =>
  Int.lt_irrefl id ((List.pairwise_append.mp h.decreasing).2.2 id hid id List.mem_cons_self)

theorem ValueShape.deleteId_last {init : List Int} (h : ValueShape cfg unit value (init ++ [id])) :
    deleteId value id =
      .ok (init ++ List.replicate (cfg.indexValueLength - init.length) temporaryId) := by
  have hlength := h.length_le
  rw [List.length_append, List.length_singleton] at hlength
  obtain ⟨n, hn⟩ : ∃ n, cfg.indexValueLength - init.length = n + 1 :=
    ⟨cfg.indexValueLength - init.length - 1, by omega⟩
  have hvalue : value = init ++ id :: List.replicate n temporaryId := by
    rw [h.eq, List.append_assoc, List.length_append, List.length_singleton, List.singleton_append]
    congr 3
    omega
  have hnext : init.length + 1 = value.length ∨
      value[init.length + 1]? = some temporaryId := by
    rw [hvalue, getElem?_behind, List.length_append, List.length_cons, List.length_replicate]
    cases n with
    | zero => exact Or.inl rfl
    | succ n => exact Or.inr rfl
  rw [deleteId, hvalue, idxOf?_append_cons h.not_mem_of_split, ← hvalue]
  refine bind_ok_iff.mpr ⟨(), require_of hnext, ?_⟩
  rw [hvalue, List.set_append_right _ _ (Nat.le_refl _), Nat.sub_self, List.set_cons_zero,
    ← List.replicate_succ, hn]
  rfl

theorem deleteId_of_not_mem (h : id ∉ value) : deleteId value id = .ok value := by
  have hindex : value.idxOf? id = none := by
    rw [List.idxOf?, List.findIdx?_eq_none_iff]
    exact fun a ha => beq_false_of_ne fun heq => h (heq ▸ ha)
  rw [deleteId, hindex]

/-- A deletion that does not fail: the value does not list the unit, or lists it last. -/
theorem ValueShape.deleteId_cases (h : ValueShape cfg unit value ids)
    (hassigned : ∀ i, unit i → i ≠ temporaryId) (hid : id ≠ temporaryId)
    (hok : deleteId value id = .ok value') :
    (id ∉ ids ∧ value' = value) ∨ ∃ init, ids = init ++ [id] ∧
      value' = init ++ List.replicate (cfg.indexValueLength - init.length) temporaryId := by
  by_cases hmem : id ∈ ids
  · obtain ⟨init, tail, rfl⟩ := List.append_of_mem hmem
    cases tail with
    | nil => exact Or.inr ⟨init, rfl, Except.ok.inj (hok.symm.trans h.deleteId_last)⟩
    | cons a tail =>
        -- the next slot is in use, and the assertion fails
        exfalso
        have ha : a ≠ temporaryId := h.assigned hassigned a (by simp)
        have hvalue : value = init ++ id :: a :: (tail ++ List.replicate
            (cfg.indexValueLength - (init ++ id :: a :: tail).length) temporaryId) := by
          rw [h.eq, List.append_assoc, List.cons_append, List.cons_append]
        rw [deleteId, hvalue, idxOf?_append_cons h.not_mem_of_split] at hok
        obtain ⟨_, hnext, -⟩ := bind_ok_iff.mp hok
        rcases require_ok_iff.mp hnext with hend | hnext
        · simp at hend
        · rw [getElem?_behind] at hnext
          exact ha (Option.some.inj hnext)
  · refine Or.inl ⟨hmem, Except.ok.inj (hok.symm.trans (deleteId_of_not_mem ?_))⟩
    rw [h.eq, List.mem_append]
    exact fun hin => hin.elim hmem fun hin => hid (List.eq_of_mem_replicate hin)

end Values

section Listed

variable {cfg : Config} {unit unit' : Int → Prop} {kv kv' : KvStore} {features : List Key} {k : Key}
  {fp : Fingerprint} {id i : Int}

theorem listedIds_none (h : kv.lookup k = none) : listedIds kv k = [] := by
  rw [listedIds, h]
  rfl

theorem listedIds_some {value : List Int} (h : kv.lookup k = some value) :
    listedIds kv k = assignedIds value := by
  rw [listedIds, h, Option.getD_some]

/-- A value of the store lists its units, and they are listed in descending order. -/
theorem KvShape.shape (h : KvShape cfg unit kv) (hassigned : ∀ i, unit i → i ≠ temporaryId)
    {value : List Int} (hk : kv.lookup k = some value) :
    ValueShape cfg unit value (listedIds kv k) := by
  obtain ⟨ids, hids⟩ := h k value hk
  rw [listedIds_some hk, hids.assignedIds_eq hassigned]
  exact hids

theorem KvShape.units (h : KvShape cfg unit kv) (hassigned : ∀ i, unit i → i ≠ temporaryId)
    (hid : id ∈ listedIds kv k) : unit id := by
  cases hk : kv.lookup k with
  | none =>
      rw [listedIds_none hk] at hid
      exact absurd hid List.not_mem_nil
  | some value => exact (h.shape hassigned hk).units id hid

theorem KvShape.decreasing (h : KvShape cfg unit kv)
    (hassigned : ∀ i, unit i → i ≠ temporaryId) (k : Key) : (listedIds kv k).Pairwise (· > ·) := by
  cases hk : kv.lookup k with
  | none =>
      rw [listedIds_none hk]
      exact List.Pairwise.nil
  | some value => exact (h.shape hassigned hk).decreasing

/-- A store that lists fewer units keeps its shape over these. -/
theorem KvShape.restrict (h : KvShape cfg unit kv) (hassigned : ∀ i, unit i → i ≠ temporaryId)
    (hunit : ∀ k id, id ∈ listedIds kv k → unit' id) : KvShape cfg unit' kv := by
  intro k value hk
  have hshape := h.shape hassigned hk
  exact ⟨listedIds kv k, hshape.eq, hshape.length_le, hshape.ne_nil, hshape.decreasing, hunit k⟩

/-- The first slot of an entry holds the first unit that it lists. -/
theorem KvShape.head?_listed (h : KvShape cfg unit kv)
    (hassigned : ∀ i, unit i → i ≠ temporaryId) {value : List Int}
    (hk : kv.lookup k = some value) : (listedIds kv k).head? = some (value.headD temporaryId) := by
  have hshape := h.shape hassigned hk
  obtain ⟨a, rest, heq, hhead, -⟩ := hshape.head
  rw [heq, List.head?_cons, List.headD_eq_head?_getD, hhead, Option.getD_some]

theorem KvShape.lookup_of_head? (h : KvShape cfg unit kv)
    (hassigned : ∀ i, unit i → i ≠ temporaryId) (hid : (listedIds kv k).head? = some id) :
    ∃ value, kv.lookup k = some value ∧ value.headD temporaryId = id := by
  cases hk : kv.lookup k with
  | none =>
      rw [listedIds_none hk] at hid
      cases hid
  | some value =>
      rw [h.head?_listed hassigned hk] at hid
      exact ⟨value, rfl, Option.some.inj hid⟩

theorem listedIds_indexUpdate_other (hnodup : features.Nodup) (hk : k ∉ features) :
    listedIds (indexUpdate cfg kv features id) k = listedIds kv k := by
  rw [listedIds, listedIds, lookup_indexUpdate hnodup, if_neg hk]

theorem mem_listedIds_indexUpdate (hnodup : features.Nodup)
    (hi : i ∈ listedIds (indexUpdate cfg kv features id) k) :
    (i = id ∧ k ∈ features) ∨ i ∈ listedIds kv k := by
  by_cases hk : k ∈ features
  · rw [listedIds, lookup_indexUpdate hnodup, if_pos hk, Option.getD_some, mem_assignedIds, kvUpdate,
      List.mem_cons] at hi
    obtain ⟨rfl | hi, hne⟩ := hi
    · exact Or.inl ⟨rfl, hk⟩
    · have hold := List.dropLast_subset _ hi
      cases hlookup : kv.lookup k with
      | none =>
          rw [hlookup, Option.getD_none, newKvpairFull] at hold
          exact absurd (List.eq_of_mem_replicate hold) hne
      | some value =>
          rw [hlookup, Option.getD_some] at hold
          right
          rw [listedIds_some hlookup]
          exact mem_assignedIds.mpr ⟨hold, hne⟩
  · rw [listedIds_indexUpdate_other hnodup hk] at hi
    exact Or.inr hi

private theorem indexDelete_cases (hok : indexDelete cfg kv fp id = .ok kv') :
    (kv.lookup (cfg.key fp) = none ∧ kv' = kv) ∨ ∃ value value',
      kv.lookup (cfg.key fp) = some value ∧ deleteId value id = .ok value' ∧
        kv' = if value'.head? = some temporaryId then kv.erase (cfg.key fp)
          else kv.insert (cfg.key fp) value' := by
  rw [indexDelete, kvstoreDelete] at hok
  cases hk : kv.lookup (cfg.key fp) with
  | none =>
      rw [hk] at hok
      exact Or.inl ⟨rfl, (Except.ok.inj hok).symm⟩
  | some value =>
      rw [hk] at hok
      obtain ⟨value', hvalue', hkv'⟩ := bind_ok_iff.mp hok
      exact Or.inr ⟨value, value', rfl, hvalue', (Except.ok.inj hkv').symm⟩

private theorem filter_ne_append_singleton {init : List Int} (h : id ∉ init) :
    (init ++ [id]).filter (· ≠ id) = init := by
  rw [List.filter_append, List.filter_eq_self.mpr]
  · simp
  · exact fun a ha => decide_eq_true (ne_of_mem_of_not_mem ha h)

/-- A deletion takes its unit out of one entry. -/
theorem listedIds_indexDelete (h : KvShape cfg unit kv) (hassigned : ∀ i, unit i → i ≠ temporaryId)
    (hid : id ≠ temporaryId) (hok : indexDelete cfg kv fp id = .ok kv') (k : Key) :
    listedIds kv' k = if k = cfg.key fp then (listedIds kv k).filter (· ≠ id) else listedIds kv k := by
  rcases indexDelete_cases hok with ⟨hnone, rfl⟩ | ⟨value, value', hvalue, hdelete, rfl⟩
  · split
    · subst k
      rw [listedIds_none hnone]
      rfl
    · rfl
  · have hshape := h.shape hassigned hvalue
    by_cases hk : k = cfg.key fp
    · subst k
      rw [if_pos rfl]
      rcases hshape.deleteId_cases hassigned hid hdelete with ⟨hnot, rfl⟩ | ⟨init, heq, rfl⟩
      · obtain ⟨a, -, -, hhead, ha⟩ := hshape.head
        have hne : value'.head? ≠ some temporaryId := by
          rw [hhead]
          exact fun heq => hassigned a ha (Option.some.inj heq)
        rw [if_neg hne, listedIds_some (AList.lookup_insert kv), ← listedIds_some hvalue,
          List.filter_eq_self.mpr]
        exact fun i hi => decide_eq_true (ne_of_mem_of_not_mem hi hnot)
      · rw [heq] at hshape ⊢
        have hinit := fun i hi => hshape.assigned hassigned i (List.mem_append_left _ hi)
        rw [filter_ne_append_singleton hshape.not_mem_of_split]
        split
        · rename_i hhead
          rw [listedIds_none (AList.lookup_erase _ _)]
          cases init with
          | nil => rfl
          | cons a init => exact absurd (Option.some.inj hhead) (hinit a List.mem_cons_self)
        · rw [listedIds_some (AList.lookup_insert kv)]
          exact assignedIds_append_replicate hinit _
    · rw [if_neg hk]
      split
      · rw [listedIds, AList.lookup_erase_ne hk, listedIds]
      · rw [listedIds, AList.lookup_insert_ne hk, listedIds]

theorem indexDelete_ok (h : KvShape cfg unit kv) (hassigned : ∀ i, unit i → i ≠ temporaryId)
    (hid : id ≠ temporaryId)
    (hlast : id ∈ listedIds kv (cfg.key fp) → ∃ init, listedIds kv (cfg.key fp) = init ++ [id]) :
    ∃ kv', indexDelete cfg kv fp id = .ok kv' := by
  rw [indexDelete, kvstoreDelete]
  cases hk : kv.lookup (cfg.key fp) with
  | none => exact ⟨kv, rfl⟩
  | some value =>
      have hshape := h.shape hassigned hk
      have hdelete : ∃ value', deleteId value id = .ok value' := by
        by_cases hmem : id ∈ listedIds kv (cfg.key fp)
        · obtain ⟨init, heq⟩ := hlast hmem
          rw [heq] at hshape
          exact ⟨_, hshape.deleteId_last⟩
        · refine ⟨value, deleteId_of_not_mem fun hin => hmem ?_⟩
          rw [listedIds_some hk]
          exact mem_assignedIds.mpr ⟨hin, hid⟩
      obtain ⟨value', hvalue'⟩ := hdelete
      exact ⟨_, bind_ok_iff.mpr ⟨value', hvalue', rfl⟩⟩

end Listed

end Destor
