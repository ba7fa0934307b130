/- digest: The key-value store of the index: lookup, update, delete, and the shape of its values. -/

import Destor.Index.SamplingMethod

set_option autoImplicit false
set_option relaxedAutoImplicit false

namespace Destor

open Library.Outcome

/-- `htable`: a feature is mapped to `index_value_length` unit ids, the latest first. -/
abbrev KvStore := AList (fun _ : Key => List Int)

def kvUpdate (value : List Int) (id : Int) : List Int := id :: value.dropLast

def newKvpairFull (cfg : Config) : List Int := List.replicate cfg.indexValueLength temporaryId

/-- `kvstore_htable_lookup`. -/
def kvstoreLookup (kv : KvStore) (key : Key) : Option (List Int) := kv.lookup key

/-- `kvstore_htable_update`. -/
def kvstoreUpdate (cfg : Config) (kv : KvStore) (key : Key) (id : Int) : KvStore :=
  kv.insert key (kvUpdate ((kv.lookup key).getD (newKvpairFull cfg)) id)

/-- The loop of `kvstore_htable_delete` over one value. The shift that follows the assertion in
the source moves nothing once the assertion holds. -/
def deleteId (value : List Int) (id : Int) : Except Abort (List Int) :=
  match value.idxOf? id with
  | none => .ok value
  | some i => do
      require (i + 1 = value.length ∨ value[i + 1]? = some temporaryId) .deleteNotLast
      return value.set i temporaryId

/-- `kvstore_htable_delete`. -/
def kvstoreDelete (kv : KvStore) (key : Key) (id : Int) : Except Abort KvStore :=
  match kv.lookup key with
  | none => .ok kv
  | some value => do
      let value' ← deleteId value id
      return if value'.head? = some temporaryId then kv.erase key else kv.insert key value'

def indexUpdate (cfg : Config) (kv : KvStore) (features : List Key) (id : Int) : KvStore :=
  features.foldl (fun kv key => kvstoreUpdate cfg kv key id) kv

def indexDelete (cfg : Config) (kv : KvStore) (fp : Fingerprint) (id : Int) :
    Except Abort KvStore :=
  kvstoreDelete kv (cfg.key fp) id

section Lookup

variable {cfg : Config} {kv : KvStore} {key k : Key} {id : Int}

@[simp] theorem headD_kvUpdate (value : List Int) (id d : Int) :
    (kvUpdate value id).headD d = id := rfl

theorem lookup_kvstoreUpdate (cfg : Config) (kv : KvStore) (key k : Key) (id : Int) :
    (kvstoreUpdate cfg kv key id).lookup k =
      if k = key then some (kvUpdate ((kv.lookup key).getD (newKvpairFull cfg)) id)
      else kv.lookup k := by
  unfold kvstoreUpdate
  split
  · subst k
    exact AList.lookup_insert kv
  · exact AList.lookup_insert_ne (by assumption)

theorem lookup_indexUpdate {features : List Key} (h : features.Nodup) (kv : KvStore) (id : Int) :
    (indexUpdate cfg kv features id).lookup k =
      if k ∈ features then some (kvUpdate ((kv.lookup k).getD (newKvpairFull cfg)) id)
      else kv.lookup k := by
  unfold indexUpdate
  induction features generalizing kv with
  | nil => simp
  | cons key features ih =>
      obtain ⟨hkey, hrest⟩ := List.nodup_cons.mp h
      rw [List.foldl_cons, ih hrest, lookup_kvstoreUpdate]
      by_cases hk : k = key
      · subst k
        simp [hkey]
      · simp [hk]

end Lookup

section ValueShape

/-- A value as updates build it: the latest unit first, then older ones, then unused slots. The
ids decrease, so no unit is listed twice. -/
structure ValueShape (cfg : Config) (unit : Int → Prop) (value : List Int) (ids : List Int) :
    Prop where
  eq : value = ids ++ List.replicate (cfg.indexValueLength - ids.length) temporaryId
  length_le : ids.length ≤ cfg.indexValueLength
  ne_nil : ids ≠ []
  decreasing : ids.Pairwise (· > ·)
  units : ∀ id ∈ ids, unit id

def KvShape (cfg : Config) (unit : Int → Prop) (kv : KvStore) : Prop :=
  ∀ k value, kv.lookup k = some value → ∃ ids, ValueShape cfg unit value ids

variable {cfg : Config} {unit unit' : Int → Prop} {value ids : List Int} {id : Int}

theorem ValueShape.mono (h : ValueShape cfg unit value ids) (himp : ∀ id, unit id → unit' id) :
    ValueShape cfg unit' value ids :=
  ⟨h.eq, h.length_le, h.ne_nil, h.decreasing, fun id hid => himp id (h.units id hid)⟩

theorem ValueShape.head (h : ValueShape cfg unit value ids) :
    ∃ id rest, ids = id :: rest ∧ value.head? = some id ∧ unit id := by
  obtain ⟨id, rest, rfl⟩ := List.exists_cons_of_ne_nil h.ne_nil
  exact ⟨id, rest, rfl, by rw [h.eq]; rfl, h.units id List.mem_cons_self⟩

private theorem dropLast_replicate_append (ids : List Int) (n : Nat) :
    (ids ++ List.replicate n temporaryId).dropLast =
      if n = 0 then ids.dropLast else ids ++ List.replicate (n - 1) temporaryId := by
  cases n with
  | zero => simp
  | succ n => simp [List.replicate_succ', List.dropLast_append_of_ne_nil]

/-- Putting a newer unit in front keeps the shape. -/
theorem ValueShape.update (h : ValueShape cfg unit value ids) (hid : unit id)
    (hnew : ∀ i ∈ ids, i < id) :
    ∃ ids', ValueShape cfg unit (kvUpdate value id) ids' ∧ ids'.head? = some id ∧
      ∀ i ∈ ids', i = id ∨ i ∈ ids := by
  have hle := h.length_le
  have hpos := List.length_pos_iff.mpr h.ne_nil
  by_cases hn : cfg.indexValueLength - ids.length = 0
  · refine ⟨id :: ids.dropLast, ⟨?_, ?_, by simp, ?_, ?_⟩, rfl, ?_⟩
    · rw [kvUpdate, h.eq, dropLast_replicate_append, if_pos hn]
      simp only [List.length_cons, List.length_dropLast]
      rw [show cfg.indexValueLength - (ids.length - 1 + 1) = 0 by omega]
      simp
    · simp only [List.length_cons, List.length_dropLast]
      omega
    · exact List.pairwise_cons.mpr ⟨fun i hi => hnew i (List.dropLast_subset _ hi),
        h.decreasing.sublist (List.dropLast_sublist _)⟩
    · intro i hi
      rcases List.mem_cons.mp hi with rfl | hi
      · exact hid
      · exact h.units i (List.dropLast_subset _ hi)
    · intro i hi
      exact (List.mem_cons.mp hi).imp_right fun hi => List.dropLast_subset _ hi
  · refine ⟨id :: ids, ⟨?_, ?_, by simp, ?_, ?_⟩, rfl, ?_⟩
    · rw [kvUpdate, h.eq, dropLast_replicate_append, if_neg hn]
      simp only [List.length_cons, List.cons_append]
      congr 3
    · simp only [List.length_cons]
      omega
    · exact List.pairwise_cons.mpr ⟨hnew, h.decreasing⟩
    · intro i hi
      rcases List.mem_cons.mp hi with rfl | hi
      · exact hid
      · exact h.units i hi
    · exact fun i hi => List.mem_cons.mp hi

theorem ValueShape.first (hid : unit id) :
    ValueShape cfg unit (kvUpdate (newKvpairFull cfg) id) [id] := by
  refine ⟨?_, cfg.indexValueLength_pos, by simp, List.pairwise_singleton _ _, ?_⟩
  · simp [kvUpdate, newKvpairFull, List.dropLast_replicate]
  · simpa using hid

/-- `index_update` with a unit newer than all listed ones keeps every value in shape. -/
theorem KvShape.indexUpdate {kv : KvStore} {features : List Key} (h : KvShape cfg unit kv)
    (hfeatures : features.Nodup) (himp : ∀ i, unit i → unit' i) (hid : unit' id)
    (hnew : ∀ i, unit i → i < id) : KvShape cfg unit' (indexUpdate cfg kv features id) := by
  intro k value hk
  rw [lookup_indexUpdate hfeatures] at hk
  split at hk
  · cases hk
    cases hold : kv.lookup k with
    | none => exact ⟨[id], ValueShape.first hid⟩
    | some old =>
        obtain ⟨ids, hids⟩ := h k old hold
        obtain ⟨ids', hids', -, -⟩ :=
          (hids.mono himp).update hid fun i hi => hnew i (hids.units i hi)
        exact ⟨ids', hids'⟩
  · obtain ⟨ids, hids⟩ := h k value hk
    exact ⟨ids, hids.mono himp⟩

theorem KvShape.mono {kv : KvStore} (h : KvShape cfg unit kv)
    (himp : ∀ id, unit id → unit' id) : KvShape cfg unit' kv := fun k value hk => by
  obtain ⟨ids, hids⟩ := h k value hk
  exact ⟨ids, hids.mono himp⟩

end ValueShape

section Delete

variable {cfg : Config} {unit : Int → Prop} {value ids : List Int} {id : Int}

theorem ValueShape.delete (h : ValueShape cfg unit value ids)
    (hassigned : ∀ i, unit i → i ≠ temporaryId) {value' : List Int}
    (hok : deleteId value id = .ok value') :
    value'.head? = some temporaryId ∨ ∃ ids', ValueShape cfg unit value' ids' := by
  unfold deleteId at hok
  split at hok
  · cases hok
    exact Or.inr ⟨ids, h⟩
  · rename_i i hi
    obtain ⟨_, hnext, hok⟩ := bind_ok_iff.mp hok
    cases hok
    have hnext := require_ok_iff.mp hnext
    obtain ⟨hlt, -, -⟩ := List.findIdx?_eq_some_iff_getElem.mp hi
    obtain ⟨init, last, rfl⟩ : ∃ init last, ids = init ++ [last] :=
      ⟨_, _, (List.dropLast_append_getLast h.ne_nil).symm⟩
    have hlength := h.length_le
    have hvalue := h.eq
    rw [List.length_append, List.length_singleton] at hlength hvalue
    rcases Nat.lt_trichotomy i init.length with hbefore | rfl | hafter
    · -- a unit before the last one is followed by a unit, so the deletion would have failed
      exfalso
      obtain ⟨j, hj, hmem⟩ : ∃ j, value[i + 1]? = some j ∧ j ∈ init ++ [last] := by
        have hlt' : i + 1 < (init ++ [last]).length := by
          rw [List.length_append, List.length_singleton]
          omega
        refine ⟨(init ++ [last])[i + 1], ?_, List.getElem_mem hlt'⟩
        rw [hvalue, List.getElem?_append_left hlt']
        exact List.getElem?_eq_getElem hlt'
      rcases hnext with hend | hnext
      · rw [hend] at hj
        simp at hj
      · rw [hj] at hnext
        exact hassigned j (h.units j hmem) (Option.some.inj hnext)
    · have hset : value.set init.length temporaryId =
          init ++ List.replicate (cfg.indexValueLength - init.length) temporaryId := by
        rw [hvalue, List.append_assoc, List.set_append_right _ _ le_rfl, Nat.sub_self,
          List.singleton_append, List.set_cons_zero, ← List.replicate_succ]
        congr 2
        omega
      rw [hset]
      by_cases hnil : init = []
      · apply Or.inl
        rw [hnil, List.nil_append, List.length_nil, Nat.sub_zero, List.head?_replicate,
          if_neg (Nat.ne_of_gt cfg.indexValueLength_pos)]
      · refine Or.inr ⟨init, rfl, by omega, hnil,
          h.decreasing.sublist (List.sublist_append_left _ _), fun j hj => ?_⟩
        exact h.units j (List.mem_append_left _ hj)
    · -- the slot was not used
      have hunused : value[i] = temporaryId := by
        simp only [hvalue]
        rw [List.getElem_append_right (by simp; omega)]
        exact List.getElem_replicate _
      refine Or.inr ⟨init ++ [last], ?_⟩
      rw [← hunused, List.set_getElem_self]
      exact h

theorem KvShape.indexDelete {kv kv' : KvStore} {fp : Fingerprint} (h : KvShape cfg unit kv)
    (hassigned : ∀ i, unit i → i ≠ temporaryId) (hok : indexDelete cfg kv fp id = .ok kv') :
    KvShape cfg unit kv' := by
  intro k value hk
  unfold Destor.indexDelete kvstoreDelete at hok
  split at hok
  · cases hok
    exact h k value hk
  · rename_i old hold
    obtain ⟨new, hnew, hok⟩ := bind_ok_iff.mp hok
    obtain ⟨ids, hids⟩ := h _ old hold
    have hshape := hids.delete hassigned hnew
    cases hok
    by_cases heq : k = cfg.key fp
    · subst heq
      split at hk
      · simp at hk
      · rename_i hhead
        rw [AList.lookup_insert] at hk
        cases hk
        exact hshape.resolve_left hhead
    · split at hk
      · rw [AList.lookup_erase_ne heq] at hk
        exact h k value hk
      · rw [AList.lookup_insert_ne heq] at hk
        exact h k value hk

end Delete

end Destor
