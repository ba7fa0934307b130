/- digest: Deletion from the key-value store in any order, and exactly when it removes one id and keeps
   the others. -/

import Destor.Index.KvstoreHtable

set_option autoImplicit false
set_option relaxedAutoImplicit false

namespace Destor

/-- `memmove(&value[i], &value[i + 1], ..)` over the rest of the array: the last slot keeps its id. -/
def shiftDown (value : List Int) (i : Nat) : List Int :=
  value.take i ++ value.drop (i + 1) ++ value.drop (value.length - 1)

/-- The loop of `kvstore_htable_delete` over one value, with the assertion commented out. -/
def removeId (value : List Int) (id : Int) : List Int :=
  match value.idxOf? id with
  | none => value
  | some i =>
      if i + 1 < value.length ∧ value[i + 1]? ≠ some temporaryId then
        shiftDown (value.set i temporaryId) i
      else value.set i temporaryId

/-- `kvstore_htable_delete`, with the assertion commented out. -/
def kvstoreRemove (kv : KvStore) (key : Key) (id : Int) : KvStore :=
  match kv.lookup key with
  | none => kv
  | some value =>
      if (removeId value id).head? = some temporaryId then kv.erase key
      else kv.insert key (removeId value id)

/-- A value of `n` slots: some ids, each once, and then unused slots. -/
structure IdArray (n : Nat) (value ids : List Int) : Prop where
  eq : value = ids ++ List.replicate (n - ids.length) temporaryId
  length_le : ids.length ≤ n
  ne_nil : ids ≠ []
  nodup : ids.Nodup
  assigned : temporaryId ∉ ids

/-- The store after the deletion of `id` under `key`: the other ids stay in their order, a pair without
ids is removed, and nothing else changes. -/
structure RemovesOne (n : Nat) (kv kv' : KvStore) (key : Key) (id : Int) : Prop where
  others : ∀ k, k ≠ key → kv'.lookup k = kv.lookup k
  absent_key : kv.lookup key = none → kv'.lookup key = none
  absent_id : ∀ value ids, kv.lookup key = some value → IdArray n value ids → id ∉ ids →
    kv'.lookup key = some value
  removed : ∀ value ids, kv.lookup key = some value → IdArray n value ids → id ∈ ids →
    kv'.lookup key = if ids.erase id = [] then none
      else some (ids.erase id ++ List.replicate (n - (ids.erase id).length) temporaryId)

section Remove

variable {n : Nat} {value ids before tail : List Int} {id : Int}

theorem idxOf?_append_cons (h : id ∉ before) :
    (before ++ id :: tail).idxOf? id = some before.length := by
  induction before with
  | nil =>
      rw [List.nil_append, List.idxOf?_cons, beq_self_eq_true]
      rfl
  | cons a before ih =>
      rw [List.mem_cons, not_or] at h
      obtain ⟨hne, hbefore⟩ := h
      rw [List.cons_append, List.idxOf?_cons, beq_false_of_ne (Ne.symm hne), ih hbefore]
      rfl

theorem getElem?_behind (before tail : List Int) (id : Int) :
    (before ++ id :: tail)[before.length + 1]? = tail[0]? := by
  have hone : before.length + 1 - before.length = 1 := by omega
  rw [List.getElem?_append_right (by omega), hone]
  rfl

/-- The last id in use: its slot is emptied. -/
theorem removeId_last (h : id ∉ before) (k : Nat) :
    removeId (before ++ id :: List.replicate k temporaryId) id =
      before ++ List.replicate (k + 1) temporaryId := by
  rw [removeId, idxOf?_append_cons h]
  have hset : (before ++ id :: List.replicate k temporaryId).set before.length temporaryId =
      before ++ List.replicate (k + 1) temporaryId := by
    rw [List.set_append_right _ _ (Nat.le_refl _), Nat.sub_self, List.set_cons_zero,
      List.replicate_succ]
  refine (if_neg ?_).trans hset
  rintro ⟨hlt, hused⟩
  apply hused
  rw [getElem?_behind]
  cases k with
  | zero => simp at hlt
  | succ k => rfl

/-- An id before another one: the rest moves down, and the last slot keeps its id. -/
theorem removeId_inner {a : Int} (h : id ∉ before) (ha : a ≠ temporaryId) :
    removeId (before ++ id :: a :: tail) id =
      before ++ a :: tail ++ [(a :: tail).getLast (List.cons_ne_nil a tail)] := by
  rw [removeId, idxOf?_append_cons h]
  have hset : (before ++ id :: a :: tail).set before.length temporaryId =
      before ++ temporaryId :: a :: tail := by
    rw [List.set_append_right _ _ (Nat.le_refl _), Nat.sub_self, List.set_cons_zero]
  have hnext : (before ++ id :: a :: tail)[before.length + 1]? = some a :=
    getElem?_behind before (a :: tail) id
  have hlen : before.length + 1 < (before ++ id :: a :: tail).length := by simp
  have hused : (before ++ id :: a :: tail)[before.length + 1]? ≠ some temporaryId := by
    rw [hnext]
    exact fun h => ha (Option.some.inj h)
  apply (if_pos ⟨hlen, hused⟩).trans
  rw [hset, shiftDown, List.take_left, List.append_cons before temporaryId (a :: tail)]
  have hdrop : (before ++ [temporaryId] ++ a :: tail).drop (before.length + 1) = a :: tail :=
    List.drop_left' (by simp)
  have hlast : (before ++ [temporaryId] ++ a :: tail).drop
      ((before ++ [temporaryId] ++ a :: tail).length - 1) =
        [(a :: tail).getLast (List.cons_ne_nil a tail)] := by
    rw [List.drop_length_sub_one (by simp), List.getLast_append_of_ne_nil]
  rw [hdrop, hlast]

/-- What is left of a value that loses one of its ids. -/
def without (n : Nat) (ids : List Int) (id : Int) : List Int :=
  ids.erase id ++ List.replicate (n - (ids.erase id).length) temporaryId

theorem removeId_of_not_mem (h : IdArray n value ids) (hid : id ∉ ids) :
    removeId value id = value := by
  by_cases htemporary : id = temporaryId
  · subst htemporary
    cases hk : n - ids.length with
    | zero =>
        have hvalue : value = ids := by rw [h.eq, hk, List.replicate_zero, List.append_nil]
        rw [removeId, hvalue, List.idxOf?_eq_none_iff.mpr hid]
    | succ k =>
        rw [h.eq, hk, List.replicate_succ, removeId_last hid, List.replicate_succ]
  · have hmem : id ∉ value := by
      rw [h.eq, List.mem_append, not_or]
      exact ⟨hid, fun hmem => htemporary (List.eq_of_mem_replicate hmem)⟩
    rw [removeId, List.idxOf?_eq_none_iff.mpr hmem]

/-- An id of the array is removed as it should be exactly if a slot is unused or the id is the last. -/
theorem removeId_iff (h : IdArray n value ids) (hid : id ∈ ids) :
    removeId value id = without n ids id ↔ temporaryId ∈ value ∨ value.getLast? = some id := by
  obtain ⟨before, after, rfl⟩ := List.append_of_mem hid
  obtain ⟨hfresh, -⟩ := List.nodup_cons.mp (List.nodup_middle.mp h.nodup)
  have hbefore : id ∉ before := fun hmem => hfresh (List.mem_append_left after hmem)
  have hafter : id ∉ after := fun hmem => hfresh (List.mem_append_right before hmem)
  have herase : (before ++ id :: after).erase id = before ++ after := by
    rw [List.erase_append_right _ hbefore, List.erase_cons_head]
  obtain ⟨k, hk⟩ : ∃ k, n = before.length + (after.length + 1) + k := by
    have hle := h.length_le
    rw [List.length_append, List.length_cons] at hle
    exact ⟨n - (before.length + (after.length + 1)), by omega⟩
  have hvalue : value = before ++ id :: (after ++ List.replicate k temporaryId) := by
    have hpad : n - (before ++ id :: after).length = k := by
      rw [List.length_append, List.length_cons]
      omega
    rw [h.eq, hpad, List.append_assoc, List.cons_append]
  have hwithout : without n (before ++ id :: after) id =
      before ++ after ++ List.replicate (k + 1) temporaryId := by
    have hpad : n - (before ++ after).length = k + 1 := by
      rw [List.length_append]
      omega
    rw [without, herase, hpad]
  rw [hwithout, hvalue]
  cases after with
  | nil =>
      rw [List.nil_append, List.append_nil, removeId_last hbefore]
      apply iff_of_true rfl
      cases k with
      | zero => exact Or.inr (by simp)
      | succ k => exact Or.inl (by simp)
  | cons a after =>
      have hassigned : ∀ i ∈ before ++ id :: a :: after, i ≠ temporaryId := fun i hi htemporary =>
        h.assigned (htemporary ▸ hi)
      rw [List.cons_append, removeId_inner hbefore (hassigned a (by simp))]
      cases k with
      | zero =>
          -- the array was full: its last id stands twice
          rw [List.replicate_zero, List.append_nil]
          have hlast := List.getLast_mem (List.cons_ne_nil a after)
          refine iff_of_false (fun heq => ?_) ?_
          · have htail := (List.append_inj' heq rfl).2
            exact hassigned _ (by simp [hlast]) (List.cons.inj htail).1
          · rintro (hmem | hget)
            · exact hassigned temporaryId hmem rfl
            · rw [List.getLast?_append_cons, List.getLast?_cons_cons,
                List.getLast?_eq_some_getLast (List.cons_ne_nil a after)] at hget
              rw [Option.some.inj hget] at hlast
              exact hafter hlast
      | succ k =>
          refine iff_of_true ?_ (Or.inl (by simp))
          have hlast : (a :: (after ++ List.replicate (k + 1) temporaryId)).getLast
              (List.cons_ne_nil _ _) = temporaryId := by
            simp [List.getLast_cons, List.getLast_append_of_ne_nil]
          have hpad : List.replicate (k + 1 + 1) temporaryId =
              List.replicate (k + 1) temporaryId ++ [temporaryId] := List.replicate_succ'
          rw [hlast, hpad]
          simp only [List.append_assoc, List.cons_append]

end Remove

section Store

variable {n : Nat} {kv : KvStore} {key : Key} {value ids : List Int} {id : Int}

theorem lookup_kvstoreRemove_ne {k : Key} (h : k ≠ key) :
    (kvstoreRemove kv key id).lookup k = kv.lookup k := by
  rw [kvstoreRemove]
  split
  · rfl
  · split
    · exact AList.lookup_erase_ne h
    · exact AList.lookup_insert_ne h

theorem lookup_kvstoreRemove (h : kv.lookup key = some value) :
    (kvstoreRemove kv key id).lookup key =
      if (removeId value id).head? = some temporaryId then none else some (removeId value id) := by
  rw [kvstoreRemove, h]
  show (if (removeId value id).head? = some temporaryId then _ else _ : KvStore).lookup key = _
  split
  · exact AList.lookup_erase key kv
  · exact AList.lookup_insert kv

theorem IdArray.head_ne (h : IdArray n value ids) : value.head? ≠ some temporaryId := by
  obtain ⟨first, rest, rfl⟩ := List.exists_cons_of_ne_nil h.ne_nil
  rw [h.eq]
  exact fun hfirst => h.assigned (Option.some.inj hfirst ▸ List.mem_cons_self)

/-- The emptiness test looks at the first slot only. -/
theorem head_without_iff (h : IdArray n value ids) :
    (without n ids id).head? = some temporaryId ↔ ids.erase id = [] := by
  have hpos : 0 < n := by
    have hle := h.length_le
    have hlen := List.length_pos_iff.mpr h.ne_nil
    omega
  rw [without]
  cases herase : ids.erase id with
  | nil =>
      rw [List.nil_append, List.length_nil, Nat.sub_zero, List.head?_replicate,
        if_neg (Nat.ne_of_gt hpos)]
      exact iff_of_true rfl rfl
  | cons first rest =>
      refine iff_of_false (fun hfirst => ?_) (List.cons_ne_nil first rest)
      have hmem : first ∈ ids.erase id := herase ▸ List.mem_cons_self
      have htemporary : first = temporaryId := Option.some.inj hfirst
      exact h.assigned (htemporary ▸ List.mem_of_mem_erase hmem)

/-- A deletion in any order removes one id and keeps the others exactly if the array has an unused slot,
or the id stands in the last slot, or nowhere. -/
theorem kvstoreRemove_iff (n : Nat) (kv : KvStore) (key : Key) (id : Int)
    (harray : ∀ value, kv.lookup key = some value → ∃ ids, IdArray n value ids) :
    RemovesOne n kv (kvstoreRemove kv key id) key id ↔
      ∀ value, kv.lookup key = some value → id ∈ value →
        temporaryId ∈ value ∨ value.getLast? = some id := by
  constructor
  · intro h value hvalue hmem
    obtain ⟨ids, hids⟩ := harray value hvalue
    by_cases hid : id ∈ ids
    · have hremoved := h.removed value ids hvalue hids hid
      rw [lookup_kvstoreRemove hvalue] at hremoved
      by_cases herase : ids.erase id = []
      · -- the only id: its slot is the last one, or unused slots follow
        obtain rfl : ids = [id] := by
          have hlen := List.length_erase_of_mem hid
          rw [herase, List.length_nil] at hlen
          have hpos := List.length_pos_of_mem hid
          obtain ⟨a, rfl⟩ := List.length_eq_one_iff.mp (show ids.length = 1 by omega)
          rw [List.mem_singleton.mp hid]
        rw [hids.eq]
        cases n - [id].length with
        | zero => exact Or.inr rfl
        | succ k => exact Or.inl (by simp)
      · rw [if_neg herase] at hremoved
        split at hremoved
        · cases hremoved
        · exact (removeId_iff hids hid).mp (Option.some.inj hremoved)
    · rw [hids.eq] at hmem
      obtain hmem | hmem := List.mem_append.mp hmem
      · exact absurd hmem hid
      · rw [List.eq_of_mem_replicate hmem] at hid ⊢
        rw [hids.eq]
        refine Or.inl (List.mem_append_right ids ?_)
        rwa [List.eq_of_mem_replicate hmem] at hmem
  · intro hcond
    refine ⟨fun k => lookup_kvstoreRemove_ne, fun hnone => ?_, fun value ids hvalue hids hid => ?_,
      fun value ids hvalue hids hid => ?_⟩
    · rw [kvstoreRemove, hnone]
      exact hnone
    · rw [lookup_kvstoreRemove hvalue, removeId_of_not_mem hids hid, if_neg hids.head_ne]
    · have hmem : id ∈ value := by
        rw [hids.eq]
        exact List.mem_append_left _ hid
      rw [lookup_kvstoreRemove hvalue, (removeId_iff hids hid).mpr (hcond value hvalue hmem)]
      exact if_congr (head_without_iff hids) rfl rfl

/-- A value with an unused slot. -/
theorem kvstoreRemove_iff_unused_slot :
    RemovesOne 3 (AList.insert [7] [5, 3, temporaryId] ∅)
      (kvstoreRemove (AList.insert [7] [5, 3, temporaryId] ∅) [7] 5) [7] 5 := by
  refine (kvstoreRemove_iff 3 _ [7] 5 fun value hvalue => ?_).mpr fun value hvalue _ => ?_
  all_goals
    rw [AList.lookup_insert, Option.some.injEq] at hvalue
    subst hvalue
  · exact ⟨[5, 3], rfl, by decide, by decide, by decide, by decide⟩
  · exact Or.inl (by decide)

/-- Three updates of one key fill an array of three slots; when it loses the latest id, the oldest one
stands twice. -/
theorem full_array_keeps_last_twice :
    let cfg : Config := { smallConfig .exact .logical with
      indexValueLength := 3, indexValueLength_pos := by decide }
    let kv := kvstoreUpdate cfg (kvstoreUpdate cfg (kvstoreUpdate cfg ∅ [1] 3) [1] 5) [1] 7
    kv.lookup [1] = some [7, 5, 3] ∧ IdArray 3 [7, 5, 3] [7, 5, 3] ∧
      (kvstoreRemove kv [1] 7).lookup [1] = some [5, 3, 3] ∧
      ¬ RemovesOne 3 kv (kvstoreRemove kv [1] 7) [1] 7 := by
  intro cfg kv
  have hvalue : kv.lookup [1] = some [7, 5, 3] := by decide
  have harray : IdArray 3 [7, 5, 3] [7, 5, 3] := ⟨rfl, by decide, by decide, by decide, by decide⟩
  have hlookup : (kvstoreRemove kv [1] 7).lookup [1] = some [5, 3, 3] := by decide
  refine ⟨hvalue, harray, hlookup, fun h => ?_⟩
  have hremoved := h.removed [7, 5, 3] [7, 5, 3] hvalue harray (by decide)
  rw [hlookup] at hremoved
  exact absurd hremoved (by decide)

end Store

end Destor
