/- digest: The optimal cache finds every container, and evicts one that is needed last. -/

import Mathlib.Data.List.Nodup
import Mathlib.Data.List.TakeWhile
import Destor.Restore.OptimalWindow

set_option autoImplicit false
set_option relaxedAutoImplicit false

namespace Destor

open Library Library.Outcome Library.Paging

variable {α : Type}

namespace CacheReader

def ids (reader : CacheReader α) (c : LruCache α) : List Int :=
  c.elemQueue.map fun e => (reader.toMeta e).id

/-- What is retrieved has the id it was asked for. -/
def Lawful (reader : CacheReader α) : Prop :=
  ∀ id e, reader.retrieve id = .ok e → (reader.toMeta e).id = id

end CacheReader

namespace OptimalCache

/-- The cache holds retrieved elements with different ids, within its bound, and the sequence has
a record of the table for each of them. -/
structure CacheInv (reader : CacheReader α) (s : OptimalCache α) : Prop where
  bound : s.lruQueue.WithinBound
  positive : 0 < s.lruQueue.maxSize
  retrieved : ∀ e ∈ s.lruQueue.elemQueue, reader.retrieve (reader.toMeta e).id = .ok e
  distinct : (reader.ids s.lruQueue).Nodup
  sorted : s.sortedRecords.Perm (reader.ids s.lruQueue)
  recorded : ∀ cid ∈ reader.ids s.lruQueue, (s.accessRecordTable.lookup cid).isSome = true

section Order

variable {table : IdMap (List Int)} {s : OptimalCache α} {window : List Int} {n : Nat}

/-- The first of the numbers that a record holds. -/
theorem head?_seqnoQueue {id : Int}
    (hqueues : ∀ cid, seqnoQueue table cid = (occurrences n window cid).map toInt32) (h : id ∈ window) :
    (seqnoQueue table id).head? = some (toInt32 (n + window.idxOf id)) := by
  rw [hqueues, List.head?_map, head?_occurrences h]
  rfl

/-- The comparison of two records decides which next access comes later in the window: their numbers may
have wrapped, their difference as an `int` has not. -/
theorem idxOf_le_of_cmp
    (hqueues : ∀ cid, seqnoQueue table cid = (occurrences n window cid).map toInt32)
    (hsmall : window.length < 2 ^ 31) (a b : Int) :
    (0 < cmpByFirstSeqno table a b → window.idxOf b ≤ window.idxOf a) ∧
      (¬ 0 < cmpByFirstSeqno table a b → window.idxOf a ≤ window.idxOf b) := by
  have hnone : ∀ {id : Int}, id ∉ window → (seqnoQueue table id).head? = none := by
    intro id hid
    rw [hqueues, occurrences_of_notMem hid]
    rfl
  unfold cmpByFirstSeqno
  by_cases ha : a ∈ window
  · rw [head?_seqnoQueue hqueues ha]
    by_cases hb : b ∈ window
    · rw [head?_seqnoQueue hqueues hb]
      have ha' := List.idxOf_lt_length_iff.mpr ha
      have hb' := List.idxOf_lt_length_iff.mpr hb
      have hdiff : toInt32 (toInt32 (n + window.idxOf a) - toInt32 (n + window.idxOf b)) =
          window.idxOf a - window.idxOf b := by
        rw [toInt32_sub, Int.add_sub_add_left]
        exact toInt32_eq (by omega) (by omega)
      simp only [hdiff]
      omega
    · rw [hnone hb, List.idxOf_eq_length_iff.mpr hb]
      refine ⟨fun h => ?_, fun _ => List.idxOf_le_length⟩
      have hlt : (0 : Int) < -1 := h
      omega
  · rw [hnone ha, List.idxOf_eq_length_iff.mpr ha]
    exact ⟨fun _ => List.idxOf_le_length, fun h => absurd Int.one_pos h⟩

theorem sortRecords_pairwise
    (hqueues : ∀ cid, seqnoQueue s.accessRecordTable cid = (occurrences n window cid).map toInt32)
    (hsmall : window.length < 2 ^ 31) :
    s.sortRecords.Pairwise fun a b => window.idxOf a ≤ window.idxOf b := by
  unfold sortRecords
  apply SortedSeq.sort_pairwise
  · exact fun a b c hab hbc => hab.trans hbc
  · intro a _ b _ hgt
    exact (idxOf_le_of_cmp hqueues hsmall a b).1 (of_decide_eq_true hgt)
  · intro a _ b _ hgt
    exact (idxOf_le_of_cmp hqueues hsmall a b).2 (of_decide_eq_false hgt)

theorem sortRecords_perm (s : OptimalCache α) : s.sortRecords.Perm s.sortedRecords :=
  SortedSeq.sort_perm _ _

theorem candidates_spec
    (hqueues : ∀ cid, seqnoQueue s.accessRecordTable cid = (occurrences n window cid).map toInt32)
    (hsmall : window.length < 2 ^ 31) {cid : Int} (h : cid ∈ s.candidates) :
    cid ∈ s.sortedRecords ∧ ∀ w ∈ s.sortedRecords, window.idxOf w ≤ window.idxOf cid := by
  have hpairwise := List.pairwise_reverse.mpr (sortRecords_pairwise hqueues hsmall)
  have hmem : ∀ w, w ∈ s.sortedRecords ↔ w ∈ s.sortRecords.reverse :=
    fun w => by rw [List.mem_reverse, s.sortRecords_perm.mem_iff]
  unfold candidates at h
  cases hsorted : s.sortRecords.reverse with
  | nil =>
      rw [hsorted] at h
      cases h
  | cons r before =>
      simp only [hsorted] at h hpairwise hmem
      rcases List.mem_cons.mp h with rfl | hbefore
      · refine ⟨(hmem cid).mpr List.mem_cons_self, fun w hw => ?_⟩
        rcases List.mem_cons.mp ((hmem w).mp hw) with rfl | hin
        · exact Nat.le_refl _
        · exact (List.pairwise_cons.mp hpairwise).1 w hin
      · have htake := (List.takeWhile_sublist _).subset hbefore
        have hempty := List.mem_takeWhile_imp hbefore
        refine ⟨(hmem cid).mpr (List.mem_cons_of_mem r (List.mem_of_mem_take htake)), fun w _ => ?_⟩
        -- a record without numbers is accessed nowhere in the window
        rw [List.isEmpty_iff, hqueues, List.map_eq_nil_iff] at hempty
        rw [List.idxOf_eq_length_iff.mpr (occurrences_eq_nil.mp hempty)]
        exact List.idxOf_le_length

theorem candidates_ne_nil {s : OptimalCache α} (h : s.sortedRecords ≠ []) : s.candidates ≠ [] := by
  unfold candidates
  cases hsorted : s.sortRecords.reverse with
  | nil =>
      have hnil := List.reverse_eq_nil_iff.mp hsorted
      have hperm := s.sortRecords_perm
      rw [hnil] at hperm
      exact absurd hperm.symm.eq_nil h
  | cons r before => exact List.cons_ne_nil _ _

end Order

section Steps

variable {reader : CacheReader α} {env : RestoreEnv} {n : Nat} {s : OptimalCache α} {id : Int}
  {window future : List Int}

/-- The invariant does not depend on the window. -/
theorem CacheInv.of_same {s' : OptimalCache α} (h : CacheInv reader s) (hsame : SameCached s s') :
    CacheInv reader s' := by
  have hqueue := hsame.lruQueue
  refine ⟨?_, ?_, ?_, ?_, ?_, ?_⟩ <;> rw [hqueue]
  · exact h.bound
  · exact h.positive
  · exact h.retrieved
  · exact h.distinct
  · rw [hsame.sortedRecords]
    exact h.sorted
  · exact fun cid hcid => hsame.table cid (h.recorded cid hcid)

theorem mem_ids_iff {c : LruCache α} :
    id ∈ reader.ids c ↔ ∃ e ∈ c.elemQueue, reader.checkId id e = true := by
  simp [CacheReader.ids, CacheReader.checkId]

/-- A cached container is found by its id and moves to the front. -/
theorem CacheInv.hit (h : CacheInv reader s) (hid : id ∈ reader.ids s.lruQueue) :
    ∃ e queue, s.lruQueue.hits (reader.checkId id) =
        (some e, { s.lruQueue with elemQueue := e :: queue }) ∧
      reader.retrieve id = .ok e ∧ s.lruQueue.elemQueue.Perm (e :: queue) ∧
      CacheInv reader { s with lruQueue := { s.lruQueue with elemQueue := e :: queue } } := by
  obtain ⟨e, hfind⟩ := Option.isSome_iff_exists.mp
    (List.find?_isSome.mpr (mem_ids_iff.mp hid))
  have hcheck : reader.checkId id e = true := List.find?_some hfind
  have hide : (reader.toMeta e).id = id := by simpa [CacheReader.checkId] using hcheck
  have hretrieve := h.retrieved e (List.mem_of_find?_eq_some hfind)
  rw [hide] at hretrieve
  have hperm := LruCache.moveToFront_perm (reader.checkId id) s.lruQueue.elemQueue
  have hhits := LruCache.hits_of_find? hfind
  rw [LruCache.moveToFront_of_find? hfind] at hperm hhits
  refine ⟨e, _, hhits, hretrieve, hperm.symm, ?_⟩
  have hids : (reader.ids { s.lruQueue with
      elemQueue := e :: s.lruQueue.elemQueue.eraseP (reader.checkId id) }).Perm
      (reader.ids s.lruQueue) := hperm.map _
  refine ⟨⟨?_, h.bound.size_le⟩, h.positive, fun e' he' => h.retrieved e' (hperm.mem_iff.mp he'),
    hids.nodup_iff.mpr h.distinct, h.sorted.trans hids.symm,
    fun cid hcid => h.recorded cid (hids.mem_iff.mp hcid)⟩
  exact h.bound.size_eq.trans hperm.length_eq.symm

/-- A container that is not cached is not found. -/
theorem hits_of_notMem (hid : id ∉ reader.ids s.lruQueue) :
    s.lruQueue.hits (reader.checkId id) = (none, s.lruQueue) := by
  refine LruCache.hits_of_find?_none (List.find?_eq_none.mpr fun e he hcheck => ?_)
  exact hid (mem_ids_iff.mpr ⟨e, he, hcheck⟩)

theorem lookup_dropRecord {victim : Int} (s : OptimalCache α) (hid : id ≠ victim) :
    (s.dropRecord victim).accessRecordTable.lookup id = s.accessRecordTable.lookup id := by
  rw [dropRecord]
  split
  · exact AList.lookup_erase_ne hid
  · rfl

theorem seqnoQueue_dropRecord (s : OptimalCache α) (victim id : Int) :
    seqnoQueue (s.dropRecord victim).accessRecordTable id =
      seqnoQueue s.accessRecordTable id := by
  by_cases hid : id = victim
  · rw [hid, dropRecord]
    split
    · rename_i hempty
      rw [List.isEmpty_iff.mp hempty, seqnoQueue, AList.lookup_erase, Option.getD_none]
    · rfl
  · rw [seqnoQueue, seqnoQueue, lookup_dropRecord s hid]

/-- A full cache evicts one container, and none is accessed later than it. -/
theorem CacheInv.evict (hwindow : env.WindowSized) (h : CacheInv reader s)
    (hwin : WindowInv env n s window future) (hfull : s.lruQueue.isFull = true) :
    ∃ s' victim, s.evict reader = .ok s' ∧ CacheInv reader s' ∧ WindowInv env n s' window future ∧
      (reader.ids s.lruQueue).Perm (victim :: reader.ids s'.lruQueue) ∧
      (s'.lruQueue.size : Int) < s'.lruQueue.maxSize ∧ s'.lruQueue.maxSize = s.lruQueue.maxSize ∧
      s'.records = s.records ∧ s'.lastId = s.lastId ∧
      (∀ cid, cid ≠ victim → s'.accessRecordTable.lookup cid = s.accessRecordTable.lookup cid) ∧
      ∀ w ∈ reader.ids s.lruQueue, window.idxOf w ≤ window.idxOf victim := by
  have hsmall := hwin.small hwindow
  have hne : s.sortedRecords ≠ [] := by
    intro hnil
    have hperm := h.sorted
    rw [hnil] at hperm
    have hids := congrArg List.length hperm.symm.eq_nil
    rw [CacheReader.ids, List.length_map, ← h.bound.size_eq, List.length_nil] at hids
    have hpositive := h.positive
    simp only [LruCache.isFull, hids] at hfull
    rw [if_neg (by omega)] at hfull
    have hle := of_decide_eq_true hfull
    omega
  obtain ⟨r, hr⟩ := List.exists_mem_of_ne_nil _ (candidates_ne_nil hne)
  obtain ⟨e₀, he₀, hcheck₀⟩ :=
    mem_ids_iff.mp (h.sorted.mem_iff.mp (candidates_spec hwin.queues hsmall hr).1)
  have hsome : (s.lruQueue.elemQueue.reverse.find? fun e =>
      s.candidates.contains (reader.toMeta e).id).isSome = true := by
    refine List.find?_isSome.mpr ⟨e₀, List.mem_reverse.mpr he₀, ?_⟩
    have hid : (reader.toMeta e₀).id = r := by simpa [CacheReader.checkId] using hcheck₀
    rw [hid]
    exact List.contains_iff_mem.mpr hr
  obtain ⟨e, hfind⟩ := Option.isSome_iff_exists.mp hsome
  obtain ⟨queue, hkicks, hperm⟩ := LruCache.kicks_spec hfind
  have hkicked := List.find?_some (p := fun e => s.candidates.contains (reader.toMeta e).id) hfind
  have hcand : (reader.toMeta e).id ∈ s.candidates := List.contains_iff_mem.mp hkicked
  obtain ⟨hmem, hlater⟩ := candidates_spec hwin.queues hsmall hcand
  generalize hv : (reader.toMeta e).id = victim at hcand hmem hlater
  have hids : (reader.ids s.lruQueue).Perm
      (victim :: queue.map fun e => (reader.toMeta e).id) := by
    rw [← hv]
    exact hperm.map _
  have hnodup := hids.nodup_iff.mp h.distinct
  obtain ⟨hnotin, hnodup'⟩ := List.nodup_cons.mp hnodup
  have hlength := hperm.length_eq
  have hsize := h.bound.size_eq
  rw [List.length_cons] at hlength
  refine ⟨{ s.dropRecord victim with
      lruQueue := { s.lruQueue with elemQueue := queue, size := s.lruQueue.size - 1 } }, victim, ?_,
    ⟨⟨?_, fun hpos => ?_⟩, h.positive, fun e' he' => ?_, hnodup', ?_, fun cid hcid => ?_⟩,
    ⟨hwin.number, fun cid => ?_, hwin.buffered, hwin.within, hwin.pending, hwin.recordsEnd⟩, hids, ?_,
    rfl, rfl, rfl, fun cid hcid => lookup_dropRecord s hcid,
    fun w hw => hlater w (h.sorted.mem_iff.mpr hw)⟩
  · simp only [OptimalCache.evict, hfind, hkicks, hv]
  · show s.lruQueue.size - 1 = queue.length
    omega
  · have hle := h.bound.size_le hpos
    show ((s.lruQueue.size - 1 : Nat) : Int) ≤ s.lruQueue.maxSize
    omega
  · exact h.retrieved e' (hperm.mem_iff.mpr (List.mem_cons_of_mem e he'))
  · -- one record leaves the sequence
    have hrest : ((s.sortRecords.reverse.erase victim).reverse).Perm (s.sortedRecords.erase victim) :=
      (List.reverse_perm _).trans (((List.reverse_perm _).trans s.sortRecords_perm).erase victim)
    apply hrest.trans
    have herase := (h.sorted.trans hids).erase victim
    rwa [List.erase_cons_head] at herase
  · have hne' : cid ≠ victim := fun heq => hnotin (heq ▸ hcid)
    show ((s.dropRecord victim).accessRecordTable.lookup cid).isSome = true
    rw [lookup_dropRecord s hne']
    exact h.recorded cid (hids.mem_iff.mpr (List.mem_cons_of_mem victim hcid))
  · exact (seqnoQueue_dropRecord s victim cid).trans (hwin.queues cid)
  · show ((s.lruQueue.size - 1 : Nat) : Int) < s.lruQueue.maxSize
    have hle := h.bound.size_le h.positive
    omega

/-- How the ids of the cached containers change when container `id` is fetched. Once all records
have been read, no container is accessed later than the victim. -/
inductive Fetched (ids : List Int) (full : Bool) (farthest : Int → Prop) (id : Int) :
    List Int → Nat → Prop
  | hit {ids' : List Int} (hid : id ∈ ids) (perm : ids'.Perm ids) :
      Fetched ids full farthest id ids' 0
  | load (hid : id ∉ ids) (room : full = false) : Fetched ids full farthest id (id :: ids) 1
  | evict {victim : Int} {kept : List Int} (hid : id ∉ ids) (hfull : full = true)
      (perm : ids.Perm (victim :: kept)) (hvictim : farthest victim) :
      Fetched ids full farthest id (id :: kept) 1

theorem Fetched.mono {ids ids' : List Int} {full : Bool} {farthest farthest' : Int → Prop}
    {loads : Nat} (h : Fetched ids full farthest id ids' loads)
    (hmono : ∀ v ∈ ids, farthest v → farthest' v) : Fetched ids full farthest' id ids' loads := by
  cases h with
  | hit hid perm => exact .hit hid perm
  | load hid room => exact .load hid room
  | evict hid hfull perm hvictim =>
      exact .evict hid hfull perm (hmono _ (perm.mem_iff.mpr List.mem_cons_self) hvictim)

/-- The element that was read goes to the front, and its record into the sequence. -/
theorem CacheInv.insertRecord (h : CacheInv reader s) (hwin : WindowInv env n s window future)
    (hid : id ∉ reader.ids s.lruQueue) (hroom : (s.lruQueue.size : Int) < s.lruQueue.maxSize)
    (hrecord : (s.accessRecordTable.lookup id).isSome = true) {e : α}
    (hretrieve : reader.retrieve id = .ok e) (hide : (reader.toMeta e).id = id) :
    CacheInv reader (OptimalCache.insertRecord env { s with lruQueue := s.lruQueue.insert e } id) ∧
      WindowInv env n (OptimalCache.insertRecord env { s with lruQueue := s.lruQueue.insert e } id)
        window future ∧
      (s.lruQueue.insert e).elemQueue = e :: s.lruQueue.elemQueue ∧
      (s.lruQueue.insert e).maxSize = s.lruQueue.maxSize := by
  have hinsert := LruCache.insert_of_lt hroom e
  have hids : reader.ids (s.lruQueue.insert e) = id :: reader.ids s.lruQueue := by
    rw [hinsert, CacheReader.ids, List.map_cons, hide]
    rfl
  refine ⟨⟨h.bound.insert e, ?_, fun e' he' => ?_, ?_, ?_, fun cid hcid => ?_⟩,
    ⟨hwin.number, hwin.queues, hwin.buffered, hwin.within, hwin.pending, hwin.recordsEnd⟩,
    by rw [hinsert], by rw [hinsert]⟩
  · show 0 < (s.lruQueue.insert e).maxSize
    rw [hinsert]
    exact h.positive
  · have hmem : e' ∈ (s.lruQueue.insert e).elemQueue := he'
    rw [hinsert] at hmem
    rcases List.mem_cons.mp hmem with rfl | hold
    · rw [hide]
      exact hretrieve
    · exact h.retrieved e' hold
  · show (reader.ids (s.lruQueue.insert e)).Nodup
    rw [hids]
    exact List.nodup_cons.mpr ⟨hid, h.distinct⟩
  · show (s.sortedRecords.insertIdx _ id).Perm (reader.ids (s.lruQueue.insert e))
    rw [hids]
    exact (List.perm_insertIdx id s.sortedRecords (Nat.min_le_right _ _)).trans (h.sorted.cons id)
  · have hmem : cid ∈ reader.ids (s.lruQueue.insert e) := hcid
    rw [hids] at hmem
    rcases List.mem_cons.mp hmem with rfl | hold
    · exact hrecord
    · exact h.recorded cid hold

theorem CacheInv.insert (hwindow : env.WindowSized) (hlawful : reader.Lawful) (h : CacheInv reader s)
    (hwin : WindowInv env n s window future) (hid : id ∉ reader.ids s.lruQueue)
    (hrecord : (s.accessRecordTable.lookup id).isSome = true) {e : α}
    (hretrieve : reader.retrieve id = .ok e) :
    ∃ s' queue, s.insert env reader id = .ok s' ∧ CacheInv reader s' ∧
      WindowInv env n s' window future ∧ s'.lruQueue.elemQueue = e :: queue ∧
      s'.lruQueue.maxSize = s.lruQueue.maxSize ∧ s'.records = s.records ∧ s'.lastId = s.lastId ∧
      Fetched (reader.ids s.lruQueue) s.lruQueue.isFull
        (fun victim => ∀ w ∈ reader.ids s.lruQueue, window.idxOf w ≤ window.idxOf victim) id (reader.ids s'.lruQueue) 1 := by
  have hide := hlawful id e hretrieve
  by_cases hfull : s.lruQueue.isFull = true
  · obtain ⟨s₁, victim, hok, hcache, hwin₁, hperm, hroom, hmax, hrecords, hlast, hlookup, hlater⟩ :=
      h.evict hwindow hwin hfull
    have hid₁ : id ∉ reader.ids s₁.lruQueue :=
      fun hmem => hid (hperm.mem_iff.mpr (List.mem_cons_of_mem victim hmem))
    have hne : id ≠ victim := fun heq => hid (hperm.mem_iff.mpr (heq ▸ List.mem_cons_self))
    have hrecord₁ : (s₁.accessRecordTable.lookup id).isSome = true := by
      rw [hlookup id hne]
      exact hrecord
    obtain ⟨hcache', hwin', hqueue, hmax'⟩ :=
      hcache.insertRecord hwin₁ hid₁ hroom hrecord₁ hretrieve hide
    have hids : reader.ids (s₁.lruQueue.insert e) = id :: reader.ids s₁.lruQueue := by
      rw [CacheReader.ids, hqueue, List.map_cons, hide]
      rfl
    refine ⟨_, _, bind_ok_iff.mpr ⟨s₁, (if_pos hfull).trans hok, bind_ok_iff.mpr ⟨e, hretrieve,
      bind_ok_iff.mpr ⟨(), require_of hrecord₁, rfl⟩⟩⟩, hcache', hwin', hqueue, hmax'.trans hmax,
      hrecords, hlast, ?_⟩
    show Fetched _ _ _ id (reader.ids (s₁.lruQueue.insert e)) 1
    rw [hids]
    exact .evict hid hfull hperm hlater
  · have hroom : (s.lruQueue.size : Int) < s.lruQueue.maxSize := by
      have hpositive := h.positive
      unfold LruCache.isFull at hfull
      rw [if_neg (by omega)] at hfull
      simpa using hfull
    obtain ⟨hcache', hwin', hqueue, hmax'⟩ :=
      h.insertRecord hwin hid hroom hrecord hretrieve hide
    have hids : reader.ids (s.lruQueue.insert e) = id :: reader.ids s.lruQueue := by
      rw [CacheReader.ids, hqueue, List.map_cons, hide]
      rfl
    refine ⟨_, _, bind_ok_iff.mpr ⟨s, if_neg hfull, bind_ok_iff.mpr ⟨e, hretrieve,
      bind_ok_iff.mpr ⟨(), require_of hrecord, rfl⟩⟩⟩, hcache', hwin', hqueue, hmax', rfl, rfl, ?_⟩
    show Fetched _ _ _ id (reader.ids (s.lruQueue.insert e)) 1
    rw [hids]
    exact .load hid (by simpa using hfull)

end Steps

end OptimalCache

section Fetch

open OptimalCache

/-- The optimal cache between two chunks, `rest` being the containers of the chunks to come. -/
structure OptimalInv (env : RestoreEnv) (reader : CacheReader α) (s : OptimalCache α)
    (rest : List Int) : Prop where
  cache : CacheInv reader s
  window : ∃ n window, WindowInv env n s window (changes s.lastId rest)
  slides : Slides env s
  last : s.lastId = temporaryId ∨ s.lastId ∈ reader.ids s.lruQueue

variable {reader : CacheReader α} {env : RestoreEnv} {n : Nat} {id w : Int} {rest : List Int}

/-- Once all records have been read, the later of two containers occurs later in the future. -/
theorem OptimalCache.WindowInv.idxOf_le {s : OptimalCache α} {window future : List Int} {v : Int}
    (hwin : WindowInv env n s window future) (hend : s.records = [])
    (h : window.idxOf w ≤ window.idxOf v) : future.idxOf w ≤ future.idxOf v := by
  have hpending := hwin.pending
  rw [hend, List.append_nil] at hpending
  rw [hpending] at h
  by_cases hv : v ∈ future
  · rw [List.idxOf_append_of_mem hv] at h
    by_cases hw : w ∈ future
    · rwa [List.idxOf_append_of_mem hw] at h
    · have hvlt := List.idxOf_lt_length_iff.mpr hv
      rw [List.idxOf_append_of_notMem hw] at h
      omega
  · rw [List.idxOf_eq_length_iff.mpr hv]
    exact List.idxOf_le_length

/-- Fetching the container of the next chunk. -/
theorem OptimalRestore.fetch_spec (hwindow : env.WindowSized) (hlawful : reader.Lawful)
    {s : OptimalRestore α} {c : Chunk} (hids : ∀ x ∈ c.id :: rest, x ≠ temporaryId)
    (h : OptimalInv env reader s.cache (c.id :: rest)) {e : α}
    (hretrieve : reader.retrieve c.id = .ok e) :
    ∃ s' queue loads, s.fetch env reader c = .ok s' ∧ OptimalInv env reader s'.cache rest ∧
      s'.cache.lruQueue.elemQueue = e :: queue ∧
      s'.cache.lruQueue.maxSize = s.cache.lruQueue.maxSize ∧ s'.pushed = s.pushed ∧
      s'.counts = { s.counts with readContainerNum := s.counts.readContainerNum + loads } ∧
      s'.cache.lastId = c.id ∧
      (s.cache.records = [] →
        s'.cache.records = [] ∧ Fetched (reader.ids s.cache.lruQueue) s.cache.lruQueue.isFull
          (fun victim => ∀ w ∈ reader.ids s.cache.lruQueue,
            (changes c.id rest).idxOf w ≤ (changes c.id rest).idxOf victim)
          c.id (reader.ids s'.cache.lruQueue) loads) := by
  obtain ⟨n, window, hwin⟩ := h.window
  obtain ⟨s₁, n₁, window₁, haccess, hwin₁, -, hsame, hlast₁, hend₁, hrecord₁⟩ :=
    access_spec hwindow hids hwin h.slides
  have hcache₁ := h.cache.of_same hsame
  have hlru := hsame.lruQueue
  by_cases hid : c.id ∈ reader.ids s.cache.lruQueue
  · obtain ⟨e', queue, hhits, hretrieve', hperm, hcache'⟩ := hcache₁.hit (hlru ▸ hid)
    have he : e' = e := by
      rw [hretrieve] at hretrieve'
      exact (Except.ok.inj hretrieve').symm
    subst he
    refine ⟨{ s with
        cache := { s₁ with lruQueue := { s₁.lruQueue with elemQueue := e' :: queue } } }, queue, 0,
      ?_, ⟨hcache', ⟨n₁, window₁, ?_⟩, h.slides.of_records hend₁, Or.inr ?_⟩, rfl, ?_, rfl, rfl,
      hlast₁, fun hend => ⟨hend₁ hend, ?_⟩⟩
    · unfold OptimalRestore.fetch OptimalCache.hits
      simp only [haccess, bind, Except.bind, hhits]
      rfl
    · show WindowInv env n₁ _ window₁ (changes s₁.lastId rest)
      rw [hlast₁]
      exact ⟨hwin₁.number, hwin₁.queues, hwin₁.buffered, hwin₁.within, hwin₁.pending,
        hwin₁.recordsEnd⟩
    · show s₁.lastId ∈ _
      rw [hlast₁, CacheReader.ids, List.map_cons, hlawful c.id e' hretrieve]
      exact List.mem_cons_self
    · show s₁.lruQueue.maxSize = s.cache.lruQueue.maxSize
      rw [hlru]
    · rw [← hlru]
      exact .hit (hlru ▸ hid) (hperm.map _).symm
  · have hmiss : c.id ∉ reader.ids s₁.lruQueue := by
      rw [hlru]
      exact hid
    have hne : s.cache.lastId ≠ c.id := by
      intro heq
      rcases h.last with htemp | hmem
      · exact hids c.id List.mem_cons_self (heq.symm.trans htemp)
      · exact hid (heq ▸ hmem)
    obtain ⟨s₂, queue, hinsert, hcache₂, hwin₂, hqueue, hmax, hrecords, hlast, hfetched⟩ :=
      hcache₁.insert hwindow hlawful hwin₁ hmiss (hrecord₁ hne) hretrieve
    refine ⟨{ s with cache := s₂, counts := s.counts.readContainer }, queue, 1, ?_,
      ⟨hcache₂, ⟨n₁, window₁, ?_⟩, ?_, Or.inr ?_⟩, hqueue, ?_, rfl, rfl, hlast.trans hlast₁,
      fun hend => ⟨hrecords.trans (hend₁ hend), ?_⟩⟩
    · unfold OptimalRestore.fetch OptimalCache.hits
      simp only [haccess, bind, Except.bind, hits_of_notMem hmiss]
      simp only [Option.isSome_none]
      exact bind_ok_iff.mpr ⟨s₂, hinsert, rfl⟩
    · show WindowInv env n₁ s₂ window₁ (changes s₂.lastId rest)
      rw [hlast, hlast₁]
      exact hwin₂
    · exact h.slides.of_records fun hend => hrecords.trans (hend₁ hend)
    · show s₂.lastId ∈ reader.ids s₂.lruQueue
      rw [hlast, hlast₁, CacheReader.ids, hqueue, List.map_cons, hlawful c.id e hretrieve]
      exact List.mem_cons_self
    · exact hmax.trans (by rw [hlru])
    · rw [← hlru]
      apply hfetched.mono
      intro v hv hlater w hw
      exact hwin₁.idxOf_le (hend₁ hend) (hlater w (hlru ▸ hw))

end Fetch

end Destor
