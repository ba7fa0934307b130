/- digest: The window of recorded accesses stays in step with the recipe. -/

import Destor.Restore.OptimalRestore
import Destor.Library.Paging

set_option autoImplicit false
set_option relaxedAutoImplicit false

namespace Destor

open Library Library.Outcome Library.Paging

def occurrences (base : Int) : List Int → Int → List Int
  | [], _ => []
  | x :: l, id => if x = id then base :: occurrences (base + 1) l id
      else occurrences (base + 1) l id

section Occurrences

variable {base x id : Int} {l : List Int}

@[simp] theorem occurrences_cons_self (base id : Int) (l : List Int) :
    occurrences base (id :: l) id = base :: occurrences (base + 1) l id := if_pos rfl

theorem occurrences_cons_of_ne (h : x ≠ id) (base : Int) (l : List Int) :
    occurrences base (x :: l) id = occurrences (base + 1) l id := if_neg h

theorem occurrences_append_singleton (base : Int) (l : List Int) (x id : Int) :
    occurrences base (l ++ [x]) id =
      occurrences base l id ++ if x = id then [base + l.length] else [] := by
  induction l generalizing base with
  | nil =>
      by_cases h : x = id
      · simp [occurrences, h]
      · simp [occurrences, h]
  | cons y l ih =>
      have hlength : base + 1 + (l.length : Int) = base + ((y :: l).length : Nat) := by
        rw [List.length_cons]
        omega
      rw [List.cons_append]
      by_cases hy : y = id
      · subst hy
        rw [occurrences_cons_self, occurrences_cons_self, ih, hlength, List.cons_append]
      · rw [occurrences_cons_of_ne hy, occurrences_cons_of_ne hy, ih, hlength]

/-- The first occurrence is where `idxOf` finds the element. -/
theorem head?_occurrences (h : id ∈ l) :
    (occurrences base l id).head? = some (base + l.idxOf id) := by
  induction l generalizing base with
  | nil => cases h
  | cons y l ih =>
      by_cases hy : y = id
      · subst hy
        simp
      · have hmem := (List.mem_cons.mp h).resolve_left (Ne.symm hy)
        rw [occurrences_cons_of_ne hy, ih hmem, List.idxOf_cons_ne _ hy]
        congr 1
        omega

theorem occurrences_of_notMem (h : id ∉ l) : occurrences base l id = [] := by
  induction l generalizing base with
  | nil => rfl
  | cons y l ih =>
      rw [List.mem_cons, not_or] at h
      rw [occurrences_cons_of_ne (Ne.symm h.1)]
      exact ih h.2

theorem occurrences_eq_nil : occurrences base l id = [] ↔ id ∉ l := by
  refine ⟨fun h hmem => ?_, occurrences_of_notMem⟩
  have hhead : (occurrences base l id).head? = some (base + l.idxOf id) := head?_occurrences hmem
  rw [h] at hhead
  cases hhead

end Occurrences

/-- The window has room for an access, and an array takes the records that fill it. -/
structure RestoreEnv.WindowSized (env : RestoreEnv) : Prop where
  pos : 1 ≤ env.optWindowSize
  lt : env.optWindowSize + 1 < 2 ^ 31

namespace OptimalCache

variable {α : Type} {env : RestoreEnv} {n : Nat} {s : OptimalCache α} {window future : List Int}
  {id : Int}

/-- `n` accesses have been made, `window` has been read of the records after them and `future` is still
to be accessed: the queue of a record has the sequence numbers at which its container occurs in the
window, and window and unread records together are the accesses to come, with the terminator. -/
structure WindowInv (env : RestoreEnv) (n : Nat) (s : OptimalCache α) (window future : List Int) :
    Prop where
  number : s.currentSequenceNumber = toInt32 (n + window.length)
  queues : ∀ cid, seqnoQueue s.accessRecordTable cid = (occurrences n window cid).map toInt32
  buffered : s.bufferedAccessRecordNum = window.length
  within : (window.length : Int) ≤ env.optWindowSize
  pending : window ++ s.records = future ++ [temporaryId]
  recordsEnd : s.recordsEnd = true ↔ s.records = []

theorem WindowInv.small (h : WindowInv env n s window future) (hwindow : env.WindowSized) :
    window.length < 2 ^ 31 := by
  have hwithin := h.within
  have hlt := hwindow.lt
  omega

/-- What the window operations leave alone. -/
structure SameCached (s s' : OptimalCache α) : Prop where
  sortedRecords : s'.sortedRecords = s.sortedRecords
  lruQueue : s'.lruQueue = s.lruQueue
  table : ∀ cid, (s.accessRecordTable.lookup cid).isSome = true →
    (s'.accessRecordTable.lookup cid).isSome = true

theorem SameCached.refl (s : OptimalCache α) : SameCached s s := ⟨rfl, rfl, fun _ h => h⟩

theorem SameCached.trans {s s' s'' : OptimalCache α} (h : SameCached s s')
    (h' : SameCached s' s'') : SameCached s s'' :=
  ⟨h'.sortedRecords.trans h.sortedRecords, h'.lruQueue.trans h.lruQueue,
    fun cid hcid => h'.table cid (h.table cid hcid)⟩

section Table

variable {table : IdMap (List Int)} {queue : List Int} {cid : Int}

theorem seqnoQueue_insert_self (table : IdMap (List Int)) (id : Int) (queue : List Int) :
    seqnoQueue (table.insert id queue) id = queue := by
  simp [seqnoQueue]

theorem seqnoQueue_insert_of_ne (h : cid ≠ id) :
    seqnoQueue (table.insert id queue) cid = seqnoQueue table cid := by
  simp [seqnoQueue, AList.lookup_insert_ne h]

theorem lookup_isSome_insert (h : (table.lookup cid).isSome = true) :
    ((table.insert id queue).lookup cid).isSome = true := by
  by_cases heq : cid = id
  · subst heq
    simp
  · rwa [AList.lookup_insert_ne heq]

theorem lookup_isSome_of_queue (h : seqnoQueue table cid ≠ []) :
    (table.lookup cid).isSome = true := by
  cases hlookup : table.lookup cid with
  | none => simp [seqnoQueue, hlookup] at h
  | some queue => rfl

end Table

section Fill

theorem pushAccess_sameCached (s : OptimalCache α) (id : Int) : SameCached s (s.pushAccess id) :=
  ⟨rfl, rfl, fun _ hcid => lookup_isSome_insert hcid⟩

structure Numbered (n : Nat) (s : OptimalCache α) (window : List Int) : Prop where
  number : s.currentSequenceNumber = toInt32 (n + window.length)
  queues : ∀ cid, seqnoQueue s.accessRecordTable cid = (occurrences n window cid).map toInt32

/-- Reading one more record appends its access to the window. -/
theorem Numbered.pushAccess (h : Numbered n s window) (id : Int) :
    Numbered n (s.pushAccess id) (window ++ [id]) := by
  constructor
  · show toInt32 (s.currentSequenceNumber + 1) = _
    rw [h.number, toInt32_add, List.length_append, List.length_singleton, Int.add_assoc]
    rfl
  · intro cid
    rw [occurrences_append_singleton, List.map_append, ← h.queues cid]
    by_cases heq : cid = id
    · subst heq
      rw [if_pos rfl, List.map_singleton, ← h.number]
      exact seqnoQueue_insert_self _ _ _
    · rw [if_neg (Ne.symm heq), List.map_nil, List.append_nil]
      exact seqnoQueue_insert_of_ne heq

/-- The frame of the loop of `optimal_cache_window_fill`. -/
theorem foldl_pushAccess (ids : List Int) (s : OptimalCache α) (window : List Int)
    (h : Numbered n s window) :
    Numbered n (ids.foldl OptimalCache.pushAccess s) (window ++ ids) ∧
      SameCached s (ids.foldl OptimalCache.pushAccess s) ∧
      (ids.foldl OptimalCache.pushAccess s).bufferedAccessRecordNum = s.bufferedAccessRecordNum ∧
      (ids.foldl OptimalCache.pushAccess s).records = s.records ∧
      (ids.foldl OptimalCache.pushAccess s).recordsEnd = s.recordsEnd ∧
      (ids.foldl OptimalCache.pushAccess s).lastId = s.lastId := by
  induction ids generalizing s window with
  | nil =>
      rw [List.append_nil]
      exact ⟨h, SameCached.refl s, rfl, rfl, rfl, rfl⟩
  | cons id ids ih =>
      obtain ⟨hnumbered, hsame, hframe⟩ := ih (s.pushAccess id) (window ++ [id]) (h.pushAccess id)
      rw [List.append_assoc, List.singleton_append] at hnumbered
      exact ⟨hnumbered, (pushAccess_sameCached s id).trans hsame, hframe⟩

/-- The terminator is the last of the pending records. -/
theorem getLast?_eq_temporaryId_iff {before read rest : List Int}
    (hfuture : ∀ id ∈ future, id ≠ temporaryId)
    (h : before ++ (read ++ rest) = future ++ [temporaryId]) (hne : read ≠ []) :
    read.getLast hne = temporaryId ↔ rest = [] := by
  constructor
  · intro hlast
    by_contra hrest
    have hsplit : before ++ read ++ rest.dropLast = future := by
      have hdrop := congrArg List.dropLast h
      rw [List.dropLast_concat, ← List.append_assoc, List.dropLast_append_of_ne_nil hrest] at hdrop
      exact hdrop
    refine hfuture (read.getLast hne) ?_ hlast
    rw [← hsplit]
    exact List.mem_append_left _ (List.mem_append_right _ (List.getLast_mem hne))
  · intro hrest
    subst hrest
    rw [List.append_nil] at h
    have hlast := congrArg List.getLast? h
    rw [List.getLast?_append_of_ne_nil _ hne, List.getLast?_concat,
      List.getLast?_eq_getLast_of_ne_nil hne] at hlast
    exact Option.some.inj hlast

theorem readNextNRecords_of_end {n : Int} (h : s.recordsEnd = true) :
    s.readNextNRecords n = .ok (none, s) := if_pos h

theorem readNextNRecords_of_ne {k : Nat} (h : ¬ s.recordsEnd = true) (hk : k + 1 < 2 ^ 31)
    (hread : s.records.take k ≠ []) :
    s.readNextNRecords k = .ok (some (s.records.take k), { s with
      records := s.records.drop k
      recordsEnd := (s.records.take k).getLast hread == temporaryId }) := by
  rw [readNextNRecords, if_neg h, Int.toNat_natCast, List.getLast?_eq_getLast_of_ne_nil hread]
  exact bind_ok_iff.mpr ⟨(), require_of (by omega), rfl⟩

theorem windowFill_spec (hwindow : env.WindowSized) (hfuture : ∀ id ∈ future, id ≠ temporaryId)
    (h : WindowInv env n s window future) (hroom : (window.length : Int) < env.optWindowSize) :
    ∃ s' read, windowFill env s = .ok s' ∧ WindowInv env n s' (window ++ read) future ∧
      SameCached s s' ∧ s'.lastId = s.lastId ∧ (s.records ≠ [] → read ≠ []) ∧
      (s.records.length ≤ env.optWindowSize - window.length → s'.records = []) ∧
      (s'.records ≠ [] → ((window ++ read).length : Int) = env.optWindowSize) := by
  unfold windowFill
  by_cases hend : s.recordsEnd = true
  · have hrecords := h.recordsEnd.mp hend
    refine ⟨s, [], bind_ok_iff.mpr ⟨(none, s), readNextNRecords_of_end hend, rfl⟩, ?_,
      SameCached.refl s, rfl, fun hne => absurd hrecords hne, fun _ => hrecords,
      fun hne => absurd hrecords hne⟩
    rwa [List.append_nil]
  · have hrecords : s.records ≠ [] := fun hnil => hend (h.recordsEnd.mpr hnil)
    have hlt := hwindow.lt
    rw [h.buffered]
    obtain ⟨k, hk⟩ : ∃ k : Nat, env.optWindowSize - (window.length : Int) = k :=
      ⟨(env.optWindowSize - (window.length : Int)).toNat, by omega⟩
    rw [hk]
    have hread : s.records.take k ≠ [] := by
      have hpos := List.length_pos_iff.mpr hrecords
      apply List.length_pos_iff.mp
      rw [List.length_take]
      omega
    have hok := readNextNRecords_of_ne hend (by omega) hread
    have hpending := h.pending
    rw [← List.take_append_drop k s.records] at hpending
    have hlast := getLast?_eq_temporaryId_iff hfuture hpending hread
    obtain ⟨hnumbered, hsame, hbuffered, hrest, hended, hlastId⟩ :=
      foldl_pushAccess (s.records.take k)
        { s with
          records := s.records.drop k
          recordsEnd := (s.records.take k).getLast hread == temporaryId
          bufferedAccessRecordNum := s.bufferedAccessRecordNum + (s.records.take k).length }
        window ⟨h.number, h.queues⟩
    rw [hok]
    refine ⟨_, s.records.take k, rfl,
      ⟨hnumbered.number, hnumbered.queues, ?_, ?_, ?_, ?_⟩,
      ⟨hsame.sortedRecords, hsame.lruQueue, hsame.table⟩, hlastId, fun _ => hread, fun hfits => ?_,
      fun hmore => ?_⟩
    · rw [hbuffered, List.length_append, h.buffered]
      rfl
    · rw [List.length_append, List.length_take]
      omega
    · rw [hrest, List.append_assoc]
      exact hpending
    · rw [hended, hrest, beq_iff_eq]
      exact hlast
    · rw [hrest]
      apply List.drop_eq_nil_of_le
      omega
    · have hlong : k < s.records.length := by
        by_contra hle
        exact hmore (hrest.trans (List.drop_eq_nil_of_le (Nat.le_of_not_lt hle)))
      rw [List.length_append, List.length_take]
      omega

end Fill

section Slide

/-- Twice the number of buffered records is an `int`, or there are no more to read. -/
def Slides (env : RestoreEnv) (s : OptimalCache α) : Prop :=
  env.optWindowSize < 2 ^ 30 ∨ s.records = []

/-- After a refill the window has at least the next access. -/
theorem refill_spec (hwindow : env.WindowSized) (hfuture : ∀ id ∈ future, id ≠ temporaryId)
    (h : WindowInv env n s window future) (hslides : Slides env s) :
    ∃ s' window', s.refill env = .ok s' ∧ WindowInv env n s' window' future ∧ SameCached s s' ∧
      s'.lastId = s.lastId ∧ window' ≠ [] ∧ (s.records = [] → s'.records = []) := by
  have hpending := h.pending
  have hpos := hwindow.pos
  have hwithin := h.within
  unfold refill
  rcases hslides with hhalf | hnil
  · have htwice : toInt32 (s.bufferedAccessRecordNum * 2) = s.bufferedAccessRecordNum * 2 := by
      rw [h.buffered]
      exact toInt32_eq (by omega) (by omega)
    rw [htwice, h.buffered]
    by_cases hle : (window.length : Int) * 2 ≤ env.optWindowSize
    · obtain ⟨s', read, hok, hinv, hsame, hlast, hread, hall, -⟩ :=
        windowFill_spec hwindow hfuture h (by omega)
      refine ⟨s', window ++ read, (if_pos hle).trans hok, hinv, hsame, hlast, fun hnil => ?_,
        fun hnil => hall ?_⟩
      · obtain ⟨hw, hr⟩ := List.append_eq_nil_iff.mp hnil
        have hrecords : s.records ≠ [] := by
          intro hrecords
          rw [hw, hrecords] at hpending
          simp at hpending
        exact hread hrecords hr
      · rw [hnil, List.length_nil]
        omega
    · refine ⟨s, window, if_neg hle, h, SameCached.refl s, rfl, fun hnil => ?_, fun hnil => hnil⟩
      rw [hnil, List.length_nil] at hle
      omega
  · -- nothing is read any more, so the comparison does not matter
    have hend := h.recordsEnd.mpr hnil
    have hfill : windowFill env s = .ok s :=
      bind_ok_iff.mpr ⟨(none, s), readNextNRecords_of_end hend, rfl⟩
    refine ⟨s, window, ?_, h, SameCached.refl s, rfl, fun hw => ?_, fun _ => hnil⟩
    · rw [hfill]
      exact ite_self _
    · rw [hw, hnil] at hpending
      simp at hpending

theorem popAccess_spec (h : WindowInv env n s (id :: window) (id :: future)) :
    ∃ s', s.popAccess id = .ok s' ∧ WindowInv env (n + 1) s' window future ∧ SameCached s s' ∧
      s'.records = s.records ∧ (s'.accessRecordTable.lookup id).isSome = true := by
  have hqueue := h.queues id
  rw [occurrences_cons_self, List.map_cons] at hqueue
  have hsome : (s.accessRecordTable.lookup id).isSome = true := by
    apply lookup_isSome_of_queue
    rw [hqueue]
    exact List.cons_ne_nil _ _
  obtain ⟨queue, hlookup⟩ := Option.isSome_iff_exists.mp hsome
  have htail : queue.tail = (occurrences (n + 1 : Nat) window id).map toInt32 := by
    rw [seqnoQueue, hlookup, Option.getD_some] at hqueue
    rw [hqueue, List.tail_cons]
    rfl
  have hlength : (id :: window).length = window.length + 1 := List.length_cons
  refine ⟨{ s with
      accessRecordTable := s.accessRecordTable.insert id queue.tail
      bufferedAccessRecordNum := s.bufferedAccessRecordNum - 1 },
    by simp only [popAccess, hlookup], ⟨?_, fun cid => ?_, ?_, ?_, ?_, h.recordsEnd⟩,
    ⟨rfl, rfl, fun cid hcid => lookup_isSome_insert hcid⟩, rfl, by simp⟩
  · refine h.number.trans (congrArg toInt32 ?_)
    omega
  · show seqnoQueue (s.accessRecordTable.insert id queue.tail) cid =
      (occurrences (n + 1 : Nat) window cid).map toInt32
    by_cases heq : cid = id
    · subst heq
      rw [seqnoQueue_insert_self, htail]
    · rw [seqnoQueue_insert_of_ne heq, h.queues cid, occurrences_cons_of_ne (Ne.symm heq)]
      rfl
  · show s.bufferedAccessRecordNum - 1 = window.length
    rw [h.buffered]
    omega
  · have hwithin := h.within
    omega
  · exact (List.cons.inj h.pending).2

/-- One access to container `id`, the accesses to come being the changes of a list of ids. -/
theorem access_spec (hwindow : env.WindowSized) {rest : List Int}
    (hrest : ∀ x ∈ id :: rest, x ≠ temporaryId)
    (h : WindowInv env n s window (changes s.lastId (id :: rest))) (hslides : Slides env s) :
    ∃ s' n' window', s.access env id = .ok s' ∧ WindowInv env n' s' window' (changes id rest) ∧
      n' = n + (if s.lastId = id then 0 else 1) ∧ SameCached s s' ∧ s'.lastId = id ∧
      (s.records = [] → s'.records = []) ∧
      (s.lastId ≠ id → (s'.accessRecordTable.lookup id).isSome = true) := by
  unfold access
  by_cases hlast : s.lastId = id
  · rw [if_neg (fun hne => hne hlast), if_pos hlast]
    rw [hlast, changes_cons_self] at h
    exact ⟨s, n, window, rfl, h, rfl, SameCached.refl s, hlast, fun hnil => hnil,
      fun hne => absurd hlast hne⟩
  · rw [if_pos hlast, if_neg hlast]
    rw [changes_cons_of_ne hlast] at h
    have hfuture : ∀ x ∈ id :: changes id rest, x ≠ temporaryId := by
      intro x hx
      rcases List.mem_cons.mp hx with rfl | hx
      · exact hrest x List.mem_cons_self
      · exact hrest x (List.mem_cons_of_mem _ (mem_of_mem_changes hx))
    obtain ⟨s₁, window₁, hok₁, hinv₁, hsame₁, hlast₁, hne₁, hend₁⟩ :=
      refill_spec hwindow hfuture h hslides
    obtain ⟨x, window', rfl⟩ := List.exists_cons_of_ne_nil hne₁
    have hx : x = id := (List.cons.inj hinv₁.pending).1
    subst hx
    obtain ⟨s₂, hok₂, hinv₂, hsame₂, hrecords₂, hsome₂⟩ := popAccess_spec hinv₁
    refine ⟨{ s₂ with lastId := x }, n + 1, window',
      bind_ok_iff.mpr ⟨s₂, bind_ok_iff.mpr ⟨s₁, hok₁, hok₂⟩, rfl⟩,
      ⟨hinv₂.number, hinv₂.queues, hinv₂.buffered, hinv₂.within, hinv₂.pending, hinv₂.recordsEnd⟩,
      rfl,
      ⟨hsame₂.sortedRecords.trans hsame₁.sortedRecords, hsame₂.lruQueue.trans hsame₁.lruQueue,
        fun cid hcid => hsame₂.table cid (hsame₁.table cid hcid)⟩, rfl,
      fun hnil => hrecords₂.trans (hend₁ hnil), fun _ => hsome₂⟩

theorem Slides.of_records {s' : OptimalCache α} (h : Slides env s)
    (hrecords : s.records = [] → s'.records = []) : Slides env s' := h.imp_right hrecords

/-- The window before `init_optimal_cache` fills it. -/
theorem windowInv_empty (cfg : Config) (hwindow : env.WindowSized) (future : List Int) :
    WindowInv (α := α) env 0
      { currentSequenceNumber := 0, accessRecordTable := ∅, bufferedAccessRecordNum := 0
        sortedRecords := [], lruQueue := LruCache.newLruCache cfg.restoreCacheSize
        records := future ++ [temporaryId], recordsEnd := false
        lastId := temporaryId } [] future := by
  have hpos := hwindow.pos
  refine ⟨rfl, fun _ => rfl, rfl, ?_, rfl, by simp⟩
  show ((0 : Nat) : Int) ≤ env.optWindowSize
  omega

theorem init_spec (cfg : Config) (hwindow : env.WindowSized)
    (hfuture : ∀ id ∈ future, id ≠ temporaryId) :
    ∃ (s : OptimalCache α) (window : List Int),
      OptimalCache.init cfg env (future ++ [temporaryId]) = .ok s ∧
      WindowInv env 0 s window future ∧
      s.sortedRecords = [] ∧ s.lruQueue = LruCache.newLruCache cfg.restoreCacheSize ∧
      s.lastId = temporaryId ∧
      ((future ++ [temporaryId]).length ≤ env.optWindowSize → s.records = []) ∧
      (s.records ≠ [] → (window.length : Int) = env.optWindowSize) := by
  have hroom : (([] : List Int).length : Int) < env.optWindowSize := by
    have hpos := hwindow.pos
    show ((0 : Nat) : Int) < env.optWindowSize
    omega
  obtain ⟨s, window, hok, hinv, hsame, hlast, -, hall, hfull⟩ :=
    windowFill_spec hwindow hfuture (windowInv_empty cfg hwindow future) hroom
  refine ⟨s, [] ++ window, hok, hinv, hsame.sortedRecords, hsame.lruQueue, hlast, fun hfits => ?_,
    hfull⟩
  refine hall (hfits.trans ?_)
  show env.optWindowSize ≤ env.optWindowSize - ((0 : Nat) : Int)
  omega

/-- No array takes a whole window, so `init_optimal_cache` fails. -/
theorem init_of_unallocated (cfg : Config) (hbig : ¬ env.optWindowSize + 1 < 2 ^ 31)
    (records : List Int) :
    OptimalCache.init (α := α) cfg env records = .error .recordsAllocation := by
  have hn : ¬ (0 ≤ env.optWindowSize - 0 ∧ env.optWindowSize - 0 + 1 < 2 ^ 31) := by omega
  unfold OptimalCache.init windowFill readNextNRecords
  rw [if_neg (by exact Bool.false_ne_true), require, if_neg hn]
  rfl

/-- Twice a full window wraps, so the refill asks for no records, and reads what it did not set. -/
theorem refill_of_full (hwindow : env.WindowSized) (hbig : 2 ^ 30 ≤ env.optWindowSize)
    (h : WindowInv env n s window future) (hfull : (window.length : Int) = env.optWindowSize)
    (hmore : s.records ≠ []) : s.refill env = .error .recordsUninitialised := by
  have hlt := hwindow.lt
  have hwrap : toInt32 (env.optWindowSize * 2) = env.optWindowSize * 2 - 2 ^ 32 := by
    obtain ⟨x, hx⟩ : ∃ x : Int, env.optWindowSize * 2 = x + (2 ^ 32 : Nat) :=
      ⟨env.optWindowSize * 2 - 2 ^ 32, by omega⟩
    have hback : toInt32 (x + (2 ^ 32 : Nat)) = toInt32 x := Int.add_bmod_right x (2 ^ 32)
    rw [hx, hback, toInt32_eq (by omega) (by omega)]
    omega
  have hend : ¬ s.recordsEnd = true := fun hend => hmore (h.recordsEnd.mp hend)
  have hnone : env.optWindowSize - env.optWindowSize = 0 := Int.sub_self _
  unfold refill windowFill readNextNRecords
  rw [h.buffered, hfull, hwrap, if_pos (by omega), if_neg hend, hnone]
  rfl

end Slide

end OptimalCache

end Destor
