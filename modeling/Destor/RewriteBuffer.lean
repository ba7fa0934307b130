/- digest: The rewrite buffer: pending chunks in order, beside one record for each container that
   holds some of them. -/

import Mathlib.Data.List.Pairwise
import Destor.Library.SortedSeq
import Destor.Storage.Containerstore

set_option autoImplicit false
set_option relaxedAutoImplicit false

namespace Destor

open Library.Outcome Library.SortedSeq

structure ContainerRecord where
  cid : Int
  size : Int
  outOfOrder : Bool
deriving DecidableEq, Repr

def gRecordDescmpByLength (a b : ContainerRecord) : Int := toInt32 (b.size - a.size)

def gRecordCmpById (a b : ContainerRecord) : Int := toInt32 (a.cid - b.cid)

structure RewriteBuffer where
  chunkQueue : List Chunk
  containerRecordSeq : List ContainerRecord
  num : Int
  size : Int
deriving DecidableEq

def initRewriteBuffer : RewriteBuffer :=
  { chunkQueue := [], containerRecordSeq := [], num := 0, size := 0 }

namespace Chunk

/-- A file or segment boundary, which the rewrite algorithms only pass on. -/
def isSignal (c : Chunk) : Bool :=
  c.flag.fileStart || c.flag.fileEnd || c.flag.segmentStart || c.flag.segmentEnd

def segmentStart : Chunk := { newChunk 0 with flag := { segmentStart := true } }

def segmentEnd : Chunk := { newChunk 0 with flag := { segmentEnd := true } }

end Chunk

/-- `send_segment`: the chunks between the signals from which the filter phase rebuilds the
segment. -/
def sendSegment (chunks : List Chunk) : List Chunk :=
  Chunk.segmentStart :: chunks ++ [Chunk.segmentEnd]

def storedChunk (id : Int) (size : Nat) : Chunk :=
  { newChunk size with id := id, flag := { duplicate := true } }

/-- Whether `g_sequence_lookup` stops at a record when it looks for a container. -/
def matchesRecord (cid : Int) (r : ContainerRecord) : Bool :=
  gRecordCmpById r { cid := cid, size := 0, outOfOrder := false } == 0

/-- `g_sequence_lookup` by container id. -/
def lookupRecord (seq : List ContainerRecord) (cid : Int) : Option ContainerRecord :=
  seq.find? (matchesRecord cid)

/-- Changes the record that `lookupRecord` finds, or removes it. -/
def updateRecord (cid : Int) (f : ContainerRecord → Option ContainerRecord) :
    List ContainerRecord → List ContainerRecord
  | [] => []
  | r :: seq =>
      if matchesRecord cid r then (f r).toList ++ seq else r :: updateRecord cid f seq

/-- The order in which `g_sequence_insert_sorted` places the records. -/
def recordAfter (a b : ContainerRecord) : Bool := 0 < gRecordCmpById a b

/-- `rewrite_buffer_push`, the part about the record of the container. A new record is first
assumed to be out of order. -/
def pushRecord (seq : List ContainerRecord) (c : Chunk) : Except Abort (List ContainerRecord) :=
  if c.id = temporaryId then .ok seq
  else do
    require (c.flag.duplicate = true) .rewriteNotDuplicate
    match lookupRecord seq c.id with
    | none =>
        return insertSorted recordAfter
          { cid := c.id, size := toInt32 c.size, outOfOrder := true } seq
    | some r =>
        require (r.cid = c.id) .recordOfAnotherContainer
        return updateRecord c.id (fun r => some { r with size := toInt32 (r.size + c.size) }) seq

/-- `rewrite_buffer_push`: appends a chunk and tells whether the buffer is full, `n` being
`rewrite_algorithm[1]`. -/
def rewriteBufferPush (n : Nat) (b : RewriteBuffer) (c : Chunk) :
    Except Abort (Bool × RewriteBuffer) :=
  if c.isSignal then .ok (false, { b with chunkQueue := b.chunkQueue ++ [c] })
  else do
    let seq ← pushRecord b.containerRecordSeq c
    let full : Bool := (n : Int) ≤ b.num + 1
    require (full = true → b.num + 1 = n) .rewriteBufferOverfull
    return (full,
      { chunkQueue := b.chunkQueue ++ [c], containerRecordSeq := seq, num := b.num + 1,
        size := toInt32 (b.size + c.size) })

def rewriteBufferTop (b : RewriteBuffer) : Option Chunk := b.chunkQueue.head?

/-- `rewrite_buffer_pop`, the part about the record of the container. -/
def popRecord (seq : List ContainerRecord) (c : Chunk) : Except Abort (List ContainerRecord) :=
  match lookupRecord seq c.id with
  | none => .error .recordMissing
  | some _ =>
      .ok (updateRecord c.id (fun r =>
        if toInt32 (r.size - c.size) = 0 then none
        else some { r with size := toInt32 (r.size - c.size) }) seq)

/-- `har_check`: marks a duplicate chunk whose container the last backup found sparse. -/
def harCheck (inheritedSparseContainers : IdMap Int) (c : Chunk) : Chunk :=
  if !c.flag.fileStart && !c.flag.fileEnd && c.flag.duplicate
      && (inheritedSparseContainers.lookup c.id).isSome then
    { c with flag := { c.flag with sparse := true } }
  else c

/-- The guarded call of `har_check`: `destor.rewrite_enable_har && CHECK_CHUNK(c, CHUNK_DUPLICATE)`.
`har` holds the inherited sparse containers where history-aware rewriting is enabled. -/
def applyHar (har : Option (IdMap Int)) (c : Chunk) : Chunk :=
  match har with
  | some inherited => if c.flag.duplicate then harCheck inherited c else c
  | none => c

def rewriteBufferPop (har : Option (IdMap Int)) (b : RewriteBuffer) :
    Except Abort (Option Chunk × RewriteBuffer) :=
  match b.chunkQueue with
  | [] => .ok (none, b)
  | c :: queue =>
      if c.isSignal then .ok (some c, { b with chunkQueue := queue })
      else if c.flag.duplicate = true ∧ c.id ≠ temporaryId then do
        let seq ← popRecord b.containerRecordSeq c
        return (some (applyHar har c),
          { chunkQueue := queue, containerRecordSeq := seq, num := b.num - 1,
            size := toInt32 (b.size - c.size) })
      else
        .ok (some c,
          { b with chunkQueue := queue, num := b.num - 1, size := toInt32 (b.size - c.size) })

section Marks

def Chunk.OnlyMarked (c c' : Chunk) : Prop :=
  ∃ sparse outOfOrder,
    c' = { c with flag := { c.flag with sparse := sparse, outOfOrder := outOfOrder } }

variable {c c' c'' : Chunk}

theorem Chunk.OnlyMarked.refl (c : Chunk) : c.OnlyMarked c := ⟨c.flag.sparse, c.flag.outOfOrder, rfl⟩

theorem Chunk.OnlyMarked.trans (h : c.OnlyMarked c') (h' : c'.OnlyMarked c'') :
    c.OnlyMarked c'' := by
  obtain ⟨s, o, rfl⟩ := h
  obtain ⟨s', o', rfl⟩ := h'
  exact ⟨s', o', rfl⟩

theorem Chunk.OnlyMarked.signal_eq (h : c.OnlyMarked c') : c'.isSignal = c.isSignal := by
  obtain ⟨s, o, rfl⟩ := h
  rfl

theorem Chunk.OnlyMarked.isNormal_eq (h : c.OnlyMarked c') : c'.isNormal = c.isNormal := by
  obtain ⟨s, o, rfl⟩ := h
  rfl

theorem Chunk.OnlyMarked.id_eq (h : c.OnlyMarked c') : c'.id = c.id := by
  obtain ⟨s, o, rfl⟩ := h
  rfl

theorem Chunk.OnlyMarked.size_eq (h : c.OnlyMarked c') : c'.size = c.size := by
  obtain ⟨s, o, rfl⟩ := h
  rfl

theorem Chunk.OnlyMarked.duplicate_eq (h : c.OnlyMarked c') :
    c'.flag.duplicate = c.flag.duplicate := by
  obtain ⟨s, o, rfl⟩ := h
  rfl

/-- The mark that a rewriting algorithm sets. -/
def markOutOfOrder (c : Chunk) : Chunk := { c with flag := { c.flag with outOfOrder := true } }

theorem markOutOfOrder_onlyMarked (c : Chunk) : c.OnlyMarked (markOutOfOrder c) :=
  ⟨c.flag.sparse, true, rfl⟩

theorem harCheck_onlyMarked (inherited : IdMap Int) (c : Chunk) :
    c.OnlyMarked (harCheck inherited c) := by
  unfold harCheck
  split
  · exact ⟨true, c.flag.outOfOrder, rfl⟩
  · exact .refl c

theorem applyHar_onlyMarked (har : Option (IdMap Int)) (c : Chunk) :
    c.OnlyMarked (applyHar har c) := by
  unfold applyHar
  split
  · split
    · exact harCheck_onlyMarked _ c
    · exact .refl c
  · exact .refl c

end Marks

section Bytes

def bufferedNum (queue : List Chunk) : Nat := queue.countP fun c => !c.isSignal

def bufferedBytes (queue : List Chunk) : Nat :=
  ((queue.filter fun c => !c.isSignal).map Chunk.size).sum

def bytesIn (cid : Int) (queue : List Chunk) : Nat :=
  ((queue.filter fun c => !c.isSignal && c.id != temporaryId && c.id == cid).map Chunk.size).sum

/-- What the rewrite phase may receive: a signal, or a chunk with content whose container is either
not known yet or has an id for which the differences that compare records fit in an `int`. -/
inductive Chunk.Judgeable (c : Chunk) : Prop
  | signal (hsignal : c.isSignal = true)
  | pending (hsignal : c.isSignal = false) (hsize : 0 < c.size) (hid : c.id = temporaryId)
  | stored (hsignal : c.isSignal = false) (hsize : 0 < c.size)
      (hdup : c.flag.duplicate = true) (hnonneg : 0 ≤ c.id) (hlt : c.id < 2 ^ 31)

theorem Chunk.Judgeable.onlyMarked {c c' : Chunk} (h : c.Judgeable) (hm : c.OnlyMarked c') :
    c'.Judgeable := by
  obtain ⟨s, o, rfl⟩ := hm
  cases h with
  | signal hsignal => exact .signal hsignal
  | pending hsignal hsize hid => exact .pending hsignal hsize hid
  | stored hsignal hsize hdup hnonneg hlt => exact .stored hsignal hsize hdup hnonneg hlt

variable {cid : Int} {c c' : Chunk} {queue queue' : List Chunk}

@[simp] theorem bufferedNum_nil : bufferedNum [] = 0 := rfl

@[simp] theorem bufferedBytes_nil : bufferedBytes [] = 0 := rfl

@[simp] theorem bytesIn_nil : bytesIn cid [] = 0 := rfl

theorem bufferedNum_append : bufferedNum (queue ++ queue') = bufferedNum queue + bufferedNum queue' :=
  List.countP_append

theorem bufferedBytes_append :
    bufferedBytes (queue ++ queue') = bufferedBytes queue + bufferedBytes queue' := by
  simp [bufferedBytes]

theorem bytesIn_append : bytesIn cid (queue ++ queue') = bytesIn cid queue + bytesIn cid queue' := by
  simp [bytesIn]

theorem bufferedNum_cons :
    bufferedNum (c :: queue) = (if c.isSignal then 0 else 1) + bufferedNum queue := by
  cases h : c.isSignal <;> simp [bufferedNum, h, Nat.add_comm]

theorem bufferedBytes_cons :
    bufferedBytes (c :: queue) = (if c.isSignal then 0 else c.size) + bufferedBytes queue := by
  cases h : c.isSignal <;> simp [bufferedBytes, h]

theorem bytesIn_cons :
    bytesIn cid (c :: queue) =
      (if c.isSignal = false ∧ c.id ≠ temporaryId ∧ c.id = cid then c.size else 0) +
        bytesIn cid queue := by
  unfold bytesIn
  by_cases h : c.isSignal = false ∧ c.id ≠ temporaryId ∧ c.id = cid
  · obtain ⟨hsignal, hid, rfl⟩ := h
    rw [if_pos ⟨hsignal, hid, rfl⟩, List.filter_cons_of_pos (by simp [hsignal, hid]),
      List.map_cons, List.sum_cons]
  · rw [if_neg h, List.filter_cons_of_neg (by simpa [and_assoc] using h), Nat.zero_add]

/-- A container's bytes are among all bytes. -/
theorem bytesIn_le_bufferedBytes : bytesIn cid queue ≤ bufferedBytes queue := by
  induction queue with
  | nil => exact Nat.le_refl 0
  | cons c queue ih =>
      rw [bytesIn_cons, bufferedBytes_cons]
      cases c.isSignal
      · split <;> simp <;> omega
      · simpa using ih

/-- Some chunk brings the bytes of a container. -/
theorem exists_of_bytesIn_pos (h : 0 < bytesIn cid queue) :
    ∃ c ∈ queue, c.isSignal = false ∧ c.id ≠ temporaryId ∧ c.id = cid := by
  induction queue with
  | nil => exact absurd h (Nat.lt_irrefl 0)
  | cons c queue ih =>
      rw [bytesIn_cons] at h
      by_cases hc : c.isSignal = false ∧ c.id ≠ temporaryId ∧ c.id = cid
      · exact ⟨c, List.mem_cons_self, hc⟩
      · rw [if_neg hc, Nat.zero_add] at h
        obtain ⟨c', hmem, hc'⟩ := ih h
        exact ⟨c', List.mem_cons_of_mem c hmem, hc'⟩

/-- Containers with bytes in the queue have ids that an `int` can compare. -/
theorem range_of_bytesIn_pos (hq : ∀ c ∈ queue, c.Judgeable) (h : 0 < bytesIn cid queue) :
    0 ≤ cid ∧ cid < 2 ^ 31 := by
  obtain ⟨c, hmem, hsignal, hid, rfl⟩ := exists_of_bytesIn_pos h
  cases hq c hmem with
  | signal h => exact absurd h (by simp [hsignal])
  | pending _ _ h => exact absurd h hid
  | stored _ _ _ hnonneg hlt => exact ⟨hnonneg, hlt⟩

/-- Marking the first chunk of a queue changes no sum. -/
theorem Chunk.OnlyMarked.cons_eq (h : c.OnlyMarked c') (queue : List Chunk) :
    bufferedNum (c' :: queue) = bufferedNum (c :: queue) ∧
      bufferedBytes (c' :: queue) = bufferedBytes (c :: queue) ∧
      ∀ cid, bytesIn cid (c' :: queue) = bytesIn cid (c :: queue) := by
  refine ⟨?_, ?_, fun cid => ?_⟩
  · rw [bufferedNum_cons, bufferedNum_cons, h.signal_eq]
  · rw [bufferedBytes_cons, bufferedBytes_cons, h.signal_eq, h.size_eq]
  · rw [bytesIn_cons, bytesIn_cons, h.signal_eq, h.id_eq, h.size_eq]

end Bytes

section Records

variable {cid : Int} {r r' : ContainerRecord} {seq : List ContainerRecord}
  {f : ContainerRecord → Option ContainerRecord}

/-- Ids whose differences fit in an `int`. -/
def InRange (cid : Int) : Prop := 0 ≤ cid ∧ cid < 2 ^ 31

theorem gRecordCmpById_eq (h : InRange r.cid) (h' : InRange r'.cid) :
    gRecordCmpById r r' = r.cid - r'.cid := by
  obtain ⟨hr, hr'⟩ := And.intro h h'
  unfold InRange at hr hr'
  exact toInt32_eq (by omega) (by omega)

theorem matchesRecord_iff (hcid : InRange cid) (h : InRange r.cid) :
    matchesRecord cid r = true ↔ r.cid = cid := by
  unfold matchesRecord
  rw [gRecordCmpById_eq h hcid, beq_iff_eq]
  exact Int.sub_eq_zero

theorem recordAfter_iff (h : InRange r.cid) (h' : InRange r'.cid) :
    recordAfter r r' = true ↔ r'.cid < r.cid := by
  unfold recordAfter
  rw [gRecordCmpById_eq h h', decide_eq_true_iff]
  exact Int.sub_pos

/-- The records of a buffer: in range, and strictly in the order of their ids. -/
structure RecordsSorted (seq : List ContainerRecord) : Prop where
  inRange : ∀ r ∈ seq, InRange r.cid
  sorted : seq.Pairwise fun a b => a.cid < b.cid

theorem RecordsSorted.tail (h : RecordsSorted (r :: seq)) : RecordsSorted seq :=
  ⟨fun r' hr' => h.inRange r' (List.mem_cons_of_mem r hr'), (List.pairwise_cons.mp h.sorted).2⟩

/-- Two records of one container are the same. -/
theorem RecordsSorted.eq_of_cid (h : RecordsSorted seq) (hr : r ∈ seq) (hr' : r' ∈ seq)
    (hcid : r.cid = r'.cid) : r = r' := by
  induction seq with
  | nil => exact absurd hr List.not_mem_nil
  | cons a seq ih =>
      have hlt := (List.pairwise_cons.mp h.sorted).1
      rcases List.mem_cons.mp hr with heq | hmem <;> rcases List.mem_cons.mp hr' with heq' | hmem'
      · exact heq.trans heq'.symm
      · exact absurd (heq ▸ hcid) (Int.ne_of_lt (hlt r' hmem'))
      · exact absurd (heq' ▸ hcid).symm (Int.ne_of_lt (hlt r hmem))
      · exact ih h.tail hmem hmem'

theorem lookupRecord_none_iff (h : RecordsSorted seq) (hcid : InRange cid) :
    lookupRecord seq cid = none ↔ ∀ r ∈ seq, r.cid ≠ cid := by
  unfold lookupRecord
  rw [List.find?_eq_none]
  exact forall₂_congr fun r hr => not_congr (matchesRecord_iff hcid (h.inRange r hr))

theorem lookupRecord_some (h : RecordsSorted seq) (hcid : InRange cid)
    (hr : lookupRecord seq cid = some r) : r ∈ seq ∧ r.cid = cid := by
  have hmem := List.mem_of_find?_eq_some hr
  exact ⟨hmem, (matchesRecord_iff hcid (h.inRange r hmem)).mp (List.find?_some hr)⟩

/-- A lookup finds the record of a container that has one. -/
theorem lookupRecord_eq_some (h : RecordsSorted seq) (hr : r ∈ seq) :
    lookupRecord seq r.cid = some r := by
  cases hfound : lookupRecord seq r.cid with
  | none => exact absurd rfl ((lookupRecord_none_iff h (h.inRange r hr)).mp hfound r hr)
  | some r' =>
      obtain ⟨hmem, hcid⟩ := lookupRecord_some h (h.inRange r hr) hfound
      rw [h.eq_of_cid hmem hr hcid]

/-- An update concerns the record of one container, and no other, if it is found by its id. -/
theorem mem_updateRecord_of_nodup (hmatch : ∀ r ∈ seq, matchesRecord cid r = true ↔ r.cid = cid)
    (hnodup : (seq.map ContainerRecord.cid).Nodup) :
    r ∈ updateRecord cid f seq ↔
      (r ∈ seq ∧ r.cid ≠ cid) ∨ ∃ r' ∈ seq, r'.cid = cid ∧ f r' = some r := by
  induction seq with
  | nil => simp [updateRecord]
  | cons a seq ih =>
      obtain ⟨hnew, hrest⟩ := List.nodup_cons.mp hnodup
      have hmatchRest := fun r' hr' => hmatch r' (List.mem_cons_of_mem a hr')
      unfold updateRecord
      split
      · rename_i hfound
        have ha := (hmatch a List.mem_cons_self).mp hfound
        have hother : ∀ r' ∈ seq, r'.cid ≠ cid := fun r' hr' hcid =>
          hnew (ha ▸ hcid ▸ List.mem_map_of_mem hr')
        rw [List.mem_append, Option.mem_toList, List.exists_mem_cons_iff, List.mem_cons]
        constructor
        · rintro (hf | hr)
          · exact Or.inr (Or.inl ⟨ha, hf⟩)
          · exact Or.inl ⟨Or.inr hr, hother r hr⟩
        · rintro (⟨rfl | hr, hne⟩ | ⟨-, hf⟩ | ⟨r', hr', hcid', -⟩)
          · exact absurd ha hne
          · exact Or.inr hr
          · exact Or.inl hf
          · exact absurd hcid' (hother r' hr')
      · rename_i hfound
        have ha : a.cid ≠ cid := fun hcid' => hfound ((hmatch a List.mem_cons_self).mpr hcid')
        rw [List.mem_cons, ih hmatchRest hrest, List.exists_mem_cons_iff, List.mem_cons]
        constructor
        · rintro (rfl | ⟨hr, hne⟩ | hf)
          · exact Or.inl ⟨Or.inl rfl, ha⟩
          · exact Or.inl ⟨Or.inr hr, hne⟩
          · exact Or.inr (Or.inr hf)
        · rintro (⟨rfl | hr, hne⟩ | ⟨hcid', -⟩ | hf)
          · exact Or.inl rfl
          · exact Or.inr (Or.inl ⟨hr, hne⟩)
          · exact absurd hcid' ha
          · exact Or.inr (Or.inr hf)

theorem RecordsSorted.nodup (h : RecordsSorted seq) : (seq.map ContainerRecord.cid).Nodup :=
  List.pairwise_map.mpr (h.sorted.imp fun hlt => Int.ne_of_lt hlt)

theorem mem_updateRecord (h : RecordsSorted seq) (hcid : InRange cid) :
    r ∈ updateRecord cid f seq ↔
      (r ∈ seq ∧ r.cid ≠ cid) ∨ ∃ r' ∈ seq, r'.cid = cid ∧ f r' = some r :=
  mem_updateRecord_of_nodup (fun r hr => matchesRecord_iff hcid (h.inRange r hr)) h.nodup

/-- An update may remove a container, and brings none. -/
theorem updateRecord_sublist (hf : ∀ r r', f r = some r' → r'.cid = r.cid) :
    ((updateRecord cid f seq).map ContainerRecord.cid).Sublist (seq.map ContainerRecord.cid) := by
  induction seq with
  | nil => exact List.Sublist.refl _
  | cons a seq ih =>
      unfold updateRecord
      split
      · cases hfa : f a with
        | none => exact List.sublist_cons_self _ _
        | some r =>
            have hcid := hf a r hfa
            rw [Option.toList_some, List.singleton_append, List.map_cons, List.map_cons, hcid]
      · exact ih.cons_cons a.cid

/-- An update that keeps the container of a record keeps the order. -/
theorem RecordsSorted.updateRecord (h : RecordsSorted seq) (hcid : InRange cid)
    (hf : ∀ r r', f r = some r' → r'.cid = r.cid) : RecordsSorted (updateRecord cid f seq) := by
  have hmem : ∀ seq, RecordsSorted seq → ∀ r ∈ Destor.updateRecord cid f seq,
      ∃ r' ∈ seq, r'.cid = r.cid := by
    intro seq h r hr
    rcases (mem_updateRecord h hcid).mp hr with ⟨hr, -⟩ | ⟨r', hr', -, hf'⟩
    · exact ⟨r, hr, rfl⟩
    · exact ⟨r', hr', (hf r' r hf').symm⟩
  refine ⟨fun r hr => ?_, ?_⟩
  · obtain ⟨r', hr', heq⟩ := hmem seq h r hr
    exact heq ▸ h.inRange r' hr'
  · induction seq with
    | nil => exact List.Pairwise.nil
    | cons a seq ih =>
        have hlt := (List.pairwise_cons.mp h.sorted).1
        unfold Destor.updateRecord
        split
        · cases hfa : f a with
          | none => exact h.tail.sorted
          | some r =>
              have hra := hf a r hfa
              exact List.pairwise_cons.mpr ⟨fun b hb => hra ▸ hlt b hb, h.tail.sorted⟩
        · refine List.pairwise_cons.mpr ⟨fun b hb => ?_, ih h.tail⟩
          obtain ⟨r', hr', heq⟩ := hmem seq h.tail b hb
          exact heq ▸ hlt r' hr'

/-- A new record is placed where its container belongs. -/
theorem RecordsSorted.insert (h : RecordsSorted seq) (hr : InRange r.cid)
    (hnew : ∀ r' ∈ seq, r'.cid ≠ r.cid) : RecordsSorted (insertSorted recordAfter r seq) := by
  refine ⟨fun r' hr' => ?_, ?_⟩
  · rcases (mem_insertSorted recordAfter).mp hr' with rfl | hr'
    · exact hr
    · exact h.inRange r' hr'
  · apply insertSorted_pairwise
    · intro a b c hab hbc
      exact Int.lt_trans hab hbc
    · intro a ha hafter
      exact (recordAfter_iff (h.inRange a ha) hr).mp hafter
    · intro a ha hafter
      have hnot : ¬ r.cid < a.cid := fun hlt =>
        Bool.false_ne_true (hafter.symm.trans ((recordAfter_iff (h.inRange a ha) hr).mpr hlt))
      have hne := hnew a ha
      show a.cid < r.cid
      omega
    · exact h.sorted

/-- A pass that sorts the records otherwise, followed by one that sorts them by id again, changes
nothing. -/
theorem RecordsSorted.sort_eq (h : RecordsSorted seq) {seq' : List ContainerRecord}
    (hperm : seq'.Perm seq) : sort recordAfter seq' = seq := by
  have hle : seq.Pairwise fun a b => a.cid ≤ b.cid := h.sorted.imp Int.le_of_lt
  refine sort_eq_of_perm ?_ ?_ ?_ ?_ hle hperm
  · intro a b c hab hbc
    exact Int.le_trans hab hbc
  · intro a ha b hb hafter
    exact Int.le_of_lt ((recordAfter_iff (h.inRange a ha) (h.inRange b hb)).mp hafter)
  · intro a ha b hb hafter
    apply Int.not_lt.mp
    intro hlt
    exact Bool.false_ne_true
      (hafter.symm.trans ((recordAfter_iff (h.inRange a ha) (h.inRange b hb)).mpr hlt))
  · intro a ha b hb hab hba
    exact h.eq_of_cid ha hb (Int.le_antisymm hab hba)

structure RecordsOf (seq : List ContainerRecord) (bytes : Int → Nat) : Prop
    extends RecordsSorted seq where
  exact : ∀ r ∈ seq, r.size = bytes r.cid
  covered : ∀ cid, (∃ r ∈ seq, r.cid = cid) ↔ 0 < bytes cid

variable {bytes bytes' : Int → Nat}

/-- A container gets its first bytes. -/
theorem RecordsOf.insert (h : RecordsOf seq bytes) (hcid : InRange cid) (hzero : bytes cid = 0)
    (hothers : ∀ i, i ≠ cid → bytes' i = bytes i) {size : Int} (hsize : size = bytes' cid)
    (hpos : 0 < bytes' cid) {outOfOrder : Bool} :
    RecordsOf (insertSorted recordAfter { cid := cid, size := size, outOfOrder := outOfOrder } seq)
      bytes' := by
  have hmem := fun r => mem_insertSorted recordAfter (y := r) (l := seq)
    (x := { cid := cid, size := size, outOfOrder := outOfOrder })
  have hnew : ∀ r ∈ seq, r.cid ≠ cid := by
    intro r hr heq
    have hpos' := (h.covered r.cid).mp ⟨r, hr, rfl⟩
    rw [heq, hzero] at hpos'
    exact absurd hpos' (Nat.lt_irrefl 0)
  refine ⟨h.toRecordsSorted.insert hcid hnew, fun r hr => ?_, fun i => ?_⟩
  · rcases (hmem r).mp hr with rfl | hr
    · exact hsize
    · rw [hothers r.cid (hnew r hr)]
      exact h.exact r hr
  · by_cases hi : i = cid
    · subst hi
      exact iff_of_true ⟨_, (hmem _).mpr (Or.inl rfl), rfl⟩ hpos
    · rw [hothers i hi, ← h.covered i]
      constructor
      · rintro ⟨r, hr, rfl⟩
        rcases (hmem r).mp hr with rfl | hr
        · exact absurd rfl hi
        · exact ⟨r, hr, rfl⟩
      · rintro ⟨r, hr, rfl⟩
        exact ⟨r, (hmem r).mpr (Or.inr hr), rfl⟩

/-- The bytes of a container that has a record change; with the last of them the record goes. -/
theorem RecordsOf.update (h : RecordsOf seq bytes) (hcid : InRange cid)
    (hothers : ∀ i, i ≠ cid → bytes' i = bytes i)
    (hkeep : ∀ r r', f r = some r' → r'.cid = r.cid)
    (hf : ∀ r ∈ seq, r.cid = cid →
      (f r = none ∧ bytes' cid = 0) ∨ ∃ r', f r = some r' ∧ r'.size = bytes' cid ∧ 0 < bytes' cid)
    (hfound : ∃ r ∈ seq, r.cid = cid) : RecordsOf (updateRecord cid f seq) bytes' := by
  have hmem := fun r => mem_updateRecord (r := r) (f := f) h.toRecordsSorted hcid
  refine ⟨h.toRecordsSorted.updateRecord hcid hkeep, fun r hr => ?_, fun i => ?_⟩
  · rcases (hmem r).mp hr with ⟨hr, hne⟩ | ⟨r', hr', hcid', heq⟩
    · rw [hothers r.cid hne]
      exact h.exact r hr
    · rw [hkeep r' r heq, hcid']
      rcases hf r' hr' hcid' with ⟨hnone, -⟩ | ⟨r'', hsome, hsize, -⟩
      · exact absurd (heq.symm.trans hnone) (by simp)
      · rw [Option.some.inj (heq.symm.trans hsome)]
        exact hsize
  · by_cases hi : i = cid
    · subst hi
      obtain ⟨r, hr, hcid'⟩ := hfound
      rcases hf r hr hcid' with ⟨hnone, hzero⟩ | ⟨r', hsome, -, hpos⟩
      · refine iff_of_false ?_ (by omega)
        rintro ⟨r', hr', hi⟩
        rcases (hmem r').mp hr' with ⟨-, hne⟩ | ⟨r'', hr'', hcid'', heq⟩
        · exact hne hi
        · rw [h.eq_of_cid hr'' hr (hcid''.trans hcid'.symm), hnone] at heq
          exact absurd heq (by simp)
      · refine iff_of_true ⟨r', (hmem r').mpr (Or.inr ⟨r, hr, hcid', hsome⟩), ?_⟩ hpos
        rw [hkeep r r' hsome, hcid']
    · rw [hothers i hi, ← h.covered i]
      constructor
      · rintro ⟨r, hr, rfl⟩
        rcases (hmem r).mp hr with ⟨hr, -⟩ | ⟨r', hr', hcid', heq⟩
        · exact ⟨r, hr, rfl⟩
        · exact absurd ((hkeep r' r heq).trans hcid') hi
      · rintro ⟨r, hr, rfl⟩
        exact ⟨r, (hmem r).mpr (Or.inl ⟨hr, hi⟩), rfl⟩

/-- A change that no comparison and no sum sees. -/
theorem RecordsOf.updateOutOfOrder (h : RecordsOf seq bytes) (hcid : InRange cid)
    (hfound : ∃ r ∈ seq, r.cid = cid) :
    RecordsOf (updateRecord cid (fun r => some { r with outOfOrder := false }) seq) bytes := by
  apply h.update hcid (fun i _ => rfl)
  · rintro r r' hr'
    cases hr'
    rfl
  · intro r hr hcid'
    refine Or.inr ⟨_, rfl, ?_, (h.covered cid).mp hfound⟩
    rw [← hcid']
    exact h.exact r hr
  · exact hfound

end Records

/-- The buffer agrees with the chunks in its queue: the counters are exact, and the records are
those of the containers that hold some of them. -/
structure RewriteBuffer.Consistent (b : RewriteBuffer) : Prop where
  chunks : ∀ c ∈ b.chunkQueue, c.Judgeable
  fits : bufferedBytes b.chunkQueue < 2 ^ 31
  num : b.num = bufferedNum b.chunkQueue
  size : b.size = bufferedBytes b.chunkQueue
  records : RecordsOf b.containerRecordSeq fun cid => bytesIn cid b.chunkQueue

section Operations

variable {b : RewriteBuffer} {c : Chunk} {queue : List Chunk}

theorem initRewriteBuffer_consistent : initRewriteBuffer.Consistent :=
  { chunks := by simp [initRewriteBuffer]
    fits := by decide
    num := rfl
    size := rfl
    records := ⟨⟨by simp [initRewriteBuffer], List.Pairwise.nil⟩, by simp [initRewriteBuffer],
      by simp [initRewriteBuffer]⟩ }

theorem RewriteBuffer.eq_init (hqueue : b.chunkQueue = []) (hseq : b.containerRecordSeq = [])
    (hnum : b.num = 0) (hsize : b.size = 0) : b = initRewriteBuffer := by
  obtain ⟨queue, seq, num, size⟩ := b
  cases hqueue
  cases hseq
  cases hnum
  cases hsize
  rfl

theorem RewriteBuffer.Consistent.eq_init (hb : b.Consistent) (hnil : b.chunkQueue = []) :
    b = initRewriteBuffer := by
  have hseq : b.containerRecordSeq = [] := by
    apply List.eq_nil_iff_forall_not_mem.mpr
    intro r hr
    have hpos := (hb.records.covered r.cid).mp ⟨r, hr, rfl⟩
    rw [hnil] at hpos
    exact absurd hpos (Nat.lt_irrefl 0)
  have hnum : b.num = 0 := by rw [hb.num, hnil]; rfl
  have hsize : b.size = 0 := by rw [hb.size, hnil]; rfl
  exact RewriteBuffer.eq_init hnil hseq hnum hsize

/-- The record of the container of a stored chunk takes its size. -/
theorem pushRecord_spec (hb : b.Consistent) (hc : c.Judgeable) (hsignal : c.isSignal = false)
    (hfits : bufferedBytes (b.chunkQueue ++ [c]) < 2 ^ 31) :
    ∃ seq, pushRecord b.containerRecordSeq c = .ok seq ∧
      RecordsOf seq fun cid => bytesIn cid (b.chunkQueue ++ [c]) := by
  have hbytes : ∀ cid, bytesIn cid (b.chunkQueue ++ [c]) = bytesIn cid b.chunkQueue +
      if c.id ≠ temporaryId ∧ c.id = cid then c.size else 0 := by
    intro cid
    rw [bytesIn_append, bytesIn_cons]
    simp [hsignal]
  cases hc with
  | signal h => exact absurd h (by simp [hsignal])
  | pending _ hsize hid =>
      have hsame : (fun cid => bytesIn cid (b.chunkQueue ++ [c])) =
          fun cid => bytesIn cid b.chunkQueue := by
        ext cid
        rw [hbytes, if_neg (fun h => h.1 hid), Nat.add_zero]
      exact ⟨b.containerRecordSeq, if_pos hid, hsame ▸ hb.records⟩
  | stored _ hsize hdup hnonneg hlt =>
      have hid : c.id ≠ temporaryId := ne_temporaryId_of_nonneg hnonneg
      have hrange : InRange c.id := ⟨hnonneg, hlt⟩
      have hle : bytesIn c.id (b.chunkQueue ++ [c]) < 2 ^ 31 :=
        Nat.lt_of_le_of_lt bytesIn_le_bufferedBytes hfits
      have hown : bytesIn c.id (b.chunkQueue ++ [c]) = bytesIn c.id b.chunkQueue + c.size := by
        rw [hbytes, if_pos ⟨hid, rfl⟩]
      have hothers : ∀ cid, cid ≠ c.id →
          bytesIn cid (b.chunkQueue ++ [c]) = bytesIn cid b.chunkQueue := by
        intro cid hne
        rw [hbytes, if_neg (fun h => hne h.2.symm), Nat.add_zero]
      have hrequire : require (c.flag.duplicate = true) Abort.rewriteNotDuplicate = .ok () :=
        require_of hdup
      unfold pushRecord
      rw [if_neg hid, hrequire]
      cases hfound : lookupRecord b.containerRecordSeq c.id with
      | none =>
          have hnew := (lookupRecord_none_iff hb.records.toRecordsSorted hrange).mp hfound
          have hzero : bytesIn c.id b.chunkQueue = 0 := by
            apply Nat.eq_zero_of_not_pos
            intro hpos
            obtain ⟨r, hr, hcid⟩ := (hb.records.covered c.id).mpr hpos
            exact hnew r hr hcid
          have hvalue : toInt32 c.size = bytesIn c.id (b.chunkQueue ++ [c]) := by
            rw [toInt32_eq (by omega) (by omega)]
            omega
          have hpos : 0 < bytesIn c.id (b.chunkQueue ++ [c]) := by omega
          exact ⟨_, rfl, hb.records.insert hrange hzero hothers hvalue hpos⟩
      | some r₀ =>
          obtain ⟨hr₀, hcid₀⟩ := lookupRecord_some hb.records.toRecordsSorted hrange hfound
          have hrequire : require (r₀.cid = c.id) Abort.recordOfAnotherContainer = .ok () :=
            require_of hcid₀
          simp only [hrequire]
          refine ⟨_, rfl, hb.records.update hrange hothers ?_ ?_ ⟨r₀, hr₀, hcid₀⟩⟩
          · intro r r' hr'
            cases hr'
            rfl
          · intro r hr hcid
            have hsize' := hb.records.exact r hr
            rw [hcid] at hsize'
            have hvalue : toInt32 (r.size + c.size) = bytesIn c.id (b.chunkQueue ++ [c]) := by
              rw [toInt32_eq (by omega) (by omega)]
              omega
            have hpos : 0 < bytesIn c.id (b.chunkQueue ++ [c]) := by omega
            exact Or.inr ⟨_, rfl, hvalue, hpos⟩

/-- Pushing below the limit appends the chunk and reports whether the limit is reached. -/
theorem rewriteBufferPush_spec {n : Nat} (hb : b.Consistent) (hc : c.Judgeable)
    (hfits : bufferedBytes (b.chunkQueue ++ [c]) < 2 ^ 31) (hroom : b.num < n) :
    ∃ full b', rewriteBufferPush n b c = .ok (full, b') ∧ b'.Consistent ∧
      b'.chunkQueue = b.chunkQueue ++ [c] ∧ (full = true → b'.num = n) ∧
      (full = false → b'.num < n) := by
  have hchunks : ∀ c' ∈ b.chunkQueue ++ [c], c'.Judgeable := by
    intro c' hc'
    rcases List.mem_append.mp hc' with hc' | hc'
    · exact hb.chunks c' hc'
    · exact List.mem_singleton.mp hc' ▸ hc
  unfold rewriteBufferPush
  cases hsignal : c.isSignal with
  | true =>
      have hsame : ∀ cid, bytesIn cid (b.chunkQueue ++ [c]) = bytesIn cid b.chunkQueue := by
        intro cid
        simp [bytesIn_append, bytesIn_cons, hsignal]
      refine ⟨false, _, rfl, ?_, rfl, by simp, fun _ => hroom⟩
      exact
        { chunks := hchunks
          fits := hfits
          num := by simp [bufferedNum_append, bufferedNum_cons, hsignal, hb.num]
          size := by simp [bufferedBytes_append, bufferedBytes_cons, hsignal, hb.size]
          records := (funext hsame) ▸ hb.records }
  | false =>
      obtain ⟨seq, hseq, hrecords⟩ := pushRecord_spec hb hc hsignal hfits
      have hbytes : bufferedBytes (b.chunkQueue ++ [c]) = bufferedBytes b.chunkQueue + c.size := by
        simp [bufferedBytes_append, bufferedBytes_cons, hsignal]
      have hsize := hb.size
      have hsize' : toInt32 (b.size + c.size) = bufferedBytes (b.chunkQueue ++ [c]) := by
        rw [toInt32_eq (by omega) (by omega)]
        omega
      have hrequire : require (decide ((n : Int) ≤ b.num + 1) = true → b.num + 1 = n)
          Abort.rewriteBufferOverfull = .ok () :=
        require_of fun hfull => by
          have := of_decide_eq_true hfull
          omega
      rw [if_neg Bool.false_ne_true]
      simp only [hseq, hrequire, bind, Except.bind, pure, Except.pure]
      refine ⟨_, _, rfl, ?_, rfl, fun hfull => ?_, fun hfull => ?_⟩
      · exact
          { chunks := hchunks
            fits := hfits
            num := by simp [bufferedNum_append, bufferedNum_cons, hsignal, hb.num]
            size := hsize'
            records := hrecords }
      · exact require_ok_iff.mp hrequire hfull
      · exact Int.not_le.mp (of_decide_eq_false hfull)

/-- The record of the container of the first chunk loses its size. -/
theorem popRecord_spec (hb : b.Consistent) (hqueue : b.chunkQueue = c :: queue)
    (hsignal : c.isSignal = false) (hid : c.id ≠ temporaryId) :
    ∃ seq, popRecord b.containerRecordSeq c = .ok seq ∧
      RecordsOf seq fun cid => bytesIn cid queue := by
  have hown : bytesIn c.id b.chunkQueue = c.size + bytesIn c.id queue := by
    rw [hqueue, bytesIn_cons, if_pos ⟨hsignal, hid, rfl⟩]
  have hothers : ∀ cid, cid ≠ c.id → bytesIn cid queue = bytesIn cid b.chunkQueue := by
    intro cid hne
    rw [hqueue, bytesIn_cons, if_neg (fun h => hne h.2.2.symm), Nat.zero_add]
  have hle : bytesIn c.id b.chunkQueue < 2 ^ 31 :=
    Nat.lt_of_le_of_lt bytesIn_le_bufferedBytes hb.fits
  have hsize : 0 < c.size := by
    cases hb.chunks c (hqueue ▸ List.mem_cons_self) with
    | signal h => exact absurd h (by simp [hsignal])
    | pending _ hsize _ => exact hsize
    | stored _ hsize _ _ _ => exact hsize
  have hpos : 0 < bytesIn c.id b.chunkQueue := by omega
  have hrange : InRange c.id := range_of_bytesIn_pos hb.chunks hpos
  obtain ⟨r₀, hr₀, hcid₀⟩ := (hb.records.covered c.id).mpr hpos
  have hfound : lookupRecord b.containerRecordSeq c.id = some r₀ :=
    hcid₀ ▸ lookupRecord_eq_some hb.records.toRecordsSorted hr₀
  unfold popRecord
  rw [hfound]
  refine ⟨_, rfl, hb.records.update hrange hothers ?_ ?_ ⟨r₀, hr₀, hcid₀⟩⟩
  · intro r r' hr'
    split at hr'
    · exact absurd hr' (by simp)
    · cases hr'
      rfl
  · intro r hr hcid
    have hsize' := hb.records.exact r hr
    rw [hcid] at hsize'
    have hvalue : toInt32 (r.size - c.size) = bytesIn c.id queue := by
      rw [toInt32_eq (by omega) (by omega)]
      omega
    rw [hvalue]
    by_cases hzero : bytesIn c.id queue = 0
    · exact Or.inl ⟨if_pos (by omega), hzero⟩
    · exact Or.inr ⟨_, if_neg (by omega), rfl, Nat.pos_of_ne_zero hzero⟩

/-- Popping takes the first chunk, at most marked as sparse. -/
theorem rewriteBufferPop_spec (har : Option (IdMap Int)) (hb : b.Consistent)
    (hqueue : b.chunkQueue = c :: queue) :
    ∃ c' b', rewriteBufferPop har b = .ok (some c', b') ∧ b'.Consistent ∧ b'.chunkQueue = queue ∧
      c.OnlyMarked c' := by
  have hchunks : ∀ c' ∈ queue, c'.Judgeable := fun c' hc' =>
    hb.chunks c' (hqueue ▸ List.mem_cons_of_mem c hc')
  have hnum := hb.num
  have hsize := hb.size
  have hfits := hb.fits
  rw [hqueue, bufferedNum_cons] at hnum
  rw [hqueue, bufferedBytes_cons] at hsize hfits
  unfold rewriteBufferPop
  rw [hqueue]
  simp only
  cases hsignal : c.isSignal with
  | true =>
      have hsame : ∀ cid, bytesIn cid b.chunkQueue = bytesIn cid queue := by
        intro cid
        simp [hqueue, bytesIn_cons, hsignal]
      refine ⟨c, _, rfl, ?_, rfl, .refl c⟩
      exact
        { chunks := hchunks
          fits := by simpa [hsignal] using hfits
          num := by simpa [hsignal] using hnum
          size := by simpa [hsignal] using hsize
          records := (funext hsame) ▸ hb.records }
  | false =>
      simp only [hsignal, Bool.false_eq_true, if_false] at hnum hsize hfits
      have hsize' : toInt32 (b.size - c.size) = bufferedBytes queue := by
        rw [toInt32_eq (by omega) (by omega)]
        omega
      have hnum' : b.num - 1 = bufferedNum queue := by omega
      have hfits' : bufferedBytes queue < 2 ^ 31 := by omega
      rw [if_neg Bool.false_ne_true]
      by_cases hid : c.id = temporaryId
      · have hsame : ∀ cid, bytesIn cid b.chunkQueue = bytesIn cid queue := by
          intro cid
          simp [hqueue, bytesIn_cons, hid]
        rw [if_neg (fun h => h.2 hid)]
        refine ⟨c, _, rfl, ?_, rfl, .refl c⟩
        exact
          { chunks := hchunks
            fits := hfits'
            num := hnum'
            size := hsize'
            records := (funext hsame) ▸ hb.records }
      · have hdup : c.flag.duplicate = true := by
          cases hb.chunks c (hqueue ▸ List.mem_cons_self) with
          | signal h => exact absurd h (by simp [hsignal])
          | pending _ _ h => exact absurd h hid
          | stored _ _ hdup _ _ => exact hdup
        obtain ⟨seq, hseq, hrecords⟩ := popRecord_spec hb hqueue hsignal hid
        rw [if_pos ⟨hdup, hid⟩, hseq]
        refine ⟨_, _, rfl, ?_, rfl, applyHar_onlyMarked har c⟩
        exact
          { chunks := hchunks
            fits := hfits'
            num := hnum'
            size := hsize'
            records := hrecords }

theorem rewriteBufferPop_nil {har : Option (IdMap Int)} (hnil : b.chunkQueue = []) :
    rewriteBufferPop har b = .ok (none, b) := by
  unfold rewriteBufferPop
  rw [hnil]

end Operations

end Destor
