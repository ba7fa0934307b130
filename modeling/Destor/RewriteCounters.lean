/- digest: The 32-bit byte counters of containers, in the utilization monitor and in the rewrite
   buffer, and under which sizes and ids they are exact. -/

import Destor.Library.Transition
import Destor.RewriteMonitor
import Destor.RewriteSteps
import Mathlib.Data.List.Induction

set_option autoImplicit false
set_option relaxedAutoImplicit false

namespace Destor

open Library.Outcome Library.SortedSeq Library.Transition

section Monitor

/-- A chunk that a backup refers to: its container and its size. -/
structure Reference where
  cid : Int
  size : Nat

/-- The monitor after some calls of `har_monitor_update`. -/
def monitorAfter (references : List Reference) : IdMap Int :=
  references.foldl (fun m r => harMonitorUpdate m r.cid r.size) ∅

def referencedBytes (cid : Int) (references : List Reference) : Nat :=
  ((references.filter fun r => r.cid == cid).map Reference.size).sum

/-- The record of every container that is referred to holds the sum of the sizes. -/
def MonitorExact (references : List Reference) : Prop :=
  ∀ r ∈ references,
    (monitorAfter references).lookup r.cid = some (referencedBytes r.cid references : Int)

variable {references : List Reference} {r : Reference} {cid : Int}

private theorem referencedBytes_append : referencedBytes cid (references ++ [r]) =
    referencedBytes cid references + if r.cid = cid then r.size else 0 := by
  by_cases h : r.cid = cid <;> simp [referencedBytes, h]

private theorem monitorAfter_lookup (references : List Reference) (cid : Int) :
    ((monitorAfter references).lookup cid).getD 0 = toInt32 (referencedBytes cid references) ∧
      (((monitorAfter references).lookup cid).isSome ↔ ∃ r ∈ references, r.cid = cid) := by
  induction references using List.reverseRecOn with
  | nil =>
      have hzero : toInt32 (0 : Nat) = 0 := by decide
      exact ⟨hzero.symm, by simp [monitorAfter]⟩
  | append_singleton references r ih =>
      have hlast : monitorAfter (references ++ [r]) =
          harMonitorUpdate (monitorAfter references) r.cid r.size := List.foldl_append
      rw [hlast, referencedBytes_append, harMonitorUpdate]
      by_cases h : r.cid = cid
      · rw [h, AList.lookup_insert, Option.getD_some, ih.1, if_pos rfl]
        refine ⟨?_, by simp [h]⟩
        rw [toInt32_add]
        push_cast
        rfl
      · rw [AList.lookup_insert_ne (Ne.symm h), if_neg h, Nat.add_zero, ih.1, ih.2]
        refine ⟨rfl, ?_⟩
        simp [h]

private theorem monitorExact_of_fits (h : ∀ r ∈ references, referencedBytes r.cid references < 2 ^ 31) :
    MonitorExact references := by
  intro r hr
  obtain ⟨hvalue, hsome⟩ := monitorAfter_lookup references r.cid
  obtain ⟨size, hsize⟩ := Option.isSome_iff_exists.mp (hsome.mpr ⟨r, hr, rfl⟩)
  have hlt := h r hr
  rw [hsize, Option.getD_some, toInt32_eq (by omega) (by omega)] at hvalue
  rw [hsize, hvalue]

private theorem referencedBytes_lt_of_exact (h : MonitorExact references) (cid : Int) :
    referencedBytes cid references < 2 ^ 31 := by
  by_cases hfound : ∃ r ∈ references, r.cid = cid
  · obtain ⟨r, hr, rfl⟩ := hfound
    have hexact := h r hr
    have hvalue := (monitorAfter_lookup references r.cid).1
    rw [hexact, Option.getD_some] at hvalue
    have hlt : toInt32 (referencedBytes r.cid references) < 2 ^ 31 := by
      have hbmod := Int.bmod_lt (x := referencedBytes r.cid references)
        (show 0 < 2 ^ 32 by decide)
      unfold toInt32
      omega
    omega
  · have hnil : references.filter (fun r => r.cid == cid) = [] := by
      refine List.filter_eq_nil_iff.mpr fun r hr heq => hfound ⟨r, hr, ?_⟩
      exact eq_of_beq heq
    rw [referencedBytes, hnil]
    decide

private theorem referencedBytes_take_le (k : Nat) :
    referencedBytes cid (references.take k) ≤ referencedBytes cid references := by
  have hsplit : referencedBytes cid references =
      referencedBytes cid (references.take k) + referencedBytes cid (references.drop k) := by
    rw [referencedBytes, referencedBytes, referencedBytes, ← List.sum_append, ← List.map_append,
      ← List.filter_append, List.take_append_drop]
  omega

end Monitor

section Shift

variable (k : Int)

/-- The chunk with its container, if that is known, counted from `k`. -/
def shiftChunk (c : Chunk) : Chunk := if c.id = temporaryId then c else { c with id := c.id - k }

def shiftRecord (r : ContainerRecord) : ContainerRecord := { r with cid := r.cid - k }

def shiftBuffer (b : RewriteBuffer) : RewriteBuffer :=
  { b with
    chunkQueue := b.chunkQueue.map (shiftChunk k)
    containerRecordSeq := b.containerRecordSeq.map (shiftRecord k) }

def Window (queue : List Chunk) : Prop := ∀ c ∈ queue, c.Known → k ≤ c.id ∧ c.id < k + 2 ^ 31

variable {k} {c : Chunk} {queue : List Chunk} {r r' : ContainerRecord} {seq : List ContainerRecord}
  {cid : Int}

@[simp] theorem shiftChunk_isSignal (c : Chunk) : (shiftChunk k c).isSignal = c.isSignal := by
  unfold shiftChunk
  split <;> rfl

@[simp] theorem shiftChunk_size (c : Chunk) : (shiftChunk k c).size = c.size := by
  unfold shiftChunk
  split <;> rfl

@[simp] theorem shiftChunk_flag (c : Chunk) : (shiftChunk k c).flag = c.flag := by
  unfold shiftChunk
  split <;> rfl

theorem shiftChunk_id (h : c.id ≠ temporaryId) : (shiftChunk k c).id = c.id - k := by
  rw [shiftChunk, if_neg h]

theorem shiftChunk_temporary (h : c.id = temporaryId) : shiftChunk k c = c := if_pos h

/-- A container is known before and after a shift. -/
theorem shiftChunk_id_iff (h : c.id ≠ temporaryId → k ≤ c.id) :
    (shiftChunk k c).id = temporaryId ↔ c.id = temporaryId := by
  by_cases hid : c.id = temporaryId
  · rw [shiftChunk_temporary hid]
  · have hle := h hid
    rw [shiftChunk_id hid]
    refine iff_of_false ?_ hid
    unfold temporaryId
    omega

/-- Comparisons only see differences. -/
@[simp] theorem gRecordCmpById_shift (a b : ContainerRecord) :
    gRecordCmpById (shiftRecord k a) (shiftRecord k b) = gRecordCmpById a b := by
  have hdiff : (shiftRecord k a).cid - (shiftRecord k b).cid = a.cid - b.cid := by
    show a.cid - k - (b.cid - k) = _
    omega
  unfold gRecordCmpById
  rw [hdiff]

@[simp] theorem recordAfter_shift (a b : ContainerRecord) :
    recordAfter (shiftRecord k a) (shiftRecord k b) = recordAfter a b := by
  unfold recordAfter
  rw [gRecordCmpById_shift]

@[simp] theorem matchesRecord_shift (r : ContainerRecord) :
    matchesRecord (cid - k) (shiftRecord k r) = matchesRecord cid r := by
  have hcmp := gRecordCmpById_shift (k := k) r { cid := cid, size := 0, outOfOrder := false }
  unfold matchesRecord
  rw [← hcmp]
  rfl

theorem lookupRecord_shift : lookupRecord (seq.map (shiftRecord k)) (cid - k) =
    (lookupRecord seq cid).map (shiftRecord k) := by
  have hcomp : matchesRecord (cid - k) ∘ shiftRecord k = matchesRecord cid := by
    funext r
    exact matchesRecord_shift r
  unfold lookupRecord
  rw [List.find?_map, hcomp]

theorem updateRecord_shift {f : ContainerRecord → Option ContainerRecord}
    (hf : ∀ r, f (shiftRecord k r) = (f r).map (shiftRecord k)) :
    updateRecord (cid - k) f (seq.map (shiftRecord k)) =
      (updateRecord cid f seq).map (shiftRecord k) := by
  induction seq with
  | nil => rfl
  | cons r seq ih =>
      rw [List.map_cons, updateRecord, updateRecord, matchesRecord_shift]
      split
      · rw [hf, List.map_append]
        cases f r <;> rfl
      · rw [List.map_cons, ih]

theorem insertSorted_shift : insertSorted recordAfter (shiftRecord k r) (seq.map (shiftRecord k)) =
    (insertSorted recordAfter r seq).map (shiftRecord k) :=
  insertSorted_map recordAfter_shift r seq

private theorem pushRecord_shift (h : c.id ≠ temporaryId → k ≤ c.id) :
    pushRecord (seq.map (shiftRecord k)) (shiftChunk k c) =
      (pushRecord seq c).map (List.map (shiftRecord k)) := by
  by_cases hid : c.id = temporaryId
  · rw [pushRecord, if_pos ((shiftChunk_id_iff h).mpr hid), pushRecord, if_pos hid]
    rfl
  · rw [pushRecord, if_neg fun heq => hid ((shiftChunk_id_iff h).mp heq), pushRecord, if_neg hid,
      shiftChunk_id hid, lookupRecord_shift, shiftChunk_flag, shiftChunk_size]
    cases hdup : require (c.flag.duplicate = true) Abort.rewriteNotDuplicate with
    | error e => rfl
    | ok _ =>
        cases hlookup : lookupRecord seq c.id with
        | none =>
            generalize toInt32 c.size = size
            show Except.ok (insertSorted recordAfter
              (shiftRecord k { cid := c.id, size := size, outOfOrder := true })
                (seq.map (shiftRecord k))) = _
            rw [insertSorted_shift]
            rfl
        | some r =>
            have hcid : (shiftRecord k r).cid = c.id - k ↔ r.cid = c.id := by
              show r.cid - k = c.id - k ↔ _
              omega
            show (do
              require ((shiftRecord k r).cid = c.id - k) Abort.recordOfAnotherContainer
              pure (updateRecord (c.id - k) _ (seq.map (shiftRecord k)))) = _
            rw [updateRecord_shift fun _ => rfl]
            by_cases heq : r.cid = c.id
            · rw [require_of (hcid.mpr heq)]
              show _ = (do
                require (r.cid = c.id) Abort.recordOfAnotherContainer
                pure _ : Except Abort _).map _
              rw [require_of heq]
              rfl
            · rw [require, if_neg fun h => heq (hcid.mp h)]
              show _ = (do
                require (r.cid = c.id) Abort.recordOfAnotherContainer
                pure _ : Except Abort _).map _
              rw [require, if_neg heq]
              rfl

theorem rewriteBufferPush_shift (n : Nat) (b : RewriteBuffer) (h : c.Known → k ≤ c.id) :
    rewriteBufferPush n (shiftBuffer k b) (shiftChunk k c) =
      (rewriteBufferPush n b c).map fun r => (r.1, shiftBuffer k r.2) := by
  unfold rewriteBufferPush
  rw [shiftChunk_isSignal]
  cases hsignal : c.isSignal with
  | true =>
      rw [if_pos rfl, if_pos rfl]
      show Except.ok (false, _) = Except.ok (false, shiftBuffer k _)
      unfold shiftBuffer
      rw [List.map_append, List.map_singleton]
  | false =>
      rw [if_neg Bool.false_ne_true, if_neg Bool.false_ne_true]
      have hpush : pushRecord (b.containerRecordSeq.map (shiftRecord k)) (shiftChunk k c) =
          (pushRecord b.containerRecordSeq c).map (List.map (shiftRecord k)) :=
        pushRecord_shift fun hid => h ⟨hsignal, hid⟩
      show (do
        let seq ← pushRecord (b.containerRecordSeq.map (shiftRecord k)) (shiftChunk k c)
        _) = _
      rw [hpush]
      cases pushRecord b.containerRecordSeq c with
      | error e => rfl
      | ok seq =>
          show (do
            require (decide ((n : Int) ≤ b.num + 1) = true → b.num + 1 = n) Abort.rewriteBufferOverfull
            _) = Except.map _ (do
            require (decide ((n : Int) ≤ b.num + 1) = true → b.num + 1 = n) Abort.rewriteBufferOverfull
            _)
          cases require (decide ((n : Int) ≤ b.num + 1) = true → b.num + 1 = n)
            Abort.rewriteBufferOverfull with
          | error e => rfl
          | ok _ =>
              show Except.ok (_, _) = Except.ok (_, shiftBuffer k _)
              unfold shiftBuffer
              rw [List.map_append, List.map_singleton, shiftChunk_size]

private theorem popRecord_shift (h : c.id ≠ temporaryId) :
    popRecord (seq.map (shiftRecord k)) (shiftChunk k c) =
      (popRecord seq c).map (List.map (shiftRecord k)) := by
  unfold popRecord
  rw [shiftChunk_id h, lookupRecord_shift]
  cases lookupRecord seq c.id with
  | none => rfl
  | some r =>
      show Except.ok (updateRecord (c.id - k) _ (seq.map (shiftRecord k))) = _
      rw [updateRecord_shift fun r => by
        show (if toInt32 (r.size - (shiftChunk k c).size) = 0 then none else _) = _
        split <;> simp_all [shiftRecord], shiftChunk_size]
      rfl

/-- Popping sees no shift, apart from the chunk that is handed over. -/
theorem rewriteBufferPop_shift (har : Option (IdMap Int)) (b : RewriteBuffer)
    (h : ∀ c ∈ b.chunkQueue, c.Known → k ≤ c.id) :
    (rewriteBufferPop har (shiftBuffer k b)).map Prod.snd =
      (rewriteBufferPop har b).map fun r => shiftBuffer k r.2 := by
  unfold rewriteBufferPop
  cases hqueue : b.chunkQueue with
  | nil =>
      have hshift : (shiftBuffer k b).chunkQueue = [] := by
        show b.chunkQueue.map _ = []
        rw [hqueue]
        rfl
      rw [hshift]
      rfl
  | cons c queue =>
      have hshift : (shiftBuffer k b).chunkQueue = shiftChunk k c :: queue.map (shiftChunk k) := by
        show b.chunkQueue.map _ = _
        rw [hqueue]
        rfl
      rw [hshift]
      simp only [shiftChunk_isSignal, shiftChunk_flag, shiftChunk_size]
      cases hsignal : c.isSignal with
      | true => rfl
      | false =>
          have hid := shiftChunk_id_iff (k := k) (c := c) fun hid =>
            h c (hqueue ▸ List.mem_cons_self) ⟨hsignal, hid⟩
          simp only [hid, Bool.false_eq_true, if_false, ne_eq]
          split
          · rename_i hknown
            have hpop : popRecord (b.containerRecordSeq.map (shiftRecord k)) (shiftChunk k c) =
                (popRecord b.containerRecordSeq c).map (List.map (shiftRecord k)) :=
              popRecord_shift hknown.2
            show Except.map _ (do
              let seq ← popRecord (b.containerRecordSeq.map (shiftRecord k)) (shiftChunk k c)
              _) = _
            rw [hpop]
            cases popRecord b.containerRecordSeq c <;> rfl
          · rfl

end Shift

/-- A chunk that the rewrite phase may receive, into any container: a signal, or a chunk with content,
which is a duplicate if its container is known. -/
def Chunk.Sized (c : Chunk) : Prop :=
  c.isSignal = true ∨ (0 < c.size ∧ (c.id ≠ temporaryId → c.flag.duplicate = true))

/-- The buffer agrees with its queue, wherever the containers lie. -/
structure RewriteBuffer.Tallied (b : RewriteBuffer) : Prop where
  chunks : ∀ c ∈ b.chunkQueue, c.Sized
  window : ∃ k, Window k b.chunkQueue
  fits : bufferedBytes b.chunkQueue < 2 ^ 31
  num : b.num = bufferedNum b.chunkQueue
  size : b.size = bufferedBytes b.chunkQueue
  sorted : b.containerRecordSeq.Pairwise fun r r' => r.cid < r'.cid
  exact : ∀ r ∈ b.containerRecordSeq, r.size = bytesIn r.cid b.chunkQueue
  covered : ∀ cid, (∃ r ∈ b.containerRecordSeq, r.cid = cid) ↔ 0 < bytesIn cid b.chunkQueue

section Tallied

variable {k : Int} {c : Chunk} {queue : List Chunk} {b b' : RewriteBuffer} {cid : Int}

private theorem bufferedNum_shift : bufferedNum (queue.map (shiftChunk k)) = bufferedNum queue := by
  induction queue with
  | nil => rfl
  | cons c queue ih => rw [List.map_cons, bufferedNum_cons, bufferedNum_cons, ih, shiftChunk_isSignal]

private theorem bufferedBytes_shift :
    bufferedBytes (queue.map (shiftChunk k)) = bufferedBytes queue := by
  induction queue with
  | nil => rfl
  | cons c queue ih =>
      rw [List.map_cons, bufferedBytes_cons, bufferedBytes_cons, ih, shiftChunk_isSignal,
        shiftChunk_size]

private theorem bytesIn_shift (hk : Window k queue) :
    bytesIn (cid - k) (queue.map (shiftChunk k)) = bytesIn cid queue := by
  induction queue with
  | nil => rfl
  | cons c queue ih =>
      have hhead := hk c List.mem_cons_self
      have hcond : ((shiftChunk k c).isSignal = false ∧ (shiftChunk k c).id ≠ temporaryId ∧
          (shiftChunk k c).id = cid - k) ↔ (c.isSignal = false ∧ c.id ≠ temporaryId ∧ c.id = cid) := by
        rw [shiftChunk_isSignal]
        apply and_congr_right
        intro hsignal
        have hid := shiftChunk_id_iff (k := k) (c := c) fun hid => (hhead ⟨hsignal, hid⟩).1
        by_cases hknown : c.id = temporaryId
        · exact iff_of_false (fun h => h.1 (hid.mpr hknown)) fun h => h.1 hknown
        · rw [shiftChunk_id hknown]
          have hshifted : c.id - k ≠ temporaryId := by
            rw [← shiftChunk_id hknown]
            exact fun h => hknown (hid.mp h)
          constructor
          · rintro ⟨_, heq⟩
            exact ⟨hknown, by omega⟩
          · rintro ⟨_, heq⟩
            exact ⟨hshifted, by omega⟩
      rw [List.map_cons, bytesIn_cons, bytesIn_cons, ih fun c' hc' => hk c' (List.mem_cons_of_mem c hc'),
        shiftChunk_size]
      simp only [hcond]

private theorem judgeable_shift_iff (hk : c.Known → k ≤ c.id ∧ c.id < k + 2 ^ 31) :
    (shiftChunk k c).Judgeable ↔ c.Sized := by
  have hid : c.isSignal = false → ((shiftChunk k c).id = temporaryId ↔ c.id = temporaryId) :=
    fun hsignal => shiftChunk_id_iff fun hne => (hk ⟨hsignal, hne⟩).1
  constructor
  · intro h
    cases h with
    | signal hsignal =>
        rw [shiftChunk_isSignal] at hsignal
        exact .inl hsignal
    | pending hsignal hsize hpending =>
        rw [shiftChunk_isSignal] at hsignal
        rw [shiftChunk_size] at hsize
        exact .inr ⟨hsize, fun hne => absurd ((hid hsignal).mp hpending) hne⟩
    | stored hsignal hsize hdup _ _ =>
        rw [shiftChunk_size] at hsize
        rw [shiftChunk_flag] at hdup
        exact .inr ⟨hsize, fun _ => hdup⟩
  · intro h
    cases hsignal : c.isSignal with
    | true => exact .signal (by rw [shiftChunk_isSignal, hsignal])
    | false =>
        obtain ⟨hsize, hdup⟩ := h.resolve_left (by rw [hsignal]; decide)
        have hsignal' : (shiftChunk k c).isSignal = false := by rw [shiftChunk_isSignal, hsignal]
        have hsize' : 0 < (shiftChunk k c).size := by rwa [shiftChunk_size]
        by_cases hpending : c.id = temporaryId
        · exact .pending hsignal' hsize' ((hid hsignal).mpr hpending)
        · obtain ⟨hlow, hhigh⟩ := hk ⟨hsignal, hpending⟩
          have hshift := shiftChunk_id (k := k) hpending
          refine .stored hsignal' hsize' ?_ (by omega) (by omega)
          rw [shiftChunk_flag]
          exact hdup hpending

private theorem shiftRecord_iff {seq : List ContainerRecord} :
    (∃ r ∈ seq.map (shiftRecord k), r.cid = cid - k) ↔ ∃ r ∈ seq, r.cid = cid := by
  constructor
  · rintro ⟨r', hr', heq⟩
    obtain ⟨r, hr, rfl⟩ := List.mem_map.mp hr'
    have heq : r.cid - k = cid - k := heq
    exact ⟨r, hr, by omega⟩
  · rintro ⟨r, hr, rfl⟩
    exact ⟨shiftRecord k r, List.mem_map_of_mem hr, rfl⟩

private theorem recordsOf_shift_iff (hk : Window k queue) {seq : List ContainerRecord} :
    RecordsOf (seq.map (shiftRecord k)) (fun cid => bytesIn cid (queue.map (shiftChunk k))) ↔
      seq.Pairwise (fun r r' => r.cid < r'.cid) ∧ (∀ r ∈ seq, r.size = bytesIn r.cid queue) ∧
        ∀ cid, (∃ r ∈ seq, r.cid = cid) ↔ 0 < bytesIn cid queue := by
  constructor
  · intro h
    refine ⟨(List.pairwise_map.mp h.sorted).imp fun {r r'} hlt => ?_, fun r hr => ?_, fun cid => ?_⟩
    · have hlt : r.cid - k < r'.cid - k := hlt
      omega
    · have hexact : r.size = bytesIn (r.cid - k) (queue.map (shiftChunk k)) :=
        h.exact _ (List.mem_map_of_mem hr)
      rwa [bytesIn_shift hk] at hexact
    · have hcovered := h.covered (cid - k)
      rwa [shiftRecord_iff, bytesIn_shift hk] at hcovered
  · rintro ⟨hsorted, hexact, hcovered⟩
    refine ⟨⟨fun r' hr' => ?_, ?_⟩, fun r' hr' => ?_, fun cid => ?_⟩
    · obtain ⟨r, hr, rfl⟩ := List.mem_map.mp hr'
      obtain ⟨c, hc, hsignal, hid, heq⟩ := exists_of_bytesIn_pos ((hcovered r.cid).mp ⟨r, hr, rfl⟩)
      have hrange := hk c hc ⟨hsignal, hid⟩
      show 0 ≤ r.cid - k ∧ r.cid - k < 2 ^ 31
      omega
    · refine List.pairwise_map.mpr (hsorted.imp fun {r r'} hlt => ?_)
      show r.cid - k < r'.cid - k
      omega
    · obtain ⟨r, hr, rfl⟩ := List.mem_map.mp hr'
      show r.size = bytesIn (r.cid - k) (queue.map (shiftChunk k))
      rw [bytesIn_shift hk]
      exact hexact r hr
    · rw [← Int.add_sub_cancel cid k, shiftRecord_iff, bytesIn_shift hk]
      exact hcovered (cid + k)

/-- Counting from where all known containers are within reach, the buffer is a consistent one. -/
theorem tallied_iff_shift (hk : Window k b.chunkQueue) :
    b.Tallied ↔ (shiftBuffer k b).Consistent := by
  have hchunks : (∀ c ∈ b.chunkQueue, c.Sized) ↔ ∀ c ∈ (shiftBuffer k b).chunkQueue, c.Judgeable :=
    (forall₂_congr fun c hc => (judgeable_shift_iff (hk c hc)).symm).trans List.forall_mem_map.symm
  have hnum : bufferedNum (shiftBuffer k b).chunkQueue = bufferedNum b.chunkQueue := bufferedNum_shift
  have hbytes : bufferedBytes (shiftBuffer k b).chunkQueue = bufferedBytes b.chunkQueue :=
    bufferedBytes_shift
  constructor
  · intro h
    exact ⟨hchunks.mp h.chunks, hbytes ▸ h.fits, hnum ▸ h.num, hbytes ▸ h.size,
      (recordsOf_shift_iff hk).mpr ⟨h.sorted, h.exact, h.covered⟩⟩
  · intro h
    obtain ⟨hsorted, hexact, hcovered⟩ := (recordsOf_shift_iff hk).mp h.records
    exact ⟨hchunks.mpr h.chunks, ⟨k, hk⟩, hbytes ▸ h.fits, hnum ▸ h.num, hbytes ▸ h.size, hsorted,
      hexact, hcovered⟩

end Tallied

/-- What the rewriting algorithms do to the buffer: the two operations, and what happens between
them. -/
inductive BufferAction where
  | push (c : Chunk)
  | pop
  /-- `record->out_of_order = 0` for the container of the first chunk. -/
  | keepTop
  /-- `SET_CHUNK(decision_chunk, CHUNK_OUT_OF_ORDER)`. -/
  | markTop
  /-- The two sorts of `cap_segment_get_top`. -/
  | resort

def bufferStep (n : Nat) (har : Option (IdMap Int)) (b : RewriteBuffer) :
    BufferAction → Except Abort RewriteBuffer
  | .push c => do
      let r ← rewriteBufferPush n b c
      return r.2
  | .pop => do
      let r ← rewriteBufferPop har b
      return r.2
  | .keepTop =>
      match b.chunkQueue with
      | [] => .ok b
      | c :: _ =>
          if c.isSignal = false ∧ c.id ≠ temporaryId then
            .ok { b with
              containerRecordSeq := updateRecord c.id
                (fun r => some { r with outOfOrder := false }) b.containerRecordSeq }
          else .ok b
  | .markTop => .ok (markTop b)
  | .resort => .ok { b with
      containerRecordSeq := sort recordAfter
        (sort (fun a b => decide (0 < gRecordDescmpByLength a b)) b.containerRecordSeq) }

/-- The sums that the counters have to hold fit, and the comparisons of ids do. `cbr_rewrite` adds the
size of the decision chunk to the record of its container once more. -/
structure CountersFit (queue : List Chunk) : Prop where
  total : bufferedBytes queue < 2 ^ 31
  coverage : ∀ c ∈ queue, c.Known → bytesIn c.id queue + c.size < 2 ^ 31
  window : ∃ k, Window k queue

/-- The condition on a step: a push of a chunk with content leaves a queue whose sums fit. -/
def FittingAction (b : RewriteBuffer) : BufferAction → Prop
  | .push c => (c.isSignal = false → 0 < c.size) ∧ CountersFit (b.chunkQueue ++ [c])
  | _ => True

/-- The counters of the buffer are exact, and every test on them is a test on the sums: the records are
found by their ids, compared by their sizes, and read by `cbr_rewrite`. -/
structure RewriteBuffer.Exact (b : RewriteBuffer) : Prop where
  size : b.size = bufferedBytes b.chunkQueue
  record : ∀ c ∈ b.chunkQueue, c.Known → ∃ r, lookupRecord b.containerRecordSeq c.id = some r ∧
    r.cid = c.id ∧ r.size = bytesIn c.id b.chunkQueue
  records : ∀ r ∈ b.containerRecordSeq, r.size = bytesIn r.cid b.chunkQueue
  byLength : ∀ r ∈ b.containerRecordSeq, ∀ r' ∈ b.containerRecordSeq,
    gRecordDescmpByLength r r' = r'.size - r.size
  coverage : ∀ c ∈ b.chunkQueue, c.Known →
    toInt32 (bytesIn c.id b.chunkQueue + c.size) = bytesIn c.id b.chunkQueue + c.size

section Steps

variable {k : Int} {c : Chunk} {queue : List Chunk} {b b' : RewriteBuffer} {n : Nat} {full : Bool}
  {har : Option (IdMap Int)}

private theorem window_tail (h : Window k (c :: queue)) : Window k queue :=
  fun c' hc' => h c' (List.mem_cons_of_mem c hc')

private theorem sized_of_push (hsize : c.isSignal = false → 0 < c.size)
    (h : rewriteBufferPush n b c = .ok (full, b')) : c.Sized := by
  cases hsignal : c.isSignal with
  | true => exact .inl hsignal
  | false =>
      obtain ⟨seq, hseq, _⟩ := rewriteBufferPush_ok hsignal h
      exact .inr ⟨hsize hsignal, (pushRecord_ok hseq).1⟩

private theorem bytesIn_pos_of_known (hq : ∀ c ∈ queue, c.Sized) (hc : c ∈ queue) (hknown : c.Known) :
    0 < bytesIn c.id queue := by
  obtain ⟨before, behind, rfl⟩ := List.append_of_mem hc
  obtain hsignal | ⟨hsize, _⟩ := hq c hc
  · rw [hknown.1] at hsignal
    cases hsignal
  · rw [bytesIn_append, bytesIn_cons, if_pos ⟨hknown.1, hknown.2, rfl⟩]
    omega

private theorem judgeable_shift (hc : c.Sized) (hk : c.Known → k ≤ c.id ∧ c.id < k + 2 ^ 31) :
    (shiftChunk k c).Judgeable := by
  cases hsignal : c.isSignal with
  | true => exact .signal (by rw [shiftChunk_isSignal]; exact hsignal)
  | false =>
      have hsignal' : (shiftChunk k c).isSignal = false := by
        rw [shiftChunk_isSignal]
        exact hsignal
      obtain hsized | ⟨hsize, hdup⟩ := hc
      · rw [hsignal] at hsized
        cases hsized
      · have hsize' : 0 < (shiftChunk k c).size := by
          rw [shiftChunk_size]
          exact hsize
        by_cases hid : c.id = temporaryId
        · exact .pending hsignal' hsize' (by rw [shiftChunk_temporary hid]; exact hid)
        · have hrange := hk ⟨hsignal, hid⟩
          refine .stored hsignal' hsize' (by rw [shiftChunk_flag]; exact hdup hid) ?_ ?_ <;>
            rw [shiftChunk_id hid] <;> omega

private theorem push_tallied (hb : b.Tallied) (hc : c.Sized) (hfits : CountersFit (b.chunkQueue ++ [c]))
    (h : rewriteBufferPush n b c = .ok (full, b')) :
    b'.Tallied ∧ b'.chunkQueue = b.chunkQueue ++ [c] := by
  obtain ⟨k, hk⟩ := hfits.window
  have hkb : Window k b.chunkQueue := fun c' hc' => hk c' (List.mem_append_left [c] hc')
  have hkc := hk c (by simp)
  have hqueue := rewriteBufferPush_queue h
  have hshift := rewriteBufferPush_shift (k := k) n b fun hknown => (hkc hknown).1
  rw [h] at hshift
  have hsum : bufferedBytes ((shiftBuffer k b).chunkQueue ++ [shiftChunk k c]) < 2 ^ 31 := by
    have hmap : (shiftBuffer k b).chunkQueue ++ [shiftChunk k c] =
        (b.chunkQueue ++ [c]).map (shiftChunk k) := by
      rw [List.map_append]
      rfl
    rw [hmap, bufferedBytes_shift]
    exact hfits.total
  have hconsistent :=
    rewriteBufferPush_consistent ((tallied_iff_shift hkb).mp hb) (judgeable_shift hc hkc) hsum
    hshift
  refine ⟨(tallied_iff_shift (k := k) ?_).mpr hconsistent, hqueue⟩
  rw [hqueue]
  exact hk

private theorem pop_tallied {popped : Option Chunk} (hb : b.Tallied)
    (h : rewriteBufferPop har b = .ok (popped, b')) :
    b'.Tallied ∧ b'.chunkQueue = b.chunkQueue.tail := by
  obtain ⟨k, hk⟩ := hb.window
  have hshift := rewriteBufferPop_shift (k := k) har b fun c hc hknown => (hk c hc hknown).1
  rw [h] at hshift
  have hconsistent := (tallied_iff_shift hk).mp hb
  cases hqueue : b.chunkQueue with
  | nil =>
      rw [rewriteBufferPop_nil hqueue] at h
      cases h
      exact ⟨hb, hqueue⟩
  | cons c queue =>
      have hmap : (shiftBuffer k b).chunkQueue = shiftChunk k c :: queue.map (shiftChunk k) := by
        show b.chunkQueue.map _ = _
        rw [hqueue]
        rfl
      obtain ⟨_, b₂, hpop, hb₂, hqueue₂, _⟩ := rewriteBufferPop_spec har hconsistent hmap
      rw [hpop] at hshift
      have heq : b₂ = shiftBuffer k b' := Except.ok.inj hshift
      have hqueue' := (rewriteBufferPop_ok hqueue h).2.1
      rw [hqueue] at hk
      refine ⟨(tallied_iff_shift (k := k) ?_).mpr (heq ▸ hb₂), hqueue'⟩
      rw [hqueue']
      exact window_tail hk

private theorem tallied_of_shift (hb : b.Tallied) (hk : Window k b.chunkQueue)
    (hk' : Window k b'.chunkQueue)
    (h : (shiftBuffer k b).Consistent → (shiftBuffer k b').Consistent) : b'.Tallied :=
  (tallied_iff_shift hk').mpr (h ((tallied_iff_shift hk).mp hb))

private theorem keepTop_tallied (hb : b.Tallied) (hqueue : b.chunkQueue = c :: queue)
    (hknown : c.Known) :
    RewriteBuffer.Tallied { b with
      containerRecordSeq := updateRecord c.id (fun r => some { r with outOfOrder := false })
        b.containerRecordSeq } := by
  obtain ⟨k, hk⟩ := hb.window
  refine tallied_of_shift hb hk hk fun hconsistent => ?_
  have hrange := hk c (hqueue ▸ List.mem_cons_self) hknown
  have hmem : shiftChunk k c ∈ (shiftBuffer k b).chunkQueue :=
    List.mem_map_of_mem (hqueue ▸ List.mem_cons_self)
  have hpos : 0 < bytesIn (c.id - k) (shiftBuffer k b).chunkQueue := by
    show 0 < bytesIn (c.id - k) (b.chunkQueue.map (shiftChunk k))
    rw [bytesIn_shift hk]
    exact bytesIn_pos_of_known hb.chunks (hqueue ▸ List.mem_cons_self) hknown
  have hinRange : InRange (c.id - k) := by
    unfold InRange
    omega
  have hrecords := hconsistent.records.updateOutOfOrder hinRange
    ((hconsistent.records.covered _).mpr hpos)
  have hseq : updateRecord (c.id - k) (fun r => some { r with outOfOrder := false })
      (b.containerRecordSeq.map (shiftRecord k)) =
        (updateRecord c.id (fun r => some { r with outOfOrder := false })
          b.containerRecordSeq).map (shiftRecord k) := updateRecord_shift fun _ => rfl
  exact
    { chunks := hconsistent.chunks
      fits := hconsistent.fits
      num := hconsistent.num
      size := hconsistent.size
      records := by
        show RecordsOf ((updateRecord c.id _ b.containerRecordSeq).map (shiftRecord k)) _
        rw [← hseq]
        exact hrecords }

private theorem markTop_queue (hqueue : b.chunkQueue = c :: queue) :
    markTop b = { b with chunkQueue := markOutOfOrder c :: queue } := by
  unfold markTop
  rw [hqueue]

private theorem markTop_tallied (hb : b.Tallied) : (markTop b).Tallied := by
  cases hqueue : b.chunkQueue with
  | nil =>
      have htop : markTop b = b := by
        unfold markTop
        rw [hqueue]
      rw [htop]
      exact hb
  | cons c queue =>
      obtain ⟨k, hk⟩ := hb.window
      have htop := markTop_queue hqueue
      rw [htop]
      rw [hqueue] at hk
      refine tallied_of_shift hb (hqueue ▸ hk) (k := k) ?_ fun hconsistent => ?_
      · intro c' hc' hknown
        rcases List.mem_cons.mp hc' with rfl | hc'
        · exact hk c List.mem_cons_self hknown
        · exact hk c' (List.mem_cons_of_mem c hc') hknown
      · have hmark : shiftChunk k (markOutOfOrder c) = markOutOfOrder (shiftChunk k c) := by
          by_cases hid : c.id = temporaryId
          · rw [shiftChunk_temporary hid, shiftChunk_temporary (c := markOutOfOrder c) hid]
          · rw [shiftChunk, shiftChunk, if_neg hid, if_neg (show (markOutOfOrder c).id ≠ _ from hid)]
            rfl
        have hqueue' : (shiftBuffer k b).chunkQueue = shiftChunk k c :: queue.map (shiftChunk k) := by
          show b.chunkQueue.map _ = _
          rw [hqueue]
          rfl
        have hmarked := markTop_consistent hconsistent
        rw [markTop_queue hqueue', ← hmark] at hmarked
        exact hmarked

private theorem resort_tallied (hb : b.Tallied) :
    RewriteBuffer.Tallied { b with
      containerRecordSeq := sort recordAfter
        (sort (fun a b => decide (0 < gRecordDescmpByLength a b)) b.containerRecordSeq) } := by
  obtain ⟨k, hk⟩ := hb.window
  refine tallied_of_shift hb hk hk fun hconsistent => ?_
  have hsorted := hconsistent.records.toRecordsSorted.sort_eq
    ((sort_perm (fun a b => decide (0 < gRecordDescmpByLength a b)) b.containerRecordSeq).map
      (shiftRecord k))
  rw [sort_map recordAfter_shift] at hsorted
  have hsame : shiftBuffer k { b with
      containerRecordSeq := sort recordAfter
        (sort (fun a b => decide (0 < gRecordDescmpByLength a b)) b.containerRecordSeq) } =
      shiftBuffer k b := by
    unfold shiftBuffer
    rw [hsorted]
    rfl
  rw [hsame]
  exact hconsistent

private theorem countersFit_tail (h : CountersFit queue) : CountersFit queue.tail := by
  cases queue with
  | nil => exact h
  | cons c queue =>
      have htotal := h.total
      rw [bufferedBytes_cons] at htotal
      refine ⟨by rw [List.tail_cons]; omega, fun c' hc' hknown => ?_, ?_⟩
      · have hcoverage := h.coverage c' (List.mem_cons_of_mem c hc') hknown
        rw [bytesIn_cons] at hcoverage
        rw [List.tail_cons]
        omega
      · obtain ⟨k, hk⟩ := h.window
        exact ⟨k, window_tail hk⟩

private theorem countersFit_markTop (h : CountersFit b.chunkQueue) :
    CountersFit (markTop b).chunkQueue := by
  cases hqueue : b.chunkQueue with
  | nil =>
      have htop : markTop b = b := by
        unfold markTop
        rw [hqueue]
      rw [htop]
      exact h
  | cons c queue =>
      rw [markTop_queue hqueue]
      rw [hqueue] at h
      obtain ⟨_, hbytes, hin⟩ := (markOutOfOrder_onlyMarked c).cons_eq queue
      refine ⟨hbytes ▸ h.total, fun c' hc' hknown => ?_, ?_⟩
      · rw [hin]
        rcases List.mem_cons.mp hc' with rfl | hc'
        · exact h.coverage c List.mem_cons_self hknown
        · exact h.coverage c' (List.mem_cons_of_mem c hc') hknown
      · obtain ⟨k, hk⟩ := h.window
        refine ⟨k, fun c' hc' hknown => ?_⟩
        rcases List.mem_cons.mp hc' with rfl | hc'
        · exact hk c List.mem_cons_self hknown
        · exact hk c' (List.mem_cons_of_mem c hc') hknown

/-- The buffer is tallied, and stays so when `cbr_rewrite` reads it. -/
private def StepInv (b : RewriteBuffer) : Prop := b.Tallied ∧ CountersFit b.chunkQueue

private theorem bufferStep_inv {a : BufferAction} (hb : StepInv b) (ha : FittingAction b a)
    (h : bufferStep n har b a = .ok b') : StepInv b' := by
  obtain ⟨htallied, hfit⟩ := hb
  cases a with
  | push c =>
      obtain ⟨⟨full, b₁⟩, hpush, h⟩ := bind_ok_iff.mp h
      cases h
      have hsized := sized_of_push ha.1 hpush
      obtain ⟨htallied', hqueue⟩ := push_tallied htallied hsized ha.2 hpush
      exact ⟨htallied', hqueue ▸ ha.2⟩
  | pop =>
      obtain ⟨⟨popped, b₁⟩, hpop, h⟩ := bind_ok_iff.mp h
      cases h
      obtain ⟨htallied', hqueue⟩ := pop_tallied htallied hpop
      exact ⟨htallied', hqueue ▸ countersFit_tail hfit⟩
  | keepTop =>
      simp only [bufferStep] at h
      split at h
      · cases h
        exact ⟨htallied, hfit⟩
      · rename_i hqueue
        split at h
        · rename_i hknown
          cases h
          exact ⟨keepTop_tallied htallied hqueue hknown, hfit⟩
        · cases h
          exact ⟨htallied, hfit⟩
  | markTop =>
      cases h
      exact ⟨markTop_tallied htallied, countersFit_markTop hfit⟩
  | resort =>
      cases h
      exact ⟨resort_tallied htallied, hfit⟩

private theorem lookupRecord_of_known (hb : b.Tallied) (hc : c ∈ b.chunkQueue) (hknown : c.Known) :
    ∃ r ∈ b.containerRecordSeq, lookupRecord b.containerRecordSeq c.id = some r ∧ r.cid = c.id := by
  obtain ⟨k, hk⟩ := hb.window
  have hpos := bytesIn_pos_of_known hb.chunks hc hknown
  obtain ⟨r, hr, hcid⟩ := (hb.covered c.id).mpr hpos
  have hsorted := ((tallied_iff_shift hk).mp hb).records.toRecordsSorted
  have hmem : shiftRecord k r ∈ b.containerRecordSeq.map (shiftRecord k) := List.mem_map_of_mem hr
  have hfound := lookupRecord_eq_some hsorted hmem
  have hshift : lookupRecord (b.containerRecordSeq.map (shiftRecord k)) (c.id - k) =
      (lookupRecord b.containerRecordSeq c.id).map (shiftRecord k) := lookupRecord_shift
  have hown : (shiftRecord k r).cid = c.id - k := by
    rw [← hcid]
    rfl
  rw [hown] at hfound
  obtain ⟨r', hlookup, hsame⟩ := Option.map_eq_some_iff.mp (hshift.symm.trans hfound)
  have hcid' : r'.cid - k = c.id - k := (congrArg ContainerRecord.cid hsame).trans hown
  refine ⟨r', List.mem_of_find?_eq_some hlookup, hlookup, ?_⟩
  clear hpos hk
  omega

private theorem size_bounds (hb : b.Tallied) {r : ContainerRecord} (hr : r ∈ b.containerRecordSeq) :
    0 ≤ r.size ∧ r.size < 2 ^ 31 := by
  have hexact := hb.exact r hr
  have hle : bytesIn r.cid b.chunkQueue ≤ bufferedBytes b.chunkQueue := bytesIn_le_bufferedBytes
  have hfits := hb.fits
  omega

private theorem byLength_of_bounds {r r' : ContainerRecord} (hr : 0 ≤ r.size ∧ r.size < 2 ^ 31)
    (hr' : 0 ≤ r'.size ∧ r'.size < 2 ^ 31) : gRecordDescmpByLength r r' = r'.size - r.size := by
  unfold gRecordDescmpByLength
  exact toInt32_eq (by omega) (by omega)

private theorem exact_of_stepInv (hb : StepInv b) : b.Exact := by
  obtain ⟨htallied, hfit⟩ := hb
  exact
    { size := htallied.size
      record := by
        intro c hc hknown
        obtain ⟨r, hr, hlookup, hcid⟩ := lookupRecord_of_known htallied hc hknown
        refine ⟨r, hlookup, hcid, ?_⟩
        rw [← hcid]
        exact htallied.exact r hr
      records := htallied.exact
      byLength := fun r hr r' hr' =>
        byLength_of_bounds (size_bounds htallied hr) (size_bounds htallied hr')
      coverage := by
        intro c hc hknown
        have hcoverage := hfit.coverage c hc hknown
        generalize bytesIn c.id b.chunkQueue = bytes at hcoverage ⊢
        exact toInt32_eq (by omega) (by omega) }

private theorem initRewriteBuffer_stepInv : StepInv initRewriteBuffer := by
  have hwindow : Window 0 initRewriteBuffer.chunkQueue := fun c hc => absurd hc List.not_mem_nil
  refine ⟨(tallied_iff_shift hwindow).mpr initRewriteBuffer_consistent, by decide,
    fun c hc => absurd hc List.not_mem_nil, 0, hwindow⟩

end Steps

section Claim

/-- The record of a container in the utilization monitor is exact after every update exactly where
the bytes of all chunks of the backup that refer to the container fit in an `int`. The rewrite buffer
is exact in every run of its operations each of whose pushes leaves sums that fit. -/
theorem byte_counters_exact (references : List Reference) (n : Nat) (har : Option (IdMap Int))
    (actions : List BufferAction) (b : RewriteBuffer) :
    ((∀ k, MonitorExact (references.take k)) ↔ ∀ cid, referencedBytes cid references < 2 ^ 31) ∧
      (Run (bufferStep n har) FittingAction initRewriteBuffer actions b → b.Exact) := by
  refine ⟨⟨fun h cid => ?_, fun h k => ?_⟩, fun h => ?_⟩
  · have hall := h references.length
    rw [List.take_length] at hall
    exact referencedBytes_lt_of_exact hall cid
  · apply monitorExact_of_fits
    intro r _
    have hle : referencedBytes r.cid (references.take k) ≤ referencedBytes r.cid references :=
      referencedBytes_take_le k
    have hlt := h r.cid
    omega
  · have hstep : ∀ b a, StepInv b → FittingAction b a →
        Ensures (fun _ => True) StepInv (bufferStep n har b a) := by
      intro b a hb ha
      cases hok : bufferStep n har b a with
      | error e => trivial
      | ok b' => exact bufferStep_inv hb ha hok
    exact exact_of_stepInv (h.invariant StepInv initRewriteBuffer_stepInv hstep)

/-- One chunk referred to twice, and one chunk buffered. -/
theorem byte_counters_exact_one_chunk :
    (∀ k, MonitorExact ([⟨3, 100⟩, ⟨3, 100⟩].take k)) ∧
      RewriteBuffer.Exact
        { chunkQueue := [storedChunk 3 10],
          containerRecordSeq := [{ cid := 3, size := 10, outOfOrder := true }], num := 1,
          size := 10 } := by
  obtain ⟨hmonitor, hbuffer⟩ := byte_counters_exact [⟨3, 100⟩, ⟨3, 100⟩] 2 none
    [.push (storedChunk 3 10)]
    { chunkQueue := [storedChunk 3 10]
      containerRecordSeq := [{ cid := 3, size := 10, outOfOrder := true }]
      num := 1
      size := 10 }
  refine ⟨hmonitor.mpr fun cid => ?_, hbuffer ?_⟩
  · by_cases hcid : 3 = cid <;> simp [referencedBytes, hcid]
  · have hpush : bufferStep 2 none initRewriteBuffer (.push (storedChunk 3 10)) = .ok
        { chunkQueue := [storedChunk 3 10],
          containerRecordSeq := [{ cid := 3, size := 10, outOfOrder := true }], num := 1,
          size := 10 } := by decide +kernel
    refine Run.nil.after _ ⟨fun _ => by decide, by decide, ?_, 0, ?_⟩ hpush
    · intro c hc _
      rw [List.mem_singleton.mp hc]
      decide
    · intro c hc _
      rw [List.mem_singleton.mp hc]
      decide

/-- 517 references to one full-sized chunk. -/
theorem repeated_chunk_overflows :
    ¬ ∀ references : List Reference,
      (∀ r ∈ references, 1 ≤ r.size ∧ r.size ≤ containerSize - containerMetaSize) →
        ∀ k, MonitorExact (references.take k) := by
  intro h
  have hsizes : ∀ r ∈ List.replicate 517 (Reference.mk 7 4161536),
      1 ≤ r.size ∧ r.size ≤ containerSize - containerMetaSize := by
    intro r hr
    rw [List.eq_of_mem_replicate hr]
    decide
  have hall := h _ hsizes 517
  rw [List.take_of_length_le (Nat.le_of_eq List.length_replicate)] at hall
  have hlt := referencedBytes_lt_of_exact hall 7
  rw [referencedBytes, List.filter_replicate_of_pos rfl, List.map_replicate,
    List.sum_replicate_nat] at hlt
  exact absurd hlt (by decide)

end Claim

end Destor
