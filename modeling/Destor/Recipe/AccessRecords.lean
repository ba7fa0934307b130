/- digest: The records file holds the containers of the pointers that were appended, repeats
   collapsed, however the pointers were batched. -/

import Destor.Library.Paging
import Destor.Recipe.RecipeFile

set_option autoImplicit false
set_option relaxedAutoImplicit false

namespace Destor

open Library Library.Outcome Library.Bytes Library.Paging

inductive PointersAppended : BackupFile → List ChunkPointer → Prop
  | create (bvNum : Int) (path : List UInt8) :
      PointersAppended (BackupFile.createBackupVersion bvNum path) []
  | segmentStart {b b' : BackupFile} {cps : List ChunkPointer} {id : Int} (n : Nat)
      (before : PointersAppended b cps) (step : b.appendSegmentStart n = .ok (id, b')) :
      PointersAppended b' cps
  | pointers {b b' : BackupFile} {cps : List ChunkPointer} (batch : List ChunkPointer)
      (before : PointersAppended b cps) (step : b.appendNChunkPointers batch = .ok b') :
      PointersAppended b' (cps ++ batch)
  | segmentEnd {b b' : BackupFile} {cps : List ChunkPointer} (before : PointersAppended b cps)
      (step : b.appendSegmentEnd = .ok b') : PointersAppended b' cps
  | fileRecipeMeta {b b' : BackupFile} {cps : List ChunkPointer} (r : FileRecipeMeta)
      (before : PointersAppended b cps) (step : b.appendFileRecipeMeta r = .ok b') :
      PointersAppended b' cps

/-- What a restore reads of the containers that a list of pointers leads to. -/
def accessRecords (ids : List Int) : List Int := changes temporaryId ids ++ [temporaryId]

/-- The bytes of the records that are closed lie in the file and in the buffer. -/
structure RecordsInv (b : BackupFile) (cps : List ChunkPointer) : Prop where
  assigned : ∀ cp ∈ cps, cp.id ≠ temporaryId
  accessRecord : b.accessRecord =
    (temporaryId :: cps.map ChunkPointer.id).getLast (List.cons_ne_nil _ _)
  closed : ∃ written buf records, b.recordbuf = some buf ∧ b.recordFp.Written written ∧
    written ++ buf = records.flatMap (leInt 8) ∧
    records ++ (if b.accessRecord ≠ temporaryId then [b.accessRecord] else []) =
      changes temporaryId (cps.map ChunkPointer.id)

section Steps

variable {b b' : BackupFile} {cps : List ChunkPointer}

/-- What the other operations leave alone. -/
structure SameRecords (b b' : BackupFile) : Prop where
  accessRecord : b'.accessRecord = b.accessRecord
  recordbuf : b'.recordbuf = b.recordbuf
  recordFp : b'.recordFp = b.recordFp

theorem RecordsInv.of_same (h : RecordsInv b cps) (hsame : SameRecords b b') :
    RecordsInv b' cps := by
  constructor
  · exact h.assigned
  · rw [hsame.accessRecord]
    exact h.accessRecord
  · rw [hsame.accessRecord, hsame.recordbuf, hsame.recordFp]
    exact h.closed

theorem sameRecords_appendToSegment {bs : List UInt8} (h : b.appendToSegment bs = .ok b') :
    SameRecords b b' := by
  rw [BackupFile.appendToSegment] at h
  split at h
  · cases h
  · obtain ⟨-, -, h⟩ := bind_ok_iff.mp h
    cases h
    exact ⟨rfl, rfl, rfl⟩

theorem sameRecords_appendSegmentStart {n : Nat} {id : Int}
    (h : b.appendSegmentStart n = .ok (id, b')) : SameRecords b b' := by
  obtain ⟨b₁, hb₁, h⟩ := bind_ok_iff.mp h
  cases h
  have hsame := sameRecords_appendToSegment hb₁
  exact ⟨hsame.accessRecord, hsame.recordbuf, hsame.recordFp⟩

theorem sameRecords_appendSegmentEnd (h : b.appendSegmentEnd = .ok b') : SameRecords b b' := by
  obtain ⟨b₁, hb₁, h⟩ := bind_ok_iff.mp h
  obtain ⟨-, -, h⟩ := bind_ok_iff.mp h
  cases h
  have hsame := sameRecords_appendToSegment hb₁
  exact ⟨hsame.accessRecord, hsame.recordbuf, hsame.recordFp⟩

theorem sameRecords_appendFileRecipeMeta {r : FileRecipeMeta}
    (h : b.appendFileRecipeMeta r = .ok b') : SameRecords b b' := by
  obtain ⟨-, -, h⟩ := bind_ok_iff.mp h
  cases h
  exact ⟨rfl, rfl, rfl⟩

/-- A pointer closes the record before it if it leads into another container. -/
theorem RecordsInv.appendChunkPointer (h : RecordsInv b cps) {cp : ChunkPointer}
    (hok : b.appendChunkPointer cp = .ok b') : RecordsInv b' (cps ++ [cp]) := by
  obtain ⟨u, hid, hok⟩ := bind_ok_iff.mp hok
  obtain ⟨b₁, hb₁, hok⟩ := bind_ok_iff.mp hok
  cases hok
  have hne : cp.id ≠ temporaryId := require_ok_iff.mp hid
  have hsame := sameRecords_appendToSegment hb₁
  refine RecordsInv.of_same (b := { b.appendRecord cp.id with accessRecord := cp.id }) ?_
    ⟨hsame.accessRecord, hsame.recordbuf, hsame.recordFp⟩
  obtain ⟨written, buf, records, hbuf, hfp, htotal, hchanges⟩ := h.closed
  constructor
  · intro cp' hcp'
    rcases List.mem_append.mp hcp' with hold | hnew
    · exact h.assigned cp' hold
    · rwa [List.mem_singleton.mp hnew]
  · simp only [List.map_append, List.map_cons, List.map_nil]
    rw [List.getLast_cons (List.append_ne_nil_of_right_ne_nil _ (List.cons_ne_nil _ _)),
      List.getLast_append_singleton]
  · rw [List.map_append, List.map_singleton, changes_append_singleton, ← h.accessRecord,
      ← hchanges, if_pos hne]
    rw [BackupFile.appendRecord]
    by_cases hclose : b.accessRecord ≠ temporaryId ∧ b.accessRecord ≠ cp.id
    · have hsplit : (records ++ [b.accessRecord]).flatMap (leInt 8) =
          written ++ (buf ++ leInt 8 b.accessRecord) := by
        rw [List.flatMap_append, List.flatMap_singleton, ← htotal, List.append_assoc]
      rw [if_pos hclose, if_neg hclose.2, if_pos hclose.1]
      simp only [hbuf, Option.getD_some]
      by_cases hfull : recordbufsize < buf.length + 8
      · rw [if_pos hfull]
        refine ⟨written ++ buf, _, records ++ [b.accessRecord], rfl, hfp.fwrite buf, ?_, rfl⟩
        rw [hsplit, List.append_assoc]
      · rw [if_neg hfull]
        exact ⟨written, _, records ++ [b.accessRecord], rfl, hfp, hsplit.symm, rfl⟩
    · rw [if_neg hclose]
      refine ⟨written, buf, records, hbuf, hfp, htotal, ?_⟩
      by_cases htemp : b.accessRecord = temporaryId
      · rw [if_neg fun hn => hn htemp, List.append_nil, if_neg]
        exact fun heq => hne (heq.symm.trans htemp)
      · have heq : b.accessRecord = cp.id := by
          by_contra hneq
          exact hclose ⟨htemp, hneq⟩
        rw [if_pos htemp, if_pos heq, heq, List.append_nil]

theorem RecordsInv.appendNChunkPointers (h : RecordsInv b cps) {batch : List ChunkPointer}
    (hok : b.appendNChunkPointers batch = .ok b') : RecordsInv b' (cps ++ batch) := by
  induction batch generalizing b cps with
  | nil =>
      cases hok
      rwa [List.append_nil]
  | cons cp batch ih =>
      obtain ⟨b₁, hb₁, hrest⟩ := bind_ok_iff.mp hok
      have hnext := ih (h.appendChunkPointer hb₁) hrest
      rwa [List.append_assoc, List.singleton_append] at hnext

theorem recordsInv_of_pointersAppended (h : PointersAppended b cps) : RecordsInv b cps := by
  induction h with
  | create bvNum path =>
      constructor
      · exact fun cp hcp => absurd hcp List.not_mem_nil
      · rfl
      · exact ⟨[], [], [], rfl, Stream.written_openWrite, rfl, rfl⟩
  | segmentStart n _ step ih => exact ih.of_same (sameRecords_appendSegmentStart step)
  | pointers batch _ step ih => exact ih.appendNChunkPointers step
  | segmentEnd _ step ih => exact ih.of_same (sameRecords_appendSegmentEnd step)
  | fileRecipeMeta r _ step ih => exact ih.of_same (sameRecords_appendFileRecipeMeta step)

/-- The buffer and the open record are written out, then the terminator. -/
theorem records_updateBackupVersion (h : PointersAppended b cps) :
    (b.updateBackupVersion).recordFp.content =
      (accessRecords (cps.map ChunkPointer.id)).flatMap (leInt 8) := by
  obtain ⟨written, buf, records, hbuf, hfp, htotal, hchanges⟩ :=
    (recordsInv_of_pointersAppended h).closed
  have hflush : (BackupFile.flush b.recordFp b.recordbuf).Written (records.flatMap (leInt 8)) := by
    rw [hbuf, BackupFile.flush, ← htotal]
    split
    · exact hfp.fwrite buf
    · rename_i hempty
      have hnil : buf = [] := List.length_eq_zero_iff.mp (by omega)
      rwa [hnil, List.append_nil]
  have hlast : (if b.accessRecord ≠ temporaryId then
        (BackupFile.flush b.recordFp b.recordbuf).fwrite (leInt 8 b.accessRecord)
      else BackupFile.flush b.recordFp b.recordbuf).Written
        ((changes temporaryId (cps.map ChunkPointer.id)).flatMap (leInt 8)) := by
    rw [← hchanges, List.flatMap_append]
    split
    · rw [List.flatMap_singleton]
      exact hflush.fwrite _
    · rwa [List.flatMap_nil, List.append_nil]
  rw [accessRecords, List.flatMap_append, List.flatMap_singleton]
  exact (hlast.fwrite (leInt 8 temporaryId)).content

end Steps

end Destor
