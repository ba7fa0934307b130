/- digest: What the filter thread records of a stream, and what a restore reads back of it. -/

import Destor.FilterPhase
import Destor.Library.Paging
import Destor.Restore.DoRestore

set_option autoImplicit false
set_option relaxedAutoImplicit false

namespace Destor

open Library.Outcome Library.Paging

/-- A file of a backup, with a pointer for each of its chunks. -/
structure StoredFile where
  name : List UInt8
  pointers : List ChunkPointer

namespace StoredFile

/-- The chunks of the file as they reach the end of the filter phase. -/
def stream (f : StoredFile) : List Chunk :=
  Chunk.fileStart f.name :: f.pointers.map ChunkPointer.toChunk ++ [Chunk.fileEnd]

def fileRecipeMeta (f : StoredFile) : FileRecipeMeta :=
  { filename := f.name, chunknum := f.pointers.length
    filesize := (f.pointers.map ChunkPointer.size).sum }

/-- The chunks of the file as `read_recipe_thread` hands them on. -/
def restoreStream (f : StoredFile) : List Chunk :=
  f.fileRecipeMeta.startChunk :: f.pointers.map ChunkPointer.toChunk ++ [Chunk.fileEnd]

end StoredFile

/-- A backup as the filter thread sees it: its files, and the segments their stream is cut into. -/
structure RecordedBackup where
  files : List StoredFile
  segments : List (List Chunk)
  cut : segments.flatten = files.flatMap StoredFile.stream

namespace RecordedBackup

def pointers (rb : RecordedBackup) : List ChunkPointer := rb.files.flatMap StoredFile.pointers

def restoreStream (rb : RecordedBackup) : List Chunk := rb.files.flatMap StoredFile.restoreStream

def writeSegment (s : BackupVersion × Option FileRecipeMeta) (segment : List Chunk) :
    Except Abort (BackupVersion × Option FileRecipeMeta) := do
  let r ← writeRecipe s.1 s.2 (segment.filter Chunk.isNormal).length segment
  return r.2

def write (rb : RecordedBackup) (bvNum : Nat) : Except Abort BackupVersion := do
  let s ← foldE writeSegment (createBackupVersion bvNum, none) rb.segments
  return updateBackupVersion s.1

end RecordedBackup

section Write

/-- The description of a stream, chunk by chunk: the open file, the closed ones, the pointers. -/
structure Description where
  opened : Option FileRecipeMeta := none
  metas : List FileRecipeMeta := []
  pointers : List ChunkPointer := []

def Description.push (d : Description) (c : Chunk) : Description :=
  match d.opened with
  | none => { d with opened := some (newFileRecipeMeta c.data) }
  | some r =>
      if c.flag.fileEnd then { d with opened := none, metas := d.metas ++ [r] }
      else { d with
        opened := some { r with chunknum := r.chunknum + 1, filesize := r.filesize + c.size }
        pointers := d.pointers ++ [{ fp := c.fp, id := c.id, size := c.size }] }

/-- A stream that may follow, a file being open or not. -/
def wellFormed : Bool → List Chunk → Prop
  | inFile, [] => inFile = false
  | false, c :: cs => c.flag.fileStart = true ∧ wellFormed true cs
  | true, c :: cs => if c.flag.fileEnd then wellFormed false cs else 0 ≤ c.id ∧ wellFormed true cs

/-- A record of a recipe that is no boundary of a segment. -/
def ChunkPointer.isPointer (cp : ChunkPointer) : Bool :=
  cp.id != 0 - chunkSegmentStart && cp.id != 0 - chunkSegmentEnd

structure Describes (bv : BackupVersion) (d : Description) : Prop where
  metas : bv.metas = d.metas
  numberOfFiles : bv.numberOfFiles = d.metas.length
  numberOfChunks : bv.numberOfChunks = d.pointers.length
  pointers : (bv.recipe ++ bv.segmentbuf).filter ChunkPointer.isPointer = d.pointers
  accessRecord : bv.accessRecord =
    (temporaryId :: d.pointers.map ChunkPointer.id).getLast (List.cons_ne_nil _ _)
  records : bv.records ++ (if bv.accessRecord ≠ temporaryId then [bv.accessRecord] else []) =
    changes temporaryId (d.pointers.map ChunkPointer.id)

variable {bv : BackupVersion} {d : Description}

theorem isPointer_of_nonneg {cp : ChunkPointer} (h : 0 ≤ cp.id) : cp.isPointer = true := by
  have hstart : cp.id ≠ 0 - chunkSegmentStart := by
    unfold chunkSegmentStart
    omega
  have hend : cp.id ≠ 0 - chunkSegmentEnd := by
    unfold chunkSegmentEnd
    omega
  unfold ChunkPointer.isPointer
  rw [bne_iff_ne.mpr hstart, bne_iff_ne.mpr hend]
  rfl

theorem describes_create (bvNum : Nat) : Describes (createBackupVersion bvNum) {} :=
  ⟨rfl, rfl, rfl, rfl, rfl, rfl⟩

/-- A pointer closes the access record before it if it leads to another container. -/
theorem Describes.appendChunkPointer (h : Describes bv d) {cp : ChunkPointer} (hid : 0 ≤ cp.id)
    (opened : Option FileRecipeMeta) :
    ∃ bv', Destor.appendChunkPointer bv cp = .ok bv' ∧
      Describes bv' { d with opened := opened, pointers := d.pointers ++ [cp] } := by
  have hne : cp.id ≠ temporaryId := ne_temporaryId_of_nonneg hid
  refine ⟨_, bind_ok_iff.mpr ⟨(), require_of hne, rfl⟩, h.metas, h.numberOfFiles, ?_, ?_, ?_, ?_⟩
  · show bv.numberOfChunks + 1 = (d.pointers ++ [cp]).length
    rw [h.numberOfChunks, List.length_append, List.length_singleton]
  · show (bv.recipe ++ (bv.segmentbuf ++ [cp])).filter ChunkPointer.isPointer = d.pointers ++ [cp]
    rw [← List.append_assoc, List.filter_append, h.pointers,
      List.filter_cons_of_pos (isPointer_of_nonneg hid), List.filter_nil]
  · show cp.id = _
    simp only [List.map_append, List.map_cons, List.map_nil]
    rw [List.getLast_cons (by simp), List.getLast_append_singleton]
  · show (if bv.accessRecord ≠ temporaryId ∧ bv.accessRecord ≠ cp.id then
        bv.records ++ [bv.accessRecord] else bv.records) ++
      (if cp.id ≠ temporaryId then [cp.id] else []) = _
    have hrecords := h.records
    simp only [List.map_append, List.map_cons, List.map_nil]
    rw [changes_append_singleton, ← h.accessRecord, ← hrecords, if_pos hne]
    by_cases heq : bv.accessRecord = cp.id
    · rw [if_neg (fun hc => hc.2 heq), if_pos heq, heq, if_pos hne, List.append_nil]
    · rw [if_neg heq]
      by_cases htemp : bv.accessRecord = temporaryId
      · rw [if_neg (fun hc => hc.1 htemp), if_neg (fun hc => hc htemp), List.append_nil]
      · rw [if_pos ⟨htemp, heq⟩, if_pos htemp]

theorem Describes.writeRecipeChunk (h : Describes bv d) {c : Chunk} {cs : List Chunk}
    (hwf : wellFormed d.opened.isSome (c :: cs)) :
    ∃ bv', Destor.writeRecipeChunk (bv, d.opened) c = .ok (bv', (d.push c).opened) ∧
      Describes bv' (d.push c) ∧ wellFormed (d.push c).opened.isSome cs := by
  obtain ⟨opened, metas, pointers⟩ := d
  cases opened with
  | none =>
      obtain ⟨hstart, hcs⟩ := hwf
      refine ⟨bv, ?_, ⟨h.metas, h.numberOfFiles, h.numberOfChunks, h.pointers, h.accessRecord,
        h.records⟩, hcs⟩
      unfold Destor.writeRecipeChunk
      simp only [require_of hstart]
      rfl
  | some r =>
      by_cases hend : c.flag.fileEnd = true
      · simp only [Option.isSome_some, wellFormed, hend, if_true] at hwf
        have hpush : (Description.push ⟨some r, metas, pointers⟩ c) =
            ⟨none, metas ++ [r], pointers⟩ := by
          simp [Description.push, hend]
        rw [hpush]
        refine ⟨appendFileRecipeMeta bv r, ?_, ⟨?_, ?_, h.numberOfChunks, h.pointers,
          h.accessRecord, h.records⟩, hwf⟩
        · simp [Destor.writeRecipeChunk, hend]
        · show bv.metas ++ [r] = metas ++ [r]
          rw [h.metas]
        · show bv.numberOfFiles + 1 = (metas ++ [r]).length
          rw [h.numberOfFiles, List.length_append, List.length_singleton]
      · simp only [Option.isSome_some, wellFormed, if_neg hend] at hwf
        obtain ⟨hid, hcs⟩ := hwf
        have hpush : (Description.push ⟨some r, metas, pointers⟩ c) =
            ⟨some { r with chunknum := r.chunknum + 1, filesize := r.filesize + c.size }, metas,
              pointers ++ [{ fp := c.fp, id := c.id, size := c.size }]⟩ := by
          simp [Description.push, hend]
        rw [hpush]
        have hid' : 0 ≤ (⟨c.fp, c.id, c.size⟩ : ChunkPointer).id := hid
        obtain ⟨bv', hok, hdesc⟩ := h.appendChunkPointer hid'
          (some { r with chunknum := r.chunknum + 1, filesize := r.filesize + c.size })
        refine ⟨bv', ?_, hdesc, hcs⟩
        simp only [Destor.writeRecipeChunk, if_neg hend, require_of hid, hok]
        rfl

theorem Describes.foldE_writeRecipeChunk {segment rest : List Chunk} (h : Describes bv d)
    (hwf : wellFormed d.opened.isSome (segment ++ rest)) :
    ∃ bv', foldE Destor.writeRecipeChunk (bv, d.opened) segment =
        .ok (bv', (segment.foldl Description.push d).opened) ∧
      Describes bv' (segment.foldl Description.push d) ∧
      wellFormed (segment.foldl Description.push d).opened.isSome rest := by
  induction segment generalizing bv d with
  | nil => exact ⟨bv, rfl, h, hwf⟩
  | cons c segment ih =>
      obtain ⟨bv₁, hok₁, hdesc₁, hwf₁⟩ := h.writeRecipeChunk hwf
      obtain ⟨bv₂, hok₂, hdesc₂, hwf₂⟩ := ih hdesc₁ hwf₁
      exact ⟨bv₂, bind_ok_iff.mpr ⟨_, hok₁, hok₂⟩, hdesc₂, hwf₂⟩

/-- The boundaries of a segment are no pointers. -/
theorem Describes.writeSegment {segment rest : List Chunk} (h : Describes bv d)
    (hbuf : bv.segmentbuf = []) (hwf : wellFormed d.opened.isSome (segment ++ rest)) :
    ∃ bv', RecordedBackup.writeSegment (bv, d.opened) segment =
        .ok (bv', (segment.foldl Description.push d).opened) ∧
      Describes bv' (segment.foldl Description.push d) ∧ bv'.segmentbuf = [] ∧
      wellFormed (segment.foldl Description.push d).opened.isSome rest := by
  have hstart : ∀ n, Describes (appendSegmentStart bv n).2 d := by
    intro n
    refine ⟨h.metas, h.numberOfFiles, h.numberOfChunks, ?_, h.accessRecord, h.records⟩
    show (bv.recipe ++ [segmentFlag chunkSegmentStart n]).filter ChunkPointer.isPointer = _
    rw [List.filter_append, ← h.pointers, hbuf, List.append_nil]
    exact List.append_nil _
  obtain ⟨bv', hok, hdesc, hwf'⟩ :=
    (hstart (segment.filter Chunk.isNormal).length).foldE_writeRecipeChunk hwf
  refine ⟨appendSegmentEnd bv', ?_, ⟨hdesc.metas, hdesc.numberOfFiles, hdesc.numberOfChunks, ?_,
    hdesc.accessRecord, hdesc.records⟩, rfl, hwf'⟩
  · refine bind_ok_iff.mpr ⟨_, bind_ok_iff.mpr ⟨_, hok, rfl⟩, rfl⟩
  · show (bv'.recipe ++ bv'.segmentbuf ++ [segmentFlag chunkSegmentEnd 0] ++ []).filter
      ChunkPointer.isPointer = _
    rw [List.append_nil, List.filter_append, hdesc.pointers]
    exact List.append_nil _

theorem Describes.foldE_writeSegment {segments : List (List Chunk)} (h : Describes bv d)
    (hbuf : bv.segmentbuf = []) (hwf : wellFormed d.opened.isSome segments.flatten) :
    ∃ bv', foldE RecordedBackup.writeSegment (bv, d.opened) segments =
        .ok (bv', (segments.flatten.foldl Description.push d).opened) ∧
      Describes bv' (segments.flatten.foldl Description.push d) ∧ bv'.segmentbuf = [] := by
  induction segments generalizing bv d with
  | nil => exact ⟨bv, rfl, h, hbuf⟩
  | cons segment segments ih =>
      rw [List.flatten_cons] at hwf
      obtain ⟨bv₁, hok₁, hdesc₁, hbuf₁, hwf₁⟩ := h.writeSegment hbuf hwf
      obtain ⟨bv₂, hok₂, hrest⟩ := ih hdesc₁ hbuf₁ hwf₁
      rw [List.flatten_cons, List.foldl_append]
      exact ⟨bv₂, bind_ok_iff.mpr ⟨_, hok₁, hok₂⟩, hrest⟩

private theorem foldl_push_pointers (pointers : List ChunkPointer) (r : FileRecipeMeta)
    (metas : List FileRecipeMeta) (before : List ChunkPointer) :
    (pointers.map ChunkPointer.toChunk).foldl Description.push ⟨some r, metas, before⟩ =
      ⟨some { r with
          chunknum := r.chunknum + pointers.length
          filesize := r.filesize + (pointers.map ChunkPointer.size).sum },
        metas, before ++ pointers⟩ := by
  induction pointers generalizing r before with
  | nil => simp
  | cons cp pointers ih =>
      have hpush : Description.push ⟨some r, metas, before⟩ cp.toChunk =
          ⟨some { r with chunknum := r.chunknum + 1, filesize := r.filesize + cp.size }, metas,
            before ++ [cp]⟩ := rfl
      rw [List.map_cons, List.foldl_cons, hpush, ih]
      simp [Nat.add_assoc, Nat.add_comm 1]

private theorem foldl_push_file (f : StoredFile) (metas : List FileRecipeMeta)
    (before : List ChunkPointer) :
    f.stream.foldl Description.push ⟨none, metas, before⟩ =
      ⟨none, metas ++ [f.fileRecipeMeta], before ++ f.pointers⟩ := by
  have hstart : Description.push ⟨none, metas, before⟩ (Chunk.fileStart f.name) =
      ⟨some (newFileRecipeMeta f.name), metas, before⟩ := rfl
  unfold StoredFile.stream
  rw [List.cons_append, List.foldl_cons, hstart, List.foldl_append, foldl_push_pointers]
  simp [Description.push, Chunk.fileEnd, newFileRecipeMeta, StoredFile.fileRecipeMeta]

theorem foldl_push_files (files : List StoredFile) (metas : List FileRecipeMeta)
    (before : List ChunkPointer) :
    (files.flatMap StoredFile.stream).foldl Description.push ⟨none, metas, before⟩ =
      ⟨none, metas ++ files.map StoredFile.fileRecipeMeta,
        before ++ files.flatMap StoredFile.pointers⟩ := by
  induction files generalizing metas before with
  | nil => simp
  | cons f files ih =>
      rw [List.flatMap_cons, List.foldl_append, foldl_push_file, ih]
      simp

/-- The stream of some files is well formed, given the ids of stored chunks. -/
theorem wellFormed_files {files : List StoredFile}
    (hids : ∀ f ∈ files, ∀ cp ∈ f.pointers, 0 ≤ cp.id) :
    wellFormed false (files.flatMap StoredFile.stream) := by
  induction files with
  | nil => rfl
  | cons f files ih =>
      obtain ⟨hf, hfiles⟩ := List.forall_mem_cons.mp hids
      have hrest := ih hfiles
      have hchunks : ∀ pointers : List ChunkPointer, (∀ cp ∈ pointers, 0 ≤ cp.id) →
          wellFormed true (pointers.map ChunkPointer.toChunk ++
            Chunk.fileEnd :: files.flatMap StoredFile.stream) := by
        intro pointers
        induction pointers with
        | nil => exact fun _ => hrest
        | cons cp pointers ihp =>
            intro hall
            obtain ⟨hcp, hpointers⟩ := List.forall_mem_cons.mp hall
            exact ⟨hcp, ihp hpointers⟩
      have hfile := hchunks f.pointers hf
      rw [List.flatMap_cons, StoredFile.stream, List.cons_append, List.cons_append,
        List.append_assoc]
      exact ⟨rfl, hfile⟩

structure Recorded (bv : BackupVersion) (rb : RecordedBackup) : Prop where
  metas : bv.metas = rb.files.map StoredFile.fileRecipeMeta
  numberOfFiles : bv.numberOfFiles = rb.files.length
  numberOfChunks : bv.numberOfChunks = rb.pointers.length
  pointers : bv.recipe.filter ChunkPointer.isPointer = rb.pointers
  records : bv.records = changes temporaryId (rb.pointers.map ChunkPointer.id) ++ [temporaryId]

/-- The filter thread records every backup whose pointers lead into containers, however it is
cut into segments. -/
theorem RecordedBackup.write_recorded (rb : RecordedBackup) (bvNum : Nat)
    (hids : ∀ cp ∈ rb.pointers, 0 ≤ cp.id) :
    ∃ bv, rb.write bvNum = .ok bv ∧ Recorded bv rb := by
  have hwf : wellFormed false rb.segments.flatten := by
    rw [rb.cut]
    exact wellFormed_files fun f hf cp hcp => hids cp (List.mem_flatMap.mpr ⟨f, hf, hcp⟩)
  obtain ⟨bv, hok, hdesc, hbuf⟩ := (describes_create bvNum).foldE_writeSegment rfl hwf
  rw [rb.cut, foldl_push_files] at hok hdesc
  refine ⟨updateBackupVersion bv, bind_ok_iff.mpr ⟨_, hok, rfl⟩, ?_, ?_, hdesc.numberOfChunks,
    ?_, ?_⟩
  · exact hdesc.metas.trans (List.nil_append _)
  · apply hdesc.numberOfFiles.trans
    simp
  · have hpointers := hdesc.pointers
    rw [hbuf, List.append_nil] at hpointers
    exact hpointers
  · have hrecords := hdesc.records
    show (if bv.accessRecord ≠ temporaryId then bv.records ++ [bv.accessRecord]
      else bv.records) ++ [temporaryId] = _
    rw [RecordedBackup.pointers, ← List.nil_append (List.flatMap _ _), ← hrecords]
    split <;> simp

end Write

section Read

variable {bv : BackupVersion}

theorem nextPointer_eq {rest ps : List ChunkPointer} {cp : ChunkPointer}
    (h : rest.filter ChunkPointer.isPointer = cp :: ps) :
    ∃ rest', nextPointer rest = some (cp, rest') ∧ rest'.filter ChunkPointer.isPointer = ps := by
  induction rest with
  | nil => cases h
  | cons a rest ih =>
      unfold nextPointer
      by_cases ha : a.isPointer = true
      · rw [List.filter_cons_of_pos ha] at h
        obtain ⟨rfl, hps⟩ := List.cons.inj h
        have hids : ¬ (a.id = 0 - chunkSegmentStart ∨ a.id = 0 - chunkSegmentEnd) := by
          simpa [ChunkPointer.isPointer] using ha
        exact ⟨rest, if_neg hids, hps⟩
      · rw [List.filter_cons_of_neg ha] at h
        have hids : a.id = 0 - chunkSegmentStart ∨ a.id = 0 - chunkSegmentEnd := by
          have hnot := ha
          simp only [ChunkPointer.isPointer, Bool.and_eq_true, bne_iff_ne, ne_eq] at hnot
          by_contra hor
          exact hnot (not_or.mp hor)
        rw [if_pos hids]
        exact ih h

theorem readNextChunkPointer_eq {n : Nat} (hn : n < bv.numberOfChunks)
    {rest ps : List ChunkPointer} {cp : ChunkPointer}
    (h : rest.filter ChunkPointer.isPointer = cp :: ps) :
    ∃ rest', readNextChunkPointer bv (toInt32 n) rest = .ok (cp, toInt32 (n + 1 : Nat), rest') ∧
      rest'.filter ChunkPointer.isPointer = ps := by
  obtain ⟨rest', hnext, hrest'⟩ := nextPointer_eq h
  have hle : toInt32 n ≤ n := toInt32_le (by omega)
  have hnumber : toInt32 (toInt32 n + 1) = toInt32 (n + 1 : Nat) := by
    rw [toInt32_add]
    rfl
  have hassert : toInt32 (toInt32 n + 1) ≤ bv.numberOfChunks := by
    rw [hnumber]
    have := toInt32_le (x := (n + 1 : Nat)) (by omega)
    omega
  refine ⟨rest', ?_, hrest'⟩
  unfold readNextChunkPointer
  rw [if_neg (by omega), hnext]
  refine bind_ok_iff.mpr ⟨(), require_of hassert, ?_⟩
  rw [hnumber]
  rfl

theorem readFileChunks_eq {chunknum n : Nat} (hchunknum : chunknum < 2 ^ 31)
    {pointers ps rest : List ChunkPointer} {j : Nat} (hj : j + pointers.length = chunknum)
    (hn : n + pointers.length ≤ bv.numberOfChunks)
    (h : rest.filter ChunkPointer.isPointer = pointers ++ ps) :
    ∃ rest', readFileChunks bv chunknum j (toInt32 n) rest =
        .ok (pointers.map ChunkPointer.toChunk, toInt32 (n + pointers.length : Nat), rest') ∧
      rest'.filter ChunkPointer.isPointer = ps := by
  induction pointers generalizing j n rest with
  | nil =>
      rw [List.length_nil] at hj
      exact ⟨rest, readFileChunks_of_le (by omega), h⟩
  | cons cp pointers ih =>
      rw [List.length_cons] at hj hn
      have hmore : n < bv.numberOfChunks := by omega
      obtain ⟨rest₁, hnext, hrest₁⟩ := readNextChunkPointer_eq hmore h
      obtain ⟨rest₂, hloop, hrest₂⟩ := ih (j := j + 1) (n := n + 1) (by omega) (by omega) hrest₁
      refine ⟨rest₂, ?_, hrest₂⟩
      have hcount : toInt32 ((j : Int) + 1) = (j + 1 : Nat) := toInt32_eq (by omega) (by omega)
      rw [readFileChunks_of_lt (by omega), hcount]
      refine bind_ok_iff.mpr ⟨_, hnext, bind_ok_iff.mpr ⟨_, hloop, ?_⟩⟩
      rw [List.length_cons, Nat.add_right_comm, List.map_cons]
      rfl

/-- The counters of `read_recipe_thread` reach the numbers of files and chunks. -/
structure RecordedBackup.CountsFit (rb : RecordedBackup) : Prop where
  files : rb.files.length < 2 ^ 31
  chunks : ∀ f ∈ rb.files, f.pointers.length < 2 ^ 31

/-- The files that are left, `i` having been read. -/
theorem readFiles_eq {files : List StoredFile} {rest : List ChunkPointer} {i n : Nat}
    (hi : i + files.length = bv.numberOfFiles) (hfiles : bv.numberOfFiles < 2 ^ 31)
    (hchunks : ∀ f ∈ files, f.pointers.length < 2 ^ 31)
    (hn : n + (files.flatMap StoredFile.pointers).length ≤ bv.numberOfChunks)
    (h : rest.filter ChunkPointer.isPointer = files.flatMap StoredFile.pointers) :
    readFiles bv i (files.map StoredFile.fileRecipeMeta) (toInt32 n) rest =
      .ok (files.flatMap StoredFile.restoreStream) := by
  induction files generalizing i n rest with
  | nil =>
      rw [List.length_nil] at hi
      exact if_neg (by omega)
  | cons f files ih =>
      obtain ⟨hf, hchunks⟩ := List.forall_mem_cons.mp hchunks
      rw [List.flatMap_cons, List.length_append] at hn
      rw [List.flatMap_cons] at h
      rw [List.length_cons] at hi
      have hfits : n + f.pointers.length ≤ bv.numberOfChunks := by omega
      obtain ⟨rest', hfile, hrest'⟩ := readFileChunks_eq hf (j := 0) (Nat.zero_add _) hfits h
      have hloop := ih (i := i + 1) (by omega) hchunks (n := n + f.pointers.length) (by omega) hrest'
      have hcount : toInt32 ((i : Int) + 1) = (i + 1 : Nat) := toInt32_eq (by omega) (by omega)
      rw [List.map_cons, readFiles, if_pos (by omega), hcount]
      refine bind_ok_iff.mpr ⟨_, hfile, bind_ok_iff.mpr ⟨_, hloop, ?_⟩⟩
      simp [StoredFile.restoreStream, pure, Except.pure]

variable {rb : RecordedBackup}

/-- The recipe gives back the files with their pointers in order. -/
theorem Recorded.readRecipeThread (h : Recorded bv rb) (hcounts : rb.CountsFit) :
    Destor.readRecipeThread bv = .ok rb.restoreStream := by
  unfold Destor.readRecipeThread
  rw [h.metas]
  refine readFiles_eq (i := 0) (n := 0) ?_ ?_ hcounts.chunks ?_ h.pointers
  · exact (Nat.zero_add _).trans h.numberOfFiles.symm
  · rw [h.numberOfFiles]
    exact hcounts.files
  · rw [Nat.zero_add]
    exact Nat.le_of_eq h.numberOfChunks.symm

/-- A loop that comes to its end has counted every file and every chunk. -/
theorem chunks_of_readFiles {files : List StoredFile} {rest : List ChunkPointer} {i : Nat} {read : Int}
    (hi : i + files.length = bv.numberOfFiles) (hfiles : bv.numberOfFiles < 2 ^ 31)
    {stream : List Chunk}
    (h : readFiles bv i (files.map StoredFile.fileRecipeMeta) read rest = .ok stream) :
    ∀ f ∈ files, f.pointers.length < 2 ^ 31 := by
  induction files generalizing i read rest stream with
  | nil => exact fun f hf => absurd hf List.not_mem_nil
  | cons f files ih =>
      rw [List.length_cons] at hi
      have hcount : toInt32 ((i : Int) + 1) = (i + 1 : Nat) := toInt32_eq (by omega) (by omega)
      rw [List.map_cons, readFiles, if_pos (by omega), hcount] at h
      obtain ⟨⟨cs, read', rest'⟩, hchunks, h⟩ := bind_ok_iff.mp h
      obtain ⟨stream', hloop, -⟩ := bind_ok_iff.mp h
      refine List.forall_mem_cons.mpr ⟨?_, ih (by omega) hloop⟩
      by_contra hmany
      exact readFileChunks_ne_ok (Nat.le_of_not_lt hmany) (by decide) _ hchunks

/-- The thread comes to its end where its counters do. -/
theorem Recorded.countsFit (h : Recorded bv rb) {stream : List Chunk}
    (hok : Destor.readRecipeThread bv = .ok stream) : rb.CountsFit := by
  unfold Destor.readRecipeThread at hok
  have hfiles : bv.numberOfFiles < 2 ^ 31 := by
    by_contra hmany
    exact readFiles_ne_ok (Nat.le_of_not_lt hmany) (by decide) stream hok
  rw [h.metas] at hok
  refine ⟨h.numberOfFiles ▸ hfiles, chunks_of_readFiles (i := 0) ?_ hfiles hok⟩
  exact (Nat.zero_add _).trans h.numberOfFiles.symm

end Read

end Destor
