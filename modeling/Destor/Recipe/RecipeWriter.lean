/- digest: The filter thread writes the files of a version; they hold what its records say. -/

import Destor.Recipe.RecipeFile
import Destor.Restore.RecordedBackup
import Destor.SegmentStep

set_option autoImplicit false
set_option relaxedAutoImplicit false

namespace Destor

open Library Library.Outcome Library.Bytes

namespace BackupFile

/-- The loop body of `filter_thread` that writes the recipe, on the files of the version. -/
def writeRecipeChunk (s : BackupFile × Option FileRecipeMeta) (c : Chunk) :
    Except Abort (BackupFile × Option FileRecipeMeta) :=
  match s with
  | (bv, none) => do
      require (c.flag.fileStart = true) .fileStartExpected
      return (bv, some (newFileRecipeMeta c.data))
  | (bv, some r) =>
      if c.flag.fileEnd then do
        let bv ← appendFileRecipeMeta bv r
        return (bv, none)
      else do
        require (0 ≤ c.id) .negativeContainerId
        let bv ← appendNChunkPointers bv [{ fp := c.fp, id := c.id, size := c.size }]
        return (bv, some { r with chunknum := r.chunknum + 1, filesize := r.filesize + c.size })

/-- What `filter_thread` does with one segment: its start flag, its chunks, its end flag. -/
def writeSegment (s : BackupFile × Option FileRecipeMeta) (segment : List Chunk) :
    Except Abort (BackupFile × Option FileRecipeMeta) := do
  let (_, bv) ← appendSegmentStart s.1 (segment.filter Chunk.isNormal).length
  let (bv, r) ← foldE writeRecipeChunk (bv, s.2) segment
  let bv ← appendSegmentEnd bv
  return (bv, r)

def writeBackup (dir : RecipeDir) (bvNum : Int) (path : List UInt8) (segments : List (List Chunk)) :
    Except Abort RecipeDir := do
  let s ← foldE writeSegment (createBackupVersion bvNum path, none) segments
  return freeBackupVersion dir (updateBackupVersion s.1)

end BackupFile

/-- The longest file name that a description is known to have room for in the metadata buffer. -/
def nameBound : Nat := 65000

structure VersionFiles.Holds (files : VersionFiles) (bv : BackupVersion) (path : List UInt8) :
    Prop where
  metadata : files.metadata =
    leInt 4 bv.bvNum ++ leInt 4 0 ++ leInt 8 bv.numberOfFiles ++ leInt 8 bv.numberOfChunks ++
      leInt 4 path.length ++ path ++ bv.metas.flatMap FileRecipeMeta.bytes
  recipe : files.recipe = bv.recipe.flatMap ChunkPointer.bytes
  records : files.records = bv.records.flatMap (leInt 8)

section Layout

@[simp] theorem length_fingerprint (fp : Fingerprint) : fp.bytes.length = 20 := fp.length_eq

@[simp] theorem ChunkPointer.length_bytes (cp : ChunkPointer) :
    cp.bytes.length = chunkPointerSize := by
  simp [ChunkPointer.bytes, chunkPointerSize]

@[simp] theorem FileRecipeMeta.length_bytes (r : FileRecipeMeta) :
    r.bytes.length = r.filename.length + 20 := by
  simp only [FileRecipeMeta.bytes, List.length_append, length_leInt]
  omega

theorem length_flatMap_pointers (cps : List ChunkPointer) :
    (cps.flatMap ChunkPointer.bytes).length = chunkPointerSize * cps.length := by
  induction cps with
  | nil => rfl
  | cons cp cps ih =>
      rw [List.flatMap_cons, List.length_append, ih, ChunkPointer.length_bytes, List.length_cons,
        Nat.mul_succ, Nat.add_comm]

end Layout

section Simulation

/-- The files of a version and its buffers hold what its records say. -/
structure RepresentsVersion (b : BackupFile) (bv : BackupVersion) (path : List UInt8) : Prop where
  bvNum : b.bvNum = bv.bvNum
  deleted : b.deleted = 0
  path_eq : b.path = path
  numberOfFiles : b.numberOfFiles = bv.numberOfFiles
  numberOfChunks : b.numberOfChunks = bv.numberOfChunks
  accessRecord : b.accessRecord = bv.accessRecord
  metadata : ∃ head written buf, b.metabuf = some buf ∧ head.length = b.header.length ∧
    b.metadataFp.Written (head ++ written) ∧
    written ++ buf = bv.metas.flatMap FileRecipeMeta.bytes
  recipe : b.recipeFp.Written (bv.recipe.flatMap ChunkPointer.bytes)
  records : ∃ written buf, b.recordbuf = some buf ∧ b.recordFp.Written written ∧
    written ++ buf = bv.records.flatMap (leInt 8)

structure InSegment (b : BackupFile) (bv : BackupVersion) (path : List UInt8) (n : Nat) : Prop
    extends RepresentsVersion b bv path where
  buffer : b.segmentbuf = some (bv.segmentbuf.flatMap ChunkPointer.bytes)
  room : b.segmentlen = (chunkPointerSize * (n + 2) : Nat)

variable {b : BackupFile} {bv : BackupVersion} {path : List UInt8} {n : Nat}

theorem represents_create (bvNum : Nat) (path : List UInt8) :
    RepresentsVersion (BackupFile.createBackupVersion bvNum path) (createBackupVersion bvNum)
      (path.reverse.dropWhile (· != 47)).reverse := by
  refine ⟨rfl, rfl, rfl, rfl, rfl, rfl, ?_, Stream.written_openWrite, ?_⟩
  · refine ⟨_, [], [], rfl, rfl, ?_, rfl⟩
    rw [List.append_nil]
    exact Stream.written_openWrite.fwrite _
  · exact ⟨[], [], rfl, Stream.written_openWrite, rfl⟩

/-- A description is put into the buffer, which is written out first if it is full. -/
theorem RepresentsVersion.appendFileRecipeMeta (h : RepresentsVersion b bv path) {r : FileRecipeMeta}
    (hname : r.filename.length < nameBound) :
    ∃ b', b.appendFileRecipeMeta r = .ok b' ∧
      RepresentsVersion b' (Destor.appendFileRecipeMeta bv r) path ∧
      b'.segmentbuf = b.segmentbuf ∧ b'.segmentlen = b.segmentlen := by
  obtain ⟨head, written, buf, hbuf, hhead, hfp, htotal⟩ := h.metadata
  have hlength : r.bytes.length = r.filename.length + 20 := r.length_bytes
  have hmetas : (bv.metas ++ [r]).flatMap FileRecipeMeta.bytes =
      bv.metas.flatMap FileRecipeMeta.bytes ++ r.bytes := by
    rw [List.flatMap_append, List.flatMap_singleton]
  have hfiles : b.numberOfFiles + 1 = ((bv.numberOfFiles + 1 : Nat) : Int) := by
    rw [h.numberOfFiles]
    rfl
  unfold BackupFile.appendFileRecipeMeta
  simp only [hbuf, Option.getD_some]
  by_cases hfull : metabufsize < buf.length + (4 + r.filename.length + 8 + 8)
  · have hfits : r.bytes.length ≤ metabufsize := by
      unfold metabufsize
      unfold nameBound at hname
      omega
    simp only [hfull, decide_true, if_true, require_of hfits]
    refine ⟨_, rfl, ⟨h.bvNum, h.deleted, h.path_eq, hfiles, h.numberOfChunks, h.accessRecord, ?_,
      h.recipe, h.records⟩, rfl, rfl⟩
    refine ⟨head, written ++ buf, r.bytes, rfl, hhead, ?_, ?_⟩
    · rw [← List.append_assoc]
      exact hfp.fwrite buf
    · rw [htotal]
      exact hmetas.symm
  · have hfits : (buf ++ r.bytes).length ≤ metabufsize := by
      rw [List.length_append]
      omega
    simp only [hfull, decide_false, Bool.false_eq_true, if_false, require_of hfits]
    refine ⟨_, rfl, ⟨h.bvNum, h.deleted, h.path_eq, hfiles, h.numberOfChunks, h.accessRecord, ?_,
      h.recipe, h.records⟩, rfl, rfl⟩
    refine ⟨head, written, buf ++ r.bytes, rfl, hhead, hfp, ?_⟩
    rw [← List.append_assoc, htotal]
    exact hmetas.symm

/-- A `memcpy` of one record into the segment buffer. -/
theorem appendToSegment_record (cp : ChunkPointer) {cps : List ChunkPointer}
    (hbuf : b.segmentbuf = some (cps.flatMap ChunkPointer.bytes))
    (hroom : b.segmentlen = (chunkPointerSize * (n + 2) : Nat)) (hlt : cps.length < n + 2) :
    b.appendToSegment cp.bytes =
      .ok { b with segmentbuf := some ((cps ++ [cp]).flatMap ChunkPointer.bytes) } := by
  have happend : (cps ++ [cp]).flatMap ChunkPointer.bytes =
      cps.flatMap ChunkPointer.bytes ++ cp.bytes := by
    rw [List.flatMap_append, List.flatMap_singleton]
  have hlength : (cps.flatMap ChunkPointer.bytes ++ cp.bytes).length =
      chunkPointerSize * (cps.length + 1) := by
    rw [← happend, length_flatMap_pointers, List.length_append, List.length_singleton]
  have hfits : ((cps.flatMap ChunkPointer.bytes ++ cp.bytes).length : Int) ≤ b.segmentlen := by
    rw [hlength, hroom]
    exact_mod_cast Nat.mul_le_mul_left chunkPointerSize hlt
  unfold BackupFile.appendToSegment
  simp only [hbuf, require_of hfits, happend]
  rfl

theorem RepresentsVersion.appendSegmentStart (h : RepresentsVersion b bv path) (hn : n < 2 ^ 20) :
    ∃ b', b.appendSegmentStart n = .ok ((Destor.appendSegmentStart bv n).1, b') ∧
      InSegment b' (Destor.appendSegmentStart bv n).2 path n := by
  have hlen : toInt32 (chunkPointerSize * 2 + n * chunkPointerSize : Nat) =
      (chunkPointerSize * (n + 2) : Nat) := by
    have heq : chunkPointerSize * 2 + n * chunkPointerSize = chunkPointerSize * (n + 2) := by
      unfold chunkPointerSize
      omega
    rw [heq]
    apply toInt32_eq
    · unfold chunkPointerSize
      omega
    · unfold chunkPointerSize
      omega
  have hoff : b.recipeFp.content.length = chunkPointerSize * bv.recipe.length := by
    rw [h.recipe.content, length_flatMap_pointers]
  have hroom : ([] : List ChunkPointer).length < n + 2 := Nat.succ_pos _
  have hstep := appendToSegment_record (segmentFlag chunkSegmentStart n) (b := { b with
    segmentbuf := some [], segmentlen := (chunkPointerSize * (n + 2) : Nat) }) rfl rfl hroom
  unfold BackupFile.appendSegmentStart
  simp only [hlen, hoff]
  refine ⟨{ b with
    segmentbuf := some ([segmentFlag chunkSegmentStart n].flatMap ChunkPointer.bytes)
    segmentlen := (chunkPointerSize * (n + 2) : Nat) }, bind_ok_iff.mpr ⟨_, hstep, ?_⟩, ?_⟩
  · rw [h.bvNum]
    rfl
  · exact ⟨⟨h.bvNum, h.deleted, h.path_eq, h.numberOfFiles, h.numberOfChunks, h.accessRecord,
      h.metadata, h.recipe, h.records⟩, rfl, rfl⟩

/-- A pointer closes the access record before it, which is buffered like a description, and goes
into the segment buffer. -/
theorem InSegment.appendChunkPointer (h : InSegment b bv path n) (cp : ChunkPointer)
    (hid : 0 ≤ cp.id) (hlt : bv.segmentbuf.length < n + 2) :
    ∃ b' bv', b.appendChunkPointer cp = .ok b' ∧ Destor.appendChunkPointer bv cp = .ok bv' ∧
      InSegment b' bv' path n ∧ bv'.segmentbuf = bv.segmentbuf ++ [cp] := by
  have hne : cp.id ≠ temporaryId := ne_temporaryId_of_nonneg hid
  have hchunks : b.numberOfChunks + 1 = ((bv.numberOfChunks + 1 : Nat) : Int) := by
    rw [h.numberOfChunks]
    rfl
  -- the records, whether or not one is closed and whether or not the buffer is full
  obtain ⟨fp, buf, hrecord, hrecords⟩ : ∃ fp buf,
      b.appendRecord cp.id = { b with recordFp := fp, recordbuf := some buf } ∧
      ∃ written, fp.Written written ∧ written ++ buf =
        (if bv.accessRecord ≠ temporaryId ∧ bv.accessRecord ≠ cp.id then
          bv.records ++ [bv.accessRecord] else bv.records).flatMap (leInt 8) := by
    obtain ⟨written, buf, hbuf, hfp, htotal⟩ := h.records
    have hsplit : (bv.records ++ [bv.accessRecord]).flatMap (leInt 8) =
        bv.records.flatMap (leInt 8) ++ leInt 8 bv.accessRecord := by
      rw [List.flatMap_append, List.flatMap_singleton]
    unfold BackupFile.appendRecord
    simp only [hbuf, Option.getD_some]
    rw [← h.accessRecord]
    by_cases hclose : b.accessRecord ≠ temporaryId ∧ b.accessRecord ≠ cp.id
    · rw [if_pos hclose, if_pos hclose, h.accessRecord, hsplit, ← htotal]
      by_cases hfull : recordbufsize < buf.length + 8
      · rw [if_pos hfull]
        exact ⟨_, _, rfl, _, hfp.fwrite buf, rfl⟩
      · rw [if_neg hfull]
        exact ⟨_, _, rfl, written, hfp, (List.append_assoc _ _ _).symm⟩
    · rw [if_neg hclose, if_neg hclose]
      refine ⟨_, buf, ?_, written, hfp, htotal⟩
      rw [← hbuf]
  have hstep := appendToSegment_record cp (b := { b with
    recordFp := fp, recordbuf := some buf, accessRecord := cp.id }) h.buffer h.room hlt
  unfold BackupFile.appendChunkPointer
  simp only [require_of hne, hrecord]
  refine ⟨_, _, bind_ok_iff.mpr ⟨(), rfl, bind_ok_iff.mpr ⟨_, hstep, rfl⟩⟩,
    bind_ok_iff.mpr ⟨(), require_of hne, rfl⟩, ?_, rfl⟩
  obtain ⟨written, hfp, htotal⟩ := hrecords
  exact ⟨⟨h.bvNum, h.deleted, h.path_eq, h.numberOfFiles, hchunks, rfl, h.metadata, h.recipe,
    ⟨written, buf, rfl, hfp, htotal⟩⟩, rfl, h.room⟩

/-- Closing a segment that holds its `n` pointers: the buffer is full. -/
theorem InSegment.appendSegmentEnd (h : InSegment b bv path n)
    (hlength : bv.segmentbuf.length = n + 1) :
    ∃ b', b.appendSegmentEnd = .ok b' ∧ RepresentsVersion b' (Destor.appendSegmentEnd bv) path := by
  have hlt : bv.segmentbuf.length < n + 2 := by omega
  have hstep := appendToSegment_record (segmentFlag chunkSegmentEnd 0) h.buffer h.room hlt
  have hfull : (((bv.segmentbuf ++ [segmentFlag chunkSegmentEnd 0]).flatMap
      ChunkPointer.bytes).length : Int) = b.segmentlen := by
    rw [length_flatMap_pointers, List.length_append, hlength, h.room]
    rfl
  refine ⟨_, bind_ok_iff.mpr ⟨_, hstep, bind_ok_iff.mpr ⟨(), require_of hfull, rfl⟩⟩, h.bvNum,
    h.deleted, h.path_eq, h.numberOfFiles, h.numberOfChunks, h.accessRecord, h.metadata, ?_,
    h.records⟩
  have hrecipe := h.recipe.fseekEnd.fwrite
    ((bv.segmentbuf ++ [segmentFlag chunkSegmentEnd 0]).flatMap ChunkPointer.bytes)
  rw [← List.flatMap_append, ← List.append_assoc] at hrecipe
  exact hrecipe

/-- One chunk, written in both models. -/
theorem InSegment.writeRecipeChunk {c : Chunk} {r : Option FileRecipeMeta} {inside : Bool}
    (h : InSegment b bv path n) (hr : ∀ r' ∈ r, r'.filename.length < nameBound)
    (hinside : fileStep r.isSome c = some inside) (hid : c.isNormal = true → 0 ≤ c.id)
    (hname : c.flag.fileStart = true → c.data.length < nameBound)
    (hroom : bv.segmentbuf.length + (recipePointers [c]).length < n + 2) :
    ∃ b₁ bv₁ r₁, BackupFile.writeRecipeChunk (b, r) c = .ok (b₁, r₁) ∧
      Destor.writeRecipeChunk (bv, r) c = .ok (bv₁, r₁) ∧ InSegment b₁ bv₁ path n ∧
      r₁.isSome = inside ∧
      bv₁.segmentbuf.length = bv.segmentbuf.length + (recipePointers [c]).length ∧
      ∀ r' ∈ r₁, r'.filename.length < nameBound := by
  rw [recipePointers_cons] at hroom ⊢
  cases r with
  | none =>
      have hstart : c.flag.fileStart = true := by
        by_contra hnot
        simp [fileStep, hnot] at hinside
      have hsignal : c.isNormal = false := by simp [Chunk.isNormal, hstart]
      simp only [Option.isSome_none, fileStep, hstart, if_true] at hinside
      cases hinside
      refine ⟨b, bv, some (newFileRecipeMeta c.data), ?_, ?_, h, rfl, ?_, fun r' hr' => ?_⟩
      · exact bind_ok_iff.mpr ⟨(), require_of hstart, rfl⟩
      · exact bind_ok_iff.mpr ⟨(), require_of hstart, rfl⟩
      · simp only [hsignal, Bool.false_eq_true, if_false]
        rfl
      · cases hr'
        exact hname hstart
  | some r =>
      by_cases hend : c.flag.fileEnd = true
      · have hsignal : c.isNormal = false := by simp [Chunk.isNormal, hend]
        simp only [Option.isSome_some, fileStep, hend, if_true] at hinside
        cases hinside
        obtain ⟨b₁, hmeta, hrep, hbuf, hlen⟩ :=
          h.toRepresentsVersion.appendFileRecipeMeta (hr r rfl)
        have h₁ : InSegment b₁ (appendFileRecipeMeta bv r) path n :=
          ⟨hrep, hbuf.trans h.buffer, hlen.trans h.room⟩
        refine ⟨b₁, _, none, ?_, if_pos hend, h₁, rfl, ?_, fun r' hr' => by cases hr'⟩
        · exact (if_pos hend).trans (bind_ok_iff.mpr ⟨_, hmeta, rfl⟩)
        · simp only [hsignal, Bool.false_eq_true, if_false]
          rfl
      · have hnotStart : ¬ c.flag.fileStart = true := by
          intro hstart
          simp [fileStep, hend, hstart] at hinside
        have hnormal : c.isNormal = true := by simp [Chunk.isNormal, hend, hnotStart]
        simp only [Option.isSome_some, fileStep, if_neg hend, if_neg hnotStart] at hinside
        cases hinside
        simp only [hnormal, if_true, List.length_cons] at hroom ⊢
        obtain ⟨b₁, bv₁, hok₁, hok₁', h₁, hbuf₁⟩ :=
          h.appendChunkPointer { fp := c.fp, id := c.id, size := c.size } (hid hnormal) (by omega)
        have happend : b.appendNChunkPointers [{ fp := c.fp, id := c.id, size := c.size }] =
            .ok b₁ := bind_ok_iff.mpr ⟨b₁, hok₁, rfl⟩
        refine ⟨b₁, bv₁, some { r with
          chunknum := r.chunknum + 1, filesize := r.filesize + c.size }, ?_, ?_, h₁, rfl, ?_,
          fun r' hr' => ?_⟩
        · exact (if_neg hend).trans (bind_ok_iff.mpr ⟨(), require_of (hid hnormal),
            bind_ok_iff.mpr ⟨b₁, happend, rfl⟩⟩)
        · exact (if_neg hend).trans (bind_ok_iff.mpr ⟨(), require_of (hid hnormal),
            bind_ok_iff.mpr ⟨bv₁, hok₁', rfl⟩⟩)
        · rw [hbuf₁, List.length_append]
          rfl
        · cases hr'
          exact hr r rfl

theorem InSegment.writeRecipeChunks {chunks : List Chunk} {r : Option FileRecipeMeta}
    {inFile : Bool} (h : InSegment b bv path n)
    (hr : ∀ r' ∈ r, r'.filename.length < nameBound)
    (hstate : chunks.foldlM fileStep r.isSome = some inFile)
    (hids : ∀ c ∈ chunks, c.isNormal = true → 0 ≤ c.id)
    (hnames : ∀ c ∈ chunks, c.flag.fileStart = true → c.data.length < nameBound)
    (hroom : bv.segmentbuf.length + (recipePointers chunks).length = n + 1) :
    ∃ b' bv' r', foldE BackupFile.writeRecipeChunk (b, r) chunks = .ok (b', r') ∧
      foldE Destor.writeRecipeChunk (bv, r) chunks = .ok (bv', r') ∧ InSegment b' bv' path n ∧
      bv'.segmentbuf.length = n + 1 ∧ ∀ r₁ ∈ r', r₁.filename.length < nameBound := by
  induction chunks generalizing b bv r with
  | nil => exact ⟨b, bv, r, rfl, rfl, h, hroom, hr⟩
  | cons c chunks ih =>
      obtain ⟨hid, hids'⟩ := List.forall_mem_cons.mp hids
      obtain ⟨hname, hnames'⟩ := List.forall_mem_cons.mp hnames
      rw [List.foldlM_cons, Option.bind_eq_bind, Option.bind_eq_some_iff] at hstate
      obtain ⟨inside, hinside, hstate'⟩ := hstate
      have hsplit : (recipePointers (c :: chunks)).length =
          (recipePointers [c]).length + (recipePointers chunks).length := by
        rw [recipePointers_cons, recipePointers_cons]
        cases c.isNormal
        · exact (Nat.zero_add _).symm
        · exact Nat.add_comm _ 1
      obtain ⟨b₁, bv₁, r₁, hstep, hstep', h₁, hsome, hlen, hr₁⟩ :=
        h.writeRecipeChunk hr hinside hid hname (by omega)
      rw [← hsome] at hstate'
      obtain ⟨b', bv', r', hok, hok', hrest⟩ := ih h₁ hr₁ hstate' hids' hnames' (by omega)
      exact ⟨b', bv', r', bind_ok_iff.mpr ⟨_, hstep, hok⟩, bind_ok_iff.mpr ⟨_, hstep', hok'⟩, hrest⟩

/-- One segment, written in both models. -/
theorem RepresentsVersion.writeSegment {segment : List Chunk} {r : Option FileRecipeMeta} {inFile : Bool}
    (h : RepresentsVersion b bv path) (hr : ∀ r' ∈ r, r'.filename.length < nameBound)
    (hstate : segment.foldlM fileStep r.isSome = some inFile)
    (hids : ∀ c ∈ segment, c.isNormal = true → 0 ≤ c.id)
    (hnames : ∀ c ∈ segment, c.flag.fileStart = true → c.data.length < nameBound)
    (hsmall : (segment.filter Chunk.isNormal).length < 2 ^ 20) :
    ∃ b' bv' r', BackupFile.writeSegment (b, r) segment = .ok (b', r') ∧
      RecordedBackup.writeSegment (bv, r) segment = .ok (bv', r') ∧ RepresentsVersion b' bv' path ∧
      bv'.bvNum = bv.bvNum ∧
      bv'.recipe = bv.recipe ++ encodeSegment (recipePointers segment) ∧ r'.isSome = inFile ∧
      ∀ r₁ ∈ r', r₁.filename.length < nameBound := by
  have hnum := length_recipePointers segment
  obtain ⟨b₁, hstart, h₁⟩ := h.appendSegmentStart hsmall
  have hroom : (Destor.appendSegmentStart bv (segment.filter Chunk.isNormal).length).2.segmentbuf.length +
      (recipePointers segment).length = (segment.filter Chunk.isNormal).length + 1 := by
    rw [hnum, Nat.add_comm]
    rfl
  obtain ⟨b₂, bv₂, r', hok, hok', h₂, hfull, hr'⟩ :=
    h₁.writeRecipeChunks hr hstate hids hnames hroom
  obtain ⟨b₃, hend, h₃⟩ := h₂.appendSegmentEnd hfull
  have hwrite : writeRecipe bv r (segment.filter Chunk.isNormal).length segment =
      .ok ((Destor.appendSegmentStart bv (segment.filter Chunk.isNormal).length).1,
        Destor.appendSegmentEnd bv₂, r') := bind_ok_iff.mpr ⟨_, hok', rfl⟩
  have hensures := (writeRecipe_ensures hnum.symm hstate hids).of_ok hwrite
  refine ⟨b₃, Destor.appendSegmentEnd bv₂, r', ?_, bind_ok_iff.mpr ⟨_, hwrite, rfl⟩, h₃,
    hensures.2.1, hensures.2.2.1, hensures.2.2.2, hr'⟩
  exact bind_ok_iff.mpr ⟨_, hstart, bind_ok_iff.mpr ⟨_, hok, bind_ok_iff.mpr ⟨_, hend, rfl⟩⟩⟩

/-- All segments, written in both models. -/
theorem RepresentsVersion.foldE_writeSegment {segments : List (List Chunk)} {r : Option FileRecipeMeta}
    {inFile : Bool} (h : RepresentsVersion b bv path) (hr : ∀ r' ∈ r, r'.filename.length < nameBound)
    (hstate : segments.flatten.foldlM fileStep r.isSome = some inFile)
    (hids : ∀ c ∈ segments.flatten, c.isNormal = true → 0 ≤ c.id)
    (hnames : ∀ c ∈ segments.flatten, c.flag.fileStart = true → c.data.length < nameBound)
    (hsmall : ∀ segment ∈ segments, (segment.filter Chunk.isNormal).length < 2 ^ 20) :
    ∃ b' bv' r', foldE BackupFile.writeSegment (b, r) segments = .ok (b', r') ∧
      foldE RecordedBackup.writeSegment (bv, r) segments = .ok (bv', r') ∧
      RepresentsVersion b' bv' path ∧ bv'.bvNum = bv.bvNum ∧
      bv'.recipe = bv.recipe ++ encodeSegments (segments.map recipePointers) := by
  induction segments generalizing b bv r with
  | nil => exact ⟨b, bv, r, rfl, rfl, h, rfl, (List.append_nil _).symm⟩
  | cons segment segments ih =>
      rw [List.flatten_cons] at hstate hids hnames
      rw [List.foldlM_append, Option.bind_eq_bind, Option.bind_eq_some_iff] at hstate
      obtain ⟨inside, hinside, hstate'⟩ := hstate
      obtain ⟨hsegment, hsmall'⟩ := List.forall_mem_cons.mp hsmall
      obtain ⟨hid, hids'⟩ := List.forall_mem_append.mp hids
      obtain ⟨hname, hnames'⟩ := List.forall_mem_append.mp hnames
      obtain ⟨b₁, bv₁, r₁, hok₁, hok₁', h₁, hnum₁, hrecipe₁, hsome₁, hr₁⟩ :=
        h.writeSegment hr hinside hid hname hsegment
      rw [← hsome₁] at hstate'
      obtain ⟨b', bv', r', hok, hok', h', hnum, hrecipe⟩ :=
        ih h₁ hr₁ hstate' hids' hnames' hsmall'
      refine ⟨b', bv', r', bind_ok_iff.mpr ⟨_, hok₁, hok⟩, bind_ok_iff.mpr ⟨_, hok₁', hok'⟩, h',
        hnum.trans hnum₁, ?_⟩
      rw [hrecipe, hrecipe₁, List.append_assoc, List.map_cons, encodeSegments_cons]

/-- Closing a version: the buffers are written out and the header is rewritten in place. -/
theorem RepresentsVersion.close (h : RepresentsVersion b bv path) (dir : RecipeDir) :
    ∃ files, BackupFile.freeBackupVersion dir b.updateBackupVersion =
        Function.update dir bv.bvNum (some files) ∧
      files.Holds (updateBackupVersion bv) path := by
  obtain ⟨head, written, buf, hbuf, hhead, hfp, htotal⟩ := h.metadata
  obtain ⟨written', buf', hbuf', hfp', htotal'⟩ := h.records
  have hflush : ∀ {fp : Stream} {bs : List UInt8} (out : List UInt8), fp.Written bs →
      (BackupFile.flush fp (some out)).Written (bs ++ out) := by
    intro fp bs out hwritten
    unfold BackupFile.flush
    by_cases hpos : 0 < out.length
    · simp only [hpos, if_true]
      exact hwritten.fwrite out
    · have hnil : out = [] := List.length_eq_zero_iff.mp (by omega)
      simpa [hnil] using hwritten
  refine ⟨_, congrArg (fun n => Function.update dir n _) h.bvNum, ?_, ?_, ?_⟩
  · have hmeta := hflush buf hfp
    rw [List.append_assoc, htotal, ← hbuf] at hmeta
    have hheader : b.header.length = head.length := hhead.symm
    have hrewrite := hmeta.rewriteStart hheader
    apply hrewrite.trans
    show b.header ++ _ = _
    unfold BackupFile.header
    rw [h.bvNum, h.deleted, h.numberOfFiles, h.numberOfChunks, h.path_eq]
    rfl
  · exact h.recipe.content
  · have hrecord := hflush buf' hfp'
    rw [htotal', ← hbuf'] at hrecord
    have hlast : (if b.accessRecord ≠ temporaryId then
          (BackupFile.flush b.recordFp b.recordbuf).fwrite (leInt 8 b.accessRecord)
        else BackupFile.flush b.recordFp b.recordbuf).Written
          ((if bv.accessRecord ≠ temporaryId then bv.records ++ [bv.accessRecord]
            else bv.records).flatMap (leInt 8)) := by
      rw [h.accessRecord]
      split
      · rw [List.flatMap_append, List.flatMap_singleton]
        exact hrecord.fwrite _
      · exact hrecord
    have hend := hlast.fwrite (leInt 8 temporaryId)
    rw [← List.flatMap_singleton (leInt 8) temporaryId, ← List.flatMap_append] at hend
    rw [List.flatMap_singleton] at hend
    exact hend.content

end Simulation

section Streams

/-- The stream of some files is well formed. -/
theorem foldlM_fileStep_storedFiles (files : List StoredFile) :
    (files.flatMap StoredFile.stream).foldlM fileStep false = some false := by
  have hfile : ∀ f : StoredFile, f.stream.foldlM fileStep false = some false := by
    intro f
    have hchunks : ∀ pointers : List ChunkPointer,
        (pointers.map ChunkPointer.toChunk ++ [Chunk.fileEnd]).foldlM fileStep true =
          some false := by
      intro pointers
      induction pointers with
      | nil => rfl
      | cons cp pointers ih => exact ih
    exact hchunks f.pointers
  induction files with
  | nil => rfl
  | cons f files ih =>
      rw [List.flatMap_cons, List.foldlM_append, hfile]
      exact ih

theorem mem_storedFile_stream {f : StoredFile} {c : Chunk} (h : c ∈ f.stream) :
    c = Chunk.fileStart f.name ∨ c = Chunk.fileEnd ∨ ∃ cp ∈ f.pointers, c = cp.toChunk := by
  simp only [StoredFile.stream, List.mem_append, List.mem_cons, List.mem_map,
    List.not_mem_nil, or_false] at h
  rcases h with (rfl | ⟨cp, hcp, rfl⟩) | rfl
  · exact Or.inl rfl
  · exact Or.inr (Or.inr ⟨cp, hcp, rfl⟩)
  · exact Or.inr (Or.inl rfl)

/-- The filter thread writes the files of a version; they hold what its records say. -/
theorem RecordedBackup.writeBackup_holds (rb : RecordedBackup) (dir : RecipeDir) (bvNum : Nat)
    (path : List UInt8) (hids : ∀ cp ∈ rb.pointers, 0 ≤ cp.id)
    (hnames : ∀ f ∈ rb.files, f.name.length < nameBound)
    (hsmall : ∀ segment ∈ rb.segments, (segment.filter Chunk.isNormal).length < 2 ^ 20) :
    ∃ files bv,
      BackupFile.writeBackup dir bvNum path rb.segments =
        .ok (Function.update dir bvNum (some files)) ∧
      rb.write bvNum = .ok bv ∧ files.Holds bv (path.reverse.dropWhile (· != 47)).reverse ∧
      bv.bvNum = bvNum ∧ bv.recipe = encodeSegments (rb.segments.map recipePointers) := by
  have hstate : rb.segments.flatten.foldlM fileStep
      (none : Option FileRecipeMeta).isSome = some false := by
    rw [rb.cut]
    exact foldlM_fileStep_storedFiles rb.files
  have hnormal : ∀ c ∈ rb.segments.flatten, c.isNormal = true → 0 ≤ c.id := by
    intro c hc hcn
    rw [rb.cut] at hc
    obtain ⟨f, hf, hc⟩ := List.mem_flatMap.mp hc
    rcases mem_storedFile_stream hc with rfl | rfl | ⟨cp, hcp, rfl⟩
    · cases hcn
    · cases hcn
    · exact hids cp (List.mem_flatMap.mpr ⟨f, hf, hcp⟩)
  have hstarts : ∀ c ∈ rb.segments.flatten, c.flag.fileStart = true →
      c.data.length < nameBound := by
    intro c hc hcs
    rw [rb.cut] at hc
    obtain ⟨f, hf, hc⟩ := List.mem_flatMap.mp hc
    rcases mem_storedFile_stream hc with rfl | rfl | ⟨cp, hcp, rfl⟩
    · exact hnames f hf
    · cases hcs
    · cases hcs
  obtain ⟨b, bv, r, hok, hok', h, hsame, hrecipe⟩ := (represents_create bvNum path).foldE_writeSegment
    (r := none) (fun _ hnone => by cases hnone) hstate hnormal hstarts hsmall
  have hnum : bv.bvNum = bvNum := hsame
  obtain ⟨files, hclose, hholds⟩ := h.close dir
  rw [hnum] at hclose
  refine ⟨files, updateBackupVersion bv, bind_ok_iff.mpr ⟨_, hok, ?_⟩,
    bind_ok_iff.mpr ⟨_, hok', rfl⟩, hholds, hnum, ?_⟩
  · exact congrArg Except.ok hclose
  · exact hrecipe.trans (List.nil_append _)

end Streams

end Destor
