/- digest: Backup versions at the level of records: segments are appended, prefetched, walked. -/

import Destor.Storage.Containerstore

set_option autoImplicit false
set_option relaxedAutoImplicit false

namespace Destor

open Library.Outcome

structure ChunkPointer where
  fp : Fingerprint
  id : Int
  size : Nat
deriving DecidableEq

/-- `sizeof(fingerprint) + sizeof(containerid) + sizeof(int32_t)`. -/
def chunkPointerSize : Nat := 32

def chunkSegmentStart : Int := 0x0004

def chunkSegmentEnd : Int := 0x0008

structure FileRecipeMeta where
  filename : List UInt8
  chunknum : Nat
  filesize : Nat
deriving DecidableEq

def newFileRecipeMeta (name : List UInt8) : FileRecipeMeta :=
  { filename := name, chunknum := 0, filesize := 0 }

/-- `struct backupVersion` with the contents of its three files. Buffered meta entries and
records count as written; the segment buffer is flushed as a whole at the end of a segment. -/
structure BackupVersion where
  bvNum : Nat
  deleted : Bool
  numberOfFiles : Nat
  numberOfChunks : Nat
  recipe : List ChunkPointer
  metas : List FileRecipeMeta
  records : List Int
  accessRecord : Int
  segmentbuf : List ChunkPointer
deriving DecidableEq

def createBackupVersion (bvNum : Nat) : BackupVersion :=
  { bvNum := bvNum, deleted := false, numberOfFiles := 0, numberOfChunks := 0, recipe := [],
    metas := [], records := [], accessRecord := temporaryId, segmentbuf := [] }

/-- `make_segment_id`: backup number, byte offset and chunk number in one `int64_t`. -/
def makeSegmentId (bid off size : Int) : Int := toInt64 (bid * 2 ^ 48 + off * 2 ^ 16 + size)

def idToSize (id : Int) : Int := id % 2 ^ 16

def idToOff (id : Int) : Int := id / 2 ^ 16 % 2 ^ 32

def idToBnum (id : Int) : Int := id / 2 ^ 48

def segmentFlag (flag : Int) (size : Nat) : ChunkPointer :=
  { fp := Fingerprint.fill 0, id := 0 - flag, size := size }

/-- `append_segment_flag` with `CHUNK_SEGMENT_START`. -/
def appendSegmentStart (b : BackupVersion) (segmentSize : Nat) : Int × BackupVersion :=
  (makeSegmentId b.bvNum (chunkPointerSize * b.recipe.length : Nat) segmentSize,
    { b with segmentbuf := [segmentFlag chunkSegmentStart segmentSize] })

/-- `append_segment_flag` with `CHUNK_SEGMENT_END`. -/
def appendSegmentEnd (b : BackupVersion) : BackupVersion :=
  { b with
    recipe := b.recipe ++ b.segmentbuf ++ [segmentFlag chunkSegmentEnd 0]
    segmentbuf := [] }

def appendChunkPointer (b : BackupVersion) (cp : ChunkPointer) : Except Abort BackupVersion := do
  require (cp.id ≠ temporaryId) .appendTemporaryId
  return { b with
    records := if b.accessRecord ≠ temporaryId ∧ b.accessRecord ≠ cp.id then
        b.records ++ [b.accessRecord]
      else b.records
    accessRecord := cp.id
    segmentbuf := b.segmentbuf ++ [cp]
    numberOfChunks := b.numberOfChunks + 1 }

def appendFileRecipeMeta (b : BackupVersion) (r : FileRecipeMeta) : BackupVersion :=
  { b with metas := b.metas ++ [r], numberOfFiles := b.numberOfFiles + 1 }

def updateBackupVersion (b : BackupVersion) : BackupVersion :=
  { b with
    records := (if b.accessRecord ≠ temporaryId then b.records ++ [b.accessRecord]
      else b.records) ++ [temporaryId]
    accessRecord := temporaryId }

structure SegmentRecipe where
  id : Int
  kvpairs : FpMap ChunkPointer

def lookupFingerprintInSegmentRecipe (sr : SegmentRecipe) (fp : Fingerprint) : Bool :=
  (sr.kvpairs.lookup fp).isSome

/-- The table of a segment: a later pointer replaces an earlier one of the same fingerprint. -/
def segmentTable (pointers : List ChunkPointer) : FpMap ChunkPointer :=
  pointers.foldl (fun m cp => m.insert cp.fp cp) ∅

/-- `read_next_segment`, also the loop body of `prefetch_segments`: reads the segment at record
`off`, of which `rest` is the remainder of the file. No segment starts at the end of the file or
at another record. -/
def readNextSegment (bvNum off : Nat) (rest : List ChunkPointer) :
    Except Abort (Option (SegmentRecipe × List ChunkPointer)) :=
  match rest with
  | [] => .ok none
  | flag :: rest =>
      if flag.id ≠ -chunkSegmentStart then .ok none
      else do
        let pointers := rest.take flag.size
        require (∀ cp ∈ pointers, temporaryId < cp.id) .recipeTemporaryId
        require ((rest.drop flag.size).head?.map ChunkPointer.id = some (0 - chunkSegmentEnd))
          .segmentEndMissing
        return some
          ({ id := makeSegmentId bvNum (chunkPointerSize * off : Nat) flag.size,
             kvpairs := segmentTable pointers },
            (rest.drop flag.size).tail)

def prefetchLoop (bvNum : Nat) : Nat → Nat → List ChunkPointer → Except Abort (List SegmentRecipe)
  | 0, _, _ => .ok []
  | n + 1, off, rest => do
      match ← readNextSegment bvNum off rest with
      | none => return []
      | some (sr, rest') =>
          let srs ← prefetchLoop bvNum n (off + (rest.length - rest'.length)) rest'
          return sr :: srs

def openBackupVersion (backups : List BackupVersion) (number : Int) :
    Except Abort BackupVersion :=
  match if 0 ≤ number then backups[number.toNat]? else none with
  | none => .error .backupVersionMissing
  | some b => if (b.bvNum : Int) = number then .ok b else .error .backupVersionMissing

/-- The version that `prefetch_segments` reads during the backup `current`. -/
def versionForPrefetch (backups : List BackupVersion) (current : BackupVersion) (bnum : Int) :
    Except Abort BackupVersion :=
  if bnum = current.bvNum then .ok current else openBackupVersion backups bnum

def prefetchSegments (backups : List BackupVersion) (current : BackupVersion) (id : Int)
    (prefetchNum : Nat) : Except Abort (List SegmentRecipe) := do
  require (id ≠ temporaryId) .prefetchTemporaryId
  let b ← versionForPrefetch backups current (idToBnum id)
  let off := (idToOff id).toNat / chunkPointerSize
  let segments ← prefetchLoop b.bvNum prefetchNum off (b.recipe.drop off)
  require (prefetchNum ≠ 0 → segments ≠ []) .prefetchNotAtSegment
  return segments

section SegmentIds

structure SegmentIdFits (bid off size : Nat) : Prop where
  bid_lt : bid < 2 ^ 15
  off_lt : off < 2 ^ 32
  size_lt : size < 2 ^ 16

variable {bid off size bid' off' size' : Nat}

theorem makeSegmentId_eq (h : SegmentIdFits bid off size) :
    makeSegmentId bid off size = (bid : Int) * 2 ^ 48 + off * 2 ^ 16 + size := by
  obtain ⟨h₁, h₂, h₃⟩ := h
  unfold makeSegmentId toInt64
  exact Int.bmod_eq_of_le_mul_two (by omega) (by omega)

-- the exact value is known from here on; comparing two ids must not evaluate 64-bit arithmetic
attribute [irreducible] makeSegmentId

theorem idToBnum_makeSegmentId (h : SegmentIdFits bid off size) :
    idToBnum (makeSegmentId bid off size) = bid := by
  rw [makeSegmentId_eq h]
  obtain ⟨h₁, h₂, h₃⟩ := h
  unfold idToBnum
  omega

theorem idToOff_makeSegmentId (h : SegmentIdFits bid off size) :
    idToOff (makeSegmentId bid off size) = off := by
  rw [makeSegmentId_eq h]
  obtain ⟨h₁, h₂, h₃⟩ := h
  unfold idToOff
  omega

theorem makeSegmentId_nonneg (h : SegmentIdFits bid off size) :
    0 ≤ makeSegmentId bid off size := by
  rw [makeSegmentId_eq h]
  omega

/-- Ids grow with the backup number, then with the offset. -/
theorem makeSegmentId_lt (h : SegmentIdFits bid off size) (h' : SegmentIdFits bid' off' size')
    (hlt : bid < bid' ∨ (bid = bid' ∧ off < off')) :
    makeSegmentId bid off size < makeSegmentId bid' off' size' := by
  rw [makeSegmentId_eq h, makeSegmentId_eq h']
  obtain ⟨h₁, h₂, h₃⟩ := h
  obtain ⟨h₁', h₂', h₃'⟩ := h'
  omega

end SegmentIds

section Tables

variable {pointers : List ChunkPointer} {fp : Fingerprint} {cp : ChunkPointer}

private theorem lookup_foldl_insert (pointers : List ChunkPointer) (m : FpMap ChunkPointer) :
    (pointers.foldl (fun m cp => m.insert cp.fp cp) m).lookup fp =
      (pointers.reverse.find? (fun cp => cp.fp == fp)).or (m.lookup fp) := by
  induction pointers generalizing m with
  | nil => simp
  | cons a l ih =>
      rw [List.foldl_cons, ih, List.reverse_cons, List.find?_append]
      cases l.reverse.find? (fun cp => cp.fp == fp) with
      | some cp => simp
      | none =>
          by_cases h : a.fp = fp
          · subst h
            simp
          · rw [AList.lookup_insert_ne (Ne.symm h)]
            simp [h]

theorem lookup_segmentTable (pointers : List ChunkPointer) (fp : Fingerprint) :
    (segmentTable pointers).lookup fp = pointers.reverse.find? (fun cp => cp.fp == fp) := by
  simp [segmentTable, lookup_foldl_insert]

theorem mem_of_lookup_segmentTable (h : (segmentTable pointers).lookup fp = some cp) :
    cp ∈ pointers ∧ cp.fp = fp := by
  rw [lookup_segmentTable] at h
  exact ⟨List.mem_reverse.mp (List.mem_of_find?_eq_some h),
    by simpa using List.find?_some h⟩

theorem lookup_segmentTable_of_mem (h : cp ∈ pointers) :
    ∃ cp', (segmentTable pointers).lookup cp.fp = some cp' := by
  rw [lookup_segmentTable]
  apply Option.isSome_iff_exists.mp
  exact List.find?_isSome.mpr ⟨cp, List.mem_reverse.mpr h, by simp⟩

end Tables

section Files

/-- A segment as it stands in the recipe file. -/
def encodeSegment (pointers : List ChunkPointer) : List ChunkPointer :=
  segmentFlag chunkSegmentStart pointers.length :: pointers ++ [segmentFlag chunkSegmentEnd 0]

/-- A recipe file made of segments. -/
def encodeSegments (segments : List (List ChunkPointer)) : List ChunkPointer :=
  segments.flatMap encodeSegment

/-- What a reader makes of the segments that start at record `off`. -/
def segmentRecipes (bvNum : Nat) : Nat → List (List ChunkPointer) → List SegmentRecipe
  | _, [] => []
  | off, pointers :: segments =>
      { id := makeSegmentId bvNum (chunkPointerSize * off : Nat) pointers.length,
        kvpairs := segmentTable pointers } ::
      segmentRecipes bvNum (off + (encodeSegment pointers).length) segments

@[simp] theorem encodeSegments_nil : encodeSegments [] = [] := rfl

@[simp] theorem encodeSegments_cons (pointers : List ChunkPointer)
    (segments : List (List ChunkPointer)) :
    encodeSegments (pointers :: segments) = encodeSegment pointers ++ encodeSegments segments :=
  rfl

@[simp] theorem encodeSegments_append (segments segments' : List (List ChunkPointer)) :
    encodeSegments (segments ++ segments') = encodeSegments segments ++ encodeSegments segments' :=
  List.flatMap_append

@[simp] theorem length_encodeSegment (pointers : List ChunkPointer) :
    (encodeSegment pointers).length = pointers.length + 2 := by
  simp [encodeSegment]

variable {bvNum off : Nat} {pointers : List ChunkPointer}

/-- Reading where a segment starts returns that segment and the rest of the file. -/
theorem readNextSegment_encode (hids : ∀ cp ∈ pointers, temporaryId < cp.id)
    (rest : List ChunkPointer) :
    readNextSegment bvNum off (encodeSegment pointers ++ rest) = .ok (some
      ({ id := makeSegmentId bvNum (chunkPointerSize * off : Nat) pointers.length,
         kvpairs := segmentTable pointers }, rest)) := by
  simp only [readNextSegment, encodeSegment, List.cons_append, List.append_assoc, segmentFlag]
  rw [if_neg (by simp)]
  simp only [bind_ok_iff, require_ok_iff, List.take_left, List.drop_left]
  exact ⟨(), hids, (), rfl, rfl⟩

/-- The prefetch loop returns the next segments of the file, as many as asked for. -/
theorem prefetchLoop_encode (bvNum n off : Nat) (segments : List (List ChunkPointer))
    (hids : ∀ pointers ∈ segments, ∀ cp ∈ pointers, temporaryId < cp.id) :
    prefetchLoop bvNum n off (encodeSegments segments) =
      .ok ((segmentRecipes bvNum off segments).take n) := by
  induction segments generalizing n off with
  | nil =>
      cases n with
      | zero => rfl
      | succ n => rfl
  | cons pointers segments ih =>
      cases n with
      | zero => rfl
      | succ n =>
          obtain ⟨hhead, htail⟩ := List.forall_mem_cons.mp hids
          have hoff : off + ((encodeSegment pointers ++ encodeSegments segments).length -
              (encodeSegments segments).length) = off + (encodeSegment pointers).length := by
            simp
          simp only [encodeSegments_cons, prefetchLoop, readNextSegment_encode hhead,
            bind, Except.bind, segmentRecipes, List.take_succ_cons]
          rw [hoff, ih n _ htail]
          rfl

/-- A prefetch whose steps all succeed. -/
theorem prefetchSegments_eq {backups : List BackupVersion} {current b : BackupVersion} {id : Int}
    {n : Nat} {segments : List SegmentRecipe} (hid : id ≠ temporaryId)
    (hopen : versionForPrefetch backups current (idToBnum id) = .ok b)
    (hloop : prefetchLoop b.bvNum n ((idToOff id).toNat / chunkPointerSize)
      (b.recipe.drop ((idToOff id).toNat / chunkPointerSize)) = .ok segments)
    (hne : n ≠ 0 → segments ≠ []) :
    prefetchSegments backups current id n = .ok segments := by
  unfold prefetchSegments
  refine bind_ok_iff.mpr ⟨(), require_ok_iff.mpr hid, ?_⟩
  refine bind_ok_iff.mpr ⟨b, hopen, ?_⟩
  refine bind_ok_iff.mpr ⟨segments, hloop, ?_⟩
  exact bind_ok_iff.mpr ⟨(), require_ok_iff.mpr hne, rfl⟩

end Files

end Destor
