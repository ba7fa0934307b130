/- digest: Backup versions at the level of bytes: header, write buffers and readers. -/

import Destor.Library.Bytes
import Destor.Library.Stream
import Destor.Recipe.Recipestore

set_option autoImplicit false
set_option relaxedAutoImplicit false

namespace Destor

open Library Library.Outcome Library.Bytes

/-- The files `.meta`, `.recipe` and `.records` of a backup version. -/
structure VersionFiles where
  metadata : List UInt8
  recipe : List UInt8
  records : List UInt8

abbrev RecipeDir := Int → Option VersionFiles

/-- `struct backupVersion`. A buffer is given by the bytes put into it. The last three fields are
static variables of the source: a process appends to or reads one version. -/
structure BackupFile where
  bvNum : Int
  deleted : Int
  numberOfFiles : Int
  numberOfChunks : Int
  path : List UInt8
  metadataFp : Stream
  recipeFp : Stream
  recordFp : Stream
  metabuf : Option (List UInt8)
  recordbuf : Option (List UInt8)
  segmentbuf : Option (List UInt8)
  segmentlen : Int
  accessRecord : Int
  readFileNum : Int
  readChunkNum : Int

def metabufsize : Nat := 64 * 1024

def recordbufsize : Nat := 64 * 1024

def ChunkPointer.bytes (cp : ChunkPointer) : List UInt8 :=
  cp.fp.bytes ++ leInt 8 cp.id ++ leInt 4 cp.size

def FileRecipeMeta.bytes (r : FileRecipeMeta) : List UInt8 :=
  leInt 4 r.filename.length ++ r.filename ++ leInt 8 r.chunknum ++ leInt 8 r.filesize

namespace BackupFile

/-- The header that `create_backup_version` and `update_backup_version` write. -/
def header (b : BackupFile) : List UInt8 :=
  leInt 4 b.bvNum ++ leInt 4 b.deleted ++ leInt 8 b.numberOfFiles ++ leInt 8 b.numberOfChunks ++
    leInt 4 b.path.length ++ b.path

section Write

def createBackupVersion (bvNum : Int) (path : List UInt8) : BackupFile :=
  let b : BackupFile :=
    { bvNum := bvNum, deleted := 0, numberOfFiles := 0, numberOfChunks := 0
      path := (path.reverse.dropWhile (· != 47)).reverse
      metadataFp := Stream.openWrite, recipeFp := Stream.openWrite, recordFp := Stream.openWrite
      metabuf := some [], recordbuf := some [], segmentbuf := none, segmentlen := 0
      accessRecord := temporaryId, readFileNum := 0, readChunkNum := 0 }
  { b with metadataFp := (b.metadataFp.fseekSet 0).fwrite b.header }

/-- Writes a buffer out, if there is one and it holds anything. -/
def flush (fp : Stream) : Option (List UInt8) → Stream
  | some buf => if 0 < buf.length then fp.fwrite buf else fp
  | none => fp

def updateBackupVersion (b : BackupFile) : BackupFile :=
  let metadataFp := flush b.metadataFp b.metabuf
  let recordFp := flush b.recordFp b.recordbuf
  let recordFp := if b.accessRecord ≠ temporaryId then recordFp.fwrite (leInt 8 b.accessRecord)
    else recordFp
  { b with
    metadataFp := (metadataFp.fseekSet 0).fwrite b.header
    metabuf := b.metabuf.map fun _ => []
    recordFp := recordFp.fwrite (leInt 8 temporaryId)
    recordbuf := b.recordbuf.map fun _ => []
    accessRecord := temporaryId }

/-- `free_backup_version`: closing the streams leaves their contents in the directory. -/
def freeBackupVersion (dir : RecipeDir) (b : BackupFile) : RecipeDir :=
  Function.update dir b.bvNum (some
    { metadata := b.metadataFp.content, recipe := b.recipeFp.content
      records := b.recordFp.content })

/-- `append_file_recipe_meta`: a full buffer is written out, then the description is put into
it. -/
def appendFileRecipeMeta (b : BackupFile) (r : FileRecipeMeta) : Except Abort BackupFile := do
  let buf := b.metabuf.getD []
  let full : Bool := metabufsize < buf.length + (4 + r.filename.length + 8 + 8)
  let metadataFp := if full then b.metadataFp.fwrite buf else b.metadataFp
  let metabuf := if full then r.bytes else buf ++ r.bytes
  require (metabuf.length ≤ metabufsize) .metabufOverflow
  return { b with
    metadataFp := metadataFp
    metabuf := some metabuf
    numberOfFiles := b.numberOfFiles + 1 }

def appendToSegment (b : BackupFile) (bs : List UInt8) : Except Abort BackupFile :=
  match b.segmentbuf with
  | none => .error .segmentbufOverflow
  | some buf => do
      require (((buf ++ bs).length : Int) ≤ b.segmentlen) .segmentbufOverflow
      return { b with segmentbuf := some (buf ++ bs) }

/-- `append_segment_flag` with `CHUNK_SEGMENT_START`. -/
def appendSegmentStart (b : BackupFile) (segmentSize : Nat) : Except Abort (Int × BackupFile) := do
  let off := b.recipeFp.content.length
  let segmentlen := toInt32 (chunkPointerSize * 2 + segmentSize * chunkPointerSize : Nat)
  let b ← appendToSegment { b with segmentbuf := some [], segmentlen := segmentlen }
    (segmentFlag chunkSegmentStart segmentSize).bytes
  return (makeSegmentId b.bvNum off segmentSize, b)

/-- `append_segment_flag` with `CHUNK_SEGMENT_END`: `segmentlen` bytes of the buffer go to the end
of the recipe. -/
def appendSegmentEnd (b : BackupFile) : Except Abort BackupFile := do
  let b ← appendToSegment b (segmentFlag chunkSegmentEnd 0).bytes
  let buf := b.segmentbuf.getD []
  require ((buf.length : Int) = b.segmentlen) .segmentbufPartial
  return { b with
    recipeFp := b.recipeFp.fseekEnd.fwrite buf
    segmentbuf := none
    segmentlen := 0 }

/-- The access record that `append_n_chunk_pointers` closes before a pointer into container `id`. -/
def appendRecord (b : BackupFile) (id : Int) : BackupFile :=
  if b.accessRecord ≠ temporaryId ∧ b.accessRecord ≠ id then
    let buf := b.recordbuf.getD []
    if recordbufsize < buf.length + 8 then
      { b with recordFp := b.recordFp.fwrite buf, recordbuf := some (leInt 8 b.accessRecord) }
    else { b with recordbuf := some (buf ++ leInt 8 b.accessRecord) }
  else b

/-- The loop body of `append_n_chunk_pointers`. -/
def appendChunkPointer (b : BackupFile) (cp : ChunkPointer) : Except Abort BackupFile := do
  require (cp.id ≠ temporaryId) .appendTemporaryId
  let b ← appendToSegment { appendRecord b cp.id with accessRecord := cp.id } cp.bytes
  return { b with numberOfChunks := b.numberOfChunks + 1 }

def appendNChunkPointers (b : BackupFile) (cps : List ChunkPointer) : Except Abort BackupFile :=
  foldE appendChunkPointer b cps

end Write

section Read

def openBackupVersion (dir : RecipeDir) (number : Int) : Except Abort BackupFile :=
  match dir number with
  | none => .error .backupVersionMissing
  | some files => do
      let (bvNum, fp) := (Stream.openRead files.metadata).fread 4
      require (ofLeInt bvNum = number) .backupVersionMissing
      let (deleted, fp) := fp.fread 4
      let (numberOfFiles, fp) := fp.fread 8
      let (numberOfChunks, fp) := fp.fread 8
      let (pathlen, fp) := fp.fread 4
      let (path, fp) := fp.fread (ofLeInt pathlen).toNat
      return {
        bvNum := ofLeInt bvNum
        deleted := ofLeInt deleted
        numberOfFiles := ofLeInt numberOfFiles
        numberOfChunks := ofLeInt numberOfChunks
        path := path
        metadataFp := fp
        recipeFp := Stream.openRead files.recipe
        recordFp := Stream.openRead files.records
        metabuf := none
        recordbuf := none
        segmentbuf := none
        segmentlen := 0
        accessRecord := temporaryId
        readFileNum := 0
        readChunkNum := 0 }

def readNextFileRecipeMeta (b : BackupFile) : Except Abort (FileRecipeMeta × BackupFile) := do
  require (b.readFileNum ≤ b.numberOfFiles) .readFileNum
  let (len, fp) := b.metadataFp.fread 4
  let (filename, fp) := fp.fread (ofLeInt len).toNat
  let (chunknum, fp) := fp.fread 8
  let (filesize, fp) := fp.fread 8
  return (
    { filename := filename.takeWhile (· != 0)
      chunknum := (ofLeInt chunknum).toNat
      filesize := (ofLeInt filesize).toNat },
    { b with metadataFp := fp, readFileNum := toInt32 (b.readFileNum + 1) })

/-- The three `fread` calls for a pointer or a flag; what a short read leaves out counts as
zeros. -/
def readPointer (fp : Stream) : ChunkPointer × Stream :=
  let (fingerprint, fp) := fp.fread 20
  let (id, fp) := fp.fread 8
  let (size, fp) := fp.fread 4
  ({ fp := Fingerprint.ofBytes fingerprint, id := ofLeInt id, size := (ofLeInt size).toNat }, fp)

/-- The loop of `read_next_n_chunk_pointers`, which skips the boundaries of segments. At the end
of the file nothing more is filled in. Each round reads bytes, so fuel beyond their number changes
nothing. -/
def readPointers : Nat → Nat → Stream → List ChunkPointer × Stream
  | 0, _, fp => ([], fp)
  | _, 0, fp => ([], fp)
  | fuel + 1, num + 1, fp =>
      if fp.rest.length < chunkPointerSize then ([], fp)
      else
        let (cp, fp) := readPointer fp
        if cp.id = 0 - chunkSegmentStart ∨ cp.id = 0 - chunkSegmentEnd then
          readPointers fuel (num + 1) fp
        else
          let (cps, fp) := readPointers fuel num fp
          (cp :: cps, fp)

def readNextNChunkPointers (b : BackupFile) (n : Nat) :
    Except Abort (Option (List ChunkPointer × Int) × BackupFile) :=
  if b.readChunkNum = b.numberOfChunks then .ok (none, b)
  else do
    let left := b.numberOfChunks - b.readChunkNum
    let num := if (n : Int) < left then (n : Int) else toInt32 left
    let (cps, fp) := readPointers b.recipeFp.content.length num.toNat b.recipeFp
    let readChunkNum := toInt32 (b.readChunkNum + num)
    require (readChunkNum ≤ b.numberOfChunks) .readChunkNum
    return (some (cps, num), { b with recipeFp := fp, readChunkNum := readChunkNum })

def readSegmentPointers : Nat → FpMap ChunkPointer → Stream →
    Except Abort (FpMap ChunkPointer × Stream)
  | 0, kvpairs, fp => .ok (kvpairs, fp)
  | n + 1, kvpairs, fp => do
      let (cp, fp) := readPointer fp
      require (temporaryId < cp.id) .recipeTemporaryId
      readSegmentPointers n (kvpairs.insert cp.fp cp) fp

def readNextSegment (b : BackupFile) : Except Abort (Option SegmentRecipe × BackupFile) :=
  let (flag, fp) := readPointer b.recipeFp
  if b.recipeFp.rest.length < chunkPointerSize ∨ flag.id ≠ -chunkSegmentStart then
    .ok (none, { b with recipeFp := fp })
  else do
    let (kvpairs, fp) ← readSegmentPointers flag.size ∅ fp
    let (flagEnd, fp) := readPointer fp
    require (flagEnd.id = 0 - chunkSegmentEnd) .segmentEndMissing
    return (some { id := makeSegmentId b.bvNum b.recipeFp.pos flag.size, kvpairs := kvpairs },
      { b with recipeFp := fp })

end Read

end BackupFile

end Destor
