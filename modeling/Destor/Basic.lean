/- digest: Chunks, segments, configuration and assertion failures shared by every phase. -/

import Mathlib.Algebra.Group.Int.Defs
import Mathlib.Algebra.Group.Nat.Defs
import Mathlib.Data.List.AList
import Mathlib.Data.List.TakeDrop
import Destor.Library.Outcome

set_option autoImplicit false
set_option relaxedAutoImplicit false

namespace Destor

def temporaryId : Int := -1

theorem temporaryId_lt_of_nonneg {id : Int} (h : 0 ≤ id) : temporaryId < id := by
  simp only [temporaryId]
  omega

theorem ne_temporaryId_of_nonneg {id : Int} (h : 0 ≤ id) : id ≠ temporaryId :=
  Int.ne_of_gt (temporaryId_lt_of_nonneg h)

/-- The value an `int64_t` keeps of an exact result. -/
def toInt64 (x : Int) : Int := Int.bmod x (2 ^ 64)

theorem toInt64_eq {x : Int} (hlow : -2 ^ 63 ≤ x) (hhigh : x < 2 ^ 63) : toInt64 x = x := by
  unfold toInt64
  exact Int.bmod_eq_of_le_mul_two (by omega) (by omega)

theorem toInt64_add (a b : Int) : toInt64 (toInt64 a + b) = toInt64 (a + b) := Int.bmod_add_bmod

/-- The value an `int` keeps of an exact result. -/
def toInt32 (x : Int) : Int := Int.bmod x (2 ^ 32)

theorem toInt32_eq {x : Int} (hlow : -2 ^ 31 ≤ x) (hhigh : x < 2 ^ 31) : toInt32 x = x := by
  unfold toInt32
  exact Int.bmod_eq_of_le_mul_two (by omega) (by omega)

theorem toInt32_lt (x : Int) : toInt32 x < 2 ^ 31 := Int.bmod_lt (by decide)

/-- A counter that wraps does not exceed what it counts. -/
theorem toInt32_le {x : Int} (h : -2 ^ 31 ≤ x) : toInt32 x ≤ x := by
  show (if x % 2 ^ 32 < (2 ^ 32 + 1) / 2 then x % 2 ^ 32 else x % 2 ^ 32 - 2 ^ 32) ≤ x
  split <;> omega

theorem toInt32_add (a b : Int) : toInt32 (toInt32 a + b) = toInt32 (a + b) := Int.bmod_add_bmod

theorem toInt32_sub (a b : Int) : toInt32 (toInt32 a - toInt32 b) = toInt32 (a - b) := by
  rw [toInt32, toInt32, toInt32, Int.bmod_sub_bmod, Int.sub_bmod_bmod]
  rfl

/-- A `fingerprint`: an array of twenty bytes. -/
structure Fingerprint where
  bytes : List UInt8
  length_eq : bytes.length = 20
deriving DecidableEq

namespace Fingerprint

def fill (b : UInt8) : Fingerprint := ⟨List.replicate 20 b, List.length_replicate⟩

@[ext] theorem ext {a b : Fingerprint} (h : a.bytes = b.bytes) : a = b := by
  cases a
  cases b
  cases h
  rfl

/-- The first twenty of some bytes, missing ones being zero. -/
def ofBytes (bs : List UInt8) : Fingerprint := ⟨bs.takeD 20 0, List.takeD_length _ _ _⟩

theorem ofBytes_bytes (fp : Fingerprint) : ofBytes fp.bytes = fp := by
  apply ext
  show fp.bytes.takeD 20 0 = fp.bytes
  rw [List.takeD_eq_take 0 (Nat.le_of_eq fp.length_eq.symm),
    List.take_of_length_le (Nat.le_of_eq fp.length_eq)]

def byte (fp : Fingerprint) (i : Nat) : UInt8 := fp.bytes.getD i 0

def head (fp : Fingerprint) : Int :=
  toInt32 ((fp.byte 16).toNat + (fp.byte 17).toNat * 2 ^ 8 + (fp.byte 18).toNat * 2 ^ 16 +
    (fp.byte 19).toNat * 2 ^ 24)

/-- `memcmp(a, b, sizeof(fingerprint)) < 0`. -/
def lt (a b : Fingerprint) : Bool := a.bytes < b.bytes

end Fingerprint

instance : Inhabited Fingerprint := ⟨Fingerprint.fill 0⟩

structure ChunkFlag where
  duplicate : Bool := false
  sparse : Bool := false
  outOfOrder : Bool := false
  inCache : Bool := false
  rewriteDenied : Bool := false
  fileStart : Bool := false
  fileEnd : Bool := false
  segmentStart : Bool := false
  segmentEnd : Bool := false
  ready : Bool := false
deriving DecidableEq, Repr

structure Chunk where
  size : Nat
  flag : ChunkFlag
  id : Int
  fp : Fingerprint
  data : List UInt8
deriving DecidableEq

/-- `new_chunk`. The buffer for the data is filled by the caller. -/
def newChunk (size : Nat) : Chunk :=
  { size := size, flag := {}, id := temporaryId, fp := Fingerprint.fill 0, data := [] }

namespace Chunk

def isNormal (c : Chunk) : Bool := !c.flag.fileStart && !c.flag.fileEnd

/-- A file-boundary signal carrying the file name, as the chunk phase sends it. -/
def fileStart (name : List UInt8) : Chunk :=
  { newChunk 0 with flag := { fileStart := true }, data := name }

def fileEnd : Chunk := { newChunk 0 with flag := { fileEnd := true } }

/-- A chunk with content as it leaves the hash phase. -/
def normal (fp : Fingerprint) (size : Nat) (data : List UInt8) : Chunk :=
  { newChunk size with fp := fp, data := data }

end Chunk

/-- `struct segment`, less the features, which every user recomputes. -/
structure Segment where
  chunkNum : Nat
  chunks : List Chunk
deriving DecidableEq

def newSegment : Segment := { chunkNum := 0, chunks := [] }

namespace Segment

def normals (s : Segment) : List Chunk := s.chunks.filter Chunk.isNormal

end Segment

inductive SimulationLevel where
  | no
  | restore
  | append
  | all
deriving DecidableEq, Repr

namespace SimulationLevel

def level : SimulationLevel → Nat
  | no => 0
  | restore => 1
  | append => 2
  | all => 3

/-- `destor.simulation_level < SIMULATION_APPEND`: container data are written. -/
def writesData (s : SimulationLevel) : Bool := s.level < append.level

/-- `destor.simulation_level < SIMULATION_RESTORE`: container data are read back. -/
def readsData (s : SimulationLevel) : Bool := s.level < restore.level

end SimulationLevel

inductive IndexCategory where
  | exact
  | nearExact
deriving DecidableEq, Repr

/-- `index_category[1]`. -/
inductive Locality where
  | physical
  | logical
deriving DecidableEq, Repr

inductive SamplingMethod where
  | random
  | min
  | uniform
  | optimizedMin
deriving DecidableEq, Repr

inductive SegmentAlgorithm where
  | fixed
  | contentDefined
  | fileDefined
deriving DecidableEq, Repr

inductive SegmentSelection where
  | base
  | top
  | mix
deriving DecidableEq, Repr

inductive RewriteAlgorithm where
  | no
  | cflSelectiveDeduplication
  | contextBased
  | capping
deriving DecidableEq, Repr

/-- The fields of `struct destor` that the modelled phases read. A value of the key-value store
has room for at least one id: with a length of zero `kv_update` would write past its buffer. The
comparison of the achieved chunk fragmentation level `min (ocf / ccf) 1` with
`rewrite_cfl_require` is made in floating point and stays a parameter. -/
structure Config where
  simulationLevel : SimulationLevel
  indexCategory : IndexCategory
  locality : Locality
  indexCacheSize : Int
  samplingMethod : SamplingMethod
  samplingRatio : Nat
  indexValueLength : Nat
  indexValueLength_pos : 0 < indexValueLength
  indexKeySize : Nat
  segmentAlgorithm : SegmentAlgorithm
  segmentSize : Nat
  segmentMin : Nat
  segmentMax : Nat
  segmentSelection : SegmentSelection
  segmentSelectionNum : Nat
  segmentPrefetch : Nat
  rewriteAlgorithm : RewriteAlgorithm
  rewriteBufferSize : Nat
  rewriteEnableHar : Bool
  rewriteEnableCacheAware : Bool
  rewriteEnableCflSwitch : Bool
  compareCfl : Nat → Nat → Ordering
  restoreCacheSize : Int

/-- A configuration for small runs: fixed segments of one chunk, no rewriting. -/
def smallConfig (category : IndexCategory) (locality : Locality) : Config :=
  { simulationLevel := .all, indexCategory := category, locality := locality,
    indexCacheSize := 1, samplingMethod := .uniform, samplingRatio := 1, indexValueLength := 1,
    indexValueLength_pos := Nat.one_pos, indexKeySize := 20, segmentAlgorithm := .fixed,
    segmentSize := 1, segmentMin := 1, segmentMax := 1, segmentSelection := .base,
    segmentSelectionNum := 1, segmentPrefetch := 1, rewriteAlgorithm := .no,
    rewriteBufferSize := 4, rewriteEnableHar := false, rewriteEnableCacheAware := false,
    rewriteEnableCflSwitch := false, compareCfl := fun _ _ => .eq, restoreCacheSize := 1 }

/-- Where a run can stop: one constructor for each assertion or `exit` of the modelled code. -/
inductive Abort where
  /-- `init_index`: no such specific index. -/
  | indexSpecific
  /-- `init_index`: key size outside `1..20`. -/
  | keySize
  /-- `index_sampling_random`, `index_sampling_uniform`: ratio zero. -/
  | samplingRatioZero
  /-- `index_sampling_uniform`: no feature in a segment with chunks. -/
  | uniformFeatureMissing
  /-- `add_chunk_to_container`: the chunk does not fit. -/
  | containerOverflow
  /-- `add_chunk_to_container`: more bytes than `data_size` can count, a sum that is undefined. -/
  | dataSizeOverflow
  /-- `write_container_async`: the chunk count differs from the map's size. -/
  | containerChunkNum
  /-- `write_container`, `retrieve_container_by_id`: more metadata than their block holds. -/
  | containerMetaOverflow
  /-- `write_container`: an offset in front of the file, or bytes beyond the greatest offset. -/
  | poolFileOffset
  /-- `write_container`, `get_chunk_in_container`: no data buffer (a null dereference). -/
  | containerDataMissing
  /-- `retrieve_container_by_id`, `retrieve_container_meta_by_id`: another id on disk. -/
  | containerIdMismatch
  /-- `get_chunk_in_container`: no entry for the fingerprint. -/
  | chunkNotInContainer
  /-- `fingerprint_cache_lookup`: a cached pointer without container. -/
  | cachedTemporaryId
  /-- `prefetch_segments`: `id != TEMPORARY_ID`. -/
  | prefetchTemporaryId
  /-- `open_backup_version`: no such version, or another number in its file. -/
  | backupVersionMissing
  /-- `prefetch_segments`: no segment starts at the offset (`j != 0`). -/
  | prefetchNotAtSegment
  /-- A segment recipe whose pointer has no container. -/
  | recipeTemporaryId
  /-- A segment recipe without its end flag. -/
  | segmentEndMissing
  /-- `append_segment_flag`, `append_n_chunk_pointers`: outside an open segment, or more bytes than
  its buffer takes. -/
  | segmentbufOverflow
  /-- `append_segment_flag`: a buffer is written out before it is full. -/
  | segmentbufPartial
  /-- `append_file_recipe_meta`: a description that does not fit into the buffer. -/
  | metabufOverflow
  /-- `read_next_file_recipe_meta`: `read_file_num <= b->number_of_files`. -/
  | readFileNum
  /-- `read_next_n_chunk_pointers`: `read_chunk_num <= b->number_of_chunks`. -/
  | readChunkNum
  /-- `init_restore_jcr`: the backup has been deleted. -/
  | restoreDeleted
  /-- `top_segment_select`: one feature added twice to one similar segment. -/
  | featureTwice
  /-- `index_check_buffer`: `bq`. -/
  | bufferQueueMissing
  /-- `index_update_buffer`: `c->id != TEMPORARY_ID`. -/
  | updateBufferTemporaryId
  /-- `index_update_buffer`: the queue of the fingerprint is absent (a null dereference). -/
  | updateBufferQueueMissing
  /-- `filter_thread`: `restore_aware_contains` found a chunk without container. -/
  | cacheAwareTemporaryId
  /-- `filter_thread`: `ruc`. -/
  | recentlyUniqueMissing
  /-- `filter_thread`: exact deduplication without rewriting stores a chunk twice. -/
  | alreadyStored
  /-- `filter_thread`: `c->id != TEMPORARY_ID` before the recipe is written. -/
  | filterTemporaryId
  /-- `filter_thread`: a file must start here. -/
  | fileStartExpected
  /-- `filter_thread`: `cp.id >= 0`. -/
  | negativeContainerId
  /-- `append_n_chunk_pointers`: `bcp.id != TEMPORARY_ID`. -/
  | appendTemporaryId
  /-- `kvstore_htable_delete`: the deleted id is not the last one of the value. -/
  | deleteNotLast
  /-- `trunc_manifest`: no manifest file. -/
  | manifestMissing
  /-- `start_chunk_phase`, `fastcdc_init`: an assertion about the chunk sizes. -/
  | chunkSizeAssert
  /-- `start_chunk_phase`: the rounding of an average below one, which shifts by a negative number
  or does not end. -/
  | chunkAvgSizeRounding
  /-- A chunker reads, or `chunk_thread` reads or writes, outside a buffer. -/
  | chunkBuffer
  /-- `chunk_thread`: `CHECK_CHUNK(c, CHUNK_FILE_START)`. -/
  | chunkFileStart
  /-- `chunk_thread`: `c`, when no bytes are left before the file has ended. -/
  | chunkFileEnd
  /-- `chunk_thread`: the queue ends within a file (a null dereference). -/
  | readQueueEnded
  /-- `rewrite_buffer_push` and the rewriting algorithms: `CHECK_CHUNK(c, CHUNK_DUPLICATE)`. -/
  | rewriteNotDuplicate
  /-- `rewrite_buffer_push`: `record->cid == c->id`. -/
  | recordOfAnotherContainer
  /-- `rewrite_buffer_push`: `rewrite_buffer.num == destor.rewrite_algorithm[1]`. -/
  | rewriteBufferOverfull
  /-- `rewrite_buffer_pop`, `cbr_rewrite`, `get_rewrite_utility`: `iter`. -/
  | recordMissing
  /-- `segment_content_defined`: a remainder by zero. -/
  | segmentDivisorZero
  /-- `filter_thread`: `CHECK_CHUNK(c, CHUNK_SEGMENT_START)`. -/
  | segmentStartMissing
  /-- `cbr_rewrite`: no chunk left in the buffer (a null dereference). -/
  | decisionChunkMissing
  /-- `read_recipe_thread`: fewer files or pointers than the header says (a null dereference). -/
  | recipeTooShort
  /-- `lru_restore_thread`: `lookup_fingerprint_in_container_meta(cm, &c->fp)`. -/
  | fingerprintNotInMeta
  /-- `read_next_n_records`: no array takes so many ids. -/
  | recordsAllocation
  /-- `read_next_n_records`: `ids[0]` is read before it is set. -/
  | recordsUninitialised
  /-- `optimal_cache_window_slides`, `optimal_cache_insert`: `r`. -/
  | accessRecordMissing
  /-- `optimal_cache_insert`: no record or container to evict (a null dereference). -/
  | victimMissing
  /-- `optimal_cache_lookup`: no cached container has the fingerprint (a null dereference). -/
  | cachedContainerMissing
  /-- `assemble_area`: `c->size == buf->size`. -/
  | assembledSizeMismatch
  /-- `close_har`: the last record of an empty sequence (a null dereference). -/
  | sparseSequenceEmpty
deriving DecidableEq, Repr

end Destor
