/- digest: Restore through a cache that evicts what the recorded accesses need last. -/

import Destor.Library.SortedSeq
import Destor.Restore.DoRestore

set_option autoImplicit false
set_option relaxedAutoImplicit false

namespace Destor

open Library Library.Outcome

/-- `optimal_cache`, with the reader of the `.records` file and the static variables `end` and
`last_id`. A record of the sequence is given by its container id: the object is the one that
`access_record_table` has under that id. -/
structure OptimalCache (α : Type) where
  currentSequenceNumber : Int
  accessRecordTable : IdMap (List Int)
  bufferedAccessRecordNum : Int
  sortedRecords : List Int
  lruQueue : LruCache α
  records : List Int
  recordsEnd : Bool
  lastId : Int

/-- The state of `optimal_restore_thread`, with what it has pushed to `restore_chunk_queue`. -/
structure OptimalRestore (α : Type) where
  cache : OptimalCache α
  counts : RestoreCounts
  pushed : List Chunk

namespace OptimalCache

variable {α : Type}

section Window

/-- `read_next_n_records`: the ids that were read, or `NULL`. The array has `n + 1` elements, a number
that is computed as an `int`. -/
def readNextNRecords (s : OptimalCache α) (n : Int) :
    Except Abort (Option (List Int) × OptimalCache α) :=
  if s.recordsEnd then .ok (none, s)
  else do
    require (0 ≤ n ∧ n + 1 < 2 ^ 31) .recordsAllocation
    match (s.records.take n.toNat).getLast? with
    | none => .error .recordsUninitialised
    | some id => .ok (some (s.records.take n.toNat),
        { s with records := s.records.drop n.toNat, recordsEnd := id == temporaryId })

/-- The loop body of `optimal_cache_window_fill`. -/
def pushAccess (s : OptimalCache α) (id : Int) : OptimalCache α :=
  { s with
    accessRecordTable := s.accessRecordTable.insert id
      ((s.accessRecordTable.lookup id).getD [] ++ [s.currentSequenceNumber])
    currentSequenceNumber := toInt32 (s.currentSequenceNumber + 1) }

def windowFill (env : RestoreEnv) (s : OptimalCache α) : Except Abort (OptimalCache α) := do
  let (ids, s) ← s.readNextNRecords (env.optWindowSize - s.bufferedAccessRecordNum)
  return match ids with
    | none => s
    | some ids => ids.foldl pushAccess
        { s with bufferedAccessRecordNum := s.bufferedAccessRecordNum + ids.length }

def init (cfg : Config) (env : RestoreEnv) (records : List Int) :
    Except Abort (OptimalCache α) :=
  windowFill env
    { currentSequenceNumber := 0, accessRecordTable := ∅, bufferedAccessRecordNum := 0,
      sortedRecords := [], lruQueue := LruCache.newLruCache cfg.restoreCacheSize,
      records := records, recordsEnd := false, lastId := temporaryId }

/-- The refill at the start of `optimal_cache_window_slides`. -/
def refill (env : RestoreEnv) (s : OptimalCache α) : Except Abort (OptimalCache α) :=
  if toInt32 (s.bufferedAccessRecordNum * 2) ≤ env.optWindowSize then windowFill env s else .ok s

/-- The rest of `optimal_cache_window_slides`: the access happens now. -/
def popAccess (s : OptimalCache α) (id : Int) : Except Abort (OptimalCache α) :=
  match s.accessRecordTable.lookup id with
  | none => .error .accessRecordMissing
  | some queue => .ok { s with
      accessRecordTable := s.accessRecordTable.insert id queue.tail
      bufferedAccessRecordNum := s.bufferedAccessRecordNum - 1 }

def windowSlides (env : RestoreEnv) (s : OptimalCache α) (id : Int) :
    Except Abort (OptimalCache α) := do
  let s ← s.refill env
  s.popAccess id

/-- The start of `optimal_cache_hits`: consecutive accesses to one container count once. -/
def access (env : RestoreEnv) (s : OptimalCache α) (id : Int) : Except Abort (OptimalCache α) :=
  if s.lastId ≠ id then do
    let s ← s.windowSlides env id
    return { s with lastId := id }
  else .ok s

def hits (env : RestoreEnv) (reader : CacheReader α) (s : OptimalCache α) (id : Int) :
    Except Abort (Bool × OptimalCache α) := do
  let s ← s.access env id
  let (found, lruQueue) := s.lruQueue.hits (reader.checkId id)
  return (found.isSome, { s with lruQueue := lruQueue })

end Window

section Eviction

def seqnoQueue (table : IdMap (List Int)) (id : Int) : List Int := (table.lookup id).getD []

def cmpByFirstSeqno (table : IdMap (List Int)) (a b : Int) : Int :=
  match (seqnoQueue table a).head?, (seqnoQueue table b).head? with
  | none, _ => 1
  | some _, none => -1
  | some da, some db => toInt32 (da - db)

/-- `g_sequence_sort` of the records of the cached containers. -/
def sortRecords (s : OptimalCache α) : List Int :=
  SortedSeq.sort (fun a b => 0 < cmpByFirstSeqno s.accessRecordTable a b) s.sortedRecords

/-- The last record of the sorted sequence, and up to ten more without future access before it. -/
def candidates (s : OptimalCache α) : List Int :=
  match s.sortRecords.reverse with
  | [] => []
  | r :: before =>
      r :: (before.take 10).takeWhile fun id => (seqnoQueue s.accessRecordTable id).isEmpty

/-- The record of the evicted container leaves the sequence, and the table unless the container
will be accessed again. -/
def dropRecord (s : OptimalCache α) (cid : Int) : OptimalCache α :=
  { s with
    sortedRecords := (s.sortRecords.reverse.erase cid).reverse
    accessRecordTable :=
      if (seqnoQueue s.accessRecordTable cid).isEmpty then s.accessRecordTable.erase cid
      else s.accessRecordTable }

/-- The eviction at the start of `optimal_cache_insert`. -/
def evict (reader : CacheReader α) (s : OptimalCache α) : Except Abort (OptimalCache α) :=
  let kicked := fun e => s.candidates.contains (reader.toMeta e).id
  match s.lruQueue.elemQueue.reverse.find? kicked with
  | none => .error .victimMissing
  | some victim =>
      .ok { s.dropRecord (reader.toMeta victim).id with lruQueue := s.lruQueue.kicks kicked }

def makeRoom (reader : CacheReader α) (s : OptimalCache α) : Except Abort (OptimalCache α) :=
  if s.lruQueue.isFull then s.evict reader else .ok s

/-- `g_sequence_insert_sorted` of the record of a container that has been read. -/
def insertRecord (env : RestoreEnv) (s : OptimalCache α) (id : Int) : OptimalCache α :=
  { s with
    sortedRecords :=
      s.sortedRecords.insertIdx (min (env.place s.accessRecordTable s.sortedRecords id)
        s.sortedRecords.length) id }

def insert (env : RestoreEnv) (reader : CacheReader α) (s : OptimalCache α) (id : Int) :
    Except Abort (OptimalCache α) := do
  let s ← s.makeRoom reader
  let e ← reader.retrieve id
  require ((s.accessRecordTable.lookup id).isSome = true) .accessRecordMissing
  return { s with lruQueue := s.lruQueue.insert e }.insertRecord env id

end Eviction

end OptimalCache

namespace OptimalRestore

variable {α : Type}

def fetch (env : RestoreEnv) (reader : CacheReader α) (s : OptimalRestore α) (c : Chunk) :
    Except Abort (OptimalRestore α) := do
  let (hit, cache) ← s.cache.hits env reader c.id
  if hit then return { s with cache := cache }
  else
    let cache ← cache.insert env reader c.id
    return { s with cache := cache, counts := s.counts.readContainer }

def lookup (cfg : Config) (env : RestoreEnv) (s : OptimalRestore Container) (fp : Fingerprint) :
    Except Abort (Chunk × OptimalRestore Container) :=
  match s.cache.lruQueue.lookup ((containerReader cfg env).hasFp fp) with
  | (none, _) => .error .cachedContainerMissing
  | (some con, lruQueue) => do
      let rc ← getChunkInContainer cfg (env.stray con fp) con fp
      return (rc, { s with cache := { s.cache with lruQueue := lruQueue } })

/-- The loop body of `optimal_restore_thread` with `SIMULATION_NO`. -/
def chunk (cfg : Config) (env : RestoreEnv) (s : OptimalRestore Container) (c : Chunk) :
    Except Abort (OptimalRestore Container) :=
  if c.isNormal then do
    let s ← s.fetch env (containerReader cfg env) c
    let (rc, s) ← s.lookup cfg env c.fp
    return { s with counts := s.counts.restoreChunk c, pushed := s.pushed ++ [rc] }
  else .ok { s with pushed := s.pushed ++ [c] }

/-- The same with another simulation level. -/
def chunkMeta (cfg : Config) (env : RestoreEnv) (s : OptimalRestore ContainerMeta) (c : Chunk) :
    Except Abort (OptimalRestore ContainerMeta) :=
  if c.isNormal then do
    let s ← s.fetch env (containerMetaReader cfg env) c
    return { s with counts := s.counts.restoreChunk c }
  else .ok { s with pushed := s.pushed ++ [c] }

def init (cfg : Config) (env : RestoreEnv) (records : List Int) :
    Except Abort (OptimalRestore α) := do
  let cache ← OptimalCache.init cfg env records
  return { cache := cache, counts := {}, pushed := [] }

end OptimalRestore

def optimalRestoreThread (cfg : Config) (env : RestoreEnv) (records : List Int)
    (stream : List Chunk) : Except Abort (RestoreCounts × List Chunk) :=
  if cfg.simulationLevel.readsData then do
    let s ← OptimalRestore.init cfg env records
    let s ← foldE (OptimalRestore.chunk cfg env) s stream
    return (s.counts, s.pushed)
  else do
    let s ← OptimalRestore.init cfg env records
    let s ← foldE (OptimalRestore.chunkMeta cfg env) s stream
    return (s.counts, s.pushed)

end Destor
