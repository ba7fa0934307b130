/- digest: The system: backup jobs whose dedup and filter threads interleave, and deletions. -/

import Destor.Cma
import Destor.FilterPhase
import Destor.Index.SegmentingMethod

set_option autoImplicit false
set_option relaxedAutoImplicit false

namespace Destor

open Library.Outcome

/-- What the jobs leave on disk: `container.pool`, the recipes, `index/htable` and the manifest.
The key-value store is loaded by the next job as it was dumped. -/
structure Store where
  pool : ContainerPool
  backups : List BackupVersion
  htable : KvStore
  manifest : Option (List Char)

/-- A running backup. `todo` holds the segments the dedup thread has not looked up, `inflight`
those on their way from the dedup thread to the filter thread, in the order of the stream. -/
structure Job where
  bv : BackupVersion
  todo : List Segment
  inflight : List Segment
  index : IndexState
  storage : StorageBuffer
  monitor : IdMap Int
  restoreAware : RestoreAware
  enableRewrite : Bool
  fileMeta : Option FileRecipeMeta

structure System where
  store : Store
  job : Option Job

/-- A working directory before its first job. -/
def emptyStore : Store :=
  { pool := { containers := ∅, containerCount := 0 }, backups := [], htable := ∅,
    manifest := none }

def initSystem : System := { store := emptyStore, job := none }

/-- The content of a chunk, as the hash phase delivers it. -/
structure InputChunk where
  fp : Fingerprint
  size : Nat
  data : List UInt8
deriving DecidableEq

/-- A file to be backed up, cut into chunks. -/
structure InputFile where
  name : List UInt8
  chunks : List InputChunk
deriving DecidableEq

def InputChunk.toChunk (c : InputChunk) : Chunk := Chunk.normal c.fp c.size c.data

def InputFile.stream (f : InputFile) : List Chunk :=
  Chunk.fileStart f.name :: f.chunks.map InputChunk.toChunk ++ [Chunk.fileEnd]

/-- What can happen next. A backup of some files starts; the dedup thread looks a segment up, under
the threshold that it reads in `index_lock`; the filter thread processes one, after the rewrite
phase marked its chunks as sparse and out of order; the backup ends; a job is deleted. -/
inductive Event where
  | start (files : List InputFile)
  | lookup (waitThreshold : Int)
  | filter (marks : Nat → Bool × Bool)
  | finish
  | delete (jobid : Nat)

/-- The marks of the rewrite phase on the normal chunks of a segment: `CHUNK_SPARSE` comes from
history-aware rewriting, `CHUNK_OUT_OF_ORDER` from the rewriting algorithm. -/
def applyMarks (cfg : Config) (marks : Nat → Bool × Bool) (chunks : List Chunk) : List Chunk :=
  chunks.mapIdx fun i c =>
    if c.isNormal then
      { c with flag := { c.flag with
          sparse := c.flag.sparse || (cfg.rewriteEnableHar && (marks i).1)
          outOfOrder := c.flag.outOfOrder || (cfg.rewriteAlgorithm != .no && (marks i).2) } }
    else c

/-- The job of a backup whose stream the dedup thread cuts into the given segments. -/
def newJob (cfg : Config) (store : Store) (segments : List Segment) : Job :=
  { bv := createBackupVersion store.backups.length
    todo := segments
    inflight := []
    index := { buffer := initIndexBuffer, cache := LruCache.newLruCache cfg.indexCacheSize }
    storage := { containerBuffer := none, chunks := [] }
    monitor := ∅
    restoreAware := initRestoreAware cfg
    enableRewrite := true
    fileMeta := none }

/-- `do_backup` up to the start of the phases. Where the segmenting method divides by zero, it does
so before the first segment is complete, so no other step of the backup comes before. -/
def startJob (cfg : Config) (store : Store) (files : List InputFile) : Except Abort Job := do
  let segments ← segmentStream cfg newSegment (files.flatMap InputFile.stream)
  return newJob cfg store segments

theorem startJob_ok_iff {cfg : Config} {store : Store} {files : List InputFile} {job : Job} :
    startJob cfg store files = .ok job ↔ ∃ segments,
      segmentStream cfg newSegment (files.flatMap InputFile.stream) = .ok segments ∧
        job = newJob cfg store segments := by
  rw [startJob, bind_ok_iff]
  exact exists_congr fun segments => and_congr_right fun _ =>
    ⟨fun h => (Except.ok.inj h).symm, fun h => h ▸ rfl⟩

def Job.source (store : Store) (job : Job) : IndexSource :=
  { pool := store.pool, backups := store.backups, current := job.bv, kv := store.htable }

/-- The test with which `index_lookup` returns 0. -/
def IndexBuffer.Full (buffer : IndexBuffer) (waitThreshold : Int) : Prop :=
  0 < waitThreshold ∧ waitThreshold ≤ buffer.chunkNum

instance (buffer : IndexBuffer) (waitThreshold : Int) : Decidable (buffer.Full waitThreshold) :=
  inferInstanceAs (Decidable (_ ∧ _))

/-- The loop body of `dedup_thread` under `index_lock`: an empty segment is passed on, a lookup
waits while the index buffer is full. -/
def lookupSegment (cfg : Config) (store : Store) (job : Job) (waitThreshold : Int) :
    Except Abort Job :=
  match job.todo with
  | [] => .ok job
  | s :: todo =>
      if s.chunkNum = 0 then .ok { job with todo := todo, inflight := job.inflight ++ [s] }
      else if job.index.buffer.Full waitThreshold then .ok job
      else do
        let (index, chunks) ←
          indexLookup cfg (job.source store) job.storage.containerBuffer job.index s
        return { job with
          todo := todo
          inflight := job.inflight ++ [{ s with chunks := chunks }]
          index := index }

/-- The state in which `filter_thread` enters its loop over a segment. -/
def Job.filterState (store : Store) (job : Job) : FilterState :=
  { pool := store.pool, kv := store.htable, storage := job.storage, monitor := job.monitor,
    restoreAware := job.restoreAware, enableRewrite := job.enableRewrite, recentlyUnique := ∅,
    recentlyRewritten := ∅ }

/-- `filter_thread` on one segment. -/
def filterSegment (cfg : Config) (store : Store) (job : Job) (marks : Nat → Bool × Bool) :
    Except Abort (Store × Job) :=
  match job.inflight with
  | [] => .ok (store, job)
  | s :: inflight => do
      let chunks ← indexCheckBuffer job.index.buffer (applyMarks cfg marks s.chunks)
      let chunkNum := (chunks.filter Chunk.isNormal).length
      let (st, chunks) ← traverseE (filterChunk cfg) (job.filterState store) chunks
      let buffer ← indexUpdateBuffer job.index.buffer chunks
      let (sid, bv, fileMeta) ← writeRecipe job.bv job.fileMeta chunkNum chunks
      let kv ← updateLogicalIndex cfg st sid chunkNum chunks
      return ({ store with pool := st.pool, htable := kv },
        { job with
          bv := bv
          inflight := inflight
          index := { job.index with buffer := buffer }
          storage := st.storage
          monitor := st.monitor
          restoreAware := st.restoreAware
          enableRewrite := st.enableRewrite
          fileMeta := fileMeta })

/-- The end of `filter_thread`: a container that holds chunks is pushed. -/
def closeStorage (cfg : Config) (st : FilterState) : Except Abort FilterState :=
  match st.storage.containerBuffer with
  | some b => if b.isEmpty then .ok st else pushContainer cfg st b
  | none => .ok st

/-- The end of `do_backup`: the manifest and the backup version are updated. -/
def finishJob (cfg : Config) (store : Store) (job : Job) : Except Abort Store := do
  let st ← closeStorage cfg (job.filterState store)
  return {
    pool := st.pool
    backups := store.backups ++ [updateBackupVersion job.bv]
    htable := st.kv
    manifest := some (updateManifest id store.manifest job.monitor.keys job.bv.bvNum).1 }

/-- Removes a unit id from the keys of some fingerprints: `container_meta_foreach` and
`segment_recipe_foreach` with `delete_an_entry`. -/
def deleteEntries (cfg : Config) (kv : KvStore) (fps : List Fingerprint) (id : Int) :
    Except Abort KvStore :=
  foldE (fun kv fp => indexDelete cfg kv fp id) kv fps

/-- The walk of `do_delete` over the reclaimed containers. -/
def deleteContainers (cfg : Config) (pool : ContainerPool) (kv : KvStore) (ids : List Int) :
    Except Abort KvStore :=
  foldE (fun kv id => do
    let cm ← retrieveContainerMetaById pool id
    deleteEntries cfg kv cm.map.keys id) kv ids

/-- The walk of `do_delete` over the segments of a recipe; each step consumes records, so fuel
beyond their number changes nothing. -/
def deleteSegments (cfg : Config) (bvNum : Nat) :
    Nat → Nat → List ChunkPointer → KvStore → Except Abort KvStore
  | 0, _, _, kv => .ok kv
  | fuel + 1, off, rest, kv => do
      match ← readNextSegment bvNum off rest with
      | none => return kv
      | some (sr, rest') =>
          let kv ← deleteEntries cfg kv sr.kvpairs.keys sr.id
          deleteSegments cfg bvNum fuel (off + (rest.length - rest'.length)) rest' kv

/-- The entries that `do_delete` removes from the key-value store: those of the reclaimed
containers, or those of the segments of the deleted backup. -/
def deleteUnits (cfg : Config) (store : Store) (bv : BackupVersion) (invalid : List Int) :
    Except Abort KvStore :=
  match cfg.locality with
  | .physical => deleteContainers cfg store.pool store.htable invalid
  | .logical => deleteSegments cfg bv.bvNum bv.recipe.length 0 bv.recipe store.htable

/-- `do_delete`. The version is opened for reading, so `bv->deleted = 1` and the update of its
files reach no disk. -/
def doDelete (cfg : Config) (store : Store) (jobid : Nat) : Except Abort Store := do
  let (invalid, manifest, _) ← truncManifest id store.manifest jobid
  let bv ← openBackupVersion store.backups jobid
  let kv ← deleteUnits cfg store bv invalid
  return { store with htable := kv, manifest := some manifest }

/-- One step of the system. A thread that has nothing to do waits, and a job starts only when no
other one runs. -/
def step (cfg : Config) (sys : System) (e : Event) : Except Abort System :=
  match e, sys.job with
  | .start files, none => do
      let job ← startJob cfg sys.store files
      return { sys with job := some job }
  | .lookup waitThreshold, some job => do
      let job ← lookupSegment cfg sys.store job waitThreshold
      return { sys with job := some job }
  | .filter marks, some job => do
      let (store, job) ← filterSegment cfg sys.store job marks
      return { store := store, job := some job }
  | .finish, some job =>
      if job.todo = [] ∧ job.inflight = [] then do
        let store ← finishJob cfg sys.store job
        return { store := store, job := none }
      else .ok sys
  | .delete jobid, none => do
      let store ← doDelete cfg sys.store jobid
      return { sys with store := store }
  | _, _ => .ok sys

theorem step_start {cfg : Config} {store : Store} {files : List InputFile} {sys : System}
    (h : step cfg ⟨store, none⟩ (.start files) = .ok sys) : ∃ segments,
    segmentStream cfg newSegment (files.flatMap InputFile.stream) = .ok segments ∧
      sys = ⟨store, some (newJob cfg store segments)⟩ := by
  obtain ⟨job, hjob, h⟩ := bind_ok_iff.mp h
  obtain ⟨segments, hsegment, rfl⟩ := startJob_ok_iff.mp hjob
  exact ⟨segments, hsegment, (Except.ok.inj h).symm⟩

end Destor
