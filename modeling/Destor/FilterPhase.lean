/- digest: The filter phase: decides chunk by chunk what is written, then emits the recipe. -/

import Destor.Index.SimilarityDetection
import Destor.RewriteMonitor

set_option autoImplicit false
set_option relaxedAutoImplicit false

namespace Destor

open Library.Outcome

/-- `storage_buffer`: the open container and, under physical locality, its chunks in order. -/
structure StorageBuffer where
  containerBuffer : Option Container
  chunks : List Chunk

/-- What one pass of `filter_thread` over a segment changes. The tables of recently unique and
recently rewritten chunks give the container of a fingerprint. -/
structure FilterState where
  pool : ContainerPool
  kv : KvStore
  storage : StorageBuffer
  monitor : IdMap Int
  restoreAware : RestoreAware
  enableRewrite : Bool
  recentlyUnique : FpMap Int
  recentlyRewritten : FpMap Int

def markInCache (cfg : Config) (st : FilterState) (c : Chunk) : Except Abort Chunk :=
  if cfg.rewriteEnableCacheAware && restoreAwareContains st.restoreAware c.id then do
    require (c.id ≠ temporaryId) .cacheAwareTemporaryId
    return { c with flag := { c.flag with inCache := true } }
  else .ok c

/-- The switch that suspends rewriting out-of-order chunks while the restore speed suffices. -/
def switchRewrite (cfg : Config) (st : FilterState) : Bool :=
  if cfg.rewriteEnableCflSwitch then
    match cfg.compareCfl st.restoreAware.ocf st.restoreAware.ccf with
    | .gt => false
    | .lt => true
    | .eq => st.enableRewrite
  else st.enableRewrite

/-- A copy of a chunk of the same segment takes the id under which that one was stored. -/
def resolveUnique (st : FilterState) (c : Chunk) : Except Abort Chunk :=
  if c.flag.duplicate && c.id == temporaryId then
    match st.recentlyUnique.lookup c.fp with
    | none => .error .recentlyUniqueMissing
    | some id => .ok { c with id := id }
  else .ok c

def resolveRewritten (st : FilterState) (c : Chunk) : Chunk :=
  match st.recentlyRewritten.lookup c.fp with
  | some id => { c with id := id, flag := { c.flag with rewriteDenied := true } }
  | none => c

/-- The chunk is unique, or fragmented and not denied. -/
def mustWrite (enableRewrite : Bool) (c : Chunk) : Bool :=
  !c.flag.duplicate ||
    (!c.flag.rewriteDenied &&
      (c.flag.sparse || (enableRewrite && c.flag.outOfOrder && !c.flag.inCache)))

def updatePhysicalIndex (cfg : Config) (st : FilterState) (b : Container) :
    Except Abort KvStore :=
  match cfg.locality with
  | .physical => do
      let features ← sampling cfg st.storage.chunks st.storage.chunks.length
      return indexUpdate cfg st.kv features b.id
  | .logical => .ok st.kv

/-- Hands a container over: indexes its chunks under physical locality, then pushes it. -/
def pushContainer (cfg : Config) (st : FilterState) (b : Container) :
    Except Abort FilterState := do
  let kv ← updatePhysicalIndex cfg st b
  let pool ← writeContainerAsync st.pool b
  return { st with
    pool := pool
    kv := kv
    storage := { containerBuffer := none, chunks := [] } }

/-- `create_container` into the empty storage buffer. -/
def newContainer (cfg : Config) (st : FilterState) : FilterState × Container :=
  ({ st with pool := (createContainer cfg st.pool).2 }, (createContainer cfg st.pool).1)

/-- The container that takes a chunk of `size` bytes: the open one, a first one, or a new one in
place of a full one. A first container overflows only for a chunk that no container can take, and
such a chunk cannot be added to its successor either. -/
def containerFor (cfg : Config) (st : FilterState) (size : Nat) :
    Except Abort (FilterState × Container) :=
  match st.storage.containerBuffer with
  | none => .ok (newContainer cfg { st with storage := { st.storage with chunks := [] } })
  | some b =>
      if containerOverflow b size then do
        let st ← pushContainer cfg st b
        return newContainer cfg st
      else .ok (st, b)

/-- What the storage buffer and the tables of the segment keep of a chunk just written. -/
def recordWritten (cfg : Config) (st : FilterState) (b : Container) (c : Chunk) : FilterState :=
  { st with
    storage := {
      containerBuffer := some b
      chunks := match cfg.locality with
        | .physical => st.storage.chunks ++ [{ newChunk 0 with fp := c.fp }]
        | .logical => st.storage.chunks }
    recentlyUnique := if c.flag.duplicate then st.recentlyUnique
      else st.recentlyUnique.insert c.fp c.id
    recentlyRewritten := if c.flag.duplicate then st.recentlyRewritten.insert c.fp c.id
      else st.recentlyRewritten }

def writeChunk (cfg : Config) (st : FilterState) (c : Chunk) :
    Except Abort (FilterState × Chunk) := do
  let (st, b) ← containerFor cfg st c.size
  let (added, b, c) ← addChunkToContainer cfg b c
  require (added = true ∨ cfg.indexCategory ≠ .exact ∨ cfg.rewriteAlgorithm ≠ .no) .alreadyStored
  return (if added then recordWritten cfg st b c
    else { st with storage := { st.storage with containerBuffer := some b } }, c)

/-- Writes a chunk if it is unique or fragmented. -/
def storeChunk (cfg : Config) (st : FilterState) (c : Chunk) :
    Except Abort (FilterState × Chunk) :=
  if mustWrite st.enableRewrite c then writeChunk cfg st c else .ok (st, c)

/-- The historical information collected on every chunk. -/
def monitorChunk (st : FilterState) (c : Chunk) : FilterState :=
  { st with
    monitor := harMonitorUpdate st.monitor c.id c.size
    restoreAware := restoreAwareUpdate st.restoreAware c.id c.size }

/-- The loop body of `filter_thread`. -/
def filterChunk (cfg : Config) (st : FilterState) (c : Chunk) :
    Except Abort (FilterState × Chunk) :=
  if c.isNormal then do
    let c ← markInCache cfg st c
    let st := { st with enableRewrite := switchRewrite cfg st }
    let c ← resolveUnique st c
    let (st, c) ← storeChunk cfg st (resolveRewritten st c)
    require (c.id ≠ temporaryId) .filterTemporaryId
    return (monitorChunk st c, c)
  else .ok (st, c)

def writeRecipeChunk (s : BackupVersion × Option FileRecipeMeta) (c : Chunk) :
    Except Abort (BackupVersion × Option FileRecipeMeta) :=
  match s with
  | (bv, none) => do
      require (c.flag.fileStart = true) .fileStartExpected
      return (bv, some (newFileRecipeMeta c.data))
  | (bv, some r) =>
      if c.flag.fileEnd then .ok (appendFileRecipeMeta bv r, none)
      else do
        require (0 ≤ c.id) .negativeContainerId
        let bv ← appendChunkPointer bv { fp := c.fp, id := c.id, size := c.size }
        return (bv, some { r with chunknum := r.chunknum + 1, filesize := r.filesize + c.size })

def writeRecipe (bv : BackupVersion) (r : Option FileRecipeMeta) (chunkNum : Nat)
    (chunks : List Chunk) : Except Abort (Int × BackupVersion × Option FileRecipeMeta) := do
  let (sid, bv) := appendSegmentStart bv chunkNum
  let (bv, r) ← foldE writeRecipeChunk (bv, r) chunks
  return (sid, appendSegmentEnd bv, r)

/-- The index update for logical locality: the sampled features, and for exact deduplication the
fingerprints stored while this segment was processed. -/
def updateLogicalIndex (cfg : Config) (st : FilterState) (sid : Int) (chunkNum : Nat)
    (chunks : List Chunk) : Except Abort KvStore :=
  match cfg.locality with
  | .physical => .ok st.kv
  | .logical => do
      let features ← sampling cfg chunks chunkNum
      let features := if cfg.indexCategory = .exact then
          (st.recentlyUnique.keys ++ st.recentlyRewritten.keys).foldl
            (fun features fp => addFeature features (cfg.key fp)) features
        else features
      return indexUpdate cfg st.kv features sid

end Destor
