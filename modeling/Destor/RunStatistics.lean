/- digest: The statistics that a backup run collects beside its work. -/

import Mathlib.Algebra.Order.Field.Rat
import Destor.DoBackup

set_option autoImplicit false
set_option relaxedAutoImplicit false

namespace Destor

open Library.Outcome

/-- The statistics of `struct jcr` that the filter thread collects. -/
structure Jcr where
  fileNum : Nat
  dataSize : Nat
  uniqueDataSize : Nat
  chunkNum : Nat
  uniqueChunkNum : Nat
  rewrittenChunkNum : Nat
  rewrittenChunkSize : Nat

def initJcr : Jcr :=
  { fileNum := 0, dataSize := 0, uniqueDataSize := 0, chunkNum := 0, uniqueChunkNum := 0,
    rewrittenChunkNum := 0, rewrittenChunkSize := 0 }

def Jcr.countWritten (jcr : Jcr) (c : Chunk) : Jcr :=
  if !c.flag.duplicate then
    { jcr with
      uniqueChunkNum := jcr.uniqueChunkNum + 1
      uniqueDataSize := jcr.uniqueDataSize + c.size }
  else
    { jcr with
      rewrittenChunkNum := jcr.rewrittenChunkNum + 1
      rewrittenChunkSize := jcr.rewrittenChunkSize + c.size }

/-- What `do_backup` adds to `stored_chunk_num`. -/
def Jcr.storedChunkNum (jcr : Jcr) : Nat := jcr.uniqueChunkNum + jcr.rewrittenChunkNum

/-- What `do_backup` prints as the stored data size and adds to `stored_data_size`. -/
def Jcr.storedDataSize (jcr : Jcr) : Nat := jcr.uniqueDataSize + jcr.rewrittenChunkSize

/-- The first deduplication ratio that `do_backup` prints, in exact arithmetic. -/
def Jcr.deduplicationRatio (jcr : Jcr) : Rat :=
  if jcr.dataSize ≠ 0 then
    ((jcr.dataSize : Rat) - jcr.uniqueDataSize - jcr.rewrittenChunkSize) / jcr.dataSize
  else 0

def writeChunkCounted (cfg : Config) (t : FilterState × Jcr) (c : Chunk) :
    Except Abort ((FilterState × Jcr) × Chunk) := do
  let (st, b) ← containerFor cfg t.1 c.size
  let (added, b, c) ← addChunkToContainer cfg b c
  require (added = true ∨ cfg.indexCategory ≠ .exact ∨ cfg.rewriteAlgorithm ≠ .no) .alreadyStored
  return (if added then (recordWritten cfg st b c, t.2.countWritten c)
    else ({ st with storage := { st.storage with containerBuffer := some b } }, t.2), c)

def storeChunkCounted (cfg : Config) (t : FilterState × Jcr) (c : Chunk) :
    Except Abort ((FilterState × Jcr) × Chunk) :=
  if mustWrite t.1.enableRewrite c then writeChunkCounted cfg t c else .ok (t, c)

/-- The loop body of `filter_thread` with the counters. -/
def filterChunkCounted (cfg : Config) (t : FilterState × Jcr) (c : Chunk) :
    Except Abort ((FilterState × Jcr) × Chunk) :=
  if c.isNormal then do
    let c ← markInCache cfg t.1 c
    let st := { t.1 with enableRewrite := switchRewrite cfg t.1 }
    let c ← resolveUnique st c
    let (t, c) ← storeChunkCounted cfg (st, t.2) (resolveRewritten st c)
    require (c.id ≠ temporaryId) .filterTemporaryId
    return ((monitorChunk t.1 c, t.2), c)
  else .ok (t, c)

def Jcr.countRecipe (jcr : Jcr) (r : Option FileRecipeMeta) (c : Chunk) : Jcr :=
  match r with
  | none => jcr
  | some _ =>
      if c.flag.fileEnd then { jcr with fileNum := jcr.fileNum + 1 }
      else { jcr with chunkNum := jcr.chunkNum + 1, dataSize := jcr.dataSize + c.size }

def writeRecipeChunkCounted (t : (BackupVersion × Option FileRecipeMeta) × Jcr) (c : Chunk) :
    Except Abort ((BackupVersion × Option FileRecipeMeta) × Jcr) := do
  let s ← writeRecipeChunk t.1 c
  return (s, t.2.countRecipe t.1.2 c)

/-- `filter_thread` on one segment, with the counters. -/
def filterSegmentCounted (cfg : Config) (store : Store) (job : Job) (jcr : Jcr)
    (marks : Nat → Bool × Bool) : Except Abort ((Store × Job) × Jcr) :=
  match job.inflight with
  | [] => .ok ((store, job), jcr)
  | s :: inflight => do
      let chunks ← indexCheckBuffer job.index.buffer (applyMarks cfg marks s.chunks)
      let chunkNum := (chunks.filter Chunk.isNormal).length
      let ((st, jcr), chunks) ←
        traverseE (filterChunkCounted cfg) (job.filterState store, jcr) chunks
      let buffer ← indexUpdateBuffer job.index.buffer chunks
      let (sid, bv) := appendSegmentStart job.bv chunkNum
      let ((bv, fileMeta), jcr) ←
        foldE writeRecipeChunkCounted ((bv, job.fileMeta), jcr) chunks
      let kv ← updateLogicalIndex cfg st sid chunkNum chunks
      return (({ store with pool := st.pool, htable := kv },
        { job with
          bv := appendSegmentEnd bv
          inflight := inflight
          index := { job.index with buffer := buffer }
          storage := st.storage
          monitor := st.monitor
          restoreAware := st.restoreAware
          enableRewrite := st.enableRewrite
          fileMeta := fileMeta }), jcr)

/-- The system with the statistics of its job, and with the pool as the job found it. -/
structure Accounted where
  sys : System
  jcr : Jcr
  initial : ContainerPool

def initAccounted : Accounted :=
  { sys := initSystem, jcr := initJcr, initial := initSystem.store.pool }

def Accounted.step (cfg : Config) (a : Accounted) (e : Event) : Except Abort Accounted :=
  match e, a.sys.job with
  | .start files, none => do
      let sys ← Destor.step cfg a.sys (.start files)
      return { sys := sys, jcr := initJcr, initial := a.sys.store.pool }
  | .filter marks, some job => do
      let ((store, job), jcr) ← filterSegmentCounted cfg a.sys.store job a.jcr marks
      return { a with sys := { store := store, job := some job }, jcr := jcr }
  | e, _ => do
      let sys ← Destor.step cfg a.sys e
      return { a with sys := sys }

section Projection

variable {cfg : Config}

theorem writeChunkCounted_eq (cfg : Config) (t : FilterState × Jcr) (c : Chunk) :
    (writeChunkCounted cfg t c).map (fun r => (r.1.1, r.2)) = writeChunk cfg t.1 c := by
  unfold writeChunkCounted writeChunk
  cases containerFor cfg t.1 c.size with
  | error e => rfl
  | ok r =>
      obtain ⟨st, b⟩ := r
      simp only [bind, Except.bind]
      cases addChunkToContainer cfg b c with
      | error e => rfl
      | ok r =>
          obtain ⟨added, b', c'⟩ := r
          simp only
          cases require (added = true ∨ cfg.indexCategory ≠ .exact ∨ cfg.rewriteAlgorithm ≠ .no)
            Abort.alreadyStored with
          | error e => rfl
          | ok u => cases added <;> rfl

theorem storeChunkCounted_eq (cfg : Config) (t : FilterState × Jcr) (c : Chunk) :
    (storeChunkCounted cfg t c).map (fun r => (r.1.1, r.2)) = storeChunk cfg t.1 c := by
  unfold storeChunkCounted storeChunk
  split
  · exact writeChunkCounted_eq cfg t c
  · rfl

theorem filterChunkCounted_eq (cfg : Config) (t : FilterState × Jcr) (c : Chunk) :
    (filterChunkCounted cfg t c).map (fun r => (r.1.1, r.2)) = filterChunk cfg t.1 c := by
  unfold filterChunkCounted filterChunk
  split
  · cases markInCache cfg t.1 c with
    | error e => rfl
    | ok c₁ =>
        simp only [bind, Except.bind]
        generalize { t.1 with enableRewrite := switchRewrite cfg t.1 } = st
        cases resolveUnique st c₁ with
        | error e => rfl
        | ok c₂ =>
            simp only
            have hstore := storeChunkCounted_eq cfg (st, t.2) (resolveRewritten st c₂)
            simp only at hstore
            rw [← hstore]
            cases storeChunkCounted cfg (st, t.2) (resolveRewritten st c₂) with
            | error e => rfl
            | ok r =>
                simp only [Except.map]
                cases require (r.2.id ≠ temporaryId) Abort.filterTemporaryId <;> rfl
  · rfl

theorem writeRecipeChunkCounted_eq (t : (BackupVersion × Option FileRecipeMeta) × Jcr)
    (c : Chunk) : (writeRecipeChunkCounted t c).map Prod.fst = writeRecipeChunk t.1 c := by
  unfold writeRecipeChunkCounted
  cases writeRecipeChunk t.1 c <;> rfl

theorem filterSegmentCounted_eq (cfg : Config) (store : Store) (job : Job) (jcr : Jcr)
    (marks : Nat → Bool × Bool) :
    (filterSegmentCounted cfg store job jcr marks).map Prod.fst =
      filterSegment cfg store job marks := by
  unfold filterSegmentCounted filterSegment
  cases job.inflight with
  | nil => rfl
  | cons s inflight =>
      simp only
      cases indexCheckBuffer job.index.buffer (applyMarks cfg marks s.chunks) with
      | error e => rfl
      | ok chunks =>
          simp only [bind, Except.bind]
          have hloop := traverseE_history Prod.fst (filterChunkCounted_eq cfg)
            (job.filterState store, jcr) chunks
          simp only at hloop
          rw [← hloop]
          cases traverseE (filterChunkCounted cfg) (job.filterState store, jcr) chunks with
          | error e => rfl
          | ok r =>
              obtain ⟨⟨st, jcr'⟩, chunks'⟩ := r
              simp only [Except.map]
              cases indexUpdateBuffer job.index.buffer chunks' with
              | error e => rfl
              | ok buffer =>
                  simp only [writeRecipe]
                  have hrecipe := foldE_history Prod.fst writeRecipeChunkCounted_eq
                    (((appendSegmentStart job.bv (chunks.filter Chunk.isNormal).length).2,
                      job.fileMeta), jcr') chunks'
                  simp only at hrecipe
                  rw [← hrecipe]
                  cases foldE writeRecipeChunkCounted
                    (((appendSegmentStart job.bv (chunks.filter Chunk.isNormal).length).2,
                      job.fileMeta), jcr') chunks' with
                  | error e => rfl
                  | ok r =>
                      obtain ⟨⟨bv, fileMeta⟩, jcr''⟩ := r
                      simp only [Except.map, bind, Except.bind, pure, Except.pure]
                      cases updateLogicalIndex cfg st
                        (appendSegmentStart job.bv (chunks.filter Chunk.isNormal).length).1
                        (chunks.filter Chunk.isNormal).length chunks' <;> rfl

/-- The statistics do not change what the system does. -/
theorem Accounted.step_eq (cfg : Config) (a : Accounted) (e : Event) :
    (a.step cfg e).map Accounted.sys = Destor.step cfg a.sys e := by
  obtain ⟨⟨store, job⟩, jcr, initial⟩ := a
  unfold Accounted.step
  cases e with
  | start files =>
      cases job with
      | none =>
          simp only
          cases Destor.step cfg ⟨store, none⟩ (.start files) <;> rfl
      | some job => rfl
  | filter marks =>
      cases job with
      | none => rfl
      | some job =>
          simp only [Destor.step]
          rw [← filterSegmentCounted_eq cfg store job jcr marks]
          cases filterSegmentCounted cfg store job jcr marks <;> rfl
  | lookup waitThreshold =>
      simp only
      cases Destor.step cfg ⟨store, job⟩ (.lookup waitThreshold) <;> rfl
  | finish =>
      simp only
      cases Destor.step cfg ⟨store, job⟩ .finish <;> rfl
  | delete jobid =>
      simp only
      cases Destor.step cfg ⟨store, job⟩ (.delete jobid) <;> rfl

end Projection

end Destor
