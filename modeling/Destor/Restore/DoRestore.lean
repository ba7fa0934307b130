/- digest: Restore: the recipe is read chunk by chunk, and served through an LRU cache. -/

import Destor.Recipe.Recipestore
import Destor.Storage.ContainerFile
import Destor.Utils.LruCache

set_option autoImplicit false
set_option relaxedAutoImplicit false

namespace Destor

open Library.Outcome

/-- What the restore threads work with besides the recipe; `optWindowSize` is an `int`. `stray` is what
`get_chunk_in_container` finds where it looks for the fingerprint, and `place` the position at
which `g_sequence_insert_sorted` puts a record into a sequence that is not sorted. -/
structure RestoreEnv where
  store : ContainerStore
  optWindowSize : Int
  stray : Container → Fingerprint → Fingerprint
  place : IdMap (List Int) → List Int → Int → Nat

/-- The statistics of `struct jcr` that a restore reports, as numbers of events: two of the fields
are `int32_t` and keep them modulo `2^32`. -/
structure RestoreCounts where
  readContainerNum : Nat := 0
  chunkNum : Nat := 0
  dataSize : Nat := 0
deriving DecidableEq, Repr

namespace RestoreCounts

def readContainer (n : RestoreCounts) : RestoreCounts :=
  { n with readContainerNum := n.readContainerNum + 1 }

def restoreChunk (n : RestoreCounts) (c : Chunk) : RestoreCounts :=
  { n with dataSize := n.dataSize + c.size, chunkNum := n.chunkNum + 1 }

end RestoreCounts

section Recipe

/-- The loop of `read_next_n_chunk_pointers` for one pointer, which skips the boundaries of segments. -/
def nextPointer : List ChunkPointer → Option (ChunkPointer × List ChunkPointer)
  | [] => none
  | cp :: rest =>
      if cp.id = 0 - chunkSegmentStart ∨ cp.id = 0 - chunkSegmentEnd then nextPointer rest
      else some (cp, rest)

/-- `read_next_n_chunk_pointers` for one pointer, `read` being the static `read_chunk_num`. The thread
fails where it gets `NULL` or reads behind the recipe. -/
def readNextChunkPointer (b : BackupVersion) (read : Int) (rest : List ChunkPointer) :
    Except Abort (ChunkPointer × Int × List ChunkPointer) :=
  if read = b.numberOfChunks then .error .recipeTooShort
  else
    match nextPointer rest with
    | none => .error .recipeTooShort
    | some (cp, rest) => do
        require (toInt32 (read + 1) ≤ b.numberOfChunks) .readChunkNum
        return (cp, toInt32 (read + 1), rest)

theorem length_nextPointer {rest rest' : List ChunkPointer} {cp : ChunkPointer}
    (h : nextPointer rest = some (cp, rest')) : rest'.length < rest.length := by
  induction rest with
  | nil => cases h
  | cons a rest ih =>
      rw [nextPointer] at h
      split at h
      · exact Nat.lt_succ_of_lt (ih h)
      · cases h
        exact Nat.lt_succ_self _

theorem length_readNextChunkPointer {b : BackupVersion} {read read' : Int}
    {rest rest' : List ChunkPointer} {cp : ChunkPointer}
    (h : readNextChunkPointer b read rest = .ok (cp, read', rest')) : rest'.length < rest.length := by
  rw [readNextChunkPointer] at h
  split at h
  · cases h
  · split at h
    · cases h
    · rename_i hnext
      obtain ⟨-, -, h⟩ := bind_ok_iff.mp h
      cases h
      exact length_nextPointer hnext

/-- The chunk that `read_recipe_thread` makes of a pointer. -/
def ChunkPointer.toChunk (cp : ChunkPointer) : Chunk :=
  { newChunk 0 with fp := cp.fp, size := cp.size, id := cp.id }

/-- The inner loop of `read_recipe_thread`, whose `int j` wraps. -/
def readFileChunks (b : BackupVersion) (chunknum : Nat) (j read : Int) (rest : List ChunkPointer) :
    Except Abort (List Chunk × Int × List ChunkPointer) :=
  if j < chunknum then
    match _hnext : readNextChunkPointer b read rest with
    | .error e => .error e
    | .ok (cp, read, rest) => do
        let (cs, r) ← readFileChunks b chunknum (toInt32 (j + 1)) read rest
        return (cp.toChunk :: cs, r)
  else .ok ([], read, rest)
termination_by rest.length
decreasing_by exact length_readNextChunkPointer _hnext

/-- The signal that starts a file: the name with its final zero. -/
def FileRecipeMeta.startChunk (r : FileRecipeMeta) : Chunk :=
  { newChunk (r.filename.length + 1) with
    flag := { fileStart := true }, data := r.filename ++ [0] }

/-- The loop of `read_recipe_thread`, whose `int i` wraps: what it pushes to `restore_recipe_queue` in
order. -/
def readFiles (b : BackupVersion) :
    Int → List FileRecipeMeta → Int → List ChunkPointer → Except Abort (List Chunk)
  | i, [], _, _ => if i < b.numberOfFiles then .error .recipeTooShort else .ok []
  | i, r :: metas, read, rest =>
      if i < b.numberOfFiles then do
        let (cs, read, rest) ← readFileChunks b r.chunknum 0 read rest
        let stream ← readFiles b (toInt32 (i + 1)) metas read rest
        return r.startChunk :: cs ++ Chunk.fileEnd :: stream
      else .ok []

def readRecipeThread (b : BackupVersion) : Except Abort (List Chunk) :=
  readFiles b 0 b.metas 0 b.recipe

section Counters

variable {b : BackupVersion} {chunknum : Nat} {i j read : Int} {rest : List ChunkPointer}

theorem readFileChunks_of_lt (h : j < chunknum) :
    readFileChunks b chunknum j read rest = (do
      let (cp, read, rest) ← readNextChunkPointer b read rest
      let (cs, r) ← readFileChunks b chunknum (toInt32 (j + 1)) read rest
      return (cp.toChunk :: cs, r)) := by
  rw [readFileChunks, if_pos h]
  split
  · rename_i e hnext
    rw [hnext]
    rfl
  · rename_i cp read' rest' hnext
    rw [hnext]
    rfl

theorem readFileChunks_of_le (h : (chunknum : Int) ≤ j) :
    readFileChunks b chunknum j read rest = .ok ([], read, rest) := by
  rw [readFileChunks, if_neg (by omega)]

/-- Below `2^31` no `int` ends the loop, so it reads until the recipe has ended. -/
theorem readFileChunks_ne_ok (hmany : 2 ^ 31 ≤ chunknum) (hj : j < 2 ^ 31)
    (r : List Chunk × Int × List ChunkPointer) : readFileChunks b chunknum j read rest ≠ .ok r := by
  induction hlength : rest.length using Nat.strongRecOn generalizing j read rest r with
  | ind n ih =>
      intro hok
      rw [readFileChunks_of_lt (by omega)] at hok
      obtain ⟨⟨cp, read', rest'⟩, hnext, hok⟩ := bind_ok_iff.mp hok
      obtain ⟨⟨cs, r'⟩, hloop, -⟩ := bind_ok_iff.mp hok
      exact ih rest'.length (hlength ▸ length_readNextChunkPointer hnext) (toInt32_lt _) _ rfl hloop

theorem readFiles_ne_ok {metas : List FileRecipeMeta} (hmany : 2 ^ 31 ≤ b.numberOfFiles)
    (hi : i < 2 ^ 31) (stream : List Chunk) : readFiles b i metas read rest ≠ .ok stream := by
  induction metas generalizing i read rest stream with
  | nil =>
      rw [readFiles, if_pos (by omega)]
      exact fun hok => by cases hok
  | cons r metas ih =>
      intro hok
      rw [readFiles, if_pos (by omega)] at hok
      obtain ⟨⟨cs, read', rest'⟩, -, hok⟩ := bind_ok_iff.mp hok
      obtain ⟨stream', hloop, -⟩ := bind_ok_iff.mp hok
      exact ih (toInt32_lt _) stream' hloop

end Counters

end Recipe

/-- What a restore cache is made of: how an element is retrieved, and the metadata it has. -/
structure CacheReader (α : Type) where
  retrieve : Int → Except Abort α
  toMeta : α → ContainerMeta

def containerReader (cfg : Config) (env : RestoreEnv) : CacheReader Container where
  retrieve := env.store.retrieveContainerById cfg
  toMeta := Container.toContainerMeta

/-- Metadata alone, cached from `SIMULATION_RESTORE` on; a restore has no container buffered. -/
def containerMetaReader (cfg : Config) (env : RestoreEnv) : CacheReader ContainerMeta where
  retrieve := env.store.retrieveContainerMetaById cfg []
  toMeta := id

namespace CacheReader

variable {α : Type}

/-- `lookup_fingerprint_in_container`, `lookup_fingerprint_in_container_meta`. -/
def hasFp (reader : CacheReader α) (fp : Fingerprint) (e : α) : Bool :=
  (reader.toMeta e).lookupFingerprint fp

def checkId (reader : CacheReader α) (id : Int) (e : α) : Bool := (reader.toMeta e).id == id

end CacheReader

section Lru

/-- The state of `lru_restore_thread`, with what it has pushed to `restore_chunk_queue`. -/
structure LruRestore (α : Type) where
  cache : LruCache α
  counts : RestoreCounts
  pushed : List Chunk

variable {α : Type}

def LruRestore.init (cfg : Config) : LruRestore α :=
  { cache := LruCache.newLruCache cfg.restoreCacheSize, counts := {}, pushed := [] }

def lruFetch (reader : CacheReader α) (check : α → Except Abort Unit) (s : LruRestore α)
    (c : Chunk) : Except Abort (α × LruRestore α) :=
  match s.cache.lookup (reader.hasFp c.fp) with
  | (some e, cache) => .ok (e, { s with cache := cache })
  | (none, cache) => do
      let e ← reader.retrieve c.id
      check e
      return (e, { s with cache := cache.insert e, counts := s.counts.readContainer })

/-- The loop body of `lru_restore_thread` below `SIMULATION_RESTORE`. -/
def lruRestoreChunk (cfg : Config) (env : RestoreEnv) (s : LruRestore Container) (c : Chunk) :
    Except Abort (LruRestore Container) :=
  if c.isNormal then do
    let (con, s) ← lruFetch (containerReader cfg env) (fun _ => .ok ()) s c
    let rc ← getChunkInContainer cfg (env.stray con c.fp) con c.fp
    return { s with counts := s.counts.restoreChunk c, pushed := s.pushed ++ [rc] }
  else .ok { s with pushed := s.pushed ++ [c] }

def lruRestoreChunkMeta (cfg : Config) (env : RestoreEnv) (s : LruRestore ContainerMeta)
    (c : Chunk) : Except Abort (LruRestore ContainerMeta) :=
  if c.isNormal then do
    let (_, s) ← lruFetch (containerMetaReader cfg env)
      (fun cm => require (cm.lookupFingerprint c.fp = true) .fingerprintNotInMeta) s c
    return { s with counts := s.counts.restoreChunk c }
  else .ok { s with pushed := s.pushed ++ [c] }

def lruRestoreThread (cfg : Config) (env : RestoreEnv) (stream : List Chunk) :
    Except Abort (RestoreCounts × List Chunk) :=
  if cfg.simulationLevel.readsData then do
    let s ← foldE (lruRestoreChunk cfg env) (LruRestore.init cfg) stream
    return (s.counts, s.pushed)
  else do
    let s ← foldE (lruRestoreChunkMeta cfg env) (LruRestore.init cfg) stream
    return (s.counts, s.pushed)

end Lru

end Destor
