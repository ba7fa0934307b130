/- digest: The index buffer in memory: a table whose keys lie inside the elements of its queues. -/

import Destor.Index.SimilarityDetection
import Destor.Library.AliasedTable
import Destor.Library.Transition

set_option autoImplicit false
set_option relaxedAutoImplicit false

namespace Destor

open Library.AliasedTable Library.Outcome Library.Transition

structure IndexElem where
  id : Int
  fp : Fingerprint
deriving DecidableEq

/-- What goes wrong: a check of the code fails, or an element is used that is not allocated. -/
inductive BufferFault where
  | abort (e : Abort)
  | danglingKey (d : DanglingKey)
  | danglingElem (addr : Nat)
  | emptyQueue
deriving DecidableEq

/-- `index_buffer` with the elements that are allocated. The key of an entry of
`buffered_fingerprints` is the fingerprint in an element, the value is a queue of elements. -/
structure BufferMemory where
  elems : AList fun _ : Nat => IndexElem
  bufferedFingerprints : List (Entry (List Nat))
  chunkNum : Int

/-- An allocator: from the addresses in use it finds another one. -/
structure Allocator where
  malloc : List Nat → Nat
  fresh : ∀ used, malloc used ∉ used

namespace BufferMemory

def initial : BufferMemory := { elems := ∅, bufferedFingerprints := [], chunkNum := 0 }

def fpAt (m : BufferMemory) (addr : Nat) : Option Fingerprint :=
  (m.elems.lookup addr).map IndexElem.fp

def lookup (m : BufferMemory) (fp : Fingerprint) :
    Except BufferFault (Option (Entry (List Nat))) :=
  (find m.fpAt fp m.bufferedFingerprints).mapError .danglingKey

/-- An operation on the table that reads its keys. -/
def updateTable (m : BufferMemory) (fp : Fingerprint)
    (f : Entry (List Nat) → Option (Entry (List Nat))) (new : Option (Entry (List Nat))) :
    Except BufferFault BufferMemory := do
  let entries ← (update m.fpAt fp f new m.bufferedFingerprints).mapError .danglingKey
  return { m with bufferedFingerprints := entries }

/-- `ie->id = id`. -/
def setId (id : Int) (m : BufferMemory) (addr : Nat) : Except BufferFault BufferMemory :=
  match m.elems.lookup addr with
  | none => .error (.danglingElem addr)
  | some ie => .ok { m with elems := m.elems.insert addr { ie with id := id } }

def free (m : BufferMemory) (addr : Nat) : Except BufferFault BufferMemory :=
  match m.elems.lookup addr with
  | none => .error (.danglingElem addr)
  | some _ => .ok { m with elems := m.elems.erase addr }

/-- The new element of a chunk goes to the end of the queue, and its fingerprint becomes the key. -/
def pushElem (alloc : Allocator) (m : BufferMemory) (tq : List Nat) (c : Chunk) :
    Except BufferFault (BufferMemory × Nat) := do
  let ne := alloc.malloc m.elems.keys
  let m := { m with elems := m.elems.insert ne { id := c.id, fp := c.fp } }
  let entry : Entry (List Nat) := { key := ne, value := tq ++ [ne] }
  let m ← m.updateTable c.fp (fun _ => some entry) (some entry)
  return ({ m with chunkNum := m.chunkNum + 1 }, ne)

end BufferMemory

/-- What a lookup changes besides the chunk. -/
structure MemoryState where
  memory : BufferMemory
  cache : LruCache CacheUnit

/-- A part of the lookup that does not touch the buffer. -/
def checked {α : Type} (m : Except Abort α) : Except BufferFault α := m.mapError .abort

/-- The buffer is asked where the chunk is not known to be a duplicate: `g_queue_peek_head(tq)`. -/
def checkMemory (m : BufferMemory) (tq : Option (Entry (List Nat))) (c : Chunk) :
    Except BufferFault Chunk :=
  match tq with
  | none => .ok c
  | some entry =>
      if c.flag.duplicate then .ok c
      else
        match entry.value with
        | [] => .error .emptyQueue
        | be :: _ =>
            match m.elems.lookup be with
            | none => .error (.danglingElem be)
            | some e => .ok (setDuplicate c e.id)

/-- The loop body that `index_lookup_base` and `index_lookup_similarity_detection` have in common;
the second result is the new element. -/
def lookupChunkMemory (alloc : Allocator) (cfg : Config) (askKvstore : Bool) (source : IndexSource)
    (storage : Option Container) (st : MemoryState) (c : Chunk) :
    Except BufferFault (MemoryState × Chunk × Option Nat) :=
  if c.isNormal then do
    let c := checkStorageBuffer storage c
    let tq ← st.memory.lookup c.fp
    let c ← checkMemory st.memory tq c
    let (cache, c) ← checked (checkFingerprintCache st.cache c)
    let (cache, c) ← checked (if askKvstore then checkKvstore cfg source cache c else .ok (cache, c))
    let (memory, ne) ← st.memory.pushElem alloc ((tq.map Entry.value).getD []) c
    return ({ memory := memory, cache := cache }, c, some ne)
  else .ok (st, c, none)

def indexLookupMemory (alloc : Allocator) (cfg : Config) (source : IndexSource)
    (storage : Option Container) (st : MemoryState) (s : Segment) :
    Except BufferFault (MemoryState × List (Chunk × Option Nat)) :=
  if cfg.usesSimilarity then do
    let features ← checked (sampling cfg s.chunks s.chunkNum)
    let cache ← checked (topSegmentSelect cfg source st.cache features)
    let askKvstore := cfg.indexCategory = .exact || cfg.segmentSelection = .mix
    traverseE (lookupChunkMemory alloc cfg askKvstore source storage) { st with cache := cache }
      s.chunks
  else traverseE (lookupChunkMemory alloc cfg true source storage) st s.chunks

/-- `index_update_buffer` for one chunk. The queue is popped in place; an empty one leaves the table,
else its elements take the id of the chunk. The popped element is freed last. -/
def updateChunkMemory (m : BufferMemory) (c : Chunk) : Except BufferFault BufferMemory :=
  if c.isNormal then do
    checked (require (c.id ≠ temporaryId) .updateBufferTemporaryId)
    match ← m.lookup c.fp with
    | none => .error (.abort .updateBufferQueueMissing)
    | some bq => do
        let m ← m.updateTable c.fp (fun entry => some { entry with value := bq.value.tail }) none
        let m ← if bq.value.tail = [] then m.updateTable c.fp (fun _ => none) none
          else foldE (BufferMemory.setId c.id) m bq.value.tail
        let m ← match bq.value with
          | [] => .ok m
          | e :: _ => m.free e
        return { m with chunkNum := m.chunkNum - 1 }
  else .ok m

def indexUpdateMemory (m : BufferMemory) (chunks : List Chunk) : Except BufferFault BufferMemory :=
  foldE updateChunkMemory m chunks

end Destor
