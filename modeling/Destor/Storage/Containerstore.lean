/- digest: Containers in memory and the pool they are pushed to. -/

import Destor.Basic
import Destor.Library.Bytes

set_option autoImplicit false
set_option relaxedAutoImplicit false

namespace Destor

open Library.Outcome Library.Bytes

/-- A table keyed by fingerprints, compared on all twenty bytes. -/
abbrev FpMap (β : Type) := AList (fun _ : Fingerprint => β)

/-- A table keyed by container or segment ids. -/
abbrev IdMap (β : Type) := AList (fun _ : Int => β)

def containerSize : Nat := 4194304

def containerMetaSize : Nat := 32768

def containerHead : Nat := 16

def containerMetaEntry : Nat := 28

/-- `struct metaEntry`; the fingerprint is the key it is stored under. -/
structure MetaEntry where
  off : Nat
  len : Nat
deriving DecidableEq, Repr

structure ContainerMeta where
  id : Int
  dataSize : Nat
  chunkNum : Nat
  map : FpMap MetaEntry

/-- `struct container`; no buffer is allocated where the simulation level writes no data. -/
structure Container extends ContainerMeta where
  data : Option Image

def initContainerMeta : ContainerMeta :=
  { id := temporaryId, dataSize := 0, chunkNum := 0, map := ∅ }

/-- `container.pool` together with the queue of containers on their way to it: once pushed, a
container is found in the queue or on disk. -/
structure ContainerPool where
  containers : IdMap Container
  containerCount : Nat

def createContainer (cfg : Config) (pool : ContainerPool) : Container × ContainerPool :=
  ({ initContainerMeta with
      id := pool.containerCount
      data := if cfg.simulationLevel.writesData then some zeros else none },
    { pool with containerCount := pool.containerCount + 1 })

namespace ContainerMeta

def lookupFingerprint (cm : ContainerMeta) (fp : Fingerprint) : Bool := (cm.map.lookup fp).isSome

def isEmpty (cm : ContainerMeta) : Bool := cm.chunkNum == 0

end ContainerMeta

/-- `container_overflow`. Two `int32_t` are added: from `2^31` on the sum wraps below zero. -/
def containerOverflow (c : Container) (size : Nat) : Bool :=
  (containerSize - containerMetaSize < (c.dataSize + size) % 2 ^ 32 &&
      (c.dataSize + size) % 2 ^ 32 < 2 ^ 31) ||
    containerMetaSize < (c.chunkNum + 1) * 28 + 16

/-- The part of `add_chunk_to_container` that adds the chunk, at the end of the data. -/
def appendChunk (cfg : Config) (c : Container) (ck : Chunk) : Container :=
  { c with
    map := c.map.insert ck.fp { off := c.dataSize, len := ck.size }
    chunkNum := c.chunkNum + 1
    dataSize := c.dataSize + ck.size
    data := if cfg.simulationLevel.writesData then
        c.data.map fun d => write d c.dataSize (ck.data.take ck.size)
      else c.data }

/-- `add_chunk_to_container`: also tells whether the chunk was added, and names the container in
the chunk. -/
def addChunkToContainer (cfg : Config) (c : Container) (ck : Chunk) :
    Except Abort (Bool × Container × Chunk) := do
  require (containerOverflow c ck.size = false) .containerOverflow
  if c.lookupFingerprint ck.fp then return (false, c, { ck with id := c.id })
  else do
    require (c.dataSize + ck.size < 2 ^ 31) .dataSizeOverflow
    return (true, appendChunk cfg c ck, { ck with id := c.id })

def writeContainerAsync (pool : ContainerPool) (c : Container) : Except Abort ContainerPool := do
  require (c.chunkNum = c.map.entries.length) .containerChunkNum
  return if c.isEmpty then { pool with containerCount := pool.containerCount - 1 }
    else { pool with containers := pool.containers.insert c.id c }

def retrieveContainerMetaById (pool : ContainerPool) (id : Int) : Except Abort ContainerMeta :=
  match pool.containers.lookup id with
  | some c => .ok c.toContainerMeta
  | none => .error .containerIdMismatch

section Container

variable {cfg : Config} {c c' : Container} {ck ck' : Chunk} {added : Bool}

def Container.Counted (c : Container) : Prop := c.chunkNum = c.map.entries.length

@[simp] theorem createContainer_id (cfg : Config) (pool : ContainerPool) :
    (createContainer cfg pool).1.id = pool.containerCount := rfl

@[simp] theorem createContainer_lookup (cfg : Config) (pool : ContainerPool)
    (fp : Fingerprint) : (createContainer cfg pool).1.lookupFingerprint fp = false := by
  simp [createContainer, initContainerMeta, ContainerMeta.lookupFingerprint]

theorem createContainer_counted (cfg : Config) (pool : ContainerPool) :
    (createContainer cfg pool).1.Counted := rfl

@[simp] theorem createContainer_count (cfg : Config) (pool : ContainerPool) :
    (createContainer cfg pool).2.containerCount = pool.containerCount + 1 := rfl

def fitsEmptyContainer (size : Nat) : Prop := size ≤ containerSize - containerMetaSize

instance (size : Nat) : Decidable (fitsEmptyContainer size) :=
  inferInstanceAs (Decidable (size ≤ containerSize - containerMetaSize))

/-- A new container takes every chunk that fits an empty one. -/
theorem createContainer_not_overflow {pool : ContainerPool} {size : Nat}
    (h : fitsEmptyContainer size) :
    containerOverflow (createContainer cfg pool).1 size = false := by
  simp only [containerOverflow, createContainer, initContainerMeta, Bool.or_eq_false_iff,
    Bool.and_eq_false_iff]
  refine ⟨.inl (decide_eq_false fun hlt => ?_), decide_eq_false (by decide)⟩
  unfold fitsEmptyContainer at h
  have hle := Nat.mod_le (0 + size) (2 ^ 32)
  omega

def Container.Roomy (c : Container) : Prop := c.dataSize ≤ containerSize - containerMetaSize

/-- The size of a roomy container can count one more chunk. -/
theorem Container.Roomy.sum_lt (h : c.Roomy) {size : Nat} (hfits : fitsEmptyContainer size) :
    c.dataSize + size < 2 ^ 31 := by
  unfold Container.Roomy at h
  unfold fitsEmptyContainer at hfits
  unfold containerSize containerMetaSize at h hfits
  omega

/-- A sum that passes the guard without a wrap is within the limit. -/
theorem sum_le_of_not_overflow {size : Nat} (h : containerOverflow c size = false)
    (hsum : c.dataSize + size < 2 ^ 31) : c.dataSize + size ≤ containerSize - containerMetaSize := by
  simp only [containerOverflow, Bool.or_eq_false_iff, Bool.and_eq_false_iff, decide_eq_false_iff_not,
    not_lt] at h
  have hwhole : (c.dataSize + size) % 2 ^ 32 = c.dataSize + size := Nat.mod_eq_of_lt (by omega)
  rw [hwhole] at h
  exact h.1.resolve_right (Nat.not_le.mpr hsum)

/-- The two ends of a successful `add_chunk_to_container`. -/
theorem addChunkToContainer_ok {r : Bool × Container × Chunk}
    (h : addChunkToContainer cfg c ck = .ok r) : containerOverflow c ck.size = false ∧
      (c.lookupFingerprint ck.fp = true ∧ r = (false, c, { ck with id := c.id }) ∨
        c.lookupFingerprint ck.fp = false ∧ c.dataSize + ck.size < 2 ^ 31 ∧
          r = (true, appendChunk cfg c ck, { ck with id := c.id })) := by
  obtain ⟨_, hguard, h⟩ := bind_ok_iff.mp h
  refine ⟨require_ok_iff.mp hguard, ?_⟩
  split at h
  · rename_i hfound
    cases h
    exact .inl ⟨hfound, rfl⟩
  · rename_i hfound
    obtain ⟨_, hsum, h⟩ := bind_ok_iff.mp h
    cases h
    exact .inr ⟨Bool.eq_false_of_not_eq_true hfound, require_ok_iff.mp hsum, rfl⟩

/-- What a successful `add_chunk_to_container` does, whichever of its two ends it reaches. -/
structure Added (c : Container) (ck : Chunk) (added : Bool) (c' : Container) (ck' : Chunk) :
    Prop where
  chunk_eq : ck' = { ck with id := c.id }
  id_eq : c'.id = c.id
  added_eq : added = !c.lookupFingerprint ck.fp
  lookup_eq : ∀ fp, c'.lookupFingerprint fp = (c.lookupFingerprint fp || (fp == ck.fp))
  same : added = false → c' = c
  counted : c.Counted → c'.Counted
  nonempty : c.Counted → c'.isEmpty = false
  roomy : c.Roomy → c'.Roomy

private theorem lookupFingerprint_insert (m : FpMap MetaEntry) (fp fp' : Fingerprint)
    (e : MetaEntry) :
    ((m.insert fp' e).lookup fp).isSome = ((m.lookup fp).isSome || (fp == fp')) := by
  by_cases h : fp = fp'
  · subst h
    simp
  · rw [AList.lookup_insert_ne h]
    simp [h]

private theorem length_entries_insert {β : Type} (m : FpMap β) (fp : Fingerprint) (e : β)
    (h : m.lookup fp = none) : (m.insert fp e).entries.length = m.entries.length + 1 := by
  rw [AList.entries_insert_of_notMem (AList.lookup_eq_none.mp h)]
  simp

theorem appendChunk_lookupFingerprint (cfg : Config) (c : Container) (ck : Chunk)
    (fp : Fingerprint) : (appendChunk cfg c ck).lookupFingerprint fp =
      (c.lookupFingerprint fp || (fp == ck.fp)) :=
  lookupFingerprint_insert _ _ _ _

theorem addChunkToContainer_ensures (cfg : Config) {c : Container} {ck : Chunk}
    (h : containerOverflow c ck.size = false) (hsum : c.dataSize + ck.size < 2 ^ 31) :
    Ensures (fun _ => False) (fun r => Added c ck r.1 r.2.1 r.2.2)
      (addChunkToContainer cfg c ck) := by
  unfold addChunkToContainer
  refine Ensures.bind (ensures_require (Or.inl h)) (fun _ _ => ?_)
  split
  · rename_i hfound
    rw [ensures_pure]
    refine ⟨rfl, rfl, by simp [hfound], ?_, fun _ => rfl, id, ?_, id⟩
    · intro fp
      by_cases heq : fp = ck.fp
      · subst heq
        simp [hfound]
      · simp [heq]
    · intro hc
      simp only [ContainerMeta.lookupFingerprint, AList.lookup_isSome] at hfound
      have hne : c.map.entries ≠ [] := by
        intro hnil
        have := AList.mem_keys.mp hfound
        simp [AList.keys, hnil, List.keys] at this
      have := List.length_pos_iff.mpr hne
      unfold Container.Counted at hc
      simp only [ContainerMeta.isEmpty, beq_eq_false_iff_ne]
      omega
  · rename_i hfound
    refine Ensures.bind (ensures_require (Or.inl hsum)) (fun _ _ => ?_)
    rw [ensures_pure]
    have hnone : c.map.lookup ck.fp = none := by
      simpa [ContainerMeta.lookupFingerprint] using hfound
    refine ⟨rfl, rfl, by simp [hfound], ?_, by simp, ?_, ?_, ?_⟩
    · exact appendChunk_lookupFingerprint cfg c ck
    · intro hc
      unfold Container.Counted at *
      simp only [appendChunk]
      rw [length_entries_insert _ _ _ hnone, hc]
    · exact fun _ => rfl
    · exact fun _ => sum_le_of_not_overflow h hsum

end Container

section Pool

/-- The ids of the pool: each container is filed under its own id, below the counter. -/
structure ContainerPool.WellFormed (pool : ContainerPool) : Prop where
  id_eq : ∀ i c, pool.containers.lookup i = some c → c.id = i
  lt_count : ∀ i c, pool.containers.lookup i = some c → 0 ≤ i ∧ i < pool.containerCount

def ContainerPool.Holds (pool : ContainerPool) (id : Int) (fp : Fingerprint) : Prop :=
  ∃ c, pool.containers.lookup id = some c ∧ c.lookupFingerprint fp = true

theorem writeContainerAsync_ensures {pool : ContainerPool} {c : Container} (hc : c.Counted)
    (hne : c.isEmpty = false) :
    writeContainerAsync pool c =
      .ok { pool with containers := pool.containers.insert c.id c } := by
  simp only [writeContainerAsync, bind_ok_iff, require_ok_iff]
  exact ⟨(), hc, by simp [hne, pure, Except.pure]⟩

theorem retrieveContainerMetaById_of_holds {pool : ContainerPool} {id : Int} {c : Container}
    (h : pool.containers.lookup id = some c) :
    retrieveContainerMetaById pool id = .ok c.toContainerMeta := by
  simp [retrieveContainerMetaById, h]

end Pool

end Destor
