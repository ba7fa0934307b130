/- digest: The container pool file: both layouts, written and read back byte by byte. -/

import Destor.Storage.Containerstore
import Destor.Utils.Serial

set_option autoImplicit false
set_option relaxedAutoImplicit false

namespace Destor

open Library.Outcome Library.Bytes

/-- The order in which GLib iterates over a table: unspecified, but every entry is visited once. -/
structure TableOrder where
  walk : FpMap MetaEntry → List ((_ : Fingerprint) × MetaEntry)
  perm : ∀ m, (walk m).Perm m.entries

/-- The state of the container store: `container_count` and the bytes of `container.pool`. -/
structure ContainerStore where
  containerCount : Int
  file : Image

def serMetaEntry (e : (_ : Fingerprint) × MetaEntry) : List UInt8 :=
  e.1.bytes ++ leInt 4 e.2.len ++ leInt 4 e.2.off

/-- What `write_container` serialises. -/
def serContainerMeta (order : TableOrder) (cm : ContainerMeta) : List UInt8 :=
  serInt64 cm.id ++ serInt32 cm.chunkNum ++ serInt32 cm.dataSize ++
    (order.walk cm.map).flatMap serMetaEntry

/-- The loop that reads `n` entries of a metadata block into a table. -/
def unserMetaEntries (buf : Image) : Nat → Nat → FpMap MetaEntry → FpMap MetaEntry
  | _, 0, map => map
  | pos, n + 1, map =>
      unserMetaEntries buf (pos + containerMetaEntry) n
        (map.insert ⟨read buf pos 20, length_read buf pos 20⟩
          { len := (ofLeInt (read buf (pos + 20) 4)).toNat
            off := (ofLeInt (read buf (pos + 24) 4)).toNat })

def unserContainerMeta (buf : Image) (id : Int) : Except Abort ContainerMeta := do
  require (unserInt64 (read buf 0 8) = id) .containerIdMismatch
  return {
    id := unserInt64 (read buf 0 8)
    chunkNum := (unserInt32 (read buf 8 4)).toNat
    dataSize := (unserInt32 (read buf 12 4)).toNat
    map := unserMetaEntries buf containerHead (unserInt32 (read buf 8 4)).toNat ∅ }

theorem unserContainerMeta_found {buf : Image} {id : Int} {cm : ContainerMeta}
    (h : unserContainerMeta buf id = .ok cm) : unserInt64 (read buf 0 8) = id := by
  obtain ⟨_, hid, -⟩ := bind_ok_iff.mp h
  exact require_ok_iff.mp hid

namespace ContainerStore

/-- `fseek` and `fwrite`: an offset in front of the file is refused, and so are bytes that an offset
cannot count. -/
def writeAt (s : ContainerStore) (offset : Int) (m : Image) (size : Nat) :
    Except Abort ContainerStore := do
  require (0 ≤ offset ∧ offset + size < 2 ^ 63) .poolFileOffset
  return { s with file := copy s.file offset.toNat m size }

/-- `write_container` below `SIMULATION_APPEND`: the metadata end the data buffer, and the whole
buffer is written. -/
def writeWhole (order : TableOrder) (s : ContainerStore) (c : Container) :
    Except Abort ContainerStore := do
  match c.data with
  | none => throw .containerDataMissing
  | some data =>
      let ser := serContainerMeta order c.toContainerMeta
      require (ser.length ≤ containerMetaSize) .containerMetaOverflow
      writeAt s (toInt64 (c.id * containerSize + 8))
        (write data (containerSize - containerMetaSize) ser) containerSize

/-- `write_container` from `SIMULATION_APPEND` on: the metadata alone, in a cleared block. -/
def writeMeta (order : TableOrder) (s : ContainerStore) (c : Container) :
    Except Abort ContainerStore := do
  let ser := serContainerMeta order c.toContainerMeta
  require (ser.length ≤ containerMetaSize) .containerMetaOverflow
  writeAt s (toInt64 (c.id * containerMetaSize + 8)) (write zeros 0 ser) containerMetaSize

def writeContainer (cfg : Config) (order : TableOrder) (s : ContainerStore) (c : Container) :
    Except Abort ContainerStore := do
  require (c.chunkNum = c.map.entries.length) .containerChunkNum
  if c.isEmpty then return { s with containerCount := s.containerCount - 1 }
  else if cfg.simulationLevel.writesData then writeWhole order s c
  else writeMeta order s c

/-- Where both retrieve functions look for a metadata block. -/
def metaOffset (cfg : Config) (id : Int) : Nat :=
  if cfg.simulationLevel.writesData then
    (toInt64 ((id + 1) * containerSize - containerMetaSize + 8)).toNat
  else (toInt64 (id * containerMetaSize + 8)).toNat

def retrieveContainerById (cfg : Config) (s : ContainerStore) (id : Int) :
    Except Abort Container := do
  let data := fromOffset s.file (toInt64 (id * containerSize + 8)).toNat
  let block := if cfg.simulationLevel.readsData then
      fromOffset data (containerSize - containerMetaSize)
    else fromOffset s.file (metaOffset cfg id)
  let cm ← unserContainerMeta block id
  require (containerHead + containerMetaEntry * cm.chunkNum ≤ containerMetaSize)
    .containerMetaOverflow
  return { cm with data := if cfg.simulationLevel.readsData then some data else none }

/-- `retrieve_container_meta_by_id`; `queue` is `container_buffer`, the containers that the append
thread still has to write. -/
def retrieveContainerMetaById (cfg : Config) (queue : List Container) (s : ContainerStore)
    (id : Int) : Except Abort ContainerMeta :=
  match queue.find? (fun c => c.id == id) with
  | some c => .ok c.toContainerMeta
  | none => unserContainerMeta (fromOffset s.file (metaOffset cfg id)) id

/-- What a container takes of the pool file. -/
def slotSize (cfg : Config) : Nat :=
  if cfg.simulationLevel.writesData then containerSize else containerMetaSize

def slotOffset (cfg : Config) (id : Int) : Int := toInt64 (id * slotSize cfg + 8)

/-- The bytes of the pool file that belong to container `id`. -/
def Region (cfg : Config) (id : Int) (i : Nat) : Prop :=
  slotOffset cfg id ≤ i ∧ i < slotOffset cfg id + slotSize cfg

/-- The pool file can be written at the offset of container `id`. -/
def Reaches (cfg : Config) (id : Int) : Prop :=
  0 ≤ slotOffset cfg id ∧ slotOffset cfg id + slotSize cfg < 2 ^ 63

instance (cfg : Config) (id : Int) : Decidable (Reaches cfg id) :=
  inferInstanceAs (Decidable (_ ∧ _))

structure InPool (cfg : Config) (id : Int) : Prop where
  nonneg : 0 ≤ id
  below : (id + 1) * slotSize cfg + 8 < 2 ^ 63

instance (cfg : Config) (id : Int) : Decidable (InPool cfg id) :=
  decidable_of_iff (0 ≤ id ∧ (id + 1) * slotSize cfg + 8 < 2 ^ 63)
    ⟨fun h => ⟨h.1, h.2⟩, fun h => ⟨h.nonneg, h.below⟩⟩

section Slots

variable {cfg : Config} {id id' : Int} {i : Nat}

theorem slotSize_cases (cfg : Config) : slotSize cfg = 4194304 ∨ slotSize cfg = 32768 := by
  unfold slotSize
  split
  · exact .inl rfl
  · exact .inr rfl

theorem slotSize_of_writes (h : cfg.simulationLevel.writesData = true) :
    slotSize cfg = containerSize := if_pos h

theorem slotSize_of_not_writes (h : ¬ cfg.simulationLevel.writesData = true) :
    slotSize cfg = containerMetaSize := if_neg h

/-- The counter comes first, then one container after another. -/
theorem slotOffset_eq (cfg : Config) (id : Int) : ∃ k, slotOffset cfg id = k * slotSize cfg + 8 := by
  have hsplit : slotOffset cfg id + 2 ^ 64 * Int.bdiv (id * slotSize cfg + 8) (2 ^ 64) =
      id * slotSize cfg + 8 := Int.bmod_add_bdiv _ _
  rcases slotSize_cases cfg with hsize | hsize
  · rw [hsize] at hsplit ⊢
    exact ⟨id - 4398046511104 * Int.bdiv (id * (4194304 : Nat) + 8) (2 ^ 64), by omega⟩
  · rw [hsize] at hsplit ⊢
    exact ⟨id - 562949953421312 * Int.bdiv (id * (32768 : Nat) + 8) (2 ^ 64), by omega⟩

theorem InPool.offset_eq (h : InPool cfg id) : slotOffset cfg id = id * slotSize cfg + 8 := by
  obtain ⟨hid, hlt⟩ := h
  rcases slotSize_cases cfg with hsize | hsize <;> rw [hsize] at hlt <;>
    exact toInt64_eq (by rw [hsize]; omega) (by rw [hsize]; omega)

theorem InPool.reaches (h : InPool cfg id) : Reaches cfg id := by
  unfold Reaches
  rw [h.offset_eq]
  obtain ⟨hid, hlt⟩ := h
  rcases slotSize_cases cfg with hsize | hsize <;> rw [hsize] at hlt ⊢ <;> omega

theorem InPool.succ_lt (h : InPool cfg id) : id + 1 < 2 ^ 63 := by
  obtain ⟨hid, hlt⟩ := h
  rcases slotSize_cases cfg with hsize | hsize <;> rw [hsize] at hlt <;> omega

theorem InPool.lt (h : InPool cfg id) : id < 2 ^ 63 := by
  have hsucc := h.succ_lt
  omega

/-- The metadata are at the end of what is written of a container. -/
theorem metaOffset_eq (h : Reaches cfg id) :
    (metaOffset cfg id : Int) = slotOffset cfg id + slotSize cfg - containerMetaSize := by
  obtain ⟨hlow, hhigh⟩ := h
  unfold metaOffset
  unfold slotOffset slotSize at *
  unfold containerSize containerMetaSize at *
  split
  · rename_i hwrites
    rw [if_pos hwrites] at hlow hhigh
    have hsum : (id + 1) * (4194304 : Nat) - (32768 : Nat) + 8 =
        id * (4194304 : Nat) + 8 + 4161536 := by omega
    rw [hsum, ← toInt64_add, toInt64_eq (by omega) (by omega)]
    omega
  · rename_i hwrites
    rw [if_neg hwrites] at hlow hhigh
    omega

theorem not_region_counter (h : Reaches cfg id) (hi : i < 8) : ¬ Region cfg id i := by
  obtain ⟨k, hk⟩ := slotOffset_eq cfg id
  obtain ⟨hlow, -⟩ := h
  rintro ⟨hle, -⟩
  rcases slotSize_cases cfg with hsize | hsize <;> rw [hsize] at hk <;> omega

/-- Containers at different offsets share no byte. -/
theorem not_region_of_ne (hne : slotOffset cfg id ≠ slotOffset cfg id') (h : Region cfg id i) :
    ¬ Region cfg id' i := by
  obtain ⟨k, hk⟩ := slotOffset_eq cfg id
  obtain ⟨k', hk'⟩ := slotOffset_eq cfg id'
  obtain ⟨hle, hlt⟩ := h
  rintro ⟨hle', hlt'⟩
  rcases slotSize_cases cfg with hsize | hsize <;> rw [hsize] at hk hk' hlt hlt' <;> omega

theorem InPool.offset_inj (h : InPool cfg id) (h' : InPool cfg id')
    (heq : slotOffset cfg id = slotOffset cfg id') : id = id' := by
  rw [h.offset_eq, h'.offset_eq] at heq
  rcases slotSize_cases cfg with hsize | hsize <;> rw [hsize] at heq <;> omega

theorem region_meta (h : Reaches cfg id) (hi : i < containerMetaSize) :
    Region cfg id (metaOffset cfg id + i) := by
  have hmeta := metaOffset_eq h
  unfold Region
  unfold containerMetaSize at *
  rcases slotSize_cases cfg with hsize | hsize <;> rw [hsize] at hmeta ⊢ <;> omega

theorem region_data (h : Reaches cfg id) (hi : i < slotSize cfg) :
    Region cfg id ((slotOffset cfg id).toNat + i) := by
  obtain ⟨hlow, -⟩ := h
  unfold Region
  omega

end Slots

end ContainerStore

/-- `get_chunk_in_container`. The twenty bytes copied to the fingerprint are those from the
parameter `fp` itself on, a pointer; `stray` stands for them. -/
def getChunkInContainer (cfg : Config) (stray : Fingerprint) (c : Container) (fp : Fingerprint) :
    Except Abort Chunk :=
  match c.map.lookup fp with
  | none => .error .chunkNotInContainer
  | some me =>
      if cfg.simulationLevel.readsData then
        match c.data with
        | none => .error .containerDataMissing
        | some data =>
            .ok { newChunk me.len with data := read data me.off me.len, id := c.id, fp := stray }
      else .ok { newChunk me.len with id := c.id, fp := stray }

section Fill

/-- A container that `create_container` made and `add_chunk_to_container` filled, under the guard
of `container_overflow`, with the chunks of a list. A chunk with content has `size` bytes of it. -/
inductive Filled (cfg : Config) : Container → List Chunk → Prop
  | create (pool : ContainerPool) : Filled cfg (createContainer cfg pool).1 []
  | add {c c' : Container} {chunks : List Chunk} {ck ck' : Chunk} {added : Bool}
      (filled : Filled cfg c chunks) (guard : containerOverflow c ck.size = false)
      (content : cfg.simulationLevel.writesData = true → ck.data.length = ck.size)
      (step : addChunkToContainer cfg c ck = .ok (added, c', ck')) : Filled cfg c' (chunks ++ [ck])

def firstAdded (chunks : List Chunk) (fp : Fingerprint) : Option Chunk :=
  chunks.find? (fun ck => ck.fp == fp)

/-- Entries that follow each other without gap from offset `a` to offset `b`. -/
def Consecutive : Nat → List MetaEntry → Nat → Prop
  | a, [], b => a = b
  | a, e :: es, b => e.off = a ∧ Consecutive (a + e.len) es b

def ContainerMeta.extents (cm : ContainerMeta) : List MetaEntry :=
  cm.map.entries.reverse.map (·.2)

structure FillInv (cfg : Config) (c : Container) (chunks : List Chunk) : Prop where
  id_nonneg : 0 ≤ c.id
  counted : c.Counted
  slots : containerHead + containerMetaEntry * c.chunkNum ≤ containerMetaSize
  room : c.dataSize ≤ containerSize - containerMetaSize
  tiles : Consecutive 0 c.extents c.dataSize
  bound : ∀ fp e, c.map.lookup fp = some e → e.off + e.len ≤ c.dataSize
  first : ∀ fp, (c.map.lookup fp).map MetaEntry.len = (firstAdded chunks fp).map Chunk.size
  data_isSome : c.data.isSome = cfg.simulationLevel.writesData
  bytes : ∀ d, c.data = some d → ∀ fp e ck, c.map.lookup fp = some e →
    firstAdded chunks fp = some ck → read d e.off e.len = ck.data

variable {cfg : Config} {c c' : Container} {chunks : List Chunk} {ck ck' : Chunk}

theorem Consecutive.append {a b : Nat} {es : List MetaEntry} (h : Consecutive a es b)
    (e : MetaEntry) (he : e.off = b) : Consecutive a (es ++ [e]) (b + e.len) := by
  induction es generalizing a with
  | nil =>
      have hab : a = b := h
      exact ⟨he.trans hab.symm, by rw [hab]; rfl⟩
  | cons e' es ih => exact ⟨h.1, ih h.2⟩

theorem fillInv_create (cfg : Config) (pool : ContainerPool) :
    FillInv cfg (createContainer cfg pool).1 [] where
  id_nonneg := Int.natCast_nonneg _
  counted := createContainer_counted cfg pool
  slots := show containerHead + containerMetaEntry * 0 ≤ containerMetaSize by decide
  room := Nat.zero_le _
  tiles := rfl
  bound := by simp [createContainer, initContainerMeta]
  first := by simp [createContainer, initContainerMeta, firstAdded]
  data_isSome := by
    simp only [createContainer]
    split <;> simp_all
  bytes := by simp [createContainer, initContainerMeta]

private theorem firstAdded_append_of_some {fp : Fingerprint} {a : Chunk}
    (h : firstAdded chunks fp = some a) : firstAdded (chunks ++ [ck]) fp = some a := by
  rw [firstAdded, List.find?_append, ← firstAdded, h]
  rfl

private theorem firstAdded_append_of_ne {fp : Fingerprint} (h : fp ≠ ck.fp) :
    firstAdded (chunks ++ [ck]) fp = firstAdded chunks fp := by
  have hne : (ck.fp == fp) = false := by simpa using Ne.symm h
  simp [firstAdded, List.find?_append, hne]

private theorem firstAdded_append_self (h : firstAdded chunks ck.fp = none) :
    firstAdded (chunks ++ [ck]) ck.fp = some ck := by
  rw [firstAdded, List.find?_append, ← firstAdded, h]
  simp

/-- A chunk whose fingerprint is already there changes neither the container nor what entered it
first. -/
private theorem FillInv.skip (h : FillInv cfg c chunks) (hfound : c.lookupFingerprint ck.fp = true) :
    FillInv cfg c (chunks ++ [ck]) := by
  have hfirst : ∀ fp, firstAdded (chunks ++ [ck]) fp = firstAdded chunks fp := by
    intro fp
    by_cases hfp : fp = ck.fp
    · have hsome : (firstAdded chunks ck.fp).isSome = true := by
        rw [← Option.isSome_map (f := Chunk.size), ← h.first ck.fp, Option.isSome_map]
        exact hfound
      obtain ⟨a, ha⟩ := Option.isSome_iff_exists.mp hsome
      rw [hfp, firstAdded_append_of_some ha, ha]
    · exact firstAdded_append_of_ne hfp
  exact { h with
    first := fun fp => by rw [hfirst fp]; exact h.first fp
    bytes := fun d hd fp e a he ha => h.bytes d hd fp e a he (hfirst fp ▸ ha) }

private theorem FillInv.append (h : FillInv cfg c chunks) (hguard : containerOverflow c ck.size = false)
    (hsum : c.dataSize + ck.size < 2 ^ 31)
    (hcontent : cfg.simulationLevel.writesData = true → ck.data.length = ck.size)
    (hnew : c.lookupFingerprint ck.fp = false) :
    FillInv cfg (appendChunk cfg c ck) (chunks ++ [ck]) := by
  have hnone : c.map.lookup ck.fp = none := by
    simpa [ContainerMeta.lookupFingerprint] using hnew
  have hentries : (c.map.insert ck.fp { off := c.dataSize, len := ck.size }).entries =
      ⟨ck.fp, { off := c.dataSize, len := ck.size }⟩ :: c.map.entries :=
    AList.entries_insert_of_notMem (AList.lookup_eq_none.mp hnone)
  have hfirst : firstAdded chunks ck.fp = none := by
    have heq := h.first ck.fp
    rw [hnone] at heq
    simpa using heq.symm
  have hroom := sum_le_of_not_overflow hguard hsum
  simp only [containerOverflow, Bool.or_eq_false_iff, decide_eq_false_iff_not, not_lt] at hguard
  have hlookup : ∀ fp e, (c.map.insert ck.fp { off := c.dataSize, len := ck.size }).lookup fp =
      some e → (fp = ck.fp ∧ e = { off := c.dataSize, len := ck.size }) ∨
        (fp ≠ ck.fp ∧ c.map.lookup fp = some e) := by
    intro fp e he
    by_cases hfp : fp = ck.fp
    · rw [hfp, AList.lookup_insert] at he
      exact Or.inl ⟨hfp, (Option.some.inj he).symm⟩
    · rw [AList.lookup_insert_ne hfp] at he
      exact Or.inr ⟨hfp, he⟩
  refine ⟨h.id_nonneg, ?_, ?_, hroom, ?_, fun fp e he => ?_, fun fp => ?_, ?_,
    fun d hd fp e a he ha => ?_⟩
  · have hcount : c.chunkNum = c.map.entries.length := h.counted
    show c.chunkNum + 1 = _
    rw [show (appendChunk cfg c ck).map.entries = _ from hentries, List.length_cons, hcount]
  · have hslots := hguard.2
    show containerHead + containerMetaEntry * (c.chunkNum + 1) ≤ containerMetaSize
    simp only [containerHead, containerMetaEntry] at *
    omega
  · have htiles := h.tiles.append { off := c.dataSize, len := ck.size } rfl
    show Consecutive 0 ((appendChunk cfg c ck).map.entries.reverse.map (·.2)) _
    rw [show (appendChunk cfg c ck).map.entries = _ from hentries, List.reverse_cons,
      List.map_append]
    exact htiles
  · rcases hlookup fp e he with ⟨-, rfl⟩ | ⟨-, he⟩
    · exact le_rfl
    · exact (h.bound fp e he).trans (Nat.le_add_right _ _)
  · show ((c.map.insert ck.fp { off := c.dataSize, len := ck.size }).lookup fp).map _ = _
    by_cases hfp : fp = ck.fp
    · rw [hfp, AList.lookup_insert, firstAdded_append_self hfirst]
      rfl
    · rw [AList.lookup_insert_ne hfp, firstAdded_append_of_ne hfp]
      exact h.first fp
  · simp only [appendChunk]
    split
    · rw [Option.isSome_map]
      exact h.data_isSome
    · exact h.data_isSome
  · -- the new bytes are read back; the old ones lie before the write
    simp only [appendChunk] at hd
    have hwrites : cfg.simulationLevel.writesData = true := by
      rw [← h.data_isSome]
      split at hd
      · rename_i hw
        rw [h.data_isSome, hw]
      · rw [hd]
        rfl
    rw [if_pos hwrites] at hd
    obtain ⟨d₀, hd₀, rfl⟩ := Option.map_eq_some_iff.mp hd
    have hlength := hcontent hwrites
    rw [List.take_of_length_le (le_of_eq hlength)]
    rcases hlookup fp e he with ⟨hfp, rfl⟩ | ⟨hfp, he⟩
    · rw [hfp, firstAdded_append_self hfirst] at ha
      cases ha
      have hself := read_write_self d₀ c.dataSize ck.data
      rwa [hlength] at hself
    · rw [firstAdded_append_of_ne hfp] at ha
      rw [read_write_of_disjoint (Or.inl (h.bound fp e he))]
      exact h.bytes d₀ hd₀ fp e a he ha

/-- Every offset and length of a filled container fits its field. -/
theorem FillInv.entry_lt (h : FillInv cfg c chunks) {fp : Fingerprint} {e : MetaEntry}
    (he : c.map.lookup fp = some e) : e.off < 2 ^ 31 ∧ e.len < 2 ^ 31 := by
  have hbound := h.bound fp e he
  have hroom := h.room
  unfold containerSize containerMetaSize at hroom
  omega

/-- Filling keeps the invariant. -/
theorem Filled.fillInv (h : Filled cfg c chunks) : FillInv cfg c chunks := by
  induction h with
  | create pool => exact fillInv_create cfg pool
  | add filled guard content step ih =>
      rcases (addChunkToContainer_ok step).2 with ⟨hfound, hresult⟩ | ⟨hnew, hsum, hresult⟩
      · cases hresult
        exact ih.skip hfound
      · cases hresult
        exact ih.append guard hsum content hnew

end Fill

section Metadata

/-- Two metadata records that agree on every field and every fingerprint. -/
structure ContainerMeta.Same (a b : ContainerMeta) : Prop where
  id_eq : a.id = b.id
  dataSize_eq : a.dataSize = b.dataSize
  chunkNum_eq : a.chunkNum = b.chunkNum
  lookup_eq : ∀ fp, a.map.lookup fp = b.map.lookup fp

theorem ContainerMeta.Same.refl (a : ContainerMeta) : a.Same a := ⟨rfl, rfl, rfl, fun _ => rfl⟩

variable {buf : Image} {order : TableOrder}

@[simp] theorem length_serMetaEntry (e : (_ : Fingerprint) × MetaEntry) :
    (serMetaEntry e).length = containerMetaEntry := by
  simp [serMetaEntry, e.1.length_eq, containerMetaEntry]

theorem length_flatMap_serMetaEntry (l : List ((_ : Fingerprint) × MetaEntry)) :
    (l.flatMap serMetaEntry).length = containerMetaEntry * l.length := by
  induction l with
  | nil => rfl
  | cons e l ih =>
      rw [List.flatMap_cons, List.length_append, ih, length_serMetaEntry, List.length_cons]
      ring

theorem length_serContainerMeta (order : TableOrder) (cm : ContainerMeta) :
    (serContainerMeta order cm).length =
      containerHead + containerMetaEntry * cm.map.entries.length := by
  have hwalk := (order.perm cm.map).length_eq
  simp only [serContainerMeta, List.length_append, length_serInt64, length_serInt32,
    length_flatMap_serMetaEntry, hwalk, containerHead]

private theorem ofLeInt_leInt_nat {n : Nat} (h : n < 2 ^ 31) : (ofLeInt (leInt 4 n)).toNat = n := by
  have hcodec : ofLeInt (leInt 4 (n : Int)) = n := ofLeInt_leInt (by decide) (by omega) (by omega)
  rw [hcodec, Int.toNat_natCast]

/-- The reading loop rebuilds the entries in the order in which they were written. -/
theorem unserMetaEntries_eq (l : List ((_ : Fingerprint) × MetaEntry)) (pos : Nat)
    (map : FpMap MetaEntry) (hsmall : ∀ e ∈ l, e.2.off < 2 ^ 31 ∧ e.2.len < 2 ^ 31)
    (h : read buf pos (l.flatMap serMetaEntry).length = l.flatMap serMetaEntry) :
    unserMetaEntries buf pos l.length map = l.foldl (fun m e => m.insert e.1 e.2) map := by
  induction l generalizing pos map with
  | nil => rfl
  | cons e l ih =>
      obtain ⟨⟨hoff, hlen⟩, hrest⟩ := List.forall_mem_cons.mp hsmall
      rw [List.flatMap_cons] at h
      obtain ⟨hentry, hnext⟩ := read_append h
      obtain ⟨hfplen, hreadoff⟩ := read_append hentry
      obtain ⟨hreadfp, hreadlen⟩ := read_append hfplen
      simp only [length_serMetaEntry, List.length_append, length_leInt, e.1.length_eq] at *
      have hfp : (⟨read buf pos 20, length_read buf pos 20⟩ : Fingerprint) = e.1 :=
        Fingerprint.ext hreadfp
      simp only [List.length_cons, unserMetaEntries, List.foldl_cons, hfp, hreadlen,
        ofLeInt_leInt_nat hlen]
      rw [show pos + 24 = pos + (20 + 4) from rfl, hreadoff, ofLeInt_leInt_nat hoff]
      exact ih _ _ hrest hnext

private theorem lookup_foldl_entries (l : List ((_ : Fingerprint) × MetaEntry))
    (hnodup : l.NodupKeys) (m : FpMap MetaEntry) (fp : Fingerprint) :
    (l.foldl (fun m e => m.insert e.1 e.2) m).lookup fp = (l.dlookup fp).or (m.lookup fp) := by
  induction l generalizing m with
  | nil => simp
  | cons e l ih =>
      obtain ⟨hfresh, hrest⟩ := List.nodupKeys_cons.mp hnodup
      rw [List.foldl_cons, ih hrest]
      by_cases hfp : fp = e.1
      · subst hfp
        have hnone : l.dlookup e.1 = none := List.dlookup_eq_none.mpr hfresh
        rw [hnone, AList.lookup_insert, List.dlookup_cons_eq]
        rfl
      · rw [AList.lookup_insert_ne hfp, List.dlookup_cons_ne _ _ hfp]

/-- Whatever the iteration order, the entries rebuild the table. -/
theorem lookup_foldl_walk (order : TableOrder) (m : FpMap MetaEntry) (fp : Fingerprint) :
    ((order.walk m).foldl (fun m' e => m'.insert e.1 e.2) (∅ : FpMap MetaEntry)).lookup fp =
      m.lookup fp := by
  have hperm := order.perm m
  have hnodup : (order.walk m).NodupKeys :=
    (List.perm_nodupKeys hperm).mpr m.nodupKeys
  rw [lookup_foldl_entries _ hnodup, AList.lookup_empty, Option.or_none]
  exact List.perm_dlookup fp hnodup hperm

/-- A serialised metadata block is read back as it was. -/
theorem unserContainerMeta_ser {cm : ContainerMeta} (hid : 0 ≤ cm.id) (hid' : cm.id < 2 ^ 63)
    (hsize : cm.dataSize < 2 ^ 31) (hnum : cm.chunkNum < 2 ^ 31)
    (hcounted : cm.chunkNum = cm.map.entries.length)
    (hsmall : ∀ fp e, cm.map.lookup fp = some e → e.off < 2 ^ 31 ∧ e.len < 2 ^ 31)
    (h : read buf 0 (serContainerMeta order cm).length = serContainerMeta order cm) :
    ∃ cm', unserContainerMeta buf cm.id = .ok cm' ∧ cm'.Same cm := by
  obtain ⟨hhead, hentries⟩ := read_append h
  obtain ⟨hhead, hreadsize⟩ := read_append hhead
  obtain ⟨hreadid, hreadnum⟩ := read_append hhead
  simp only [length_serInt64, length_serInt32, List.length_append, Nat.zero_add] at *
  have hids : unserInt64 (read buf 0 8) = cm.id := by
    rw [hreadid]
    exact unserInt64_serInt64 (by omega) hid'
  have hnums : unserInt32 (read buf 8 4) = cm.chunkNum := by
    rw [hreadnum]
    exact unserInt32_serInt32 (by omega) (by omega)
  have hsizes : unserInt32 (read buf 12 4) = cm.dataSize := by
    rw [show 12 = 8 + 4 from rfl, hreadsize]
    exact unserInt32_serInt32 (by omega) (by omega)
  have hlength : cm.chunkNum = (order.walk cm.map).length := by
    rw [hcounted, (order.perm cm.map).length_eq]
  refine ⟨_, bind_ok_iff.mpr ⟨(), require_ok_iff.mpr hids, rfl⟩, hids, ?_, ?_, fun fp => ?_⟩
  · simp only [hsizes, Int.toNat_natCast]
  · simp only [hnums, Int.toNat_natCast]
  · simp only [hnums, Int.toNat_natCast, hlength]
    rw [show containerHead = 8 + 4 + 4 from rfl, unserMetaEntries_eq _ _ _ ?_ hentries,
      lookup_foldl_walk]
    intro e he
    exact hsmall e.1 e.2 (AList.mem_lookup_iff.mpr ((order.perm cm.map).mem_iff.mp he))

end Metadata

section Disk

namespace ContainerStore

/-- The pool file holds container `c`: its metadata block, in some iteration order, and its data
where data are written. -/
structure Intact (cfg : Config) (s : ContainerStore) (c : Container) : Prop where
  metadata : ∃ order : TableOrder,
    read (fromOffset s.file (metaOffset cfg c.id)) 0
      (serContainerMeta order c.toContainerMeta).length = serContainerMeta order c.toContainerMeta
  data : cfg.simulationLevel.writesData = true → ∀ d, c.data = some d → ∀ off n,
    off + n ≤ containerSize - containerMetaSize →
      read (fromOffset s.file (slotOffset cfg c.id).toNat) off n = read d off n

variable {cfg : Config} {s s' : ContainerStore} {c : Container} {chunks : List Chunk}

theorem length_ser_le (h : FillInv cfg c chunks) (order : TableOrder) :
    (serContainerMeta order c.toContainerMeta).length ≤ containerMetaSize := by
  have hcounted : c.chunkNum = c.map.entries.length := h.counted
  rw [length_serContainerMeta, ← hcounted]
  exact h.slots

theorem Intact.of_agree (h : Intact cfg s c) (hfill : FillInv cfg c chunks)
    (hreach : Reaches cfg c.id) (hagree : ∀ i, Region cfg c.id i → s'.file i = s.file i) :
    Intact cfg s' c where
  metadata := by
    obtain ⟨order, hread⟩ := h.metadata
    have hlength := length_ser_le hfill order
    refine ⟨order, Eq.trans ?_ hread⟩
    apply read_congr
    intro i _ hi
    exact hagree _ (region_meta hreach (by omega))
  data := by
    intro hwrites d hd off n hle
    rw [← h.data hwrites d hd off n hle]
    apply read_congr
    intro i _ hi
    refine hagree _ (region_data hreach ?_)
    rw [slotSize_of_writes hwrites]
    exact Nat.lt_of_lt_of_le hi (hle.trans (Nat.sub_le _ _))

private theorem writeAt_eq (hreach : Reaches cfg c.id) (m : Image) :
    writeAt s (slotOffset cfg c.id) m (slotSize cfg) =
      .ok { s with file := copy s.file (slotOffset cfg c.id).toNat m (slotSize cfg) } :=
  bind_ok_iff.mpr ⟨(), require_ok_iff.mpr hreach, rfl⟩

structure Written (cfg : Config) (s : ContainerStore) (c : Container) (s' : ContainerStore) :
    Prop where
  count_eq : s'.containerCount = s.containerCount
  intact : Intact cfg s' c
  frame : ∀ i, ¬ Region cfg c.id i → s'.file i = s.file i

private theorem writeWhole_spec (hfill : FillInv cfg c chunks)
    (hreach : Reaches cfg c.id) (hwrites : cfg.simulationLevel.writesData = true)
    (order : TableOrder) (s : ContainerStore) :
    ∃ s', writeWhole order s c = .ok s' ∧ Written cfg s c s' := by
  obtain ⟨d, hd⟩ := Option.isSome_iff_exists.mp (hfill.data_isSome.trans hwrites)
  have hlength := length_ser_le hfill order
  have hmeta := metaOffset_eq hreach
  have hwrite := writeAt_eq (s := s) hreach
    (write d (containerSize - containerMetaSize) (serContainerMeta order c.toContainerMeta))
  have hsize := slotSize_of_writes hwrites
  have hoffset : slotOffset cfg c.id = toInt64 (c.id * containerSize + 8) := by
    rw [slotOffset, hsize]
  obtain ⟨hlow, -⟩ := hreach
  rw [hsize] at hmeta hwrite
  simp only [writeWhole, hd, bind_ok_iff, require_ok_iff]
  rw [← hoffset, hwrite]
  refine ⟨_, ⟨(), hlength, rfl⟩, rfl, ⟨⟨order, ?_⟩, ?_⟩, ?_⟩
  · -- the block lies at the end of the copied buffer
    have hoff : metaOffset cfg c.id + 0 =
        (slotOffset cfg c.id).toNat + (containerSize - containerMetaSize) := by
      unfold containerSize containerMetaSize at *
      omega
    rw [read_fromOffset, hoff, read_copy_inside]
    · exact read_write_self d _ _
    · unfold containerSize
      unfold containerMetaSize at *
      omega
  · intro _ d' hd' off n hle
    cases hd.symm.trans hd'
    rw [read_fromOffset, read_copy_inside]
    · exact read_write_of_disjoint (Or.inl hle)
    · exact hle.trans (Nat.sub_le _ _)
  · intro i hi
    apply copy_apply_of_disjoint
    unfold Region at hi
    rw [hsize] at hi
    omega

private theorem writeMeta_spec (hfill : FillInv cfg c chunks)
    (hreach : Reaches cfg c.id) (hwrites : ¬ cfg.simulationLevel.writesData = true)
    (order : TableOrder) (s : ContainerStore) :
    ∃ s', writeMeta order s c = .ok s' ∧ Written cfg s c s' := by
  have hlength := length_ser_le hfill order
  have hmeta := metaOffset_eq hreach
  have hwrite := writeAt_eq (s := s) hreach
    (write zeros 0 (serContainerMeta order c.toContainerMeta))
  have hsize := slotSize_of_not_writes hwrites
  have hoffset : slotOffset cfg c.id = toInt64 (c.id * containerMetaSize + 8) := by
    rw [slotOffset, hsize]
  obtain ⟨hlow, -⟩ := hreach
  rw [hsize] at hmeta hwrite
  simp only [writeMeta, bind_ok_iff, require_ok_iff]
  rw [← hoffset, hwrite]
  refine ⟨_, ⟨(), hlength, rfl⟩, rfl, ⟨⟨order, ?_⟩, fun h => absurd h hwrites⟩, ?_⟩
  · have hoff : metaOffset cfg c.id = (slotOffset cfg c.id).toNat := by omega
    rw [read_fromOffset, hoff, read_copy_inside]
    · exact read_write_self zeros _ _
    · rwa [Nat.zero_add]
  · intro i hi
    apply copy_apply_of_disjoint
    unfold Region at hi
    rw [hsize] at hi
    omega

/-- Only the bytes of the file matter. -/
theorem Intact.of_file (h : Intact cfg s c) (hfile : s'.file = s.file) : Intact cfg s' c where
  metadata := by
    rw [hfile]
    exact h.metadata
  data := by
    rw [hfile]
    exact h.data

/-- `write_container` puts a filled container into its region and leaves the rest of the file. -/
theorem writeContainer_spec (hfill : FillInv cfg c chunks) (hne : c.isEmpty = false)
    (hreach : Reaches cfg c.id) (order : TableOrder) (s : ContainerStore) :
    ∃ s', writeContainer cfg order s c = .ok s' ∧ Written cfg s c s' := by
  have hcounted : c.chunkNum = c.map.entries.length := hfill.counted
  have hguard : ∀ r, (if cfg.simulationLevel.writesData = true then writeWhole order s c
      else writeMeta order s c) = r → writeContainer cfg order s c = r := by
    rintro r rfl
    simp only [writeContainer, require, if_pos hcounted, hne, Bool.false_eq_true, if_false]
    rfl
  by_cases hwrites : cfg.simulationLevel.writesData = true
  · obtain ⟨s', hok, hwritten⟩ := writeWhole_spec hfill hreach hwrites order s
    exact ⟨s', hguard _ (by rw [if_pos hwrites, hok]), hwritten⟩
  · obtain ⟨s', hok, hwritten⟩ := writeMeta_spec hfill hreach hwrites order s
    exact ⟨s', hguard _ (by rw [if_neg hwrites, hok]), hwritten⟩

/-- The metadata of an intact container are read back. -/
theorem Intact.unserContainerMeta (h : Intact cfg s c) (hfill : FillInv cfg c chunks)
    (hid : c.id < 2 ^ 63) :
    ∃ cm, Destor.unserContainerMeta (fromOffset s.file (metaOffset cfg c.id)) c.id = .ok cm ∧
      cm.Same c.toContainerMeta := by
  obtain ⟨order, hread⟩ := h.metadata
  have hroom := hfill.room
  have hslots := hfill.slots
  unfold containerHead containerMetaEntry at hslots
  unfold containerSize at hroom
  unfold containerMetaSize at hroom hslots
  exact unserContainerMeta_ser hfill.id_nonneg hid (by omega) (by omega) hfill.counted
    (fun fp e he => hfill.entry_lt he) hread

theorem Intact.retrieveContainerMetaById (h : Intact cfg s c) (hfill : FillInv cfg c chunks)
    (hid : c.id < 2 ^ 63) {queue : List Container} (hqueue : ∀ c' ∈ queue, c'.id = c.id → c' = c) :
    ∃ cm, ContainerStore.retrieveContainerMetaById cfg queue s c.id = .ok cm ∧
      cm.Same c.toContainerMeta := by
  unfold ContainerStore.retrieveContainerMetaById
  cases hfind : queue.find? (fun c' => c'.id == c.id) with
  | none => exact h.unserContainerMeta hfill hid
  | some c' =>
      have hc' : c' = c := hqueue c' (List.mem_of_find?_eq_some hfind)
        (by simpa using List.find?_some hfind)
      exact ⟨c'.toContainerMeta, rfl, hc' ▸ ContainerMeta.Same.refl _⟩

theorem writesData_of_readsData (h : cfg.simulationLevel.readsData = true) :
    cfg.simulationLevel.writesData = true := by
  cases hlevel : cfg.simulationLevel <;> simp_all [SimulationLevel.readsData,
    SimulationLevel.writesData, SimulationLevel.level]

/-- Both retrieve functions read the same metadata block. -/
theorem fromOffset_block {id : Int} (hreach : Reaches cfg id)
    (hreads : cfg.simulationLevel.readsData = true) (m : Image) :
    fromOffset (fromOffset m (toInt64 (id * containerSize + 8)).toNat)
        (containerSize - containerMetaSize) = fromOffset m (metaOffset cfg id) := by
  have hmeta := metaOffset_eq hreach
  have hsize := slotSize_of_writes (writesData_of_readsData hreads)
  obtain ⟨hlow, -⟩ := hreach
  unfold slotOffset at hmeta hlow
  rw [hsize] at hmeta hlow
  funext i
  unfold fromOffset
  congr 1
  unfold containerSize containerMetaSize at *
  omega

/-- A whole container is read back, with its data where the level reads data. -/
theorem Intact.retrieveContainerById (h : Intact cfg s c) (hfill : FillInv cfg c chunks)
    (hreach : Reaches cfg c.id) (hid : c.id < 2 ^ 63) :
    ∃ r, ContainerStore.retrieveContainerById cfg s c.id = .ok r ∧
      r.toContainerMeta.Same c.toContainerMeta ∧
      (cfg.simulationLevel.readsData = true → ∃ d, r.data = some d ∧
        ∀ fp e, c.map.lookup fp = some e → ∃ ck, firstAdded chunks fp = some ck ∧
          e.len = ck.size ∧ read d e.off e.len = ck.data) := by
  obtain ⟨cm, hok, hsame⟩ := h.unserContainerMeta hfill hid
  have hslots : containerHead + containerMetaEntry * cm.chunkNum ≤ containerMetaSize := by
    rw [hsame.chunkNum_eq]
    exact hfill.slots
  have hblock : (if cfg.simulationLevel.readsData then
      fromOffset (fromOffset s.file (toInt64 (c.id * containerSize + 8)).toNat)
        (containerSize - containerMetaSize)
      else fromOffset s.file (metaOffset cfg c.id)) = fromOffset s.file (metaOffset cfg c.id) := by
    split
    · rename_i hreads
      exact fromOffset_block hreach hreads s.file
    · rfl
  unfold ContainerStore.retrieveContainerById
  simp only [hblock]
  refine ⟨_, bind_ok_iff.mpr ⟨cm, hok, bind_ok_iff.mpr
    ⟨(), require_ok_iff.mpr hslots, rfl⟩⟩, hsame, fun hreads => ?_⟩
  have hwrites := writesData_of_readsData hreads
  obtain ⟨d, hd⟩ := Option.isSome_iff_exists.mp (hfill.data_isSome.trans hwrites)
  refine ⟨_, if_pos hreads, fun fp e he => ?_⟩
  have hfirst := hfill.first fp
  rw [he] at hfirst
  obtain ⟨ck, hck, hsize⟩ := Option.map_eq_some_iff.mp hfirst.symm
  have hin := (hfill.bound fp e he).trans hfill.room
  refine ⟨ck, hck, hsize.symm, ?_⟩
  have hdata := h.data hwrites d hd e.off e.len hin
  rw [slotOffset, slotSize_of_writes hwrites] at hdata
  rw [hdata]
  exact hfill.bytes d hd fp e ck he hck

/-- What the pool file gives back of a container that was filled with `chunks`, one of `set`. -/
structure RoundTrip (cfg : Config) (set queue : List Container) (s : ContainerStore) (c : Container)
    (chunks : List Chunk) : Prop where
  byId : ∃ r, ContainerStore.retrieveContainerById cfg s c.id = .ok r ∧
    r.toContainerMeta.Same c.toContainerMeta ∧
    (cfg.simulationLevel.readsData = true → ∃ d, r.data = some d ∧
      ∀ fp e, c.map.lookup fp = some e → ∃ ck, firstAdded chunks fp = some ck ∧
        e.len = ck.size ∧ read d e.off e.len = ck.data)
  metaById : ∃ cm, ContainerStore.retrieveContainerMetaById cfg queue s c.id = .ok cm ∧
    cm.Same c.toContainerMeta
  tiles : Consecutive 0 c.extents c.dataSize
  fits : (∀ order, (serContainerMeta order c.toContainerMeta).length ≤ containerMetaSize) ∧
    c.dataSize ≤ containerSize - containerMetaSize
  frame : ∀ order s, ∃ s', writeContainer cfg order s c = .ok s' ∧
    (∀ i < 8, s'.file i = s.file i) ∧
    ∀ c' ∈ set, c'.id ≠ c.id → ∀ i, Region cfg c'.id i → s'.file i = s.file i

/-- Writing containers at distinct offsets, one after the other, leaves all of them intact. -/
theorem foldE_writeContainer (order : TableOrder) (filled : List (Container × List Chunk))
    (hfill : ∀ p ∈ filled, FillInv cfg p.1 p.2) (hne : ∀ p ∈ filled, p.1.isEmpty = false)
    (hreach : ∀ p ∈ filled, Reaches cfg p.1.id)
    (hoffsets : (filled.map fun p => slotOffset cfg p.1.id).Nodup) (s : ContainerStore) :
    ∃ s', foldE (writeContainer cfg order) s (filled.map Prod.fst) = .ok s' ∧
      s'.containerCount = s.containerCount ∧ (∀ p ∈ filled, Intact cfg s' p.1) ∧
      ∀ i, (∀ p ∈ filled, ¬ Region cfg p.1.id i) → s'.file i = s.file i := by
  induction filled generalizing s with
  | nil => exact ⟨s, rfl, rfl, by simp, fun _ _ => rfl⟩
  | cons p filled ih =>
      obtain ⟨hp, hrest⟩ := List.forall_mem_cons.mp hfill
      obtain ⟨hpne, hrestne⟩ := List.forall_mem_cons.mp hne
      obtain ⟨hpreach, hrestreach⟩ := List.forall_mem_cons.mp hreach
      obtain ⟨hfresh, hnodup⟩ := List.nodup_cons.mp hoffsets
      obtain ⟨s₁, hok₁, hwritten⟩ := writeContainer_spec hp hpne hpreach order s
      obtain ⟨s₂, hok₂, hcount, hintact, hframe⟩ := ih hrest hrestne hrestreach hnodup s₁
      have hother : ∀ i, Region cfg p.1.id i → s₂.file i = s₁.file i := by
        intro i hi
        apply hframe
        intro p' hp'
        refine not_region_of_ne (fun heq => hfresh ?_) hi
        exact List.mem_map.mpr ⟨p', hp', heq.symm⟩
      refine ⟨s₂, bind_ok_iff.mpr ⟨s₁, hok₁, hok₂⟩, hcount.trans hwritten.count_eq, ?_, ?_⟩
      · intro p' hp'
        rcases List.mem_cons.mp hp' with rfl | hp'
        · exact hwritten.intact.of_agree hp hpreach hother
        · exact hintact p' hp'
      · intro i hi
        obtain ⟨hi₁, hi₂⟩ := List.forall_mem_cons.mp hi
        exact (hframe i hi₂).trans (hwritten.frame i hi₁)

/-- Containers with distinct ids in the pool file are at distinct offsets. -/
theorem nodup_slotOffset {filled : List (Container × List Chunk)}
    (hpool : ∀ p ∈ filled, InPool cfg p.1.id) (hids : (filled.map fun p => p.1.id).Nodup) :
    (filled.map fun p => slotOffset cfg p.1.id).Nodup := by
  have hmap : (filled.map fun p => slotOffset cfg p.1.id) =
      (filled.map fun p => p.1.id).map (slotOffset cfg) := by rw [List.map_map]; rfl
  rw [hmap]
  apply hids.map_on
  intro id hid id' hid' heq
  obtain ⟨p, hp, rfl⟩ := List.mem_map.mp hid
  obtain ⟨p', hp', rfl⟩ := List.mem_map.mp hid'
  exact (hpool p hp).offset_inj (hpool p' hp') heq

section Refinement

def appendThread (cfg : Config) (order : TableOrder) (s : ContainerStore) :
    List Container → Except Abort (ContainerStore × List Container)
  | [] => .ok (s, [])
  | c :: queue => do
      let s' ← writeContainer cfg order s c
      return (s', queue)

/-- The pool that the dedup and filter phases see: each of its containers is either in the queue
or intact on disk. -/
structure Represents (cfg : Config) (queue : List Container) (s : ContainerStore)
    (pool : ContainerPool) : Prop where
  stored : ∀ id c, pool.containers.lookup id = some c →
    c.id = id ∧ InPool cfg c.id ∧ (∃ chunks, FillInv cfg c chunks) ∧ (c ∈ queue ∨ Intact cfg s c)
  queued : ∀ c ∈ queue, c.isEmpty = false ∧ pool.containers.lookup c.id = some c

variable {queue : List Container} {pool : ContainerPool}

/-- Only the file and the containers matter, not the counters. -/
theorem Represents.congr {pool' : ContainerPool} (h : Represents cfg queue s pool)
    (hfile : s'.file = s.file) (hpool : pool'.containers = pool.containers) :
    Represents cfg queue s' pool' where
  stored id c hc := by
    rw [hpool] at hc
    obtain ⟨hid, hlt, hfill, hplace⟩ := h.stored id c hc
    exact ⟨hid, hlt, hfill, hplace.imp_right fun hintact => hintact.of_file hfile⟩
  queued c hc := by
    rw [hpool]
    exact h.queued c hc

theorem Represents.push (h : Represents cfg queue s pool) (hfill : FillInv cfg c chunks)
    (hne : c.isEmpty = false) (hid : InPool cfg c.id) (hnew : pool.containers.lookup c.id = none) :
    ∃ pool', writeContainerAsync pool c = .ok pool' ∧ Represents cfg (queue ++ [c]) s pool' := by
  refine ⟨_, writeContainerAsync_ensures hfill.counted hne, fun id c' hc' => ?_, fun c' hc' => ?_⟩
  · by_cases heq : id = c.id
    · subst heq
      rw [AList.lookup_insert] at hc'
      cases hc'
      exact ⟨rfl, hid, ⟨chunks, hfill⟩, Or.inl (List.mem_append_right _ List.mem_cons_self)⟩
    · rw [AList.lookup_insert_ne heq] at hc'
      obtain ⟨hid', hlt, hfill', hplace⟩ := h.stored id c' hc'
      exact ⟨hid', hlt, hfill', hplace.imp_left (List.mem_append_left _)⟩
  · rcases List.mem_append.mp hc' with hc' | hc'
    · obtain ⟨hne', hlookup⟩ := h.queued c' hc'
      have hids : c'.id ≠ c.id := by
        intro heq
        rw [heq, hnew] at hlookup
        cases hlookup
      exact ⟨hne', by rw [AList.lookup_insert_ne hids, hlookup]⟩
    · rw [List.mem_singleton.mp hc', AList.lookup_insert]
      exact ⟨hne, rfl⟩

/-- Writing the container at the top of the queue puts it on disk beside the others. -/
theorem Represents.write (h : Represents cfg (c :: queue) s pool) (order : TableOrder) :
    ∃ s', writeContainer cfg order s c = .ok s' ∧ Written cfg s c s' ∧
      Represents cfg (c :: queue) s' pool := by
  obtain ⟨hne, hlookup⟩ := h.queued c List.mem_cons_self
  obtain ⟨-, hpool, ⟨chunks, hfill⟩, -⟩ := h.stored c.id c hlookup
  obtain ⟨s', hok, hwritten⟩ := writeContainer_spec hfill hne hpool.reaches order s
  refine ⟨s', hok, hwritten, fun id c' hc' => ?_, h.queued⟩
  obtain ⟨hid, hlt, ⟨chunks', hfill'⟩, hplace⟩ := h.stored id c' hc'
  refine ⟨hid, hlt, ⟨chunks', hfill'⟩, ?_⟩
  by_cases heq : c'.id = c.id
  · rw [← hid, heq, hlookup] at hc'
    cases hc'
    exact Or.inr hwritten.intact
  · exact hplace.imp_right fun hintact => hintact.of_agree hfill' hlt.reaches fun i hi =>
      hwritten.frame i (not_region_of_ne (fun hoffset => heq (hlt.offset_inj hpool hoffset)) hi)

/-- A container leaves the queue once it is on disk. -/
theorem Represents.pop (h : Represents cfg (c :: queue) s pool) (hintact : Intact cfg s c) :
    Represents cfg queue s pool where
  stored id c' hc' := by
    obtain ⟨hid, hlt, hfill, hplace⟩ := h.stored id c' hc'
    refine ⟨hid, hlt, hfill, ?_⟩
    rcases hplace with hmem | hintact'
    · rcases List.mem_cons.mp hmem with rfl | hmem
      · exact Or.inr hintact
      · exact Or.inl hmem
    · exact Or.inr hintact'
  queued c' hc' := h.queued c' (List.mem_cons_of_mem _ hc')

theorem Represents.append (h : Represents cfg queue s pool) (order : TableOrder) :
    ∃ s' queue', appendThread cfg order s queue = .ok (s', queue') ∧
      Represents cfg queue' s' pool := by
  cases queue with
  | nil => exact ⟨s, [], rfl, h⟩
  | cons c queue =>
      obtain ⟨s', hok, hwritten, hrepr⟩ := h.write order
      exact ⟨s', queue, bind_ok_iff.mpr ⟨s', hok, rfl⟩, hrepr.pop hwritten.intact⟩

/-- The pool answers as the queue and the file do. -/
theorem Represents.retrieve (h : Represents cfg queue s pool) {id : Int} {cm : ContainerMeta}
    (hok : Destor.retrieveContainerMetaById pool id = .ok cm) :
    ∃ cm', retrieveContainerMetaById cfg queue s id = .ok cm' ∧ cm'.Same cm := by
  unfold Destor.retrieveContainerMetaById at hok
  cases hlookup : pool.containers.lookup id with
  | none => simp [hlookup] at hok
  | some c =>
      simp only [hlookup, Except.ok.injEq] at hok
      subst hok
      obtain ⟨rfl, hlt, ⟨chunks, hfill⟩, hplace⟩ := h.stored id c hlookup
      have hqueue : ∀ c' ∈ queue, c'.id = c.id → c' = c := by
        intro c' hc' heq
        have hlookup' := (h.queued c' hc').2
        rw [heq, hlookup] at hlookup'
        exact (Option.some.inj hlookup').symm
      rcases hplace with hmem | hintact
      · have hfind : queue.find? (fun c' => c'.id == c.id) = some c := by
          cases hfind : queue.find? (fun c' => c'.id == c.id) with
          | none => exact absurd (List.find?_eq_none.mp hfind c hmem) (by simp)
          | some c' =>
              rw [hqueue c' (List.mem_of_find?_eq_some hfind)
                (by simpa using List.find?_some hfind)]
        exact ⟨c.toContainerMeta, by rw [retrieveContainerMetaById, hfind], .refl _⟩
      · exact hintact.retrieveContainerMetaById hfill hlt.lt hqueue

end Refinement

def entryOrder : TableOrder := ⟨fun m => m.entries, fun _ => List.Perm.refl _⟩

end ContainerStore

end Disk

end Destor
