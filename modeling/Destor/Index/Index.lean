/- digest: Looking a chunk up in the five places of the index, and the buffer of pending ids. -/

import Destor.Index.FingerprintCache

set_option autoImplicit false
set_option relaxedAutoImplicit false

namespace Destor

open Library.Outcome

inductive IndexSpecific where
  | no
  | ddfs
  | extremeBinning
  | silo
  | sparse
  | sampled
  | blockLocalityCaching
deriving DecidableEq, Repr

def orDefault (x d : Nat) : Nat := if 1 < x then x else d

/-- The switch of `init_index` over `index_specific`. -/
def applySpecific (specific : IndexSpecific) (cfg : Config) : Except Abort Config :=
  let cfg := if specific = .no then cfg else { cfg with indexKeySize := 20 }
  match specific with
  | .no => .ok cfg
  | .ddfs => .ok { cfg with indexCategory := .exact, locality := .physical }
  | .blockLocalityCaching => .ok { cfg with
      indexCategory := .exact
      locality := .logical
      samplingMethod := .uniform
      samplingRatio := 1
      segmentPrefetch := orDefault cfg.segmentPrefetch 16 }
  | .sampled => .ok { cfg with
      indexCategory := .nearExact
      locality := .physical
      samplingMethod := .uniform
      samplingRatio := orDefault cfg.samplingRatio 128 }
  | .sparse => .ok { cfg with
      indexCategory := .nearExact
      locality := .logical
      segmentAlgorithm := .contentDefined
      segmentSelection := .top
      samplingMethod := .random
      samplingRatio := orDefault cfg.samplingRatio 128
      segmentPrefetch := 1 }
  | .silo => .ok { cfg with
      indexCategory := .nearExact
      locality := .logical
      segmentAlgorithm := .fixed
      segmentSelection := .top
      segmentSelectionNum := 1
      samplingMethod := .min
      samplingRatio := 0
      segmentPrefetch := orDefault cfg.segmentPrefetch 16 }
  | .extremeBinning => .error .indexSpecific

/-- The rest of the configuration done by `init_index`. -/
def normalizeIndex (cfg : Config) : Config :=
  let cfg := if cfg.indexCategory = .exact then { cfg with indexKeySize := 20 } else cfg
  if cfg.locality = .physical then
    if cfg.indexCategory = .exact then
      { cfg with segmentAlgorithm := .fixed, samplingMethod := .uniform, samplingRatio := 1 }
    else { cfg with segmentAlgorithm := .fixed }
  else cfg

def initIndex (specific : IndexSpecific) (cfg : Config) : Except Abort Config := do
  let cfg ← applySpecific specific cfg
  let cfg := normalizeIndex cfg
  require (0 < cfg.indexKeySize ∧ cfg.indexKeySize ≤ 20) .keySize
  return cfg

namespace Config

/-- A configuration under which `init_index` lets the job run. -/
def Accepted (cfg : Config) : Prop := ∃ specific raw, initIndex specific raw = .ok cfg

/-- What `init_index` establishes. -/
structure Settled (cfg : Config) : Prop where
  keySize_pos : 0 < cfg.indexKeySize
  keySize_le : cfg.indexKeySize ≤ 20
  keySize_exact : cfg.indexCategory = .exact → cfg.indexKeySize = 20
  fixed_physical : cfg.locality = .physical → cfg.segmentAlgorithm = .fixed
  uniform_exact : cfg.locality = .physical → cfg.indexCategory = .exact →
    cfg.samplingMethod = .uniform ∧ cfg.samplingRatio = 1

theorem settled_normalizeIndex (cfg : Config)
    (h : 0 < (normalizeIndex cfg).indexKeySize ∧ (normalizeIndex cfg).indexKeySize ≤ 20) :
    (normalizeIndex cfg).Settled := by
  refine ⟨h.1, h.2, ?_, ?_, ?_⟩ <;> unfold normalizeIndex <;>
    cases hc : cfg.indexCategory <;> cases hl : cfg.locality <;> simp_all

theorem accepted_iff (cfg : Config) : cfg.Accepted ↔ cfg.Settled := by
  constructor
  · rintro ⟨specific, raw, h⟩
    simp only [initIndex, bind_ok_iff, require_ok_iff] at h
    obtain ⟨cfg', -, -, hkey, h⟩ := h
    cases h
    exact settled_normalizeIndex cfg' hkey
  · intro h
    have hnormal : normalizeIndex cfg = cfg := by
      obtain ⟨-, -, hkey, hfixed, huniform⟩ := h
      cases cfg
      simp only [normalizeIndex] at *
      split_ifs <;> simp_all
    refine ⟨.no, cfg, ?_⟩
    simp only [initIndex, applySpecific, bind_ok_iff, require_ok_iff]
    refine ⟨cfg, by simp, (), ?_, ?_⟩
    · rw [hnormal]
      exact ⟨h.keySize_pos, h.keySize_le⟩
    · rw [hnormal]
      rfl

/-- `start_dedup_phase`: chunks in the index buffer from which lookups wait. -/
def waitThreshold (cfg : Config) : Int :=
  match cfg.segmentAlgorithm with
  | .contentDefined => cfg.rewriteBufferSize + cfg.segmentMax - 1
  | .fixed => cfg.rewriteBufferSize + cfg.segmentSize - 1
  | .fileDefined => -1

end Config

/-- `struct index_buffer`: for each fingerprint the ids of its pending copies, oldest first. -/
structure IndexBuffer where
  bufferedFingerprints : FpMap (List Int)
  chunkNum : Nat

def initIndexBuffer : IndexBuffer := { bufferedFingerprints := ∅, chunkNum := 0 }

/-- What a lookup changes besides the chunk. -/
structure IndexState where
  buffer : IndexBuffer
  cache : LruCache CacheUnit

/-- The open container, if any, is asked first; a chunk it holds is never rewritten. -/
def checkStorageBuffer (storage : Option Container) (c : Chunk) : Chunk :=
  match storage with
  | some b =>
      if b.lookupFingerprint c.fp then
        { c with id := b.id, flag := { c.flag with duplicate := true, rewriteDenied := true } }
      else c
  | none => c

def setDuplicate (c : Chunk) (id : Int) : Chunk :=
  { c with id := id, flag := { c.flag with duplicate := true } }

/-- The index buffer: a pending copy lends its id, known or not. -/
def checkIndexBuffer (buffer : IndexBuffer) (c : Chunk) : Chunk :=
  match buffer.bufferedFingerprints.lookup c.fp with
  | some tq => if c.flag.duplicate then c else setDuplicate c (tq.headD temporaryId)
  | none => c

def checkFingerprintCache (cache : LruCache CacheUnit) (c : Chunk) :
    Except Abort (LruCache CacheUnit × Chunk) :=
  if c.flag.duplicate then .ok (cache, c)
  else do
    let (id, cache) ← fingerprintCacheLookup cache c.fp
    return (cache, if id ≠ temporaryId then setDuplicate c id else c)

/-- The key-value store: prefetches the latest unit of the key and asks the cache again. -/
def checkKvstore (cfg : Config) (source : IndexSource) (cache : LruCache CacheUnit) (c : Chunk) :
    Except Abort (LruCache CacheUnit × Chunk) :=
  if c.flag.duplicate then .ok (cache, c)
  else
    match kvstoreLookup source.kv (cfg.key c.fp) with
    | none => .ok (cache, c)
    | some ids => do
        let cache ← fingerprintCachePrefetch cfg source cache (ids.headD temporaryId)
        let (id, cache) ← fingerprintCacheLookup cache c.fp
        return (cache, if id ≠ temporaryId then setDuplicate c id else c)

def pushIndexElem (buffer : IndexBuffer) (fp : Fingerprint) (id : Int) : IndexBuffer :=
  { bufferedFingerprints := buffer.bufferedFingerprints.insert fp
      ((buffer.bufferedFingerprints.lookup fp).getD [] ++ [id])
    chunkNum := buffer.chunkNum + 1 }

/-- The loop body of `index_lookup_base`, and of `index_lookup_similarity_detection` where the
key-value store may be left out. -/
def lookupChunk (cfg : Config) (askKvstore : Bool) (source : IndexSource)
    (storage : Option Container) (st : IndexState) (c : Chunk) :
    Except Abort (IndexState × Chunk) :=
  if c.isNormal then do
    let (cache, c) ← checkFingerprintCache st.cache
      (checkIndexBuffer st.buffer (checkStorageBuffer storage c))
    let (cache, c) ← if askKvstore then checkKvstore cfg source cache c else .ok (cache, c)
    return ({ buffer := pushIndexElem st.buffer c.fp c.id, cache := cache }, c)
  else .ok (st, c)

def indexLookupBase (cfg : Config) (source : IndexSource) (storage : Option Container)
    (st : IndexState) (chunks : List Chunk) : Except Abort (IndexState × List Chunk) :=
  traverseE (lookupChunk cfg true source storage) st chunks

def checkBufferChunk (buffer : IndexBuffer) (c : Chunk) : Except Abort Chunk :=
  if c.isNormal && (c.flag.duplicate && c.id == temporaryId || c.flag.outOfOrder ||
      c.flag.sparse) then
    match buffer.bufferedFingerprints.lookup c.fp with
    | none => .error .bufferQueueMissing
    | some bq =>
        let be := bq.headD temporaryId
        if c.id < be then
          .ok { c with
            id := be
            flag := { c.flag with
              rewriteDenied := c.flag.rewriteDenied || c.id != temporaryId } }
        else .ok c
  else .ok c

def indexCheckBuffer (buffer : IndexBuffer) (chunks : List Chunk) : Except Abort (List Chunk) :=
  chunks.mapM (checkBufferChunk buffer)

/-- `index_update_buffer` for one chunk: its element leaves, the pending copies take its id. -/
def updateBufferChunk (buffer : IndexBuffer) (c : Chunk) : Except Abort IndexBuffer :=
  if c.isNormal then do
    require (c.id ≠ temporaryId) .updateBufferTemporaryId
    match buffer.bufferedFingerprints.lookup c.fp with
    | none => .error .updateBufferQueueMissing
    | some bq =>
        return {
          bufferedFingerprints :=
            if bq.tail = [] then buffer.bufferedFingerprints.erase c.fp
            else buffer.bufferedFingerprints.insert c.fp (bq.tail.map fun _ => c.id)
          chunkNum := buffer.chunkNum - 1 }
  else .ok buffer

def indexUpdateBuffer (buffer : IndexBuffer) (chunks : List Chunk) : Except Abort IndexBuffer :=
  foldE updateBufferChunk buffer chunks

section LookupSpec

variable {cfg : Config} {source : IndexSource} {storage : Option Container}
  {units : CacheUnit → Prop}

/-- A chunk as it reaches the dedup phase. -/
structure Chunk.Fresh (c : Chunk) : Prop where
  not_duplicate : c.flag.duplicate = false
  id_eq : c.id = temporaryId
  unmarked : c.flag.sparse = false ∧ c.flag.outOfOrder = false ∧ c.flag.inCache = false ∧
    c.flag.rewriteDenied = false
  signal_fp : c.isNormal = false → c.fp = Fingerprint.fill 0

/-- Two states of one chunk: what it carries and which signal it is stay. -/
structure Chunk.SamePayload (c c' : Chunk) : Prop where
  fp_eq : c'.fp = c.fp
  size_eq : c'.size = c.size
  data_eq : c'.data = c.data
  signals_eq : c'.flag.fileStart = c.flag.fileStart ∧ c'.flag.fileEnd = c.flag.fileEnd

/-- Two states of one chunk between which the rewrite phase did not mark it. -/
structure Chunk.SameContent (c c' : Chunk) : Prop extends c.SamePayload c' where
  marks_eq : c'.flag.sparse = c.flag.sparse ∧ c'.flag.outOfOrder = c.flag.outOfOrder

theorem Chunk.SamePayload.normal_eq {c c' : Chunk} (h : c.SamePayload c') :
    c'.isNormal = c.isNormal := by
  simp only [Chunk.isNormal, h.signals_eq.1, h.signals_eq.2]

theorem Chunk.SamePayload.refl (c : Chunk) : c.SamePayload c := ⟨rfl, rfl, rfl, rfl, rfl⟩

theorem Chunk.SamePayload.trans {a b c : Chunk} (h : a.SamePayload b) (h' : b.SamePayload c) :
    a.SamePayload c :=
  ⟨h'.fp_eq.trans h.fp_eq, h'.size_eq.trans h.size_eq, h'.data_eq.trans h.data_eq,
    h'.signals_eq.1.trans h.signals_eq.1, h'.signals_eq.2.trans h.signals_eq.2⟩

theorem Chunk.SameContent.refl (c : Chunk) : c.SameContent c := ⟨.refl c, rfl, rfl⟩

theorem Chunk.SameContent.trans {a b c : Chunk} (h : a.SameContent b) (h' : b.SameContent c) :
    a.SameContent c :=
  ⟨h.toSamePayload.trans h'.toSamePayload, h'.marks_eq.1.trans h.marks_eq.1,
    h'.marks_eq.2.trans h.marks_eq.2⟩

theorem setDuplicate_sameContent (c : Chunk) (id : Int) : c.SameContent (setDuplicate c id) :=
  ⟨⟨rfl, rfl, rfl, rfl, rfl⟩, rfl, rfl⟩

def OpenHolds (storage : Option Container) (fp : Fingerprint) : Prop :=
  ∃ b, storage = some b ∧ b.lookupFingerprint fp = true

inductive LookupOutcome (cfg : Config) (askKvstore : Bool) (source : IndexSource)
    (storage : Option Container) (units : CacheUnit → Prop) (buffer : IndexBuffer)
    (c c' : Chunk) : Prop where
  | stored (b : Container) (hopen : storage = some b) (hfp : b.lookupFingerprint c.fp = true)
      (hid : c'.id = b.id) (hdup : c'.flag.duplicate = true)
  | buffered (bq : List Int) (hbq : buffer.bufferedFingerprints.lookup c.fp = some bq)
      (hopen : ¬ OpenHolds storage c.fp) (hid : c'.id = bq.headD temporaryId)
      (hdup : c'.flag.duplicate = true)
  | indexed (u : CacheUnit) (hbq : buffer.bufferedFingerprints.lookup c.fp = none)
      (hopen : ¬ OpenHolds storage c.fp) (hunit : units u)
      (hpointer : u.pointer c.fp = some c'.id) (hid : temporaryId < c'.id)
      (hdup : c'.flag.duplicate = true)
  | unique (hbq : buffer.bufferedFingerprints.lookup c.fp = none)
      (hopen : ¬ OpenHolds storage c.fp) (hid : c'.id = temporaryId)
      (hdup : c'.flag.duplicate = false)
      (hindex : askKvstore = true → (cfg.locality = .physical ∨ 0 < cfg.segmentPrefetch) →
        ∀ ids, source.kv.lookup (cfg.key c.fp) = some ids →
          ∃ u, units u ∧ u.id = ids.headD temporaryId ∧ u.holds c.fp = false)

/-- The latest unit of every key can be prefetched. -/
def HeadsLoadable (cfg : Config) (source : IndexSource) (units : CacheUnit → Prop) : Prop :=
  ∀ k ids, source.kv.lookup k = some ids → Loadable cfg source units (ids.headD temporaryId)

private theorem checkFingerprintCache_spec {cache : LruCache CacheUnit} {c : Chunk}
    (hcache : CacheOf units cache) (hassigned : PointersAssigned units)
    (hdup : c.flag.duplicate = false) :
    ∃ cache' c', checkFingerprintCache cache c = .ok (cache', c') ∧ CacheOf units cache' ∧
      ((c' = c ∧ ∀ u ∈ cache.elemQueue, u.holds c.fp = false) ∨
        ∃ u id, units u ∧ u.pointer c.fp = some id ∧ temporaryId < id ∧
          c' = setDuplicate c id) := by
  obtain ⟨id, cache', hok, hof, hcase⟩ := fingerprintCacheLookup_spec hcache hassigned c.fp
  refine ⟨cache', if id ≠ temporaryId then setDuplicate c id else c, ?_, hof, ?_⟩
  · simp [checkFingerprintCache, hdup, hok, bind, Except.bind, pure, Except.pure]
  · rcases hcase with ⟨rfl, hmiss⟩ | ⟨hpos, u, hu, hptr⟩
    · exact Or.inl ⟨by simp, hmiss⟩
    · exact Or.inr ⟨u, id, hu, hptr, hpos, by rw [if_pos (ne_of_gt hpos)]⟩

private theorem checkKvstore_spec {cache : LruCache CacheUnit} {c : Chunk}
    (hcache : CacheOf units cache) (hassigned : PointersAssigned units)
    (hloadable : HeadsLoadable cfg source units) (hdup : c.flag.duplicate = false) :
    ∃ cache' c', checkKvstore cfg source cache c = .ok (cache', c') ∧ CacheOf units cache' ∧
      ((c' = c ∧ ((cfg.locality = .physical ∨ 0 < cfg.segmentPrefetch) →
          ∀ ids, source.kv.lookup (cfg.key c.fp) = some ids →
            ∃ u, units u ∧ u.id = ids.headD temporaryId ∧ u.holds c.fp = false)) ∨
        ∃ u id, units u ∧ u.pointer c.fp = some id ∧ temporaryId < id ∧
          c' = setDuplicate c id) := by
  unfold checkKvstore kvstoreLookup
  rw [if_neg (by simp [hdup])]
  cases hids : source.kv.lookup (cfg.key c.fp) with
  | none => exact ⟨cache, c, rfl, hcache, Or.inl ⟨rfl, fun _ _ h => by cases h⟩⟩
  | some ids =>
      obtain ⟨cache₁, hok₁, hof₁, hid₁⟩ :=
        fingerprintCachePrefetch_spec hcache (hloadable _ ids hids)
      obtain ⟨id, cache₂, hok₂, hof₂, hcase⟩ :=
        fingerprintCacheLookup_spec hof₁ hassigned c.fp
      refine ⟨cache₂, if id ≠ temporaryId then setDuplicate c id else c, ?_, hof₂, ?_⟩
      · simp only [hok₁, hok₂, bind, Except.bind, pure, Except.pure]
      · rcases hcase with ⟨rfl, hmiss⟩ | ⟨hpos, u, hu, hptr⟩
        · refine Or.inl ⟨by simp, fun hloc ids' h => ?_⟩
          cases h
          obtain ⟨u, hu, huid⟩ := hid₁ hloc
          exact ⟨u, hof₁ u hu, huid, hmiss u hu⟩
        · exact Or.inr ⟨u, id, hu, hptr, hpos, by rw [if_pos (ne_of_gt hpos)]⟩

theorem checkStorageBuffer_cases (storage : Option Container) (c : Chunk) :
    (∃ b, storage = some b ∧ b.lookupFingerprint c.fp = true ∧
      checkStorageBuffer storage c =
        { c with id := b.id, flag := { c.flag with duplicate := true, rewriteDenied := true } }) ∨
      (¬ OpenHolds storage c.fp ∧ checkStorageBuffer storage c = c) := by
  cases storage with
  | none => exact Or.inr ⟨fun h => by simp [OpenHolds] at h, rfl⟩
  | some b =>
      cases hfp : b.lookupFingerprint c.fp with
      | true => exact Or.inl ⟨b, rfl, hfp, by simp [checkStorageBuffer, hfp]⟩
      | false =>
          refine Or.inr ⟨?_, by simp [checkStorageBuffer, hfp]⟩
          rintro ⟨b', hb', hfp'⟩
          cases hb'
          simp [hfp] at hfp'

/-- Looking up a fresh chunk never fails; its id is one of the five kinds, and is queued. -/
theorem lookupChunk_spec {askKvstore : Bool} {st : IndexState} {c : Chunk}
    (hcache : CacheOf units st.cache) (hassigned : PointersAssigned units)
    (hloadable : HeadsLoadable cfg source units) (hfresh : c.Fresh) (hnormal : c.isNormal = true) :
    ∃ cache' c', lookupChunk cfg askKvstore source storage st c =
        .ok ({ buffer := pushIndexElem st.buffer c.fp c'.id, cache := cache' }, c') ∧
      CacheOf units cache' ∧ c.SameContent c' ∧
      LookupOutcome cfg askKvstore source storage units st.buffer c c' := by
  have hdup := hfresh.not_duplicate
  unfold lookupChunk
  rw [if_pos hnormal]
  rcases checkStorageBuffer_cases storage c with ⟨b, hopen, hfp, heq⟩ | ⟨hopen, heq⟩
  · refine ⟨st.cache, checkStorageBuffer storage c, ?_, hcache, ?_, ?_⟩
    · rw [heq]
      cases hbq : st.buffer.bufferedFingerprints.lookup c.fp <;> cases askKvstore <;>
        simp [checkIndexBuffer, hbq, checkFingerprintCache, checkKvstore, bind, Except.bind,
          pure, Except.pure]
    · rw [heq]
      exact ⟨⟨rfl, rfl, rfl, rfl, rfl⟩, rfl, rfl⟩
    · exact .stored b hopen hfp (by rw [heq]) (by rw [heq])
  · rw [heq]
    cases hbq : st.buffer.bufferedFingerprints.lookup c.fp with
    | some bq =>
        have hcheck : checkIndexBuffer st.buffer c =
            setDuplicate c (bq.headD temporaryId) := by
          simp [checkIndexBuffer, hbq, hdup]
        refine ⟨st.cache, setDuplicate c (bq.headD temporaryId), ?_, hcache,
          setDuplicate_sameContent c _, .buffered bq hbq hopen rfl rfl⟩
        rw [hcheck]
        cases askKvstore <;>
          simp [setDuplicate, checkFingerprintCache, checkKvstore, bind, Except.bind, pure,
            Except.pure]
    | none =>
        have hcheck : checkIndexBuffer st.buffer c = c := by simp [checkIndexBuffer, hbq]
        rw [hcheck]
        obtain ⟨cache₁, c₁, hok₁, hof₁, hcase₁⟩ :=
          checkFingerprintCache_spec hcache hassigned hdup
        rcases hcase₁ with ⟨rfl, hmiss⟩ | ⟨u, id, hu, hptr, hpos, rfl⟩
        · cases askKvstore with
          | false =>
              refine ⟨cache₁, c₁, ?_, hof₁, .refl c₁,
                .unique hbq hopen hfresh.id_eq hdup (by simp)⟩
              simp [hok₁, bind, Except.bind, pure, Except.pure]
          | true =>
              obtain ⟨cache₂, c₂, hok₂, hof₂, hcase₂⟩ :=
                checkKvstore_spec hof₁ hassigned hloadable hdup
              rcases hcase₂ with ⟨rfl, hindex⟩ | ⟨u, id, hu, hptr, hpos, rfl⟩
              · refine ⟨cache₂, c₂, ?_, hof₂, .refl c₂,
                  .unique hbq hopen hfresh.id_eq hdup (fun _ => hindex)⟩
                simp [hok₁, hok₂, bind, Except.bind, pure, Except.pure]
              · refine ⟨cache₂, setDuplicate c₁ id, ?_, hof₂, setDuplicate_sameContent c₁ id,
                  .indexed u hbq hopen hu hptr hpos rfl⟩
                simp [hok₁, hok₂, setDuplicate, bind, Except.bind, pure, Except.pure]
        · refine ⟨cache₁, setDuplicate c id, ?_, hof₁, setDuplicate_sameContent c id,
            .indexed u hbq hopen hu hptr hpos rfl⟩
          cases askKvstore <;>
            simp [hok₁, checkKvstore, setDuplicate, bind, Except.bind, pure, Except.pure]

theorem lookupChunk_signal {askKvstore : Bool} {st : IndexState} {c : Chunk}
    (hsignal : c.isNormal = false) :
    lookupChunk cfg askKvstore source storage st c = .ok (st, c) := by
  simp [lookupChunk, hsignal]

end LookupSpec

end Destor
