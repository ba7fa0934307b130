/- digest: The containers in the fingerprint cache, and exactly when a lookup caches one a second
   time. -/

import Destor.DedupSound
import Destor.Utils.LruRecency
import Mathlib.Data.List.Dedup

set_option autoImplicit false
set_option relaxedAutoImplicit false

namespace Destor

open Library.Outcome Library.Transition

/-- What one pass of the loop of `index_lookup_base` sees besides the cache. -/
structure Lookup where
  source : IndexSource
  storage : Option Container
  buffer : IndexBuffer
  chunk : Chunk

def lookupCache (cfg : Config) (cache : LruCache CacheUnit) (l : Lookup) :
    Except Abort (LruCache CacheUnit) := do
  let r ← lookupChunk cfg true l.source l.storage { buffer := l.buffer, cache := cache } l.chunk
  return r.1.cache

/-- The elements of the cache are metadata of different containers, so its size counts containers. -/
structure DistinctContainers (cache : LruCache CacheUnit) : Prop where
  nodup : (cache.elemQueue.map CacheUnit.id).Nodup
  size_eq : cache.size = (cache.elemQueue.map CacheUnit.id).dedup.length

/-- The lookup gets as far as an entry of the key-value store: the open container, the index buffer and
the cached containers do not know the fingerprint. -/
structure AsksFor (cfg : Config) (cache : LruCache CacheUnit) (l : Lookup) (ids : List Int) : Prop where
  normal : l.chunk.isNormal = true
  fresh : l.chunk.flag.duplicate = false
  not_open : ¬ OpenHolds l.storage l.chunk.fp
  not_buffered : l.buffer.bufferedFingerprints.lookup l.chunk.fp = none
  not_cached : ∀ u ∈ cache.elemQueue, u.holds l.chunk.fp = false
  entry : l.source.kv.lookup (cfg.key l.chunk.fp) = some ids

/-- The entry leads to a container that does not hold the fingerprint and is cached, other than as the
element that has to leave. -/
def LeadsToCached (cfg : Config) (cache : LruCache CacheUnit) (l : Lookup) : Prop :=
  ∃ ids, AsksFor cfg cache l ids ∧ ids.headD temporaryId ∈ cache.kept.map CacheUnit.id

section Step

variable {cfg : Config} {cache cache' : LruCache CacheUnit} {l : Lookup}

structure ContainerCache (cache : LruCache CacheUnit) : Prop where
  units : ∀ u ∈ cache.elemQueue, ∃ cm, u = .containerMeta cm ∧ 0 ≤ cm.id
  withinBound : cache.WithinBound

theorem ContainerCache.lookup (h : ContainerCache cache) (fp : Fingerprint) :
    ∃ id, fingerprintCacheLookup cache fp = .ok (id, (cache.lookup (CacheUnit.holds fp)).2) ∧
      ContainerCache (cache.lookup (CacheUnit.holds fp)).2 ∧
      (id = temporaryId ↔ ∀ u ∈ cache.elemQueue, u.holds fp = false) := by
  have hcache : ContainerCache (cache.lookup (CacheUnit.holds fp)).2 := by
    constructor
    · exact fun u hu => h.units u ((LruCache.mem_lookup_snd cache _).mp hu)
    · exact h.withinBound.lookup _
  have hfst := LruCache.lookup_fst cache (CacheUnit.holds fp)
  rw [fingerprintCacheLookup]
  generalize cache.lookup (CacheUnit.holds fp) = r at hcache hfst
  obtain ⟨found, cache'⟩ := r
  simp only at hfst hcache
  cases found with
  | none =>
      refine ⟨temporaryId, rfl, hcache, iff_of_true rfl fun u hu => ?_⟩
      simpa using List.find?_eq_none.mp hfst.symm u hu
  | some u =>
      have hmem := List.mem_of_find?_eq_some hfst.symm
      have hholds := List.find?_some hfst.symm
      obtain ⟨cm, rfl, hid⟩ := h.units u hmem
      refine ⟨cm.id, rfl, hcache, iff_of_false (ne_temporaryId_of_nonneg hid) fun hmiss => ?_⟩
      rw [hmiss _ hmem] at hholds
      exact Bool.false_ne_true hholds

private theorem checkBuffers_cases (storage : Option Container) (buffer : IndexBuffer) (c : Chunk) :
    ((checkIndexBuffer buffer (checkStorageBuffer storage c)).flag.duplicate = true ∧
        ¬ (c.flag.duplicate = false ∧ ¬ OpenHolds storage c.fp ∧
          buffer.bufferedFingerprints.lookup c.fp = none)) ∨
      (checkIndexBuffer buffer (checkStorageBuffer storage c) = c ∧ c.flag.duplicate = false ∧
        ¬ OpenHolds storage c.fp ∧ buffer.bufferedFingerprints.lookup c.fp = none) := by
  obtain ⟨b, hopen, hfp, heq⟩ | ⟨hopen, heq⟩ := checkStorageBuffer_cases storage c
  · refine Or.inl ⟨?_, fun h => h.2.1 ⟨b, hopen, hfp⟩⟩
    rw [heq, checkIndexBuffer]
    split <;> rfl
  · rw [heq, checkIndexBuffer]
    cases hbq : buffer.bufferedFingerprints.lookup c.fp with
    | some tq =>
        refine Or.inl ⟨?_, fun h => Option.some_ne_none tq h.2.2⟩
        cases hdup : c.flag.duplicate with
        | true => exact hdup
        | false => rfl
    | none =>
        cases hdup : c.flag.duplicate with
        | true => exact Or.inl ⟨rfl, fun h => Bool.noConfusion h.1⟩
        | false => exact Or.inr ⟨rfl, rfl, hopen, rfl⟩

private theorem checkKvstore_cases {source : IndexSource} {c c' : Chunk}
    (hphysical : cfg.locality = .physical) (hwf : source.pool.WellFormed)
    (h : ContainerCache cache) (hfresh : c.flag.duplicate = false)
    (hok : checkKvstore cfg source cache c = .ok (cache', c')) : ContainerCache cache' ∧
      ((cache' = cache ∧ source.kv.lookup (cfg.key c.fp) = none) ∨
        ∃ ids cm, source.kv.lookup (cfg.key c.fp) = some ids ∧ cm.id = ids.headD temporaryId ∧
          cache'.elemQueue.Perm (.containerMeta cm :: cache.kept)) := by
  rw [checkKvstore, hfresh, if_neg Bool.false_ne_true, kvstoreLookup] at hok
  cases hids : source.kv.lookup (cfg.key c.fp) with
  | none =>
      rw [hids] at hok
      cases hok
      exact ⟨h, Or.inl ⟨rfl, rfl⟩⟩
  | some ids =>
      simp only [hids, fingerprintCachePrefetch, hphysical, retrieveContainerMetaById] at hok
      cases hcontainer : source.pool.containers.lookup (ids.headD temporaryId) with
      | none =>
          rw [hcontainer] at hok
          cases hok
      | some b =>
          rw [hcontainer] at hok
          have hid := hwf.id_eq _ b hcontainer
          have hnonneg := (hwf.lt_count _ b hcontainer).1
          have hinsert : ContainerCache (cache.insert (.containerMeta b.toContainerMeta)) := by
            constructor
            · intro u hu
              obtain rfl | hu := LruCache.mem_of_mem_insert hu
              · exact ⟨_, rfl, hid.symm ▸ hnonneg⟩
              · exact h.units u hu
            · exact h.withinBound.insert _
          obtain ⟨id, hlookup, hcache, -⟩ := hinsert.lookup c.fp
          simp only [bind, Except.bind, pure, Except.pure, hlookup, Except.ok.injEq,
            Prod.mk.injEq] at hok
          obtain ⟨rfl, -⟩ := hok
          refine ⟨hcache, Or.inr ⟨ids, b.toContainerMeta, rfl, hid, ?_⟩⟩
          rw [← LruCache.insert_elemQueue_kept]
          exact LruCache.lookup_perm _ _

/-- A pass of the loop reorders the cache, or it asks for an entry and puts the container that the
entry leads to in front. -/
theorem lookupCache_cases (hphysical : cfg.locality = .physical)
    (hwf : l.source.pool.WellFormed) (h : ContainerCache cache)
    (hok : lookupCache cfg cache l = .ok cache') : ContainerCache cache' ∧
      ((cache'.elemQueue.Perm cache.elemQueue ∧ ∀ ids, ¬ AsksFor cfg cache l ids) ∨
        ∃ ids cm, AsksFor cfg cache l ids ∧ cm.id = ids.headD temporaryId ∧
          cache'.elemQueue.Perm (.containerMeta cm :: cache.kept)) := by
  rw [lookupCache, lookupChunk] at hok
  cases hnormal : l.chunk.isNormal with
  | false =>
      rw [hnormal, if_neg Bool.false_ne_true] at hok
      cases hok
      exact ⟨h, Or.inl ⟨.refl _, fun ids hasks => by
        rw [hasks.normal] at hnormal
        exact Bool.noConfusion hnormal⟩⟩
  | true =>
      rw [hnormal, if_pos rfl] at hok
      obtain ⟨hdup, hknown⟩ | ⟨heq, hfresh, hopen, hbq⟩ :=
        checkBuffers_cases l.storage l.buffer l.chunk
      · simp only [checkFingerprintCache, checkKvstore, hdup, if_true, bind, Except.bind, pure,
          Except.pure, Except.ok.injEq] at hok
        subst hok
        exact ⟨h, Or.inl ⟨.refl _, fun ids hasks =>
          hknown ⟨hasks.fresh, hasks.not_open, hasks.not_buffered⟩⟩⟩
      · rw [heq] at hok
        obtain ⟨id, hlookup, hcache, hmiss⟩ := h.lookup l.chunk.fp
        have hperm := LruCache.lookup_perm cache (CacheUnit.holds l.chunk.fp)
        simp only [checkFingerprintCache, hfresh, hlookup, bind, Except.bind, pure, Except.pure,
          if_true, Bool.false_eq_true, if_false] at hok
        by_cases hid : id = temporaryId
        · rw [if_neg (not_not_intro hid)] at hok
          have hall := hmiss.mp hid
          have hsame : (cache.lookup (CacheUnit.holds l.chunk.fp)).2.kept = cache.kept := by
            have hnone := List.find?_eq_none.mpr fun u hu => Bool.eq_false_iff.mp (hall u hu)
            rw [LruCache.lookup, hnone]
            rfl
          obtain ⟨_, hkv, hok⟩ := bind_ok_iff.mp hok
          obtain ⟨⟨cache₁, c₁⟩, hchecked, hst⟩ := bind_ok_iff.mp hkv
          cases hst
          cases hok
          obtain ⟨hcache₁, ⟨rfl, hnone⟩ | ⟨ids, cm, hentry, hcm, hperm₁⟩⟩ :=
            checkKvstore_cases hphysical hwf hcache hfresh hchecked
          · refine ⟨hcache₁, Or.inl ⟨hperm, fun ids hasks => ?_⟩⟩
            rw [hasks.entry] at hnone
            exact Option.some_ne_none ids hnone
          · rw [hsame] at hperm₁
            exact ⟨hcache₁, Or.inr ⟨ids, cm, ⟨hnormal, hfresh, hopen, hbq, hall, hentry⟩, hcm,
              hperm₁⟩⟩
        · rw [if_pos hid] at hok
          simp only [checkKvstore, setDuplicate, if_true, Except.ok.injEq] at hok
          subst hok
          exact ⟨hcache, Or.inl ⟨hperm, fun ids hasks => hid (hmiss.mpr hasks.not_cached)⟩⟩

/-- From a cache of different containers a pass of the loop leads to another one exactly if the entry
it asks for does not lead to a cached container. -/
theorem lookupCache_nodup_iff (hphysical : cfg.locality = .physical)
    (hwf : l.source.pool.WellFormed) (h : ContainerCache cache)
    (hnodup : (cache.elemQueue.map CacheUnit.id).Nodup)
    (hok : lookupCache cfg cache l = .ok cache') :
    (cache'.elemQueue.map CacheUnit.id).Nodup ↔ ¬ LeadsToCached cfg cache l := by
  obtain ⟨-, ⟨hperm, hnot⟩ | ⟨ids, cm, hasks, hid, hperm⟩⟩ :=
    lookupCache_cases hphysical hwf h hok
  · rw [(hperm.map CacheUnit.id).nodup_iff]
    exact iff_of_true hnodup fun ⟨ids, hasks, _⟩ => hnot ids hasks
  · rw [(hperm.map CacheUnit.id).nodup_iff, List.map_cons, List.nodup_cons, LeadsToCached]
    have hkept := ((LruCache.kept_sublist cache).map CacheUnit.id).nodup hnodup
    show cm.id ∉ _ ∧ _ ↔ _
    rw [hid]
    constructor
    · rintro ⟨hfresh, -⟩ ⟨ids', hasks', hmem⟩
      obtain rfl : ids = ids' := Option.some.inj (hasks.entry.symm.trans hasks'.entry)
      exact hfresh hmem
    · exact fun hnot => ⟨fun hmem => hnot ⟨ids, hasks, hmem⟩, hkept⟩

theorem ContainerCache.distinct_iff (h : ContainerCache cache) :
    DistinctContainers cache ↔ (cache.elemQueue.map CacheUnit.id).Nodup := by
  refine ⟨DistinctContainers.nodup, fun hnodup => ⟨hnodup, ?_⟩⟩
  rw [List.dedup_eq_self.mpr hnodup, List.length_map]
  exact h.withinBound.size_eq

end Step

section Runs

variable {cfg : Config}

/-- The containers of the pool stand under their own ids. -/
def Lookup.Admitted (l : Lookup) : Prop := l.source.pool.WellFormed

def LookupRun (cfg : Config) (ok : LruCache CacheUnit → Lookup → Prop) (lookups : List Lookup)
    (cache : LruCache CacheUnit) : Prop :=
  Run (lookupCache cfg) (fun cache l => l.Admitted ∧ ok cache l)
    (.newLruCache cfg.indexCacheSize) lookups cache

theorem containerCache_new (size : Int) : ContainerCache (.newLruCache size) :=
  ⟨fun _ hu => absurd hu List.not_mem_nil, LruCache.withinBound_new size⟩

theorem LookupRun.containerCache {ok : LruCache CacheUnit → Lookup → Prop}
    (hphysical : cfg.locality = .physical) {lookups : List Lookup} {cache : LruCache CacheUnit}
    (hrun : LookupRun cfg ok lookups cache) : ContainerCache cache := by
  induction hrun with
  | nil => exact containerCache_new _
  | snoc _ hok hstep ih => exact (lookupCache_cases hphysical hok.1 ih hstep).1

/-- In a sequence of lookups, over whatever the backups made of the store between them, the cache never
holds a container twice exactly if no lookup is led to a cached container that does not hold what is
looked up. -/
theorem cached_containers_distinct_iff (cfg : Config) (hphysical : cfg.locality = .physical)
    {lookups : List Lookup} {cache : LruCache CacheUnit}
    (hrun : LookupRun cfg (fun _ _ => True) lookups cache) :
    (∀ done cache', done <+: lookups → LookupRun cfg (fun _ _ => True) done cache' →
        DistinctContainers cache') ↔
      LookupRun cfg (fun cache l => ¬ LeadsToCached cfg cache l) lookups cache := by
  have hinit : DistinctContainers (.newLruCache cfg.indexCacheSize) := ⟨List.nodup_nil, rfl⟩
  have hiff := Run.forall_prefix_iff (C := fun cache l => ¬ LeadsToCached cfg cache l) hinit ?_ hrun
  · refine hiff.trans ⟨Run.imp fun _ _ h => ⟨h.1.1, h.2⟩, Run.imp fun _ _ h => ⟨⟨h.1, trivial⟩, h.2⟩⟩
  · intro done cache₀ l cache₁ hdone _ hadmitted hstep hdistinct
    have hcache := LookupRun.containerCache hphysical hdone
    have hcache' := (lookupCache_cases hphysical hadmitted.1 hcache hstep).1
    exact hcache'.distinct_iff.trans
      (lookupCache_nodup_iff hphysical hadmitted.1 hcache hdistinct.nodup hstep)

end Runs

section Jobs

variable {cfg : Config} {sys sys' : System} {job : Job}

private theorem lookups_of_segment (source : IndexSource) {storage : Option Container}
    (hwf : source.pool.WellFormed) {chunks out : List Chunk} {st st' : IndexState}
    (hok : traverseE (lookupChunk cfg true source storage) st chunks = .ok (st', out))
    {lookups : List Lookup} (hrun : LookupRun cfg (fun _ _ => True) lookups st.cache) :
    ∃ lookups', LookupRun cfg (fun _ _ => True) lookups' st'.cache := by
  induction chunks generalizing st out lookups with
  | nil =>
      cases hok
      exact ⟨lookups, hrun⟩
  | cons c chunks ih =>
      obtain ⟨⟨st₁, c₁⟩, hchunk, hok⟩ := bind_ok_iff.mp hok
      obtain ⟨⟨st₂, out₂⟩, hrest, hok⟩ := bind_ok_iff.mp hok
      cases hok
      let l : Lookup := ⟨source, storage, st.buffer, c⟩
      have hstep : lookupCache cfg st.cache l = .ok st₁.cache := bind_ok_iff.mpr ⟨_, hchunk, rfl⟩
      have hadmitted : l.Admitted := hwf
      exact ih hrest (hrun.snoc ⟨hadmitted, trivial⟩ hstep)

private theorem cache_of_lookupSegment {store : Store} {job' : Job} {limit : Int}
    (hphysical : cfg.locality = .physical) (hwf : store.pool.WellFormed)
    (hok : lookupSegment cfg store job limit = .ok job') {lookups : List Lookup}
    (hrun : LookupRun cfg (fun _ _ => True) lookups job.index.cache) :
    ∃ lookups', LookupRun cfg (fun _ _ => True) lookups' job'.index.cache := by
  rw [lookupSegment] at hok
  split at hok
  · cases hok
    exact ⟨lookups, hrun⟩
  · split at hok
    · cases hok
      exact ⟨lookups, hrun⟩
    · split at hok
      · cases hok
        exact ⟨lookups, hrun⟩
      · obtain ⟨⟨index, chunks⟩, hlookup, hok⟩ := bind_ok_iff.mp hok
        cases hok
        have hbase : ¬ cfg.usesSimilarity := fun h => by
          rw [Config.usesSimilarity, hphysical] at h
          exact Locality.noConfusion h.1
        rw [indexLookup, if_neg hbase, indexLookupBase] at hlookup
        exact lookups_of_segment (job.source store) hwf hlookup hrun

private theorem cache_of_filterSegment {store store' : Store} {job' : Job}
    {marks : Nat → Bool × Bool} (hok : filterSegment cfg store job marks = .ok (store', job')) :
    job'.index.cache = job.index.cache := by
  rw [filterSegment] at hok
  split at hok
  · cases hok
    rfl
  · obtain ⟨chunks, -, hok⟩ := bind_ok_iff.mp hok
    obtain ⟨r, -, hok⟩ := bind_ok_iff.mp hok
    obtain ⟨buffer, -, hok⟩ := bind_ok_iff.mp hok
    obtain ⟨recipe, -, hok⟩ := bind_ok_iff.mp hok
    obtain ⟨kv, -, hok⟩ := bind_ok_iff.mp hok
    cases hok
    rfl

/-- Whatever runs the store has seen, the cache of a running backup comes from lookups. -/
theorem job_cache_of_lookups (hset : cfg.Settled) (hphysical : cfg.locality = .physical)
    {events : List Event} (hrun : Run (step cfg) (BackupEvent cfg backupScope) initSystem events sys) :
    ∀ job, sys.job = some job →
      ∃ lookups, LookupRun cfg (fun _ _ => True) lookups job.index.cache := by
  suffices h : SystemInv cfg backupScope sys ∧ ∀ job, sys.job = some job →
      ∃ lookups, LookupRun cfg (fun _ _ => True) lookups job.index.cache from h.2
  induction hrun with
  | nil => exact ⟨systemInv_init rfl fun _ _ => trivial, fun job hjob => by cases hjob⟩
  | @snoc events sys sys' e run hok hstep ih =>
      obtain ⟨hinv, hcaches⟩ := ih
      refine ⟨((step_ensures hset False.elim hinv hok).of_ok hstep).1, fun job' hjob' => ?_⟩
      obtain ⟨store, job⟩ := sys
      cases job with
      | none =>
          cases e with
          | start files =>
              obtain ⟨segments, -, rfl⟩ := step_start hstep
              cases hjob'
              exact ⟨[], .nil⟩
          | delete jobid => exact hok.elim
          | lookup limit | filter marks | finish =>
              cases hstep
              cases hjob'
      | some job =>
          obtain ⟨lookups, hlookups⟩ := hcaches job rfl
          cases e with
          | start files =>
              cases hstep
              cases hjob'
              exact ⟨lookups, hlookups⟩
          | delete jobid => exact hok.elim
          | lookup limit =>
              obtain ⟨job₁, hlookup, hstep⟩ := bind_ok_iff.mp hstep
              cases hstep
              cases hjob'
              exact cache_of_lookupSegment hphysical hinv.core.pool_wf hlookup hlookups
          | filter marks =>
              obtain ⟨⟨store₁, job₁⟩, hfilter, hstep⟩ := bind_ok_iff.mp hstep
              cases hstep
              cases hjob'
              exact ⟨lookups, cache_of_filterSegment hfilter ▸ hlookups⟩
          | finish =>
              change (if _ then _ else _) = _ at hstep
              split at hstep
              · obtain ⟨store₁, -, hstep⟩ := bind_ok_iff.mp hstep
                cases hstep
                cases hjob'
              · cases hstep
                cases hjob'
                exact ⟨lookups, hlookups⟩

end Jobs

section Examples

/-- Keys of one byte and a cache for two containers. -/
private def shortKeys : Config :=
  { smallConfig .nearExact .physical with indexKeySize := 1, indexCacheSize := 2 }

/-- A lookup in a store with one container, to which a key of one byte leads. -/
private def shortKeyLookup (b : UInt8) : Lookup :=
  { source := {
      pool := { containers := AList.insert 0 (createContainer shortKeys emptyStore.pool).1 ∅
                containerCount := 1 }
      backups := []
      current := createBackupVersion 0
      kv := AList.insert [7] [0] ∅ }
    storage := none
    buffer := initIndexBuffer
    chunk := { newChunk 8 with fp := .ofBytes [7, b] } }

private theorem shortKeyLookup_admitted (b : UInt8) : (shortKeyLookup b).Admitted := by
  have hlookup : ∀ i c, (shortKeyLookup b).source.pool.containers.lookup i = some c →
      i = 0 ∧ c.id = 0 := by
    intro i c h
    by_cases hi : i = 0
    · subst hi
      rw [shortKeyLookup, AList.lookup_insert] at h
      cases h
      exact ⟨rfl, rfl⟩
    · rw [shortKeyLookup, AList.lookup_insert_ne hi, AList.lookup_empty] at h
      exact absurd h (Option.some_ne_none c).symm
  constructor
  · intro i c h
    obtain ⟨rfl, hid⟩ := hlookup i c h
    exact hid
  · intro i c h
    obtain ⟨rfl, -⟩ := hlookup i c h
    exact ⟨le_refl 0, Int.one_pos⟩

/-- Two chunks with one key that is neither's: the second lookup is led to the container that the first
one cached. -/
theorem cached_containers_distinct_iff_two_lookups :
    ∃ cache : LruCache CacheUnit, cache.elemQueue.map CacheUnit.id = [0, 0] ∧
      ¬ LookupRun shortKeys (fun cache l => ¬ LeadsToCached shortKeys cache l)
        [shortKeyLookup 2, shortKeyLookup 3] cache := by
  have hinit : LookupRun shortKeys (fun _ _ => True) [] (.newLruCache shortKeys.indexCacheSize) :=
    .nil
  obtain ⟨cache, hrun, hids⟩ : ∃ cache : LruCache CacheUnit,
      LookupRun shortKeys (fun _ _ => True) [shortKeyLookup 2, shortKeyLookup 3] cache ∧
        cache.elemQueue.map CacheUnit.id = [0, 0] :=
    ⟨_, (hinit.after (shortKeyLookup 2) ⟨shortKeyLookup_admitted 2, trivial⟩ rfl).after
      (shortKeyLookup 3) ⟨shortKeyLookup_admitted 3, trivial⟩ rfl, rfl⟩
  refine ⟨cache, hids, fun hmeets => ?_⟩
  have hdistinct := (cached_containers_distinct_iff shortKeys rfl hrun).mpr hmeets _ _
    (List.prefix_refl _) hrun
  exact absurd hdistinct.nodup (by rw [hids]; decide)

/-- A first backup stores a chunk under a key of one byte; the second one asks for two other chunks
with that key before any of them is stored. -/
private def sameKeyEvents : List Event :=
  let file (bytes : List UInt8) : InputFile :=
    { name := [], chunks := bytes.map fun b => { fp := .ofBytes [7, b], size := 8, data := [] } }
  backupEvents [file [1]] 2 ++ [.start [file [2, 3]], .lookup 4, .lookup 4]

/-- Backups with keys of one byte and a cache for two containers: the only container is cached twice. -/
theorem container_cached_twice :
    ∃ (cfg : Config) (events : List Event) (sys : System) (job : Job), cfg.Accepted ∧
      cfg.locality = .physical ∧ Run (step cfg) (BackupEvent cfg backupScope) initSystem events sys ∧
      sys.job = some job ∧ job.index.cache.elemQueue.map CacheUnit.id = [0, 0] ∧
      ¬ DistinctContainers job.index.cache := by
  have hrun : (exec (step shortKeys) (admitsBackup shortKeys) initSystem sameKeyEvents).any (fun sys =>
      sys.job.any fun job => decide (job.index.cache.elemQueue.map CacheUnit.id = [0, 0])) =
        true := by decide +kernel
  obtain ⟨sys, hsys, hcheck⟩ := (Option.any_eq_true _ _).mp hrun
  obtain ⟨job, hjob, hids⟩ := (Option.any_eq_true _ _).mp hcheck
  have hids := of_decide_eq_true hids
  refine ⟨shortKeys, sameKeyEvents, sys, job, ?_, rfl,
    Run.of_exec (fun _ _ => backupEvent_of_admits) hsys,
    hjob, hids, fun h => ?_⟩
  · exact (Config.accepted_iff shortKeys).mpr
      ⟨by decide, by decide, fun h => absurd h (by decide), fun _ => rfl,
        fun _ h => absurd h (by decide)⟩
  · have hnodup := h.nodup
    rw [hids] at hnodup
    exact absurd hnodup (by decide)

end Examples

end Destor
