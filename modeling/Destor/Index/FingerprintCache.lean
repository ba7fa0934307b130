/- digest: The fingerprint cache: lookups in cached units and prefetches from the store. -/

import Destor.Index.KvstoreHtable
import Destor.Recipe.Recipestore
import Destor.Utils.LruCache

set_option autoImplicit false
set_option relaxedAutoImplicit false

namespace Destor

open Library.Outcome

/-- An element of `lru_queue`: the unit of physical or of logical locality. -/
inductive CacheUnit where
  | containerMeta (cm : ContainerMeta)
  | segmentRecipe (sr : SegmentRecipe)

namespace CacheUnit

/-- The id the key-value store knows the unit by. -/
def id : CacheUnit → Int
  | containerMeta cm => cm.id
  | segmentRecipe sr => sr.id

/-- The hit function that `init_fingerprint_cache` installs for the unit. -/
def holds (fp : Fingerprint) : CacheUnit → Bool
  | containerMeta cm => cm.lookupFingerprint fp
  | segmentRecipe sr => lookupFingerprintInSegmentRecipe sr fp

def pointer (fp : Fingerprint) : CacheUnit → Option Int
  | containerMeta cm => if cm.lookupFingerprint fp then some cm.id else none
  | segmentRecipe sr => (sr.kvpairs.lookup fp).map ChunkPointer.id

theorem pointer_isSome (fp : Fingerprint) (u : CacheUnit) :
    (u.pointer fp).isSome = u.holds fp := by
  cases u with
  | containerMeta cm => simp only [pointer, holds]; split <;> simp_all
  | segmentRecipe sr => simp [pointer, holds, lookupFingerprintInSegmentRecipe]

end CacheUnit

def fingerprintCacheLookup (cache : LruCache CacheUnit) (fp : Fingerprint) :
    Except Abort (Int × LruCache CacheUnit) :=
  match cache.lookup (CacheUnit.holds fp) with
  | (none, cache) => .ok (temporaryId, cache)
  | (some (.containerMeta cm), cache) => .ok (cm.id, cache)
  | (some (.segmentRecipe sr), cache) => do
      let id := ((sr.kvpairs.lookup fp).map ChunkPointer.id).getD temporaryId
      require (temporaryId < id) .cachedTemporaryId
      return (id, cache)

/-- The part of the store that lookups read. -/
structure IndexSource where
  pool : ContainerPool
  backups : List BackupVersion
  current : BackupVersion
  kv : KvStore

def cacheSegment (cache : LruCache CacheUnit) (sr : SegmentRecipe) : LruCache CacheUnit :=
  match cache.hits (fun u => u.id == sr.id) with
  | (some _, cache) => cache
  | (none, cache) => cache.insert (.segmentRecipe sr)

def fingerprintCachePrefetch (cfg : Config) (source : IndexSource)
    (cache : LruCache CacheUnit) (id : Int) : Except Abort (LruCache CacheUnit) :=
  match cfg.locality with
  | .physical => do
      let cm ← retrieveContainerMetaById source.pool id
      return cache.insert (.containerMeta cm)
  | .logical =>
      match cache.hits (fun u => u.id == id) with
      | (some _, cache) => .ok cache
      | (none, cache) => do
          let segments ← prefetchSegments source.backups source.current id cfg.segmentPrefetch
          return segments.reverse.foldl cacheSegment cache

section Lookup

variable {cache cache' : LruCache CacheUnit} {units : CacheUnit → Prop}

def CacheOf (units : CacheUnit → Prop) (cache : LruCache CacheUnit) : Prop :=
  ∀ u ∈ cache.elemQueue, units u

def PointersAssigned (units : CacheUnit → Prop) : Prop :=
  ∀ u fp id, units u → u.pointer fp = some id → temporaryId < id

/-- A lookup misses only what no cached unit holds, and a hit is the pointer of such a unit. -/
theorem fingerprintCacheLookup_spec (hcache : CacheOf units cache)
    (hassigned : PointersAssigned units) (fp : Fingerprint) :
    ∃ id cache', fingerprintCacheLookup cache fp = .ok (id, cache') ∧ CacheOf units cache' ∧
      ((id = temporaryId ∧ ∀ u ∈ cache.elemQueue, u.holds fp = false) ∨
        (temporaryId < id ∧ ∃ u, units u ∧ u.pointer fp = some id)) := by
  have hcache' : CacheOf units (cache.lookup (CacheUnit.holds fp)).2 := fun u hu =>
    hcache u ((LruCache.mem_lookup_snd cache _).mp hu)
  have hfst := LruCache.lookup_fst cache (CacheUnit.holds fp)
  unfold fingerprintCacheLookup
  generalize cache.lookup (CacheUnit.holds fp) = r at hcache' hfst
  obtain ⟨found, cache'⟩ := r
  cases found with
  | none =>
      refine ⟨temporaryId, cache', rfl, hcache', Or.inl ⟨rfl, fun u hu => ?_⟩⟩
      simpa using List.find?_eq_none.mp hfst.symm u hu
  | some u =>
      have hmem := List.mem_of_find?_eq_some hfst.symm
      have hholds := List.find?_some hfst.symm
      obtain ⟨id, hid⟩ := Option.isSome_iff_exists.mp
        ((CacheUnit.pointer_isSome fp u).trans hholds)
      have hpos := hassigned u fp id (hcache u hmem) hid
      refine ⟨id, cache', ?_, hcache', Or.inr ⟨hpos, u, hcache u hmem, hid⟩⟩
      cases u with
      | containerMeta cm =>
          simp only [CacheUnit.pointer] at hid
          split at hid
          · cases hid
            rfl
          · cases hid
      | segmentRecipe sr =>
          simp only [CacheUnit.pointer] at hid
          simp only [hid, Option.getD_some, bind_ok_iff, require_ok_iff]
          exact ⟨(), hpos, rfl⟩

end Lookup

section Prefetch

variable {cfg : Config} {source : IndexSource} {cache : LruCache CacheUnit}
  {units : CacheUnit → Prop}

private theorem cacheOf_insert (hcache : CacheOf units cache) {u : CacheUnit} (hu : units u) :
    CacheOf units (cache.insert u) := fun v hv => by
  rcases LruCache.mem_of_mem_insert hv with rfl | hv
  · exact hu
  · exact hcache v hv

private theorem mem_insert_self (cache : LruCache CacheUnit) (u : CacheUnit) :
    u ∈ (cache.insert u).elemQueue := by
  rcases LruCache.insert_elemQueue cache u with h | h <;> rw [h] <;> exact List.mem_cons_self

theorem cacheSegment_spec {sr : SegmentRecipe} (hcache : CacheOf units cache)
    (hsr : units (.segmentRecipe sr)) :
    CacheOf units (cacheSegment cache sr) ∧
      ∃ u ∈ (cacheSegment cache sr).elemQueue, u.id = sr.id := by
  have hmem := fun u => LruCache.mem_hits_snd (e := u) cache (fun u => u.id == sr.id)
  have hfst := LruCache.hits_fst cache (fun u => u.id == sr.id)
  unfold cacheSegment
  generalize cache.hits (fun u => u.id == sr.id) = r at hmem hfst
  obtain ⟨found, cache'⟩ := r
  have hcache' : CacheOf units cache' := fun u hu => hcache u ((hmem u).mp hu)
  cases found with
  | none => exact ⟨cacheOf_insert hcache' hsr, _, mem_insert_self cache' _, rfl⟩
  | some u =>
      exact ⟨hcache', u, (hmem u).mpr (List.mem_of_find?_eq_some hfst.symm),
        by simpa using List.find?_some hfst.symm⟩

private theorem cacheSegments_spec (segments : List SegmentRecipe)
    (hunits : ∀ sr ∈ segments, units (.segmentRecipe sr)) (hcache : CacheOf units cache) :
    CacheOf units (segments.reverse.foldl cacheSegment cache) ∧
      ∀ sr ∈ segments.head?, ∃ u ∈ (segments.reverse.foldl cacheSegment cache).elemQueue,
        u.id = sr.id := by
  induction segments with
  | nil => exact ⟨hcache, by simp⟩
  | cons sr segments ih =>
      obtain ⟨hsr, hrest⟩ := List.forall_mem_cons.mp hunits
      rw [List.reverse_cons, List.foldl_append, List.foldl_cons, List.foldl_nil]
      obtain ⟨hof, hhead⟩ := cacheSegment_spec (ih hrest).1 hsr
      refine ⟨hof, fun sr' hsr' => ?_⟩
      cases hsr'
      exact hhead

/-- `id` can be prefetched, and what is loaded belongs to `units`; the first unit loaded is the
one asked for. -/
def Loadable (cfg : Config) (source : IndexSource) (units : CacheUnit → Prop) (id : Int) : Prop :=
  match cfg.locality with
  | .physical => ∃ cm, retrieveContainerMetaById source.pool id = .ok cm ∧
      units (.containerMeta cm) ∧ cm.id = id
  | .logical => ∃ segments,
      prefetchSegments source.backups source.current id cfg.segmentPrefetch = .ok segments ∧
      (∀ sr ∈ segments, units (.segmentRecipe sr)) ∧
      (0 < cfg.segmentPrefetch → ∃ sr ∈ segments.head?, sr.id = id)

theorem fingerprintCachePrefetch_spec (hcache : CacheOf units cache) {id : Int}
    (hload : Loadable cfg source units id) :
    ∃ cache', fingerprintCachePrefetch cfg source cache id = .ok cache' ∧ CacheOf units cache' ∧
      (cfg.locality = .physical ∨ 0 < cfg.segmentPrefetch →
        ∃ u ∈ cache'.elemQueue, u.id = id) := by
  unfold Loadable at hload
  unfold fingerprintCachePrefetch
  cases hloc : cfg.locality with
  | physical =>
      simp only [hloc] at hload
      obtain ⟨cm, hcm, hunit, hid⟩ := hload
      simp only [hcm]
      exact ⟨_, rfl, cacheOf_insert hcache hunit, fun _ => ⟨_, mem_insert_self cache _, hid⟩⟩
  | logical =>
      simp only [hloc] at hload
      obtain ⟨segments, hsegments, hunits, hhead⟩ := hload
      have hmem := fun u => LruCache.mem_hits_snd (e := u) cache (fun u => u.id == id)
      have hfst := LruCache.hits_fst cache (fun u => u.id == id)
      generalize cache.hits (fun u => u.id == id) = r at hmem hfst
      obtain ⟨found, cache'⟩ := r
      have hcache' : CacheOf units cache' := fun u hu => hcache u ((hmem u).mp hu)
      cases found with
      | some u =>
          exact ⟨cache', rfl, hcache', fun _ =>
            ⟨u, (hmem u).mpr (List.mem_of_find?_eq_some hfst.symm),
              by simpa using List.find?_some hfst.symm⟩⟩
      | none =>
          obtain ⟨hof, hid⟩ := cacheSegments_spec segments hunits hcache'
          simp only [hsegments]
          refine ⟨_, rfl, hof, fun hpos => ?_⟩
          obtain ⟨sr, hsr, rfl⟩ := hhead (by simpa using hpos)
          exact hid sr hsr

end Prefetch

end Destor
