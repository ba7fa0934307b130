/- digest: Prefetching the selected segments: a cache with room for all their neighbourhoods keeps
   every one of them. -/

import Destor.Index.ChampionSelection
import Destor.Recipe.SegmentIds
import Destor.Utils.LruRecency

set_option autoImplicit false
set_option relaxedAutoImplicit false

namespace Destor

open Library.Outcome Library.SortedSeq Library.Lru

namespace SegmentStore

def IsSegment (store : SegmentStore) (sr : SegmentRecipe) : Prop :=
  ∃ b before pointers, store.HasSegment b before pointers ∧
    segmentId b before pointers = .ok sr.id ∧ sr.kvpairs = segmentTable pointers

def IsUnit (store : SegmentStore) (u : CacheUnit) : Prop :=
  ∃ sr, u = .segmentRecipe sr ∧ store.IsSegment sr

/-- The three fields of every segment id are in range. -/
def IdsFit (store : SegmentStore) : Prop :=
  ∀ b before pointers, store.HasSegment b before pointers →
    SegmentIdFits b (segmentOffset before) pointers.length

variable {store : SegmentStore} {b : Nat} {before segments : List (List ChunkPointer)}

theorem pointersAssigned_unit : PointersAssigned store.IsUnit := by
  rintro _ fp id ⟨sr, rfl, b, before, pointers, ⟨after, hafter⟩, -, htable⟩ hpointer
  rw [CacheUnit.pointer, htable, Option.map_eq_some_iff] at hpointer
  obtain ⟨cp, hlookup, rfl⟩ := hpointer
  have hmem := (mem_of_lookup_segmentTable hlookup).1
  exact temporaryId_lt_of_nonneg
    (store.nonneg _ (List.mem_of_getElem? hafter) pointers (by simp) cp hmem)

theorem isSegment_segmentRecipes
    (h : (store.finished ++ [store.running])[b]? = some (before ++ segments)) :
    ∀ sr ∈ segmentRecipes b (encodeSegments before).length segments, store.IsSegment sr := by
  induction segments generalizing before with
  | nil => exact fun sr hsr => absurd hsr List.not_mem_nil
  | cons pointers segments ih =>
      have hhas : store.HasSegment b before pointers := ⟨segments, h⟩
      rw [segmentRecipes]
      refine List.forall_mem_cons.mpr ⟨?_, ?_⟩
      · exact ⟨b, before, pointers, hhas, segmentId_eq hhas, rfl⟩
      · have hnext : (store.finished ++ [store.running])[b]? =
            some ((before ++ [pointers]) ++ segments) := by
          rw [h, List.append_assoc]
          rfl
        have hrest := ih hnext
        rw [encodeSegments_append, List.length_append, encodeSegments_cons, encodeSegments_nil,
          List.append_nil] at hrest
        exact hrest

end SegmentStore

section Requests

variable {units : CacheUnit → Prop} {cache cache' : LruCache CacheUnit} {sr : SegmentRecipe}

namespace LruCache

def ids (cache : LruCache CacheUnit) : List Int := cache.elemQueue.map CacheUnit.id

end LruCache

/-- The second cache is the first one after some requests for units, least recent out first. -/
structure Served (units : CacheUnit → Prop) (cache cache' : LruCache CacheUnit)
    (requests : List Int) : Prop where
  ids_eq : cache'.ids = requests.foldl (access cache.maxSize.toNat) cache.ids
  withinBound : cache'.WithinBound
  maxSize_eq : cache'.maxSize = cache.maxSize
  units : CacheOf units cache'

theorem Served.refl (hbound : cache.WithinBound) (hunits : CacheOf units cache) :
    Served units cache cache [] := ⟨rfl, hbound, rfl, hunits⟩

theorem Served.trans {cache'' : LruCache CacheUnit} {requests requests' : List Int}
    (h : Served units cache cache' requests) (h' : Served units cache' cache'' requests') :
    Served units cache cache'' (requests ++ requests') := by
  refine ⟨?_, h'.withinBound, h'.maxSize_eq.trans h.maxSize_eq, h'.units⟩
  rw [List.foldl_append, ← h.ids_eq, h'.ids_eq, h.maxSize_eq]

/-- A prefetched segment counts as requested, cached or not. -/
theorem served_cacheSegment (hbound : cache.WithinBound) (hpos : 0 < cache.maxSize)
    (hunits : CacheOf units cache) (hsr : units (.segmentRecipe sr)) :
    Served units cache (cacheSegment cache sr) [sr.id] := by
  have hof := (cacheSegment_spec hunits hsr).1
  by_cases hid : sr.id ∈ cache.ids
  · obtain ⟨e, he⟩ := LruCache.hits_of_mem hid
    have hcache : cacheSegment cache sr = (cache.hits fun u => u.id == sr.id).2 := by
      rw [cacheSegment, he]
    rw [hcache] at hof ⊢
    exact ⟨LruCache.keys_hits hbound hpos hid, hbound.hits _, LruCache.maxSize_hits cache _, hof⟩
  · have hcache : cacheSegment cache sr = cache.insert (.segmentRecipe sr) := by
      rw [cacheSegment, LruCache.hits_of_not_mem hid]
    rw [hcache] at hof ⊢
    exact ⟨LruCache.keys_insert hbound hpos hid, hbound.insert _,
      LruCache.maxSize_insert cache _, hof⟩

theorem served_cacheSegments (segments : List SegmentRecipe) (hbound : cache.WithinBound)
    (hpos : 0 < cache.maxSize) (hunits : CacheOf units cache)
    (hsegments : ∀ sr ∈ segments, units (.segmentRecipe sr)) :
    Served units cache (segments.foldl cacheSegment cache) (segments.map SegmentRecipe.id) := by
  induction segments generalizing cache with
  | nil => exact .refl hbound hunits
  | cons sr segments ih =>
      obtain ⟨hsr, hrest⟩ := List.forall_mem_cons.mp hsegments
      have hserved := served_cacheSegment hbound hpos hunits hsr
      exact hserved.trans (ih hserved.withinBound (hserved.maxSize_eq ▸ hpos) hserved.units hrest)

theorem served_prefetch {cfg : Config} {source : IndexSource} {id : Int}
    {segments : List SegmentRecipe} (hlogical : cfg.locality = .logical)
    (hbound : cache.WithinBound) (hpos : 0 < cache.maxSize) (hunits : CacheOf units cache)
    (hload : prefetchSegments source.backups source.current id cfg.segmentPrefetch = .ok segments)
    (hsegments : ∀ sr ∈ segments, units (.segmentRecipe sr))
    (hlen : segments.length ≤ cfg.segmentPrefetch) (hid : id ∈ segments.map SegmentRecipe.id) :
    ∃ cache' requests, fingerprintCachePrefetch cfg source cache id = .ok cache' ∧
      Served units cache cache' requests ∧ requests.length ≤ cfg.segmentPrefetch ∧
      id ∈ requests := by
  by_cases hcached : id ∈ cache.ids
  · obtain ⟨e, he⟩ := LruCache.hits_of_mem hcached
    have hsingle : [id].length ≤ cfg.segmentPrefetch := by
      have hone := List.length_pos_of_mem hid
      rw [List.length_map] at hone
      rw [List.length_singleton]
      omega
    refine ⟨(cache.hits fun u => u.id == id).2, [id], ?_, ?_, hsingle, List.mem_singleton_self id⟩
    · simp only [fingerprintCachePrefetch, hlogical]
      rw [he]
    · exact ⟨LruCache.keys_hits hbound hpos hcached, hbound.hits _,
        LruCache.maxSize_hits cache _, fun u hu =>
          hunits u ((LruCache.mem_hits_snd cache _).mp hu)⟩
  · have hserved := served_cacheSegments segments.reverse hbound hpos hunits
      fun sr hsr => hsegments sr (List.mem_reverse.mp hsr)
    refine ⟨segments.reverse.foldl cacheSegment cache, _, ?_, hserved, ?_, ?_⟩
    · simp only [fingerprintCachePrefetch, hlogical]
      rw [LruCache.hits_of_not_mem hcached, hload]
      rfl
    · rw [List.length_map, List.length_reverse]
      exact hlen
    · rw [List.map_reverse]
      exact List.mem_reverse.mpr hid

end Requests

section Selected

variable {cfg : Config} {source : IndexSource} {cache : LruCache CacheUnit}
  {entries : List ((_ : Int) × List Key)}

theorem mem_of_mem_selectedTops {id : Int} {n : Nat} {seq : List SimilarSegment}
    (h : id ∈ selectedTops n seq) : id ∈ seq.map SimilarSegment.id := by
  induction n generalizing seq with
  | zero =>
      rw [selectedTops] at h
      exact absurd h List.not_mem_nil
  | succ n ih =>
      cases seq with
      | nil =>
          rw [selectedTops] at h
          exact absurd h List.not_mem_nil
      | cons top rest =>
          rw [selectedTops] at h
          rw [List.map_cons]
          obtain rfl | h := List.mem_cons.mp h
          · exact List.mem_cons_self
          · apply List.mem_cons_of_mem
            obtain ⟨s, hs, rfl⟩ := List.mem_map.mp (ih h)
            obtain ⟨s', hs', rfl⟩ := List.mem_map.mp ((mem_sort _).mp hs)
            exact List.mem_map.mpr ⟨s', hs', rfl⟩

/-- The ids of the segments that `top_segment_select` selects among the candidates. -/
def selectedIds (cfg : Config) (entries : List ((_ : Int) × List Key)) : List Int :=
  let seq := sort segmentSortsAfter (entries.map fun e => { id := e.1, features := e.2 })
  selectedTops (min seq.length cfg.segmentSelectionNum) seq

theorem selectCandidates_eq : selectCandidates cfg source cache entries =
    foldE (fingerprintCachePrefetch cfg source) cache (selectedIds cfg entries) := by
  rw [selectCandidates, selectTop_eq]
  rfl

theorem length_selectedIds_le (cfg : Config) (entries : List ((_ : Int) × List Key)) :
    (selectedIds cfg entries).length ≤ cfg.segmentSelectionNum := by
  rw [selectedIds, length_selectedTops (Nat.min_le_left _ _)]
  exact Nat.min_le_right _ _

theorem mem_of_mem_selectedIds {id : Int} (h : id ∈ selectedIds cfg entries) :
    ∃ e ∈ entries, e.1 = id := by
  obtain ⟨s, hs, rfl⟩ := List.mem_map.mp (mem_of_mem_selectedTops h)
  obtain ⟨e, he, rfl⟩ := List.mem_map.mp ((mem_sort _).mp hs)
  exact ⟨e, he, rfl⟩

end Selected

section Champions

variable {store : SegmentStore} {cfg : Config} {source : IndexSource} {cache : LruCache CacheUnit}

structure SegmentStore.ReadBy (store : SegmentStore) (source : IndexSource) : Prop where
  backups : writeVersions 0 store.finished = .ok (store.finished.length, source.backups)
  current : appendSegments store.finished.length store.running = .ok source.current

private theorem prefetch_segment (hfit : store.IdsFit) (hread : store.ReadBy source)
    {sr : SegmentRecipe} (hsr : store.IsSegment sr) {n : Nat} (hn : 1 ≤ n) :
    ∃ segments, prefetchSegments source.backups source.current sr.id n = .ok segments ∧
      (∀ sr ∈ segments, store.IsUnit (.segmentRecipe sr)) ∧ segments.length ≤ n ∧
      sr.id ∈ segments.map SegmentRecipe.id := by
  obtain ⟨b, before, pointers, hhas, hid, -⟩ := hsr
  obtain ⟨backups, current, hbackups, hcurrent, hall⟩ := SegmentStore.idsIdentify_of_fits hfit
  rw [hread.backups] at hbackups
  rw [hread.current] at hcurrent
  cases hbackups
  cases hcurrent
  obtain ⟨id, hid', hidentified⟩ := hall b before pointers hhas
  rw [hid, Except.ok.injEq] at hid'
  obtain ⟨after, hafter, hprefetch⟩ := hidentified.prefetch n hn
  refine ⟨_, hid' ▸ hprefetch, fun sr' hsr' => ⟨sr', rfl, ?_⟩, List.length_take_le n _, ?_⟩
  · exact SegmentStore.isSegment_segmentRecipes hafter sr' (List.mem_of_mem_take hsr')
  · obtain ⟨n, rfl⟩ : ∃ m, n = m + 1 := ⟨n - 1, by omega⟩
    have hsegment := SegmentStore.segmentId_eq hhas
    rw [hid, Except.ok.injEq] at hsegment
    rw [segmentRecipes, List.take_succ_cons, List.map_cons, hsegment, segmentOffset]
    exact List.mem_cons_self

private theorem served_foldE (hfit : store.IdsFit) (hread : store.ReadBy source)
    (hlogical : cfg.locality = .logical) (hprefetch : 1 ≤ cfg.segmentPrefetch) (ids : List Int)
    (hids : ∀ id ∈ ids, ∃ sr, store.IsSegment sr ∧ sr.id = id) (hbound : cache.WithinBound)
    (hpos : 0 < cache.maxSize) (hunits : CacheOf store.IsUnit cache) :
    ∃ cache' requests, foldE (fingerprintCachePrefetch cfg source) cache ids = .ok cache' ∧
      Served store.IsUnit cache cache' requests ∧
      requests.length ≤ ids.length * cfg.segmentPrefetch ∧ ∀ id ∈ ids, id ∈ requests := by
  induction ids generalizing cache with
  | nil =>
      exact ⟨cache, [], rfl, .refl hbound hunits, Nat.zero_le _, fun id hid =>
        absurd hid List.not_mem_nil⟩
  | cons id ids ih =>
      obtain ⟨⟨sr, hsr, rfl⟩, hrest⟩ := List.forall_mem_cons.mp hids
      obtain ⟨segments, hload, hsegments, hlen, hmem⟩ := prefetch_segment hfit hread hsr hprefetch
      obtain ⟨cache₁, requests₁, hok₁, hserved₁, hlen₁, hmem₁⟩ :=
        served_prefetch hlogical hbound hpos hunits hload hsegments hlen hmem
      obtain ⟨cache₂, requests₂, hok₂, hserved₂, hlen₂, hmem₂⟩ :=
        ih hrest hserved₁.withinBound (hserved₁.maxSize_eq ▸ hpos) hserved₁.units
      refine ⟨cache₂, requests₁ ++ requests₂, bind_ok_iff.mpr ⟨cache₁, hok₁, hok₂⟩,
        hserved₁.trans hserved₂, ?_, ?_⟩
      · rw [List.length_append, List.length_cons, Nat.succ_mul]
        omega
      · refine List.forall_mem_cons.mpr ⟨List.mem_append_left _ hmem₁, fun id hid => ?_⟩
        exact List.mem_append_right _ (hmem₂ id hid)

/-- The cache once segments have been prefetched for `ids`: each of them is there, no id twice, and the
bound holds. A fingerprint of one of these segments is found, in a container that some cached segment
records for it. -/
structure ChampionsCached (store : SegmentStore) (bound : Int) (ids : List Int)
    (cache : LruCache CacheUnit) : Prop where
  cached : ∀ id ∈ ids, ∃ u ∈ cache.elemQueue, u.id = id
  nodup : (cache.elemQueue.map CacheUnit.id).Nodup
  size_eq : cache.size = cache.elemQueue.length
  size_le : (cache.size : Int) ≤ bound
  found : ∀ b before pointers id, store.HasSegment b before pointers →
    SegmentStore.segmentId b before pointers = .ok id → id ∈ ids → ∀ cp ∈ pointers,
    ∃ container cache', fingerprintCacheLookup cache cp.fp = .ok (container, cache') ∧
      temporaryId < container ∧ ∃ u ∈ cache.elemQueue, u.pointer cp.fp = some container

private theorem nodup_foldl_access {bound : Nat} (requests : List Int) {queue : List Int}
    (h : queue.Nodup) : (requests.foldl (access bound) queue).Nodup := by
  induction requests generalizing queue with
  | nil => exact h
  | cons a requests ih => exact ih (nodup_access h)

private theorem holds_of_cached (hfit : store.IdsFit) (hunits : CacheOf store.IsUnit cache)
    {b : Nat} {before : List (List ChunkPointer)} {pointers : List ChunkPointer} {id : Int}
    (hhas : store.HasSegment b before pointers)
    (hid : SegmentStore.segmentId b before pointers = .ok id) {u : CacheUnit}
    (hu : u ∈ cache.elemQueue) (huid : u.id = id) {cp : ChunkPointer} (hcp : cp ∈ pointers) :
    u.holds cp.fp = true := by
  obtain ⟨sr, rfl, b', before', pointers', hhas', hid', htable⟩ := hunits u hu
  obtain ⟨_, _, _, _, hall⟩ := SegmentStore.idsIdentify_of_fits hfit
  obtain ⟨id₀, hid₀, hidentified⟩ := hall b before pointers hhas
  rw [hid, Except.ok.injEq] at hid₀
  have hsame : SegmentStore.segmentId b' before' pointers' = .ok id₀ := by
    rw [hid', ← hid₀, ← huid]
    rfl
  obtain ⟨-, -, rfl⟩ := hidentified.unique b' before' pointers' hhas' hsame
  obtain ⟨cp', hlookup⟩ := lookup_segmentTable_of_mem hcp
  rw [CacheUnit.holds, lookupFingerprintInSegmentRecipe, htable, hlookup]
  rfl

private theorem championsCached_of_served (hfit : store.IdsFit) {requests ids : List Int}
    {cache' : LruCache CacheUnit} (hserved : Served store.IsUnit cache cache' requests)
    (hnodup : cache.ids.Nodup) (hpos : 0 < cache.maxSize)
    (hlen : (requests.length : Int) ≤ cache.maxSize) (hids : ∀ id ∈ ids, id ∈ requests) :
    ChampionsCached store cache.maxSize ids cache' := by
  have hcached : ∀ id ∈ ids, ∃ u ∈ cache'.elemQueue, u.id = id := by
    intro id hid
    apply List.mem_map.mp
    show id ∈ cache'.ids
    rw [hserved.ids_eq]
    exact mem_foldl_access (by omega) (hids id hid)
  refine ⟨hcached, ?_, hserved.withinBound.size_eq, ?_, ?_⟩
  · show cache'.ids.Nodup
    rw [hserved.ids_eq]
    exact nodup_foldl_access requests hnodup
  · rw [← hserved.maxSize_eq]
    exact hserved.withinBound.size_le (hserved.maxSize_eq ▸ hpos)
  · intro b before pointers id hhas hid hmem cp hcp
    have hassigned : PointersAssigned (· ∈ cache'.elemQueue) := fun u fp id hu =>
      SegmentStore.pointersAssigned_unit u fp id (hserved.units u hu)
    obtain ⟨container, cache'', hok, -, hcase⟩ :=
      fingerprintCacheLookup_spec (fun u hu => hu) hassigned cp.fp
    obtain ⟨u, hu, huid⟩ := hcached id hmem
    obtain ⟨-, hmiss⟩ | ⟨hlt, hpointer⟩ := hcase
    · have hholds := holds_of_cached hfit hserved.units hhas hid hu huid hcp
      rw [hmiss u hu] at hholds
      exact absurd hholds Bool.false_ne_true
    · exact ⟨container, cache'', hok, hlt, hpointer⟩

/-- A cache of segments with room for the neighbourhoods of all the segments that are selected: after
`top_segment_select`, in whatever order the features and the candidates are delivered, every selected
segment is cached. -/
theorem champions_cached (store : SegmentStore) (hfit : store.IdsFit) (cfg : Config)
    (hlogical : cfg.locality = .logical) (hprefetch : 1 ≤ cfg.segmentPrefetch)
    (hselection : 1 ≤ cfg.segmentSelectionNum) (source : IndexSource)
    (hread : store.ReadBy source) (cache : LruCache CacheUnit) (hbound : cache.WithinBound)
    (hunits : CacheOf store.IsUnit cache) (hnodup : (cache.elemQueue.map CacheUnit.id).Nodup)
    (hsize : (cfg.segmentSelectionNum * cfg.segmentPrefetch : Nat) ≤ cache.maxSize)
    (features : List Key) (hfeatures : features.Nodup) (hkv : KvEntries source.kv)
    (hlisted : ∀ key ∈ features, ∀ id ∈ listed source.kv key,
      ∃ sr, store.IsSegment sr ∧ sr.id = id) :
    ∃ similar, foldE (addSimilars source) ∅ features = .ok similar ∧
      topSegmentSelect cfg source cache features =
        selectCandidates cfg source cache similar.entries ∧
      ∀ entries, entries.Perm similar.entries →
        ∃ cache', selectCandidates cfg source cache entries = .ok cache' ∧
          ChampionsCached store cache.maxSize (selectedIds cfg entries) cache' := by
  obtain ⟨similar, hok, hcollected⟩ := collected_foldE hkv hfeatures
  refine ⟨similar, hok, topSegmentSelect_eq hok, fun entries hperm => ?_⟩
  have hpos : 0 < cache.maxSize := by
    have hone := Nat.mul_pos hselection hprefetch
    omega
  have hids : ∀ id ∈ selectedIds cfg entries, ∃ sr, store.IsSegment sr ∧ sr.id = id := by
    intro id hid
    obtain ⟨e, he, rfl⟩ := mem_of_mem_selectedIds hid
    obtain ⟨hshared, hne⟩ := (hcollected e.1 e.2).mp
      (AList.mem_lookup_iff.mpr (hperm.mem_iff.mp he))
    obtain ⟨key, hkey⟩ := List.exists_mem_of_ne_nil _ hne
    rw [hshared, mem_sharedFeatures] at hkey
    exact hlisted key hkey.1 e.1 hkey.2
  obtain ⟨cache', requests, hfold, hserved, hlen, hmem⟩ :=
    served_foldE hfit hread hlogical hprefetch _ hids hbound hpos hunits
  refine ⟨cache', selectCandidates_eq.trans hfold, ?_⟩
  apply championsCached_of_served hfit hserved hnodup hpos _ hmem
  have hcount := Nat.mul_le_mul_right cfg.segmentPrefetch
    (length_selectedIds_le cfg entries)
  omega

private def twoSegments : SegmentStore :=
  { finished := [], running := [[⟨Fingerprint.fill 1, 4, 10⟩], [⟨Fingerprint.fill 2, 5, 10⟩]]
    nonneg := by
      intro segments hsegments pointers hpointers cp hcp
      rw [List.nil_append, List.mem_singleton] at hsegments
      subst hsegments
      obtain rfl | hpointers := List.mem_cons.mp hpointers
      · rw [List.mem_singleton.mp hcp]
        decide
      · rw [List.mem_singleton.mp hpointers] at hcp
        rw [List.mem_singleton.mp hcp]
        decide }

private theorem twoSegments_has {b : Nat} {before : List (List ChunkPointer)}
    {pointers : List ChunkPointer} (h : twoSegments.HasSegment b before pointers) :
    b = 0 ∧ (before = [] ∨ segmentOffset before = 96) ∧ pointers.length = 1 := by
  obtain ⟨after, hafter⟩ := h
  cases b with
  | zero =>
      have hrunning : twoSegments.running = before ++ pointers :: after := Option.some.inj hafter
      cases before with
      | nil => exact ⟨rfl, Or.inl rfl, by rw [← (List.cons.inj hrunning).1]; rfl⟩
      | cons first before =>
          obtain ⟨rfl, hrest⟩ := List.cons.inj hrunning
          cases before with
          | nil => exact ⟨rfl, Or.inr rfl, by rw [← (List.cons.inj hrest).1]; rfl⟩
          | cons second before =>
              have hempty := (List.cons.inj hrest).2
              exact absurd hempty.symm (by simp)
  | succ b => cases hafter

private theorem twoSegments_fit : twoSegments.IdsFit := by
  intro b before pointers h
  obtain ⟨rfl, rfl | hoff, hlen⟩ := twoSegments_has h
  · exact ⟨by decide, by decide, by rw [hlen]; decide⟩
  · exact ⟨by decide, by rw [hoff]; decide, by rw [hlen]; decide⟩

/-- One feature that both segments share, a cache for two segments: both are selected and cached. -/
theorem champions_cached_two_segments :
    let ids : List Int := [makeSegmentId 0 96 1, makeSegmentId 0 0 1]
    let cfg : Config := { smallConfig .nearExact .logical with segmentSelectionNum := 2 }
    let feature : Key := List.replicate 20 1
    ∃ source similar, source.kv = AList.insert feature ids ∅ ∧
      foldE (addSimilars source) ∅ [feature] = .ok similar ∧
      ∃ cache', topSegmentSelect cfg source (.newLruCache 2) [feature] = .ok cache' ∧
        ChampionsCached twoSegments 2 (selectedIds cfg similar.entries) cache' := by
  intro ids cfg feature
  obtain ⟨backups, current, hbackups, hcurrent, -⟩ :=
    SegmentStore.idsIdentify_of_fits twoSegments_fit
  have hfirst : twoSegments.HasSegment 0 [] [⟨Fingerprint.fill 1, 4, 10⟩] := ⟨_, rfl⟩
  have hsecond : twoSegments.HasSegment 0 [[⟨Fingerprint.fill 1, 4, 10⟩]]
      [⟨Fingerprint.fill 2, 5, 10⟩] := ⟨[], rfl⟩
  have hfit₀ : SegmentIdFits 0 0 1 := twoSegments_fit _ _ _ hfirst
  have hfit₁ : SegmentIdFits 0 96 1 := twoSegments_fit _ _ _ hsecond
  have hlt : makeSegmentId 0 0 1 < makeSegmentId 0 96 1 :=
    makeSegmentId_lt hfit₀ hfit₁ (Or.inr ⟨rfl, by decide⟩)
  have hnodup : ids.Nodup := List.nodup_cons.mpr
    ⟨fun h => absurd (List.mem_singleton.mp h) (ne_of_gt hlt), List.nodup_singleton _⟩
  have hassigned : ∀ id ∈ ids, id ≠ temporaryId := by
    intro id hid
    obtain rfl | hid := List.mem_cons.mp hid
    · exact ne_temporaryId_of_nonneg (makeSegmentId_nonneg hfit₁)
    · rw [List.mem_singleton.mp hid]
      exact ne_temporaryId_of_nonneg (makeSegmentId_nonneg hfit₀)
  let source : IndexSource := ⟨⟨∅, 0⟩, backups, current, AList.insert feature ids ∅⟩
  have hkv : KvEntries source.kv := by
    intro key value hlookup
    by_cases hkey : key = feature
    · rw [hkey, AList.lookup_insert] at hlookup
      cases hlookup
      exact ⟨ids, 0, (List.append_nil ids).symm, hnodup, hassigned⟩
    · rw [AList.lookup_insert_ne hkey, AList.lookup_empty] at hlookup
      exact absurd hlookup (Option.some_ne_none value).symm
  have hlisted : ∀ key ∈ [feature], ∀ id ∈ listed source.kv key,
      ∃ sr, twoSegments.IsSegment sr ∧ sr.id = id := by
    intro key hkey id hid
    rw [List.mem_singleton.mp hkey, listed, kvstoreLookup, AList.lookup_insert] at hid
    obtain rfl | hid := List.mem_cons.mp (List.takeWhile_subset _ hid)
    · refine ⟨⟨_, segmentTable [⟨Fingerprint.fill 2, 5, 10⟩]⟩, ⟨0, _, _, hsecond, ?_, rfl⟩, rfl⟩
      exact SegmentStore.segmentId_eq hsecond
    · rw [List.mem_singleton.mp hid]
      refine ⟨⟨_, segmentTable [⟨Fingerprint.fill 1, 4, 10⟩]⟩, ⟨0, _, _, hfirst, ?_, rfl⟩, rfl⟩
      exact SegmentStore.segmentId_eq hfirst
  obtain ⟨similar, hok, htop, hall⟩ := champions_cached twoSegments twoSegments_fit cfg rfl
    (by decide) (by decide) source ⟨hbackups, hcurrent⟩ (.newLruCache 2)
    (LruCache.withinBound_new 2) (fun u hu => absurd hu List.not_mem_nil) List.nodup_nil
    (by decide) [feature] (List.nodup_singleton _) hkv hlisted
  obtain ⟨cache', hselect, hcached⟩ := hall similar.entries (List.Perm.refl _)
  exact ⟨source, similar, rfl, hok, cache', htop.trans hselect, hcached⟩

end Champions

end Destor
