/- digest: Similarity detection: selecting and prefetching similar segments before the lookups. -/

import Destor.Index.Index

set_option autoImplicit false
set_option relaxedAutoImplicit false

namespace Destor

open Library.Outcome Library.SortedSeq

/-- A candidate of `top_segment_select`: a segment id with the features it shares. -/
structure SimilarSegment where
  id : Int
  features : List Key
deriving DecidableEq

/-- `g_segment_cmp_feature_num(a, b) > 0`: more features come first, then the larger id. -/
def segmentSortsAfter (a b : SimilarSegment) : Bool :=
  if b.features.length = a.features.length then decide (a.id < b.id)
  else decide (a.features.length < b.features.length)

def featuresTrim (top target : SimilarSegment) : SimilarSegment :=
  { target with features := target.features.filter (· ∉ top.features) }

def addSimilar (key : Key) (similar : IdMap (List Key)) (id : Int) :
    Except Abort (IdMap (List Key)) := do
  let features := (similar.lookup id).getD []
  require (key ∉ features) .featureTwice
  return similar.insert id (features ++ [key])

/-- The segments that the key-value store lists for one feature. -/
def addSimilars (source : IndexSource) (similar : IdMap (List Key)) (key : Key) :
    Except Abort (IdMap (List Key)) :=
  match kvstoreLookup source.kv key with
  | none => .ok similar
  | some ids => foldE (addSimilar key) similar (ids.takeWhile (· ≠ temporaryId))

/-- The prefetch loop of `top_segment_select` over the sorted candidates. -/
def selectTop (cfg : Config) (source : IndexSource) :
    Nat → List SimilarSegment → LruCache CacheUnit → Except Abort (LruCache CacheUnit)
  | 0, _, cache => .ok cache
  | _ + 1, [], cache => .ok cache
  | n + 1, top :: rest, cache => do
      let cache ← fingerprintCachePrefetch cfg source cache top.id
      selectTop cfg source n (sort segmentSortsAfter (rest.map (featuresTrim top))) cache

def topSegmentSelect (cfg : Config) (source : IndexSource) (cache : LruCache CacheUnit)
    (features : List Key) : Except Abort (LruCache CacheUnit) := do
  let similar ← foldE (addSimilars source) ∅ features
  let seq := sort segmentSortsAfter
    (similar.entries.map fun e => { id := e.1, features := e.2 })
  selectTop cfg source (min seq.length cfg.segmentSelectionNum) seq cache

def indexLookupSimilarityDetection (cfg : Config) (source : IndexSource)
    (storage : Option Container) (st : IndexState) (features : List Key) (chunks : List Chunk) :
    Except Abort (IndexState × List Chunk) := do
  let cache ← topSegmentSelect cfg source st.cache features
  let askKvstore := cfg.indexCategory = .exact || cfg.segmentSelection = .mix
  traverseE (lookupChunk cfg askKvstore source storage) { st with cache := cache } chunks

namespace Config

/-- The segments of a backup are looked up by similarity. -/
def usesSimilarity (cfg : Config) : Prop :=
  cfg.locality = .logical ∧ cfg.segmentSelection ≠ .base

instance (cfg : Config) : Decidable cfg.usesSimilarity := by
  unfold usesSimilarity
  infer_instance

end Config

def indexLookup (cfg : Config) (source : IndexSource) (storage : Option Container)
    (st : IndexState) (s : Segment) : Except Abort (IndexState × List Chunk) :=
  if cfg.usesSimilarity then do
    let features ← sampling cfg s.chunks s.chunkNum
    indexLookupSimilarityDetection cfg source storage st features s.chunks
  else indexLookupBase cfg source storage st s.chunks

section Selection

variable {cfg : Config} {source : IndexSource} {units : CacheUnit → Prop}

/-- All units listed in the key-value store, in the shape updates give the values. -/
def KvLoadable (cfg : Config) (source : IndexSource) (units : CacheUnit → Prop) : Prop :=
  KvShape cfg (fun id => id ≠ temporaryId ∧ Loadable cfg source units id) source.kv

theorem KvLoadable.heads (h : KvLoadable cfg source units) :
    HeadsLoadable cfg source units := by
  intro k ids hk
  obtain ⟨ids', hshape⟩ := h k ids hk
  obtain ⟨id, rest, rfl, hhead, -, hload⟩ := hshape.head
  have : ids.headD temporaryId = id := by rw [List.headD_eq_head?_getD, hhead]; rfl
  rwa [this]

theorem takeWhile_of_shape {ids value : List Int} {n : Nat}
    (hvalue : value = ids ++ List.replicate n temporaryId) (hids : ∀ id ∈ ids, id ≠ temporaryId) :
    value.takeWhile (· ≠ temporaryId) = ids := by
  subst hvalue
  induction ids with
  | nil => cases n <;> simp [List.replicate_succ]
  | cons a l ih =>
      obtain ⟨ha, hl⟩ := List.forall_mem_cons.mp hids
      rw [List.cons_append, List.takeWhile_cons_of_pos (by simpa using ha), ih hl]

/-- The candidates collected so far: loadable segments with features already processed. -/
private structure SimilarInv (unit : Int → Prop) (key? : Key → Int → Prop)
    (similar : IdMap (List Key)) : Prop where
  units : ∀ id fs, similar.lookup id = some fs → unit id
  keys : ∀ id fs key, similar.lookup id = some fs → key ∈ fs → key? key id

private theorem addSimilar_ensures {unit : Int → Prop} {key? : Key → Int → Prop}
    {similar : IdMap (List Key)} (h : SimilarInv unit key? similar) {key : Key} {id : Int}
    (hid : unit id) (hkey : ¬ key? key id) :
    Ensures (fun _ => False)
      (SimilarInv unit fun k i => key? k i ∨ (k = key ∧ i = id)) (addSimilar key similar id) := by
  refine Ensures.bind (ensures_require (Or.inl ?_)) (fun _ _ => ?_)
  · intro hmem
    cases hfs : similar.lookup id with
    | none => simp [hfs] at hmem
    | some fs => exact hkey (h.keys id fs key hfs (by simpa [hfs] using hmem))
  · rw [ensures_pure]
    refine ⟨fun i fs hi => ?_, fun i fs k hi hk => ?_⟩
    · by_cases hii : i = id
      · exact hii ▸ hid
      · rw [AList.lookup_insert_ne hii] at hi
        exact h.units i fs hi
    · by_cases hii : i = id
      · subst hii
        rw [AList.lookup_insert] at hi
        cases hi
        rcases List.mem_append.mp hk with hk | hk
        · cases hfs : similar.lookup i with
          | none => simp [hfs] at hk
          | some fs => exact Or.inl (h.keys i fs k hfs (by simpa [hfs] using hk))
        · exact Or.inr ⟨List.mem_singleton.mp hk, rfl⟩
      · rw [AList.lookup_insert_ne hii] at hi
        exact Or.inl (h.keys i fs k hi hk)

private theorem SimilarInv.weaken {unit : Int → Prop} {key? key?' : Key → Int → Prop}
    {similar : IdMap (List Key)} (h : SimilarInv unit key? similar)
    (himp : ∀ k i, key? k i → key?' k i) : SimilarInv unit key?' similar :=
  ⟨h.units, fun i fs k hi hk => himp k i (h.keys i fs k hi hk)⟩

private theorem foldE_addSimilar_ensures {unit : Int → Prop} {similar : IdMap (List Key)}
    {key : Key} {done : List Key} (hkey : key ∉ done) (ids : List Int)
    (hids : ∀ id ∈ ids, unit id) (hdec : ids.Pairwise (· > ·))
    (h : SimilarInv unit (fun k _ => k ∈ done) similar) :
    Ensures (fun _ => False) (SimilarInv unit fun k _ => k ∈ key :: done)
      (foldE (addSimilar key) similar ids) := by
  -- `key` may already stand at the ids before the current one, which are all larger
  have hloop := foldE_ensures (fun _ => False) (f := addSimilar key)
    (fun similar rest => rest.Pairwise (· > ·) ∧ (∀ id ∈ rest, unit id) ∧
      SimilarInv unit (fun k i => k ∈ done ∨ (k = key ∧ ∀ id ∈ rest, id < i)) similar)
    (by
      rintro similar id rest ⟨hdec, hunits, hinv⟩
      obtain ⟨hlt, hrest⟩ := List.pairwise_cons.mp hdec
      obtain ⟨hid, hunits⟩ := List.forall_mem_cons.mp hunits
      have hfresh : ¬ (key ∈ done ∨ (key = key ∧ ∀ id' ∈ id :: rest, id' < id)) := by
        rintro (hk | ⟨-, hk⟩)
        · exact hkey hk
        · exact absurd (hk id List.mem_cons_self) (lt_irrefl id)
      refine (addSimilar_ensures hinv hid hfresh).imp fun similar' hinv' =>
        ⟨hrest, hunits, hinv'.weaken ?_⟩
      rintro k i ((hk | ⟨rfl, hi⟩) | ⟨rfl, rfl⟩)
      · exact Or.inl hk
      · exact Or.inr ⟨rfl, fun id' hid' => hi id' (List.mem_cons_of_mem _ hid')⟩
      · exact Or.inr ⟨rfl, hlt⟩)
    (s := similar) (l := ids) ⟨hdec, hids, h.weaken fun k i hk => Or.inl hk⟩
  refine hloop.imp fun similar' ⟨_, _, hinv⟩ => hinv.weaken ?_
  rintro k i (hk | ⟨rfl, -⟩)
  · exact List.mem_cons_of_mem _ hk
  · exact List.mem_cons_self

private theorem collectSimilar_ensures (hkv : KvLoadable cfg source units)
    (features : List Key) (hnodup : features.Nodup) :
    Ensures (fun _ => False)
      (fun similar => ∀ id fs, similar.lookup id = some fs → Loadable cfg source units id)
      (foldE (addSimilars source) ∅ features) := by
  have hloop := foldE_ensures (fun _ => False) (f := addSimilars source)
    (fun similar rest => rest.Nodup ∧ ∃ done, (∀ k ∈ rest, k ∉ done) ∧
      SimilarInv (fun id => Loadable cfg source units id) (fun k _ => k ∈ done) similar)
    (by
      rintro similar key rest ⟨hnodup, done, hdone, hinv⟩
      obtain ⟨hkey, hrest⟩ := List.nodup_cons.mp hnodup
      obtain ⟨hkeydone, hrestdone⟩ := List.forall_mem_cons.mp hdone
      have hnext : ∀ k ∈ rest, k ∉ key :: done := by
        rintro k hk hk'
        rcases List.mem_cons.mp hk' with rfl | hk'
        · exact hkey hk
        · exact hrestdone k hk hk'
      unfold addSimilars kvstoreLookup
      cases hids : source.kv.lookup key with
      | none =>
          exact ⟨hrest, key :: done, hnext,
            hinv.weaken fun k _ hk => List.mem_cons_of_mem _ hk⟩
      | some value =>
          obtain ⟨ids, hshape⟩ := hkv key value hids
          have htake := takeWhile_of_shape hshape.eq fun id hid => (hshape.units id hid).1
          simp only [htake]
          exact (foldE_addSimilar_ensures hkeydone ids (fun id hid => (hshape.units id hid).2)
            hshape.decreasing hinv).imp fun similar' hinv' => ⟨hrest, key :: done, hnext, hinv'⟩)
    (s := ∅) (l := features)
    ⟨hnodup, [], by simp, ⟨fun _ _ h => by simp at h, fun _ _ _ h => by simp at h⟩⟩
  exact hloop.imp fun similar ⟨_, _, _, hinv⟩ => hinv.units

private theorem selectTop_spec (n : Nat) (seq : List SimilarSegment)
    (hseq : ∀ s ∈ seq, Loadable cfg source units s.id) {cache : LruCache CacheUnit}
    (hcache : CacheOf units cache) :
    ∃ cache', selectTop cfg source n seq cache = .ok cache' ∧ CacheOf units cache' := by
  induction n generalizing seq cache with
  | zero => exact ⟨cache, by rw [selectTop], hcache⟩
  | succ n ih =>
      cases seq with
      | nil => exact ⟨cache, by rw [selectTop], hcache⟩
      | cons top rest =>
          obtain ⟨htop, hrest⟩ := List.forall_mem_cons.mp hseq
          obtain ⟨cache₁, hok₁, hof₁, -⟩ := fingerprintCachePrefetch_spec hcache htop
          have htrimmed : ∀ s ∈ sort segmentSortsAfter (rest.map (featuresTrim top)),
              Loadable cfg source units s.id := by
            intro s hs
            obtain ⟨s', hs', rfl⟩ := List.mem_map.mp ((mem_sort _).mp hs)
            exact hrest s' hs'
          obtain ⟨cache₂, hok₂, hof₂⟩ := ih _ htrimmed hof₁
          refine ⟨cache₂, ?_, hof₂⟩
          rw [selectTop, hok₁]
          exact hok₂

/-- The selection of similar segments prefetches units of the store and nothing else. -/
theorem topSegmentSelect_spec (hkv : KvLoadable cfg source units) {features : List Key}
    (hnodup : features.Nodup) {cache : LruCache CacheUnit} (hcache : CacheOf units cache) :
    ∃ cache', topSegmentSelect cfg source cache features = .ok cache' ∧
      CacheOf units cache' := by
  have hsimilar := collectSimilar_ensures hkv features hnodup
  unfold topSegmentSelect
  cases hfold : foldE (addSimilars source) ∅ features with
  | error e =>
      rw [hfold] at hsimilar
      exact hsimilar.elim
  | ok similar =>
      rw [hfold] at hsimilar
      refine selectTop_spec _ _ (fun s hs => ?_) hcache
      obtain ⟨e, he, rfl⟩ := List.mem_map.mp ((mem_sort _).mp hs)
      exact hsimilar e.1 e.2 (AList.mem_lookup_iff.mpr he)

end Selection

end Destor
