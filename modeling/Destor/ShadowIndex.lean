/- digest: Under logical locality a backup that looks its segments up chunk by chunk asks for no key of a
   file boundary: with other entries there it does the same. -/

import Destor.DeletedUnits

set_option autoImplicit false
set_option relaxedAutoImplicit false

namespace Destor

open Library.Outcome

section Filter

def FilterState.withKv (kv : KvStore) (st : FilterState) : FilterState := { st with kv := kv }

variable {cfg : Config} (hloc : cfg.locality = .logical) (kv : KvStore)

include hloc

theorem pushContainer_withKv (st : FilterState) (b : Container) :
    (pushContainer cfg st b).map (FilterState.withKv kv) =
      pushContainer cfg (st.withKv kv) b := by
  have hkv : ∀ st : FilterState, updatePhysicalIndex cfg st b = .ok st.kv := fun st => by
    rw [updatePhysicalIndex, hloc]
  rw [pushContainer, pushContainer, hkv, hkv]
  show (writeContainerAsync st.pool b >>= _).map _ = (writeContainerAsync st.pool b >>= _)
  cases writeContainerAsync st.pool b with
  | error e => rfl
  | ok pool => rfl

theorem containerFor_withKv (st : FilterState) (size : Nat) :
    (containerFor cfg st size).map (fun r => (r.1.withKv kv, r.2)) =
      containerFor cfg (st.withKv kv) size := by
  rw [containerFor, containerFor]
  have hbuffer : (st.withKv kv).storage.containerBuffer = st.storage.containerBuffer := rfl
  rw [hbuffer]
  cases st.storage.containerBuffer with
  | none => rfl
  | some b =>
      dsimp only
      split
      · rw [← pushContainer_withKv hloc kv st b]
        cases pushContainer cfg st b with
        | error e => rfl
        | ok st' => rfl
      · rfl

theorem writeChunk_withKv (st : FilterState) (c : Chunk) :
    (writeChunk cfg st c).map (fun r => (r.1.withKv kv, r.2)) =
      writeChunk cfg (st.withKv kv) c := by
  rw [writeChunk, writeChunk, ← containerFor_withKv hloc kv st c.size]
  cases containerFor cfg st c.size with
  | error e => rfl
  | ok r =>
      obtain ⟨st₁, b⟩ := r
      show (addChunkToContainer cfg b c >>= _).map _ = (addChunkToContainer cfg b c >>= _)
      cases addChunkToContainer cfg b c with
      | error e => rfl
      | ok r =>
          obtain ⟨added, b', c'⟩ := r
          show (require _ _ >>= _).map _ = (require _ _ >>= _)
          cases require (added = true ∨ cfg.indexCategory ≠ .exact ∨ cfg.rewriteAlgorithm ≠ .no)
            Abort.alreadyStored with
          | error e => rfl
          | ok u =>
              cases added with
              | false => rfl
              | true => rfl

theorem storeChunk_withKv (st : FilterState) (c : Chunk) :
    (storeChunk cfg st c).map (fun r => (r.1.withKv kv, r.2)) =
      storeChunk cfg (st.withKv kv) c := by
  rw [storeChunk, storeChunk]
  show Except.map _ (if mustWrite st.enableRewrite c then _ else _) =
    if mustWrite st.enableRewrite c then _ else _
  split
  · exact writeChunk_withKv hloc kv st c
  · rfl

theorem storeChunk_kv_eq {st st' : FilterState} {c c' : Chunk}
    (hok : storeChunk cfg st c = .ok (st', c')) : st'.kv = st.kv := by
  have hmap := storeChunk_withKv hloc st.kv st c
  rw [hok] at hmap
  have hsame : Except.ok (st'.withKv st.kv, c') = Except.ok (ε := Abort) (st', c') :=
    hmap.trans hok
  exact (congrArg FilterState.kv (Prod.mk.inj (Except.ok.inj hsame)).1).symm

private theorem recordStored_withKv (st : FilterState) (c : Chunk) :
    (storeChunk cfg st c >>= fun r => require (r.2.id ≠ temporaryId) .filterTemporaryId >>=
        fun _ => .ok (monitorChunk r.1 r.2, r.2)).map (fun r => (r.1.withKv kv, r.2)) =
      (storeChunk cfg (st.withKv kv) c >>= fun r =>
        require (r.2.id ≠ temporaryId) .filterTemporaryId >>=
          fun _ => .ok (monitorChunk r.1 r.2, r.2)) := by
  rw [← storeChunk_withKv hloc kv st c]
  cases storeChunk cfg st c with
  | error e => rfl
  | ok r =>
      show (require _ _ >>= _).map _ = (require _ _ >>= _)
      cases require (r.2.id ≠ temporaryId) Abort.filterTemporaryId with
      | error e => rfl
      | ok u => rfl

/-- One iteration of the filter loop does not look at the index. -/
theorem filterChunk_withKv (st : FilterState) (c : Chunk) :
    (filterChunk cfg st c).map (fun r => (r.1.withKv kv, r.2)) =
      filterChunk cfg (st.withKv kv) c := by
  rw [filterChunk, filterChunk]
  split
  · show (markInCache cfg st c >>= _).map _ = (markInCache cfg st c >>= _)
    cases markInCache cfg st c with
    | error e => rfl
    | ok c₁ =>
        show (resolveUnique st c₁ >>= _).map _ = (resolveUnique st c₁ >>= _)
        cases resolveUnique st c₁ with
        | error e => rfl
        | ok c₂ =>
            exact recordStored_withKv hloc kv { st with enableRewrite := switchRewrite cfg st }
              (resolveRewritten st c₂)
  · rfl

theorem closeStorage_withKv (st : FilterState) :
    (closeStorage cfg st).map (FilterState.withKv kv) = closeStorage cfg (st.withKv kv) := by
  rw [closeStorage, closeStorage]
  have hbuffer : (st.withKv kv).storage.containerBuffer = st.storage.containerBuffer := rfl
  rw [hbuffer]
  cases st.storage.containerBuffer with
  | none => rfl
  | some b =>
      dsimp only
      split
      · rfl
      · exact pushContainer_withKv hloc kv st b

end Filter

/-- The two indexes have the same entries, spared keys apart. -/
def AgreeOff (spared : Key → Prop) (kv kv' : KvStore) : Prop :=
  ∀ k, ¬ spared k → kv.lookup k = kv'.lookup k

section Lookup

variable {cfg : Config} {source : IndexSource} {kv : KvStore} {c : Chunk}

theorem checkKvstore_congr (h : kv.lookup (cfg.key c.fp) = source.kv.lookup (cfg.key c.fp))
    (cache : LruCache CacheUnit) :
    checkKvstore cfg { source with kv := kv } cache c = checkKvstore cfg source cache c := by
  rw [checkKvstore, checkKvstore, kvstoreLookup, kvstoreLookup, h]
  rfl

theorem checkFingerprintCache_fp {cache cache' : LruCache CacheUnit} {c' : Chunk}
    (hok : checkFingerprintCache cache c = .ok (cache', c')) : c'.fp = c.fp := by
  rw [checkFingerprintCache] at hok
  split at hok
  · cases hok
    rfl
  · obtain ⟨⟨id, cache₁⟩, -, hok⟩ := bind_ok_iff.mp hok
    cases hok
    split <;> rfl

theorem checkBuffers_fp (buffer : IndexBuffer) (storage : Option Container) (c : Chunk) :
    (checkIndexBuffer buffer (checkStorageBuffer storage c)).fp = c.fp := by
  have hstorage : (checkStorageBuffer storage c).fp = c.fp := by
    cases storage with
    | none => rfl
    | some b =>
        rw [checkStorageBuffer]
        split <;> rfl
  rw [checkIndexBuffer]
  split
  · split
    · exact hstorage
    · exact hstorage
  · exact hstorage

theorem lookupChunk_congr {ask : Bool}
    (h : c.isNormal = true → kv.lookup (cfg.key c.fp) = source.kv.lookup (cfg.key c.fp))
    (storage : Option Container) (st : IndexState) :
    lookupChunk cfg ask { source with kv := kv } storage st c =
      lookupChunk cfg ask source storage st c := by
  rw [lookupChunk, lookupChunk]
  split
  · rename_i hnormal
    cases hcache : checkFingerprintCache st.cache
        (checkIndexBuffer st.buffer (checkStorageBuffer storage c)) with
    | error e => rfl
    | ok r =>
        obtain ⟨cache, c₁⟩ := r
        have hfp : c₁.fp = c.fp :=
          (checkFingerprintCache_fp hcache).trans (checkBuffers_fp st.buffer storage c)
        have hsame := checkKvstore_congr (hfp.symm ▸ h hnormal) cache
        cases ask with
        | false => rfl
        | true =>
            show (checkKvstore cfg { source with kv := kv } cache c₁ >>=
              fun r : LruCache CacheUnit × Chunk => _) = _
            rw [hsame]
            rfl
  · rfl

end Lookup

section Job

variable {cfg : Config} {store store' : Store} {job job' : Job} {kv : KvStore}
  {spared : Key → Prop}

/-- The dedup thread finds the same where no chunk has a spared key. -/
theorem lookupSegment_shadow (hbase : ¬ cfg.usesSimilarity)
    (hasked : ∀ s ∈ job.todo, ∀ c ∈ s.chunks, c.isNormal = true → ¬ spared (cfg.key c.fp))
    (hagree : AgreeOff spared kv store.htable) (waitThreshold : Int) :
    lookupSegment cfg { store with htable := kv } job waitThreshold =
      lookupSegment cfg store job waitThreshold := by
  rw [lookupSegment, lookupSegment]
  cases htodo : job.todo with
  | nil => rfl
  | cons s todo =>
      have hlookup : indexLookup cfg (job.source { store with htable := kv })
          job.storage.containerBuffer job.index s =
            indexLookup cfg (job.source store) job.storage.containerBuffer job.index s := by
        rw [indexLookup, indexLookup, if_neg hbase, if_neg hbase]
        refine traverseE_congr (fun c hc st => ?_) _
        have hkv : c.isNormal = true →
            kv.lookup (cfg.key c.fp) = (job.source store).kv.lookup (cfg.key c.fp) :=
          fun hnormal => hagree _ (hasked s (htodo ▸ List.mem_cons_self) c hc hnormal)
        exact lookupChunk_congr hkv _ st
      dsimp only
      rw [hlookup]

theorem AgreeOff.indexUpdate {kv' : KvStore} (h : AgreeOff spared kv kv') (features : List Key)
    (id : Int) :
    AgreeOff spared (indexUpdate cfg kv features id) (indexUpdate cfg kv' features id) := by
  induction features generalizing kv kv' with
  | nil => exact h
  | cons key features ih =>
      apply ih
      intro k hk
      rw [lookup_kvstoreUpdate, lookup_kvstoreUpdate]
      split
      · subst k
        rw [h key hk]
      · exact h k hk

/-- The filter loop leaves the index alone. -/
theorem traverse_withKv (hloc : cfg.locality = .logical) {st st' : FilterState}
    {chunks done : List Chunk} (hok : traverseE (filterChunk cfg) st chunks = .ok (st', done))
    (kv : KvStore) :
    traverseE (filterChunk cfg) (st.withKv kv) chunks = .ok (st'.withKv kv, done) := by
  have hmap := traverseE_history (FilterState.withKv kv) (filterChunk_withKv hloc kv) st chunks
  rw [hok] at hmap
  exact hmap.symm

theorem traverse_kv_eq (hloc : cfg.locality = .logical) {st st' : FilterState}
    {chunks done : List Chunk} (hok : traverseE (filterChunk cfg) st chunks = .ok (st', done)) :
    st'.kv = st.kv := by
  have hsame := (traverse_withKv hloc hok st.kv).symm.trans hok
  have hst := congrArg FilterState.kv (Prod.mk.inj (Except.ok.inj hsame)).1
  exact hst.symm

/-- The filter thread does the same to the rest of the store, and the same to both indexes. -/
theorem filterSegment_shadow (hloc : cfg.locality = .logical)
    (hagree : AgreeOff spared kv store.htable) {marks : Nat → Bool × Bool}
    (hok : filterSegment cfg store job marks = .ok (store', job')) :
    ∃ kv', filterSegment cfg { store with htable := kv } job marks =
        .ok ({ store' with htable := kv' }, job') ∧ AgreeOff spared kv' store'.htable := by
  rw [filterSegment] at hok ⊢
  cases hinflight : job.inflight with
  | nil =>
      rw [hinflight] at hok
      cases hok
      exact ⟨kv, rfl, hagree⟩
  | cons s inflight =>
      rw [hinflight] at hok
      obtain ⟨chunks, hcheck, hok⟩ := bind_ok_iff.mp hok
      obtain ⟨⟨st, done⟩, hloop, hok⟩ := bind_ok_iff.mp hok
      obtain ⟨buffer, hbuffer, hok⟩ := bind_ok_iff.mp hok
      obtain ⟨⟨sid, bv, fileMeta⟩, hrecipe, hok⟩ := bind_ok_iff.mp hok
      obtain ⟨htable, hkv, hok⟩ := bind_ok_iff.mp hok
      cases hok
      have hst := traverse_kv_eq hloc hloop
      rw [updateLogicalIndex, hloc] at hkv
      obtain ⟨features, hfeatures, hkv⟩ := bind_ok_iff.mp hkv
      obtain rfl := Except.ok.inj hkv
      rw [hst]
      refine ⟨_, ?_, hagree.indexUpdate _ sid⟩
      refine bind_ok_iff.mpr ⟨chunks, hcheck, bind_ok_iff.mpr
        ⟨(st.withKv kv, done), traverse_withKv hloc hloop kv, bind_ok_iff.mpr
          ⟨buffer, hbuffer, bind_ok_iff.mpr ⟨(sid, bv, fileMeta), hrecipe, bind_ok_iff.mpr
            ⟨_, ?_, rfl⟩⟩⟩⟩⟩
      rw [updateLogicalIndex, hloc]
      exact bind_ok_iff.mpr ⟨features, hfeatures, rfl⟩

theorem finishJob_shadow (hloc : cfg.locality = .logical)
    (hok : finishJob cfg store job = .ok store') (kv : KvStore) :
    finishJob cfg { store with htable := kv } job = .ok { store' with htable := kv } ∧
      store'.htable = store.htable := by
  obtain ⟨st, hclose, hok⟩ := bind_ok_iff.mp hok
  obtain rfl := Except.ok.inj hok
  have hwith : ∀ kv, closeStorage cfg ((job.filterState store).withKv kv) =
      .ok (st.withKv kv) := by
    intro kv
    rw [← closeStorage_withKv hloc kv, hclose]
    rfl
  refine ⟨bind_ok_iff.mpr ⟨st.withKv kv, hwith kv, rfl⟩, ?_⟩
  have hsame := (hwith store.htable).symm.trans hclose
  exact (congrArg FilterState.kv (Except.ok.inj hsame)).symm

end Job

section Delete

variable {cfg : Config} {kv kv' kv₁ : KvStore} {spared : Key → Prop}

theorem indexDelete_shadow {fp : Fingerprint} {id : Int} (h : AgreeOff spared kv kv')
    (hfp : ¬ spared (cfg.key fp)) (hok : indexDelete cfg kv fp id = .ok kv₁) :
    ∃ kv₁', indexDelete cfg kv' fp id = .ok kv₁' ∧ AgreeOff spared kv₁ kv₁' := by
  rw [indexDelete, kvstoreDelete] at hok ⊢
  rw [← h _ hfp]
  cases hvalue : kv.lookup (cfg.key fp) with
  | none =>
      rw [hvalue] at hok
      cases hok
      exact ⟨kv', rfl, h⟩
  | some value =>
      rw [hvalue] at hok
      obtain ⟨value', hdelete, hok⟩ := bind_ok_iff.mp hok
      cases hok
      refine ⟨_, bind_ok_iff.mpr ⟨value', hdelete, rfl⟩, fun k hk => ?_⟩
      by_cases hkey : k = cfg.key fp
      · subst k
        split
        · rw [AList.lookup_erase, AList.lookup_erase]
        · rw [AList.lookup_insert, AList.lookup_insert]
      · split
        · rw [AList.lookup_erase_ne hkey, AList.lookup_erase_ne hkey, h k hk]
        · rw [AList.lookup_insert_ne hkey, AList.lookup_insert_ne hkey, h k hk]

/-- A walk over units without spared keys does the same to both indexes. -/
theorem deleteWalk_shadow {units : List CacheUnit} (h : AgreeOff spared kv kv')
    (hkeys : ∀ u ∈ units, ∀ fp ∈ u.fps, ¬ spared (cfg.key fp))
    (hok : deleteWalk cfg kv units = .ok kv₁) :
    ∃ kv₁', deleteWalk cfg kv' units = .ok kv₁' ∧ AgreeOff spared kv₁ kv₁' := by
  have hentries : ∀ u ∈ units, ∀ kv kv' kv₁, AgreeOff spared kv kv' →
      deleteEntries cfg kv u.fps u.id = .ok kv₁ →
        ∃ kv₁', deleteEntries cfg kv' u.fps u.id = .ok kv₁' ∧ AgreeOff spared kv₁ kv₁' := by
    intro u hu kv kv' kv₁ hagree hok
    exact foldE_simulates (AgreeOff spared) (fun fp hfp _ _ _ hagree hdelete =>
      indexDelete_shadow hagree (hkeys u hu fp hfp) hdelete) hagree hok
  exact foldE_simulates (AgreeOff spared) hentries h hok

theorem fps_recipeUnits {n : Nat} {segments : List (List ChunkPointer)} {u : CacheUnit}
    (hu : u ∈ recipeUnits n segments) {fp : Fingerprint} (hfp : fp ∈ u.fps) :
    ∃ pointers ∈ segments, ∃ cp ∈ pointers, cp.fp = fp := by
  obtain ⟨sr, hsr, rfl⟩ := mem_recipeUnits.mp hu
  obtain ⟨before, pointers, after, rfl, hof⟩ := mem_segmentRecipes.mp hsr
  have hholds := CacheUnit.mem_fps.mp hfp
  rw [CacheUnit.holds, lookupFingerprintInSegmentRecipe, hof.kvpairs_eq] at hholds
  obtain ⟨cp, hcp⟩ := Option.isSome_iff_exists.mp hholds
  obtain ⟨hmem, heq⟩ := mem_of_lookup_segmentTable hcp
  exact ⟨pointers, List.mem_append_right _ List.mem_cons_self, cp, hmem, heq⟩

/-- A deletion does the same to the rest of the store, and the same to both indexes. -/
theorem doDeleteIn_shadow {order : List Int → List Int} {store store' : Store} {jobid : Nat}
    (hloc : cfg.locality = .logical)
    (h : AgreeOff spared store.htable kv)
    (hrecipe : ∀ bv, openBackupVersion store.backups jobid = .ok bv → ∃ segments,
      bv.recipe = encodeSegments segments ∧ ∀ pointers ∈ segments, ∀ cp ∈ pointers,
        temporaryId < cp.id ∧ ¬ spared (cfg.key cp.fp))
    (hok : doDeleteIn order cfg store jobid = .ok store') :
    ∃ kv', doDeleteIn order cfg { store with htable := kv } jobid =
      .ok { store' with htable := kv' } ∧ AgreeOff spared store'.htable kv' := by
  obtain ⟨⟨invalid, manifest, n⟩, htrunc, hok⟩ := bind_ok_iff.mp hok
  obtain ⟨bv, hopen, hok⟩ := bind_ok_iff.mp hok
  obtain ⟨kv₁, hwalk, hok⟩ := bind_ok_iff.mp hok
  cases hok
  obtain ⟨segments, hsegments, hpointers⟩ := hrecipe bv hopen
  have hfuel : segments.length ≤ bv.recipe.length := by
    rw [hsegments]
    exact length_le_encodeSegments segments
  have hunits : ∀ store : Store, deleteUnits cfg store bv (order invalid) =
      deleteWalk cfg store.htable (recipeUnits bv.bvNum segments) := by
    intro store
    rw [deleteUnits, hloc]
    show deleteSegments cfg bv.bvNum bv.recipe.length 0 bv.recipe store.htable = _
    rw [hsegments] at hfuel ⊢
    exact deleteSegments_eq hfuel fun ps hps cp hcp => (hpointers ps hps cp hcp).1
  rw [hunits] at hwalk
  obtain ⟨kv', hkv', hagree⟩ := deleteWalk_shadow h (fun u hu fp hfp => by
    obtain ⟨ps, hps, cp, hcp, rfl⟩ := fps_recipeUnits hu hfp
    exact (hpointers ps hps cp hcp).2) hwalk
  refine ⟨kv', bind_ok_iff.mpr ⟨_, htrunc, bind_ok_iff.mpr ⟨bv, hopen, bind_ok_iff.mpr
    ⟨kv', ?_, rfl⟩⟩⟩, hagree⟩
  exact (hunits _).trans hkv'

end Delete

end Destor
