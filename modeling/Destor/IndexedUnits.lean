/- digest: Every entry of the key-value store lists units that have a fingerprint of its key, as long as
   the samplers take their features from the data. -/

import Destor.DeletedUnits
import Destor.Index.SampledFeatures
import Destor.JobInvariant

set_option autoImplicit false
set_option relaxedAutoImplicit false

namespace Destor

open Library.Outcome Library.RelatedLists

/-- Random sampling selects no fingerprint of the unit. -/
def CacheUnit.Unselected (cfg : Config) (u : CacheUnit) : Prop :=
  cfg.samplingMethod = .random ∧ ∀ fp ∈ u.fps, fp.head % (cfg.samplingRatio : Int) ≠ 0

/-- A unit that may be listed under `k`: it has a fingerprint of this key, or it is a container from
which nothing was sampled. -/
def CacheUnit.Indexed (cfg : Config) (u : CacheUnit) (k : Key) : Prop :=
  u.HasKey cfg k ∨ (cfg.locality = .physical ∧ u.Unselected cfg)

/-- Every entry lists units that belong to its key. -/
def Listing (cfg : Config) (sc : Coverage) (pool : ContainerPool)
    (versions : List BackupVersion) (kv : KvStore) : Prop :=
  ∀ k id, ¬ sc.spared k → id ∈ listedIds kv k →
    ∃ u, sc.StoreUnit cfg pool versions u ∧ u.id = id ∧ u.Indexed cfg k

section Entries

variable {cfg : Config} {sc : Coverage} {pool pool' : ContainerPool}
  {versions versions' : List BackupVersion} {kv : KvStore} {features : List Key} {id : Int}

theorem Listing.mono (h : Listing cfg sc pool versions kv)
    (hunits : ∀ u, sc.StoreUnit cfg pool versions u → sc.StoreUnit cfg pool' versions' u) :
    Listing cfg sc pool' versions' kv := by
  intro k id hk hid
  obtain ⟨u, hu, hrest⟩ := h k id hk hid
  exact ⟨u, hunits u hu, hrest⟩

/-- Where the spared keys have no entry, every entry is in order. -/
theorem Listing.full (h : Listing cfg sc pool versions kv)
    (hspared : ∀ k, sc.spared k → listedIds kv k = []) {k : Key} (hid : id ∈ listedIds kv k) :
    ∃ u, sc.StoreUnit cfg pool versions u ∧ u.id = id ∧ u.Indexed cfg k := by
  refine h k id (fun hk => ?_) hid
  rw [hspared k hk] at hid
  exact absurd hid List.not_mem_nil

theorem Listing.update (h : Listing cfg sc pool versions kv) (hnodup : features.Nodup)
    (hnew : ∀ k ∈ features, ¬ sc.spared k →
      ∃ u, sc.StoreUnit cfg pool versions u ∧ u.id = id ∧ u.Indexed cfg k) :
    Listing cfg sc pool versions (indexUpdate cfg kv features id) := by
  intro k i hk hi
  rcases mem_listedIds_indexUpdate hnodup hi with ⟨rfl, hmem⟩ | hold
  · exact hnew k hmem hk
  · exact h k i hk hold

end Entries

/-- What the filter phase keeps of the index while it writes chunks. -/
structure IndexedState (cfg : Config) (sc : Coverage) (versions : List BackupVersion)
    (st : FilterState) : Prop where
  listing : Listing cfg sc st.pool versions st.kv
  chunks_normal : ∀ c ∈ st.storage.chunks, c.isNormal = true

section Push

variable {cfg : Config} {sc : Coverage} {st : FilterState} {b : Container}
  {versions : List BackupVersion} {pending : Fingerprint → Prop}

/-- A container is listed under the keys of its fingerprints. -/
theorem updatePhysicalIndex_listing (hset : cfg.Settled)
    (hcore : CoreInv cfg sc st.pool st.storage versions st.kv pending)
    (h : IndexedState cfg sc versions st) (hb : st.storage.containerBuffer = some b) :
    Ensures (fun _ => True) (Listing cfg sc (st.pool.push b) versions)
      (updatePhysicalIndex cfg st b) := by
  have hopen := hcore.open_ok b hb
  have hold : Listing cfg sc (st.pool.push b) versions st.kv :=
    h.listing.mono fun u hu => hu.mono_pool fun _ _ hc => lookup_push_mono hopen hc
  rw [updatePhysicalIndex]
  cases hloc : cfg.locality with
  | logical => exact hold
  | physical =>
      apply ensures_of_ok
      intro kv hkv
      obtain ⟨features, hok, hkv⟩ := bind_ok_iff.mp hkv
      obtain rfl := Except.ok.inj hkv
      have hchunks := hcore.open_chunks hloc b hb
      have hne : st.storage.chunks ≠ [] := by
        obtain ⟨fp, hfp⟩ := hopen.exists_fp
        obtain ⟨c, hc, -⟩ := (hchunks fp).mp hfp
        exact List.ne_nil_of_mem hc
      have hsampled := (sampling_ensures cfg st.storage.chunks fun hnil => by
        rw [hnil, List.length_nil]).of_ok hok
      have hunit : sc.StoreUnit cfg (st.pool.push b) versions
          (.containerMeta b.toContainerMeta) :=
        ⟨hloc, hcore.open_live b hb, b, by rw [lookup_push, if_pos rfl], rfl⟩
      refine hold.update hsampled.nodup fun k hk _ => ⟨_, hunit, rfl, ?_⟩
      rcases sampling_normal_cases hset.keySize_le hne h.chunks_normal hok with hfrom | hnone
      · obtain ⟨c, hc, -, rfl⟩ := hfrom k hk
        exact Or.inl ⟨c.fp, CacheUnit.mem_fps.mpr ((hchunks c.fp).mpr ⟨c, hc, rfl⟩), rfl⟩
      · refine Or.inr ⟨hloc, hnone.1, fun fp hfp => ?_⟩
        obtain ⟨c, hc, rfl⟩ := (hchunks fp).mp (CacheUnit.mem_fps.mp hfp)
        exact hnone.2 c hc

theorem pushContainer_indexed (hset : cfg.Settled)
    (hcore : CoreInv cfg sc st.pool st.storage versions st.kv pending)
    (h : IndexedState cfg sc versions st) (hb : st.storage.containerBuffer = some b) :
    Ensures (fun _ => True) (IndexedState cfg sc versions) (pushContainer cfg st b) := by
  have hopen := hcore.open_ok b hb
  apply (updatePhysicalIndex_listing hset hcore h hb).bind
  intro kv hkv
  rw [writeContainerAsync_ensures hopen.counted hopen.nonempty]
  exact ⟨hkv, fun c hc => absurd hc List.not_mem_nil⟩

theorem newContainer_indexed (h : IndexedState cfg sc versions st) :
    IndexedState cfg sc versions (newContainer cfg st).1 :=
  ⟨h.listing.mono fun _ hu => hu.mono_pool fun _ _ hc => hc, h.chunks_normal⟩

theorem containerFor_indexed (hset : cfg.Settled)
    (hcore : CoreInv cfg sc st.pool st.storage versions st.kv pending)
    (h : IndexedState cfg sc versions st) (size : Nat) :
    Ensures (fun _ => True) (fun r => IndexedState cfg sc versions r.1)
      (containerFor cfg st size) := by
  rw [containerFor]
  cases hb : st.storage.containerBuffer with
  | none =>
      apply newContainer_indexed
      exact ⟨h.listing, fun c hc => absurd hc List.not_mem_nil⟩
  | some b =>
      dsimp only
      split
      · exact (pushContainer_indexed hset hcore h hb).bind fun st' hst' =>
          newContainer_indexed hst'
      · exact h

theorem writeChunk_indexed (hset : cfg.Settled)
    (hcore : CoreInv cfg sc st.pool st.storage versions st.kv pending)
    (h : IndexedState cfg sc versions st) (c : Chunk) :
    Ensures (fun _ => True) (fun r => IndexedState cfg sc versions r.1) (writeChunk cfg st c) := by
  apply (containerFor_indexed hset hcore h c.size).bind
  rintro ⟨st₁, b⟩ h₁
  apply (ensures_true (addChunkToContainer cfg b c)).bind
  rintro ⟨added, b', c'⟩ -
  apply (ensures_true (require _ _)).bind
  intro _ _
  cases added with
  | false => exact ⟨h₁.listing, h₁.chunks_normal⟩
  | true =>
      refine ⟨h₁.listing, fun d hd => ?_⟩
      simp only [if_true, recordWritten] at hd
      split at hd
      · rcases List.mem_append.mp hd with hd | hd
        · exact h₁.chunks_normal d hd
        · rw [List.mem_singleton.mp hd]
          rfl
      · exact h₁.chunks_normal d hd

variable (st) in
theorem storeChunk_indexed (hset : cfg.Settled)
    (hcore : CoreInv cfg sc st.pool st.storage versions st.kv pending)
    (h : IndexedState cfg sc versions st) (c : Chunk) :
    Ensures (fun _ => True) (fun r => IndexedState cfg sc versions r.1) (storeChunk cfg st c) := by
  rw [storeChunk]
  split
  · exact writeChunk_indexed hset hcore h c
  · exact h

theorem closeStorage_indexed (hset : cfg.Settled)
    (hcore : CoreInv cfg sc st.pool st.storage versions st.kv pending)
    (h : IndexedState cfg sc versions st) :
    Ensures (fun _ => True) (IndexedState cfg sc versions) (closeStorage cfg st) := by
  rw [closeStorage]
  cases hb : st.storage.containerBuffer with
  | none => exact h
  | some b =>
      dsimp only
      split
      · exact h
      · exact pushContainer_indexed hset hcore h hb

theorem FilterStep.core {st' : FilterState} {c c' : Chunk}
    (hstep : FilterStep cfg sc versions st c st' c')
    (hcore : CoreInv cfg sc st.pool st.storage versions st.kv
      fun fp => (st.recentlyUnique.lookup fp).isSome) :
    CoreInv cfg sc st'.pool st'.storage versions st'.kv
      fun fp => (st'.recentlyUnique.lookup fp).isSome := by
  cases hnormal : c.isNormal with
  | false =>
      obtain ⟨rfl, -⟩ := hstep.signal hnormal
      exact hcore
  | true =>
      obtain ⟨enable, c₁, st₂, -, -, -, hwrite, rfl⟩ := hstep.normal hnormal
      exact hwrite.core

/-- One iteration of the loop over a segment. -/
theorem FilterStep.indexed (hset : cfg.Settled) {st' : FilterState} {c c' : Chunk}
    (hcore : CoreInv cfg sc st.pool st.storage versions st.kv pending)
    (hstep : FilterStep cfg sc versions st c st' c') (h : IndexedState cfg sc versions st) :
    IndexedState cfg sc versions st' := by
  cases hnormal : c.isNormal with
  | false =>
      obtain ⟨rfl, -⟩ := hstep.signal hnormal
      exact h
  | true =>
      obtain ⟨enable, c₁, st₂, -, -, hok, -, rfl⟩ := hstep.normal hnormal
      have h₂ := (storeChunk_indexed { st with enableRewrite := enable } hset hcore
        ⟨h.listing, h.chunks_normal⟩ c₁).of_ok hok
      exact ⟨h₂.listing, h₂.chunks_normal⟩

end Push

section Segment

variable {cfg : Config} {sc : Coverage} {store store' : Store} {job job' : Job} {s : Segment}
  {inflight : List Segment} {st : FilterState} {chunks done : List Chunk}

private def sampledPart (c : Chunk) : Chunk :=
  { newChunk 0 with
    fp := c.fp
    flag := { fileStart := c.flag.fileStart, fileEnd := c.flag.fileEnd } }

/-- A segment has the same features on its way through the phases. -/
theorem sampling_congr (h : List.Forall₂ Chunk.SamePayload chunks done) (chunkNum : Nat) :
    sampling cfg done chunkNum = sampling cfg chunks chunkNum := by
  have hparts : done.map sampledPart = chunks.map sampledPart := by
    induction h with
    | nil => rfl
    | @cons c c' l l' hc _ ih =>
        rw [List.map_cons, List.map_cons, ih, sampledPart, sampledPart, hc.fp_eq, hc.signals_eq.1,
          hc.signals_eq.2]
  have hbare : ∀ l : List Chunk,
      sampling cfg (l.map sampledPart) chunkNum = sampling cfg l chunkNum :=
    fun _ => sampling_map sampledPart (fun _ => rfl) (fun _ => rfl) chunkNum
  rw [← hbare done, hparts, hbare chunks]

theorem mem_recipePointers_of_payload {k : Key}
    (hsame : List.Forall₂ Chunk.SamePayload chunks done)
    (h : ∃ c ∈ chunks, c.isNormal = true ∧ k = cfg.key c.fp) :
    ∃ cp ∈ recipePointers done, cfg.key cp.fp = k := by
  obtain ⟨c, hc, hnormal, rfl⟩ := h
  obtain ⟨c', hc', hsame'⟩ := mem_forall₂_left hsame hc
  refine ⟨c'.pointer, mem_recipePointers.mpr ⟨c', hc', hsame'.normal_eq.trans hnormal, rfl⟩, ?_⟩
  exact congrArg cfg.key hsame'.fp_eq

theorem updateLogicalIndex_features {sid : Int} {chunkNum : Nat} {kv : KvStore}
    (hloc : cfg.locality = .logical) (hnum : chunkNum = (recipePointers done).length)
    {spared : Key → Prop} (hsampled : ∀ features, sampling cfg done chunkNum = .ok features →
      ∀ k ∈ features, ¬ spared k → ∃ cp ∈ recipePointers done, cfg.key cp.fp = k)
    (hrecent : ∀ fp, (st.recentlyUnique.lookup fp).isSome ∨ (st.recentlyRewritten.lookup fp).isSome →
      ∃ c ∈ done, c.isNormal = true ∧ c.fp = fp)
    (hok : updateLogicalIndex cfg st sid chunkNum done = .ok kv) :
    ∃ features : List Key, features.Nodup ∧
      (∀ k ∈ features, ¬ spared k → ∃ cp ∈ recipePointers done, cfg.key cp.fp = k) ∧
      (cfg.indexCategory = .exact → ∀ fp, (st.recentlyUnique.lookup fp).isSome →
        cfg.key fp ∈ features) ∧
      kv = indexUpdate cfg st.kv features sid := by
  rw [updateLogicalIndex, hloc] at hok
  obtain ⟨features, hok, hkv⟩ := bind_ok_iff.mp hok
  have hnodup := ((sampling_ensures cfg done fun hnil => by
    rw [hnum, hnil]
    rfl).of_ok hok).nodup
  have hkeys : ∀ fp, fp ∈ st.recentlyUnique.keys ++ st.recentlyRewritten.keys ↔
      (st.recentlyUnique.lookup fp).isSome ∨ (st.recentlyRewritten.lookup fp).isSome := by
    intro fp
    rw [List.mem_append, AList.lookup_isSome, AList.lookup_isSome, AList.mem_keys, AList.mem_keys]
  refine ⟨_, ?_, ?_, ?_, (Except.ok.inj hkv).symm⟩
  · split
    · exact nodup_foldl_addFeature _ _ hnodup
    · exact hnodup
  · intro k hk hspared
    split at hk
    · rcases (mem_foldl_addFeature _ _).mp hk with hk | ⟨fp, hfp, rfl⟩
      · exact hsampled features hok k hk hspared
      · obtain ⟨c, hc, hnormal, rfl⟩ := hrecent fp ((hkeys fp).mp hfp)
        exact ⟨c.pointer, mem_recipePointers.mpr ⟨c, hc, hnormal, rfl⟩, rfl⟩
    · exact hsampled features hok k hk hspared
  · intro hexact fp hfp
    rw [if_pos hexact]
    exact (mem_foldl_addFeature _ _).mpr (Or.inr ⟨fp, (hkeys fp).mpr (Or.inl hfp), rfl⟩)

/-- The fingerprints that the tables of a segment know have a chunk in it. -/
theorem FilterInv.recent {versions : List BackupVersion} {st₀ : FilterState}
    (h : FilterInv cfg sc versions st₀ chunks done st) {fp : Fingerprint}
    (hfp : (st.recentlyUnique.lookup fp).isSome ∨ (st.recentlyRewritten.lookup fp).isSome) :
    ∃ c ∈ done, c.isNormal = true ∧ c.fp = fp := by
  have hne : copiesOf fp chunks ≠ [] := by
    rcases hfp with hfp | hfp
    · obtain ⟨id, hid⟩ := Option.isSome_iff_exists.mp hfp
      obtain ⟨-, c, hc, -⟩ := h.unique_sound fp id hid
      exact List.ne_nil_of_mem hc
    · obtain ⟨id, hid⟩ := Option.isSome_iff_exists.mp hfp
      exact (h.rewritten_sound fp id hid).2
  have hlength := (forall₂_copiesOf (fun _ _ h => h.toSamePayload) h.contents fp).length_eq
  obtain ⟨c, hc⟩ := List.exists_mem_of_ne_nil (copiesOf fp done) (by
    rw [← List.length_pos_iff, ← hlength]
    exact List.length_pos_iff.mpr hne)
  exact ⟨c, mem_copiesOf.mp hc⟩

/-- The filter loop of a running backup, where it succeeds. -/
theorem JobInv.loop (hset : cfg.Settled) (hexact : sc.exact → ExactIndex cfg)
    (h : JobInv cfg sc store job) (hinflight : job.inflight = s :: inflight)
    {marks : Nat → Bool × Bool}
    (hcheck : indexCheckBuffer job.index.buffer (applyMarks cfg marks s.chunks) = .ok chunks)
    (hloop : traverseE (filterChunk cfg) (job.filterState store) chunks = .ok (st, done))
    {Ghost : List Chunk → FilterState → Prop} (hghost₀ : Ghost [] (job.filterState store))
    (hghost : ∀ done st c c' st', Ghost done st →
      FilterStep cfg sc (store.backups ++ [job.bv]) st c st' c' → Ghost (done ++ [c']) st') :
    List.Forall₂ Chunk.SamePayload s.chunks done ∧
      FilterInv cfg sc (store.backups ++ [job.bv]) (job.filterState store) chunks done st ∧
      Ghost done st := by
  have hs := h.inflight s (by rw [hinflight]; exact List.mem_cons_self)
  have hprepared := (indexCheckBuffer_ensures cfg marks fun c hc hnormal hnone => by
    have hnil := (List.append_eq_nil_iff.mp ((h.pending hinflight c.fp).none_iff.mp hnone)).1
    exact List.ne_nil_of_mem (mem_copiesOf.mpr ⟨hc, hnormal, rfl⟩) hnil).of_ok hcheck
  obtain ⟨hinv, hg⟩ := (filterLoop_ensures hset hexact h.filterInv (h.checked hinflight hprepared)
    (hs.filterable hprepared) hghost₀ hghost).of_ok hloop
  exact ⟨forall₂_trans (fun _ _ _ h h' => h.trans h')
    (List.Forall₂.imp (fun _ _ hp => hp.toSamePayload) hprepared) hinv.contents.payload, hinv, hg⟩

theorem JobInv.written {sid : Int} {bv' : BackupVersion} {r' : Option FileRecipeMeta}
    {chunkNum : Nat} (h : JobInv cfg sc store job) (hinflight : job.inflight = s :: inflight)
    (hpayload : List.Forall₂ Chunk.SamePayload s.chunks done)
    (hids : ∀ c ∈ done, c.isNormal = true → 0 ≤ c.id)
    (hnum : chunkNum = (recipePointers done).length)
    (hok : writeRecipe job.bv job.fileMeta chunkNum done = .ok (sid, bv', r')) :
    ∃ segments, Appended cfg job.bv bv' segments (recipePointers done) ∧
      sid = makeSegmentId bv'.bvNum (segmentOffset segments) (recipePointers done).length := by
  have hfile := h.file_state
  rw [hinflight, List.cons_append, List.flatMap_cons, List.foldlM_append, Option.bind_eq_bind,
    Option.bind_eq_some_iff] at hfile
  obtain ⟨inFile, hfile, -⟩ := hfile
  rw [← foldlM_fileStep_congr hpayload] at hfile
  obtain ⟨hsid, hbv, hrecipe, -⟩ := (writeRecipe_ensures hnum hfile hids).of_ok hok
  obtain ⟨segments, happ, -⟩ := h.appended hinflight hpayload hbv hrecipe
  refine ⟨segments, happ, hsid.trans ?_⟩
  rw [hnum]
  exact happ.id_eq

/-- A segment that passed the filter thread: what the loop made of it, and how it joined the recipe and
the index. -/
structure SegmentPassed (cfg : Config) (sc : Coverage) (store : Store) (job : Job) (s : Segment)
    (chunks done : List Chunk) (st : FilterState) (store' : Store) (job' : Job) : Prop where
  payload : List.Forall₂ Chunk.SamePayload s.chunks done
  inv : FilterInv cfg sc (store.backups ++ [job.bv]) (job.filterState store) chunks done st
  count : s.chunkNum = (recipePointers done).length
  pool_eq : store'.pool = st.pool
  storage_eq : job'.storage = st.storage
  backups_eq : store'.backups = store.backups
  written : ∃ segments sid, Appended cfg job.bv job'.bv segments (recipePointers done) ∧
    sid = makeSegmentId job'.bv.bvNum (segmentOffset segments) (recipePointers done).length ∧
    updateLogicalIndex cfg st sid s.chunkNum done = .ok store'.htable

theorem filterSegment_passed (hset : cfg.Settled) (hexact : sc.exact → ExactIndex cfg)
    (h : JobInv cfg sc store job) (hinflight : job.inflight = s :: inflight)
    {marks : Nat → Bool × Bool} (hok : filterSegment cfg store job marks = .ok (store', job'))
    (Ghost : List Chunk → FilterState → Prop) (hghost₀ : Ghost [] (job.filterState store))
    (hghost : ∀ done st c c' st', Ghost done st →
      FilterStep cfg sc (store.backups ++ [job.bv]) st c st' c' → Ghost (done ++ [c']) st') :
    ∃ chunks done st, SegmentPassed cfg sc store job s chunks done st store' job' ∧
      Ghost done st := by
  rw [filterSegment, hinflight] at hok
  obtain ⟨chunks, hcheck, hok⟩ := bind_ok_iff.mp hok
  obtain ⟨⟨st, done⟩, hloop, hok⟩ := bind_ok_iff.mp hok
  obtain ⟨buffer, -, hok⟩ := bind_ok_iff.mp hok
  obtain ⟨⟨sid, bv', r'⟩, hrecipe, hok⟩ := bind_ok_iff.mp hok
  obtain ⟨kv, hkv, hok⟩ := bind_ok_iff.mp hok
  obtain ⟨hpayload, hinv, hg⟩ := h.loop hset hexact hinflight hcheck hloop hghost₀ hghost
  have hs := h.inflight s (by rw [hinflight]; exact List.mem_cons_self)
  have hcount : s.chunkNum = (recipePointers done).length := by
    rw [length_recipePointers, length_normals_congr hpayload]
    exact hs.counted
  have hnum : (chunks.filter Chunk.isNormal).length = (recipePointers done).length := by
    rw [length_recipePointers, length_normals_congr hinv.contents.payload]
  have hids : ∀ c ∈ done, c.isNormal = true → 0 ≤ c.id := fun c hc hnormal =>
    hinv.nonneg (hinv.done_sound c hc hnormal)
  obtain ⟨segments, happ, hsid⟩ := h.written hinflight hpayload hids hnum hrecipe
  cases hok
  refine ⟨chunks, done, st, ⟨hpayload, hinv, hcount, rfl, rfl, rfl, segments, sid, happ, hsid, ?_⟩,
    hg⟩
  rw [hcount, ← hnum]
  exact hkv

/-- The segment that the filter thread takes next is sampled from its chunks. -/
def SampledFromChunks (cfg : Config) (job : Job) : Prop :=
  ∀ s ∈ job.inflight.head?, ∀ features, sampling cfg s.chunks s.chunkNum = .ok features →
    FromNormal cfg s.chunks features

/-- The same, keys apart that the scope spares. -/
def SampledOrSpared (cfg : Config) (sc : Coverage) (job : Job) : Prop :=
  ∀ s ∈ job.inflight.head?, ∀ features, sampling cfg s.chunks s.chunkNum = .ok features →
    ∀ k ∈ features, ¬ sc.spared k → ∃ c ∈ s.chunks, c.isNormal = true ∧ k = cfg.key c.fp

theorem SampledFromChunks.orSpared (h : SampledFromChunks cfg job) : SampledOrSpared cfg sc job :=
  fun s hs features hfeatures k hk _ => h s hs features hfeatures k hk

/-- The index as a running backup keeps it. -/
def JobIndexed (cfg : Config) (sc : Coverage) (store : Store) (job : Job) : Prop :=
  IndexedState cfg sc (store.backups ++ [job.bv]) (job.filterState store)

/-- The filter thread keeps the entries in order, as long as the segments are sampled from their
chunks. -/
theorem filterSegment_indexed (hset : cfg.Settled) (hexact : sc.exact → ExactIndex cfg)
    (h : JobInv cfg sc store job) (hindexed : JobIndexed cfg sc store job)
    (hsampled : cfg.locality = .logical → SampledOrSpared cfg sc job)
    {marks : Nat → Bool × Bool} (hok : filterSegment cfg store job marks = .ok (store', job')) :
    JobIndexed cfg sc store' job' := by
  cases hinflight : job.inflight with
  | nil =>
      rw [filterSegment, hinflight] at hok
      cases hok
      exact hindexed
  | cons s inflight =>
      obtain ⟨chunks, done, st, hpassed, hcore, hst⟩ := filterSegment_passed hset hexact h hinflight
        hok (fun _ st => CoreInv cfg sc st.pool st.storage (store.backups ++ [job.bv]) st.kv
          (fun fp => (st.recentlyUnique.lookup fp).isSome) ∧
          IndexedState cfg sc (store.backups ++ [job.bv]) st)
        ⟨h.filterInv.core, hindexed⟩ fun done st c c' st' hg hstep =>
          ⟨hstep.core hg.1, hstep.indexed hset hg.1 hg.2⟩
      obtain ⟨segments, sid, happ, rfl, hkv⟩ := hpassed.written
      have hunits : ∀ u, sc.StoreUnit cfg st.pool (store.backups ++ [job'.bv]) u ↔ _ := fun u =>
        storeUnit_append happ
      have hold := hst.listing.mono fun u hu => (hunits u).mpr (Or.inl hu)
      have hchunks : ∀ c ∈ job'.storage.chunks, c.isNormal = true := by
        rw [hpassed.storage_eq]
        exact hst.chunks_normal
      refine ⟨?_, hchunks⟩
      show Listing cfg sc store'.pool (store'.backups ++ [job'.bv]) store'.htable
      rw [hpassed.pool_eq, hpassed.backups_eq]
      cases hloc : cfg.locality with
      | physical =>
          rw [updateLogicalIndex, hloc] at hkv
          rw [← Except.ok.inj hkv]
          exact hold
      | logical =>
          obtain ⟨features, hnodup, hfrom, -, heq⟩ := updateLogicalIndex_features hloc hpassed.count
            (fun features hfeatures => by
              rw [sampling_congr hpassed.payload] at hfeatures
              have hhead : job.inflight.head? = some s := by rw [hinflight, List.head?_cons]
              exact fun k hk hspared => mem_recipePointers_of_payload hpassed.payload
                (hsampled hloc s hhead features hfeatures k hk hspared))
            (fun fp => hpassed.inv.recent) hkv
          obtain ⟨sr, hof⟩ :=
            exists_segmentOf job'.bv.bvNum (segmentOffset segments) (recipePointers done)
          have hunit := (hunits (.segmentRecipe sr)).mpr (Or.inr ⟨hloc, h.retained, sr, rfl, hof⟩)
          rw [heq]
          refine hold.update hnodup fun k hk hspared => ⟨_, hunit, hof.id_eq, Or.inl ?_⟩
          obtain ⟨cp, hcp, rfl⟩ := hfrom k hk hspared
          obtain ⟨cp', hcp'⟩ := lookup_segmentTable_of_mem hcp
          refine ⟨cp.fp, CacheUnit.mem_fps.mpr ?_, rfl⟩
          rw [CacheUnit.holds, lookupFingerprintInSegmentRecipe, hof.kvpairs_eq, hcp',
            Option.isSome_some]

/-- The end of a backup keeps the entries in order. -/
theorem finishJob_indexed (hset : cfg.Settled) (h : JobInv cfg sc store job)
    (hindexed : JobIndexed cfg sc store job) (hok : finishJob cfg store job = .ok store') :
    Listing cfg sc store'.pool store'.backups store'.htable := by
  obtain ⟨st, hclose, hok⟩ := bind_ok_iff.mp hok
  obtain rfl := Except.ok.inj hok
  have hcore : CoreInv cfg sc (job.filterState store).pool (job.filterState store).storage
      (store.backups ++ [job.bv]) (job.filterState store).kv fun _ => False := h.core
  have hst := (closeStorage_indexed hset hcore hindexed).of_ok hclose
  have hunits : ∀ u, sc.StoreUnit cfg st.pool (store.backups ++ [updateBackupVersion job.bv]) u ↔
      sc.StoreUnit cfg st.pool (store.backups ++ [job.bv]) u := fun u =>
    storeUnit_congr_current rfl rfl
  exact hst.listing.mono fun u hu => (hunits u).mpr hu

end Segment

end Destor
