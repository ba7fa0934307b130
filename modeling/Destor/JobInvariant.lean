/- digest: The invariant of a running backup, kept by both of its threads in any interleaving. -/

import Destor.SegmentStep

set_option autoImplicit false
set_option relaxedAutoImplicit false

namespace Destor

open Library.Outcome Library.RelatedLists

structure StreamChunk (cfg : Config) (sc : Coverage) (c : Chunk) : Prop where
  fresh : c.Fresh
  fits : fitsEmptyContainer c.size
  filler : sc.exact → cfg.locality = .logical → c.isNormal = true → c.fp ≠ cfg.fillerFp

/-- A segment between the two threads: looking it up changed ids and duplicate marks only. -/
structure SegmentInv (cfg : Config) (sc : Coverage) (s : Segment) : Prop where
  counted : s.Counted
  origin : ∃ original, SameContents original s.chunks ∧ ∀ c ∈ original, StreamChunk cfg sc c

/-- The ids of the segments that are still to be written fit their bit fields. -/
structure RemainingFits (bv : BackupVersion) (remaining : List Segment) : Prop where
  bvNum_lt : bv.bvNum < 2 ^ 15
  length_le : chunkPointerSize *
    (bv.recipe.length + (remaining.map fun s => s.chunkNum + 2).sum) ≤ 2 ^ 32
  segment_lt : ∀ s ∈ remaining, s.chunkNum < 2 ^ 16

instance (bv : BackupVersion) (remaining : List Segment) :
    Decidable (RemainingFits bv remaining) :=
  decidable_of_iff (bv.bvNum < 2 ^ 15 ∧ chunkPointerSize *
      (bv.recipe.length + (remaining.map fun s => s.chunkNum + 2).sum) ≤ 2 ^ 32 ∧
      ∀ s ∈ remaining, s.chunkNum < 2 ^ 16)
    ⟨fun h => ⟨h.1, h.2.1, h.2.2⟩, fun h => ⟨h.1, h.2, h.3⟩⟩

/-- What holds of a running backup between two steps of its threads. -/
structure JobInv (cfg : Config) (sc : Coverage) (store : Store) (job : Job) : Prop where
  core : CoreInv cfg sc store.pool job.storage (store.backups ++ [job.bv]) store.htable
    fun _ => False
  retained : sc.oldest ≤ job.bv.bvNum
  cache : CacheOf (sc.StoreUnit cfg store.pool (store.backups ++ [job.bv])) job.index.cache
  buffer : BufferInv sc store.pool job.storage.containerBuffer job.index.buffer
    fun fp => pendingCopies fp job.inflight
  inflight : ∀ s ∈ job.inflight, SegmentInv cfg sc s
  todo : ∀ s ∈ job.todo, s.Counted ∧ ∀ c ∈ s.chunks, StreamChunk cfg sc c
  file_state : ((job.inflight ++ job.todo).flatMap Segment.chunks).foldlM fileStep
    job.fileMeta.isSome = some false
  fits : cfg.locality = .logical → RemainingFits job.bv (job.inflight ++ job.todo)
  monitored : ∀ i, i ∈ job.monitor ↔ 0 ≤ i ∧ ∃ cp ∈ job.bv.recipe, cp.id = i
  cache_assigned : ∀ i ∈ job.restoreAware.cache.elemQueue, i ≠ temporaryId

section Congruence

variable {cfg : Config} {sc : Coverage} {pool : ContainerPool} {storage : StorageBuffer}
  {backups : List BackupVersion} {bv bv' : BackupVersion} {kv : KvStore}
  {pending : Fingerprint → Prop}

theorem storeUnit_congr_current {u : CacheUnit} (hnum : bv'.bvNum = bv.bvNum)
    (hrecipe : bv'.recipe = bv.recipe) :
    sc.StoreUnit cfg pool (backups ++ [bv']) u ↔ sc.StoreUnit cfg pool (backups ++ [bv]) u := by
  cases u with
  | containerMeta cm => exact Iff.rfl
  | segmentRecipe sr =>
      simp only [Scope.StoreUnit, List.mem_append, List.mem_singleton, or_and_right, exists_or,
        exists_eq_left, hnum, hrecipe]

/-- Only the number and the recipe of a version matter. -/
theorem CoreInv.congr_current (h : CoreInv cfg sc pool storage (backups ++ [bv]) kv pending)
    (hnum : bv'.bvNum = bv.bvNum) (hrecipe : bv'.recipe = bv.recipe) :
    CoreInv cfg sc pool storage (backups ++ [bv']) kv pending := by
  have hunits : ∀ u, sc.StoreUnit cfg pool (backups ++ [bv']) u ↔
      sc.StoreUnit cfg pool (backups ++ [bv]) u := fun u => storeUnit_congr_current hnum hrecipe
  refine ⟨h.pool_wf, h.open_ok, h.open_live, h.next_live, h.open_chunks, ⟨fun i b hb => ?_,
    fun b hb => ?_⟩, h.kv_shape.mono ?_, h.once, fun hex fp i hcounted hi => ?_, h.no_filler⟩
  · rw [List.getElem?_append] at hb
    split at hb
    · rename_i hlt
      exact h.versions_ok.num i b (by rw [List.getElem?_append, if_pos hlt, hb])
    · rename_i hge
      have hi : i - backups.length = 0 := by
        have := (List.getElem?_eq_some_iff.mp hb).1
        simp only [List.length_singleton] at this
        omega
      rw [hi] at hb
      cases hb
      rw [hnum]
      exact h.versions_ok.num i bv (by rw [List.getElem?_append, if_neg hge, hi]; rfl)
  · rcases List.mem_append.mp hb with hb | hb
    · exact h.versions_ok.recipe b (List.mem_append_left _ hb)
    · rw [List.mem_singleton.mp hb, hnum, hrecipe]
      exact h.versions_ok.recipe bv (by simp)
  · rintro id ⟨u, hu, hid⟩
    exact ⟨u, (hunits u).mpr hu, hid⟩
  · refine (h.indexed hex fp i hcounted hi).imp_right fun hrest => hrest.imp_right ?_
    rintro ⟨ids, hids, hall⟩
    exact ⟨ids, hids, fun u hu => hall u ((hunits u).mp hu)⟩

/-- A version without segments adds no unit. -/
theorem CoreInv.startVersion (h : CoreInv cfg sc pool storage backups kv pending)
    (hnum : bv.bvNum = backups.length) (hrecipe : bv.recipe = [])
    (hlt : cfg.locality = .logical → bv.bvNum < 2 ^ 15) :
    CoreInv cfg sc pool storage (backups ++ [bv]) kv pending := by
  have hnil : bv.recipe = encodeSegments [] := hrecipe
  have hunits : ∀ u, sc.StoreUnit cfg pool (backups ++ [bv]) u ↔
      sc.StoreUnit cfg pool backups u := by
    intro u
    cases u with
    | containerMeta cm => exact Iff.rfl
    | segmentRecipe sr =>
        constructor
        · rintro ⟨hloc, b, hb, hle, segments, hsegments, hsr⟩
          rcases List.mem_append.mp hb with hb | hb
          · exact ⟨hloc, b, hb, hle, segments, hsegments, hsr⟩
          · rw [List.mem_singleton.mp hb] at hsegments
            have := encodeSegments_injective (hnil.symm.trans hsegments)
            subst this
            simp [segmentRecipes] at hsr
        · rintro ⟨hloc, b, hb, hrest⟩
          exact ⟨hloc, b, List.mem_append_left _ hb, hrest⟩
  refine ⟨h.pool_wf, h.open_ok, h.open_live, h.next_live, h.open_chunks, ⟨fun i b hb => ?_,
    fun b hb => ?_⟩, h.kv_shape.mono ?_, h.once, fun hex fp i hcounted hi => ?_, h.no_filler⟩
  · rw [List.getElem?_append] at hb
    split at hb
    · exact h.versions_ok.num i b hb
    · rename_i hge
      have hi := (List.getElem?_eq_some_iff.mp hb).1
      simp only [List.length_singleton] at hi
      have heq : i = backups.length := by omega
      subst heq
      rw [Nat.sub_self] at hb
      cases hb
      exact hnum
  · rcases List.mem_append.mp hb with hb | hb
    · exact h.versions_ok.recipe b hb
    · rw [List.mem_singleton.mp hb]
      refine ⟨[], hnil, fun _ _ hp => absurd hp List.not_mem_nil, fun hloc =>
        ⟨hlt hloc, ?_, fun _ hp => absurd hp List.not_mem_nil⟩⟩
      simp
  · rintro id ⟨u, hu, hid⟩
    exact ⟨u, (hunits u).mpr hu, hid⟩
  · refine (h.indexed hex fp i hcounted hi).imp_right fun hrest => hrest.imp_right ?_
    rintro ⟨ids, hids, hall⟩
    exact ⟨ids, hids, fun u hu => hall u ((hunits u).mp hu)⟩

end Congruence

section Streams

/-- Signals alone decide how a stream passes through files. -/
theorem foldlM_fileStep_congr {chunks chunks' : List Chunk}
    (h : List.Forall₂ Chunk.SamePayload chunks chunks') (b : Bool) :
    chunks'.foldlM fileStep b = chunks.foldlM fileStep b := by
  induction h generalizing b with
  | nil => rfl
  | @cons c c' l l' hc _ ih =>
      rw [List.foldlM_cons, List.foldlM_cons]
      have hstep : fileStep b c' = fileStep b c := by
        cases b <;> simp [fileStep, hc.signals_eq.1, hc.signals_eq.2]
      rw [hstep]
      cases fileStep b c with
      | none => rfl
      | some b' => exact ih b'

theorem length_normals_congr {chunks chunks' : List Chunk}
    (h : List.Forall₂ Chunk.SamePayload chunks chunks') :
    (chunks'.filter Chunk.isNormal).length = (chunks.filter Chunk.isNormal).length := by
  induction h with
  | nil => rfl
  | @cons c c' l l' hc _ ih =>
      rw [List.filter_cons, List.filter_cons, hc.normal_eq]
      split <;> simp [ih]

theorem SameContents.payload {chunks chunks' : List Chunk} (h : SameContents chunks chunks') :
    List.Forall₂ Chunk.SamePayload chunks chunks' :=
  List.Forall₂.imp (fun _ _ h => h.toSamePayload) h

theorem SameContents.refl (chunks : List Chunk) : SameContents chunks chunks :=
  List.forall₂_same.mpr fun c _ => .refl c

/-- A chunk that reaches the loop of the filter phase. -/
theorem SegmentInv.filterable {cfg : Config} {sc : Coverage} {s : Segment} {buffer : IndexBuffer}
    {chunks : List Chunk} (h : SegmentInv cfg sc s)
    (hprepared : List.Forall₂ (Chunk.Prepared cfg buffer) s.chunks chunks) :
    ∀ c ∈ chunks, Filterable cfg sc c := by
  intro c hc
  obtain ⟨original, hsame, hstream⟩ := h.origin
  obtain ⟨c₁, hc₁, hp⟩ := mem_forall₂_right hprepared hc
  obtain ⟨c₀, hc₀, hs⟩ := mem_forall₂_right hsame hc₁
  obtain ⟨hfresh, hfits, hfiller⟩ := hstream c₀ hc₀
  refine ⟨⟨fun hsparse => ?_, fun hout => ?_⟩, ?_, fun hex hloc hnormal => ?_⟩
  · apply Bool.not_eq_false _ |>.mp
    intro hhar
    rw [hp.sparse_eq hhar, hs.marks_eq.1, hfresh.unmarked.1] at hsparse
    cases hsparse
  · intro halg
    rw [hp.outOfOrder_eq halg, hs.marks_eq.2, hfresh.unmarked.2.1] at hout
    cases hout
  · rw [hp.size_eq, hs.size_eq]
    exact hfits
  · rw [hp.fp_eq, hs.fp_eq]
    apply hfiller hex hloc
    rw [← hs.normal_eq, ← hp.normal_eq, hnormal]

theorem SegmentInv.signal_fp {cfg : Config} {sc : Coverage} {s : Segment} {chunks : List Chunk}
    (h : SegmentInv cfg sc s) (hpayload : List.Forall₂ Chunk.SamePayload s.chunks chunks) :
    ∀ c ∈ chunks, c.isNormal = false → c.fp = Fingerprint.fill 0 := by
  intro c hc hsignal
  obtain ⟨original, hsame, hstream⟩ := h.origin
  obtain ⟨c₁, hc₁, hp⟩ := mem_forall₂_right hpayload hc
  obtain ⟨c₀, hc₀, hs⟩ := mem_forall₂_right hsame hc₁
  rw [hp.fp_eq, hs.fp_eq]
  apply (hstream c₀ hc₀).fresh.signal_fp
  rw [← hs.normal_eq, ← hp.normal_eq, hsignal]

end Streams

section Steps

variable {cfg : Config} {sc : Coverage} {store : Store} {job : Job}

/-- The files of a stream are delimited by their signals. -/
theorem foldlM_fileStep_stream (f : InputFile) : f.stream.foldlM fileStep false = some false := by
  have hchunks : ∀ chunks : List InputChunk,
      (chunks.map InputChunk.toChunk ++ [Chunk.fileEnd]).foldlM fileStep true = some false := by
    intro chunks
    induction chunks with
    | nil => rfl
    | cons c chunks ih => exact ih
  exact hchunks f.chunks

theorem foldlM_fileStep_files (files : List InputFile) :
    (files.flatMap InputFile.stream).foldlM fileStep false = some false := by
  induction files with
  | nil => rfl
  | cons f files ih => rw [List.flatMap_cons, List.foldlM_append, foldlM_fileStep_stream]; exact ih

/-- What is assumed of the files of a backup: each chunk fits in an empty container, and where the
index must be exact none is the chunk that the sampler of logical locality takes for its filler. -/
structure AdmissibleFiles (cfg : Config) (sc : Scope) (files : List InputFile) : Prop where
  fits : ∀ f ∈ files, ∀ c ∈ f.chunks, fitsEmptyContainer c.size
  filler : sc.exact → cfg.locality = .logical → ∀ f ∈ files, ∀ c ∈ f.chunks, c.fp ≠ cfg.fillerFp

def SegmentIdsFit (cfg : Config) (store : Store) (files : List InputFile) : Prop :=
  cfg.locality = .logical → ∀ segments,
    segmentStream cfg newSegment (files.flatMap InputFile.stream) = .ok segments →
      RemainingFits (createBackupVersion store.backups.length) segments

theorem AdmissibleFiles.streamChunk {files : List InputFile} (h : AdmissibleFiles cfg sc files) :
    ∀ c ∈ files.flatMap InputFile.stream, StreamChunk cfg sc c := by
  intro c hc
  obtain ⟨f, hf, hc⟩ := List.mem_flatMap.mp hc
  have hzero : fitsEmptyContainer 0 := by simp [fitsEmptyContainer]
  simp only [InputFile.stream, List.cons_append, List.mem_cons, List.mem_append, List.mem_map,
    List.not_mem_nil, or_false] at hc
  rcases hc with rfl | ⟨ic, hic, rfl⟩ | rfl
  · exact ⟨⟨rfl, rfl, ⟨rfl, rfl, rfl, rfl⟩, fun _ => rfl⟩, hzero,
      fun _ _ hnormal => by cases hnormal⟩
  · exact ⟨⟨rfl, rfl, ⟨rfl, rfl, rfl, rfl⟩, fun hsignal => by cases hsignal⟩, h.fits f hf ic hic,
      fun hex hloc _ => h.filler hex hloc f hf ic hic⟩
  · exact ⟨⟨rfl, rfl, ⟨rfl, rfl, rfl, rfl⟩, fun _ => rfl⟩, hzero,
      fun _ _ hnormal => by cases hnormal⟩

theorem startJob_ensures (cfg : Config) (store : Store) (files : List InputFile) :
    Ensures (AllowedAbort cfg)
      (fun job => ∃ segments,
        segmentStream cfg newSegment (files.flatMap InputFile.stream) = .ok segments ∧
          job = newJob cfg store segments)
      (startJob cfg store files) := by
  unfold startJob
  cases hsegment : segmentStream cfg newSegment (files.flatMap InputFile.stream) with
  | error a => exact Or.inr (Or.inl (segmentStream_dividesByZero hsegment))
  | ok segments => exact ⟨segments, rfl, rfl⟩

/-- A backup starts from a store in order. -/
theorem newJob_inv {files : List InputFile}
    (hcore : CoreInv cfg sc store.pool { containerBuffer := none, chunks := [] } store.backups
      store.htable fun _ => False)
    (hretained : sc.oldest ≤ store.backups.length) (hfiles : AdmissibleFiles cfg sc files)
    (hids : SegmentIdsFit cfg store files) {segments : List Segment}
    (hsegment : segmentStream cfg newSegment (files.flatMap InputFile.stream) = .ok segments) :
    JobInv cfg sc store (newJob cfg store segments) where
  core := hcore.startVersion rfl rfl fun hloc => (hids hloc segments hsegment).bvNum_lt
  retained := hretained
  cache := nofun
  buffer fp := by simpa [newJob, initIndexBuffer] using PendingState.empty
  inflight := nofun
  todo s hs := by
    refine ⟨segmentStream_counted hsegment counted_newSegment s hs, fun c hc => ?_⟩
    apply hfiles.streamChunk c
    have hchunks := segmentStream_chunks hsegment
    rw [newSegment, List.nil_append] at hchunks
    rw [← hchunks]
    exact List.mem_flatMap.mpr ⟨s, hs, hc⟩
  file_state := by
    simp only [newJob, List.nil_append, segmentStream_chunks hsegment, Option.isSome_none]
    exact foldlM_fileStep_files files
  fits hloc := hids hloc segments hsegment
  monitored i := by simp [newJob, createBackupVersion]
  cache_assigned := nofun

/-- A segment that needs no lookup has no copy of any chunk. -/
theorem copiesOf_of_empty {s : Segment} (hcounted : s.Counted) (hempty : s.chunkNum = 0)
    (fp : Fingerprint) : copiesOf fp s.chunks = [] := by
  rw [hcounted, List.length_eq_zero_iff] at hempty
  apply List.eq_nil_iff_forall_not_mem.mpr
  intro c hc
  obtain ⟨hmem, hnormal, -⟩ := mem_copiesOf.mp hc
  have : c ∈ s.normals := List.mem_filter.mpr ⟨hmem, hnormal⟩
  rw [hempty] at this
  cases this

theorem Job.source_of (store : Store) (job : Job) :
    SourceOf (job.source store) store.pool (store.backups ++ [job.bv]) store.htable :=
  ⟨rfl, rfl, rfl⟩

/-- The dedup thread keeps the invariant; only a missing sampling ratio can stop it. -/
theorem lookupSegment_ensures (hexact : sc.exact → ExactIndex cfg) (h : JobInv cfg sc store job)
    (waitThreshold : Int) :
    Ensures (AllowedAbort cfg) (JobInv cfg sc store)
      (lookupSegment cfg store job waitThreshold) := by
  unfold lookupSegment
  cases htodo : job.todo with
  | nil => exact h
  | cons s todo =>
      obtain ⟨hcounted, hstream⟩ := h.todo s (by rw [htodo]; exact List.mem_cons_self)
      have hrest : ∀ s' ∈ todo, s'.Counted ∧ ∀ c ∈ s'.chunks, StreamChunk cfg sc c :=
        fun s' hs' => h.todo s' (by rw [htodo]; exact List.mem_cons_of_mem _ hs')
      have hinflight : ∀ s' : Segment, SegmentInv cfg sc s' →
          ∀ s'' ∈ job.inflight ++ [s'], SegmentInv cfg sc s'' := by
        intro s' hs' s'' hs''
        rcases List.mem_append.mp hs'' with hs'' | hs''
        · exact h.inflight s'' hs''
        · rwa [List.mem_singleton.mp hs'']
      simp only
      split
      · rename_i hempty
        refine ⟨h.core, h.retained, h.cache, fun fp => ?_, hinflight s ⟨hcounted, s.chunks,
          .refl _, hstream⟩, hrest, ?_, ?_, h.monitored, h.cache_assigned⟩
        · have hstate := h.buffer fp
          simpa [copiesOf_of_empty hcounted hempty] using hstate
        · simpa [htodo] using h.file_state
        · simpa [htodo] using h.fits
      · split
        · exact h
        · refine ((indexLookup_ensures h.core hexact (job.source_of store) h.cache h.buffer
            (fun c hc => (hstream c hc).fresh) hcounted).mono (fun _ h => Or.inl h)
            fun _ h => h).bind ?_
          rintro ⟨index, chunks⟩ ⟨hcache, hsame, hbuffer⟩
          simp only at hcache hsame hbuffer
          refine ⟨h.core, h.retained, hcache, fun fp => ?_, hinflight _ ⟨?_, s.chunks, hsame,
            hstream⟩, hrest, ?_, ?_, h.monitored, h.cache_assigned⟩
          · have hstate := hbuffer fp
            simpa using hstate
          · simp only [Segment.Counted, Segment.normals]
            rw [length_normals_congr hsame.payload]
            exact hcounted
          · have hstate := h.file_state
            simp only [htodo, List.flatMap_append, List.flatMap_cons, List.flatMap_nil,
              List.append_nil, List.append_assoc, List.foldlM_append] at hstate ⊢
            rw [← hstate]
            simp only [foldlM_fileStep_congr hsame.payload]
          · intro hloc
            obtain ⟨hnum, hlength, hlt⟩ := h.fits hloc
            refine ⟨hnum, ?_, ?_⟩
            · simpa [htodo] using hlength
            · intro s' hs'
              rw [htodo] at hlt
              rw [List.append_assoc, List.mem_append, List.mem_append, List.mem_singleton] at hs'
              rcases hs' with hs' | rfl | hs'
              · exact hlt s' (List.mem_append_left _ hs')
              · exact hlt s (by simp)
              · exact hlt s' (by simp [hs'])

/-- A recipe's flags stand for no container. -/
theorem mem_encodeSegment {pointers : List ChunkPointer} {cp : ChunkPointer} :
    cp ∈ encodeSegment pointers ∧ 0 ≤ cp.id ↔ cp ∈ pointers ∧ 0 ≤ cp.id := by
  simp only [encodeSegment, List.cons_append, List.mem_cons, List.mem_append, List.not_mem_nil,
    or_false]
  constructor
  · rintro ⟨rfl | h | rfl, hid⟩
    · exact absurd hid (by simp [segmentFlag, chunkSegmentStart])
    · exact ⟨h, hid⟩
    · exact absurd hid (by simp [segmentFlag, chunkSegmentEnd])
  · rintro ⟨h, hid⟩
    exact ⟨Or.inr (Or.inl h), hid⟩

/-- The state in which the filter thread enters its loop. -/
theorem JobInv.filterInv (h : JobInv cfg sc store job) :
    FilterInv cfg sc (store.backups ++ [job.bv]) (job.filterState store) [] []
      (job.filterState store) where
  core := h.core.weaken fun _ _ => False.elim
  stored_mono _ _ hs := hs
  pool_mono _ _ hb := hb
  absent _ _ ha := ha
  unique_sound := nofun
  rewritten_sound := nofun
  unique_complete := by simp
  cache_assigned := h.cache_assigned
  contents := .nil
  done_sound := by simp
  monitored i := by simp

/-- The index buffer as the filter thread finds it: copies in its segment, then later ones. -/
theorem JobInv.pending {s : Segment} {inflight : List Segment} (h : JobInv cfg sc store job)
    (hinflight : job.inflight = s :: inflight) (fp : Fingerprint) :
    PendingState (fun id => sc.Sound store.pool job.storage.containerBuffer id fp)
      (sc.Absent store.pool job.storage.containerBuffer fp)
      (job.index.buffer.bufferedFingerprints.lookup fp)
      (copiesOf fp s.chunks ++ pendingCopies fp inflight) := by
  have hstate := h.buffer fp
  simp only [hinflight, pendingCopies_cons] at hstate
  exact hstate

theorem JobInv.checked {s : Segment} {inflight : List Segment} {chunks : List Chunk}
    (h : JobInv cfg sc store job) (hinflight : job.inflight = s :: inflight)
    (hprepared : List.Forall₂ (Chunk.Prepared cfg job.index.buffer) s.chunks chunks)
    (fp : Fingerprint) :
    CheckedState (fun id => sc.Sound store.pool job.storage.containerBuffer id fp)
      (sc.Absent store.pool job.storage.containerBuffer fp) (copiesOf fp chunks) := by
  exact CheckedState.of_pending (fun id hs => hs.2.nonneg h.core.pool_wf h.core.open_ok)
    (h.pending hinflight fp)
    (fun c hc => (mem_copiesOf.mp hc).2)
    (forall₂_copiesOf (fun _ _ hp => hp.toSamePayload) hprepared fp)

/-- The segment that the filter thread appends to the recipe. -/
theorem JobInv.appended {s : Segment} {inflight : List Segment} {done : List Chunk}
    {bv' : BackupVersion} (h : JobInv cfg sc store job) (hinflight : job.inflight = s :: inflight)
    (hpayload : List.Forall₂ Chunk.SamePayload s.chunks done)
    (hnum : bv'.bvNum = job.bv.bvNum)
    (hrecipe : bv'.recipe = job.bv.recipe ++ encodeSegment (recipePointers done)) :
    ∃ segments, Appended cfg job.bv bv' segments (recipePointers done) ∧
      (cfg.locality = .logical → RemainingFits bv' (inflight ++ job.todo)) := by
  obtain ⟨segments, hsegments, -, hfits⟩ := h.core.versions_ok.recipe job.bv (by simp)
  have hcount : (recipePointers done).length = s.chunkNum := by
    rw [length_recipePointers, length_normals_congr hpayload,
      (h.inflight s (by rw [hinflight]; exact List.mem_cons_self)).counted]
    rfl
  refine ⟨segments, ⟨hnum, hsegments, hrecipe, fun hloc => ?_⟩, fun hloc => ?_⟩
  · obtain ⟨hlt, hlength, hseg⟩ := h.fits hloc
    refine ⟨hlt, ?_, ?_⟩
    · rw [encodeSegments_append, ← hsegments]
      simp only [hinflight, List.cons_append, List.map_cons, List.sum_cons, encodeSegments_cons,
        encodeSegments_nil, List.append_nil, List.length_append, length_encodeSegment, hcount]
        at hlength ⊢
      simp only [chunkPointerSize] at hlength ⊢
      omega
    · intro ps hps
      rcases List.mem_append.mp hps with hps | hps
      · exact (hfits hloc).segment_lt ps hps
      · rw [List.mem_singleton.mp hps, hcount]
        exact hseg s (by rw [hinflight]; exact List.mem_cons_self)
  · obtain ⟨hlt, hlength, hseg⟩ := h.fits hloc
    refine ⟨hnum ▸ hlt, ?_, fun s' hs' => hseg s' (by
      rw [hinflight]
      exact List.mem_cons_of_mem _ hs')⟩
    rw [hrecipe]
    simp only [hinflight, List.cons_append, List.map_cons, List.sum_cons, List.length_append,
      length_encodeSegment, hcount] at hlength ⊢
    simp only [chunkPointerSize] at hlength ⊢
    omega

/-- A fingerprint that the thread has noted belongs to a chunk of the segment. -/
theorem FilterInv.noted {versions : List BackupVersion} {st₀ st : FilterState}
    {before done : List Chunk} (hinv : FilterInv cfg sc versions st₀ before done st)
    (fp : Fingerprint) (hfp : (st.recentlyUnique.lookup fp).isSome ∨
      (st.recentlyRewritten.lookup fp).isSome) :
    ∃ c ∈ done, c.isNormal = true ∧ c.fp = fp := by
  have hne : copiesOf fp before ≠ [] := by
    rcases hfp with hfp | hfp
    · obtain ⟨id, hid⟩ := Option.isSome_iff_exists.mp hfp
      obtain ⟨-, c, hc, -⟩ := hinv.unique_sound fp id hid
      exact List.ne_nil_of_mem hc
    · obtain ⟨id, hid⟩ := Option.isSome_iff_exists.mp hfp
      exact (hinv.rewritten_sound fp id hid).2
  have hlength := (forall₂_copiesOf (fun _ _ h => h.toSamePayload) hinv.contents fp).length_eq
  obtain ⟨c, hc⟩ := List.exists_mem_of_ne_nil (copiesOf fp done) (by
    rw [← List.length_pos_iff, ← hlength]
    exact List.length_pos_iff.mpr hne)
  exact ⟨c, mem_copiesOf.mp hc⟩

/-- The monitor has the containers of the recipe, the new segment included. -/
theorem JobInv.monitored_append {bv' : BackupVersion} {versions : List BackupVersion}
    {before done : List Chunk} {st : FilterState} (h : JobInv cfg sc store job)
    (hinv : FilterInv cfg sc versions (job.filterState store) before done st)
    (hrecipe : bv'.recipe = job.bv.recipe ++ encodeSegment (recipePointers done)) (i : Int) :
    i ∈ st.monitor ↔ 0 ≤ i ∧ ∃ cp ∈ bv'.recipe, cp.id = i := by
  rw [hinv.monitored, hrecipe]
  simp only [Job.filterState, h.monitored, List.mem_append]
  constructor
  · rintro (⟨hi, cp, hcp, rfl⟩ | ⟨c, hc, hnormal, rfl⟩)
    · exact ⟨hi, cp, Or.inl hcp, rfl⟩
    · have hid : 0 ≤ c.id := hinv.nonneg (hinv.done_sound c hc hnormal)
      refine ⟨hid, c.pointer, Or.inr ?_, rfl⟩
      exact (mem_encodeSegment.mpr ⟨mem_recipePointers.mpr ⟨c, hc, hnormal, rfl⟩, hid⟩).1
  · rintro ⟨hi, cp, hcp | hcp, rfl⟩
    · exact Or.inl ⟨hi, cp, hcp, rfl⟩
    · obtain ⟨c, hc, hnormal, rfl⟩ := mem_recipePointers.mp (mem_encodeSegment.mp ⟨hcp, hi⟩).1
      exact Or.inr ⟨c, hc, hnormal, rfl⟩

/-- The files of the processed segment, and then those of the segments behind it. -/
theorem JobInv.file_state_append {s : Segment} {inflight : List Segment} {done : List Chunk}
    (h : JobInv cfg sc store job) (hinflight : job.inflight = s :: inflight)
    (hpayload : List.Forall₂ Chunk.SamePayload s.chunks done) :
    ∃ inFile, done.foldlM fileStep job.fileMeta.isSome = some inFile ∧
      ((inflight ++ job.todo).flatMap Segment.chunks).foldlM fileStep inFile = some false := by
  have hfile := h.file_state
  rw [hinflight, List.cons_append, List.flatMap_cons, List.foldlM_append,
    Option.bind_eq_bind, Option.bind_eq_some_iff] at hfile
  obtain ⟨inFile, hfile, hrest⟩ := hfile
  exact ⟨inFile, (foldlM_fileStep_congr hpayload _).trans hfile, hrest⟩

structure SegmentFiltered (store : Store) (job : Job) (Ghost : List Chunk → FilterState → Prop)
    (store' : Store) (job' : Job) : Prop where
  backups_eq : store'.backups = store.backups
  manifest_eq : store'.manifest = store.manifest
  todo_eq : job'.todo = job.todo
  pool_mono : ∀ i b, store.pool.containers.lookup i = some b →
    store'.pool.containers.lookup i = some b
  idle : job.inflight = [] → store' = store ∧ job' = job
  segment : ∀ s inflight, job.inflight = s :: inflight → ∃ done st,
    List.Forall₂ Chunk.SamePayload s.chunks done ∧ Ghost done st ∧ job'.inflight = inflight ∧
      store'.pool = st.pool ∧ job'.storage = st.storage ∧
      job'.bv.recipe = job.bv.recipe ++ encodeSegment (recipePointers done) ∧
      ∀ cp ∈ recipePointers done, 0 ≤ cp.id

/-- The filter thread keeps the invariant. -/
theorem filterSegment_ensures (hset : cfg.Settled) (hexact : sc.exact → ExactIndex cfg)
    (h : JobInv cfg sc store job) (marks : Nat → Bool × Bool)
    (Ghost : List Chunk → FilterState → Prop) (hghost₀ : Ghost [] (job.filterState store))
    (hghost : ∀ done st c c' st', Ghost done st →
      FilterStep cfg sc (store.backups ++ [job.bv]) st c st' c' → Ghost (done ++ [c']) st') :
    Ensures (AllowedAbort cfg)
      (fun r => JobInv cfg sc r.1 r.2 ∧ SegmentFiltered store job Ghost r.1 r.2)
      (filterSegment cfg store job marks) := by
  unfold filterSegment
  cases hinflight : job.inflight with
  | nil =>
      exact ⟨h, rfl, rfl, rfl, fun _ _ hb => hb, fun _ => ⟨rfl, rfl⟩, fun s inflight heq => by
        rw [hinflight] at heq
        cases heq⟩
  | cons s inflight =>
      have hs := h.inflight s (by rw [hinflight]; exact List.mem_cons_self)
      refine ((indexCheckBuffer_ensures cfg marks fun c hc hnormal hnone => ?_).mono
        (fun _ h => h.elim) fun _ h => h).bind fun chunks hprepared => ?_
      · have hnil := (List.append_eq_nil_iff.mp
          ((h.pending hinflight c.fp).none_iff.mp hnone)).1
        have hmem : c ∈ copiesOf c.fp s.chunks := mem_copiesOf.mpr ⟨hc, hnormal, rfl⟩
        rw [hnil] at hmem
        cases hmem
      · have hpayload : List.Forall₂ Chunk.SamePayload s.chunks chunks :=
          List.Forall₂.imp (fun _ _ hp => hp.toSamePayload) hprepared
        refine (filterLoop_ensures hset hexact h.filterInv (h.checked hinflight hprepared)
          (hs.filterable hprepared) hghost₀ hghost).bind ?_
        rintro ⟨st, done⟩ ⟨hinv, hg⟩
        simp only at hinv hg
        have hdone := forall₂_trans (fun _ _ _ h h' => h.trans h') hpayload hinv.contents.payload
        refine ((bufferInv_update (job.filterState store) job.index.buffer s.chunks
          (h.pending hinflight) hpayload hinv).mono
          (fun _ h => h.elim) fun _ h => h).bind fun buffer hbuffer => ?_
        have hids : ∀ c ∈ done, c.isNormal = true → 0 ≤ c.id := fun c hc hnormal =>
          hinv.nonneg (hinv.done_sound c hc hnormal)
        have hcount : (chunks.filter Chunk.isNormal).length = (recipePointers done).length := by
          rw [length_recipePointers, length_normals_congr hinv.contents.payload]
        obtain ⟨inFile, hfile, hfile'⟩ := h.file_state_append hinflight hdone
        refine ((writeRecipe_ensures hcount hfile hids).mono (fun _ h => h.elim)
          fun _ h => h).bind ?_
        rintro ⟨sid, bv', r'⟩ ⟨hsid, hnum, hrecipe, hr'⟩
        simp only at hsid hnum hrecipe hr'
        obtain ⟨segments, happ, hfits⟩ := h.appended hinflight hdone hnum hrecipe
        refine ((updateLogicalIndex_ensures (hcount.trans (length_recipePointers done))
          (hs.signal_fp hdone) hinv.noted).mono (fun _ h => Or.inl h) fun _ h => h).bind
          fun kv hkv => ?_
        have hsound : ∀ cp ∈ recipePointers done,
            sc.Sound st.pool st.storage.containerBuffer cp.id cp.fp := by
          intro cp hcp
          obtain ⟨c, hc, hnormal, rfl⟩ := mem_recipePointers.mp hcp
          exact hinv.done_sound c hc hnormal
        have hcore := hinv.core.appendSegment hset hexact happ h.retained hsound
          (hcount ▸ hsid ▸ hkv)
        refine ⟨⟨hcore, hnum ▸ h.retained, fun u hu => ?_, hbuffer, fun s' hs' => ?_, h.todo, ?_,
          hfits, h.monitored_append hinv hrecipe, hinv.cache_assigned⟩, rfl, rfl, rfl,
          hinv.pool_mono, fun heq => ?_, fun s' inflight' heq => ?_⟩
        · exact (storeUnit_append happ).mpr (Or.inl ((h.cache u hu).mono_pool hinv.pool_mono))
        · exact h.inflight s' (by rw [hinflight]; exact List.mem_cons_of_mem _ hs')
        · rw [hr']
          exact hfile'
        · rw [hinflight] at heq
          cases heq
        · rw [hinflight] at heq
          cases heq
          refine ⟨done, st, hdone, hg, rfl, rfl, rfl, hrecipe, fun cp hcp => ?_⟩
          obtain ⟨c, hc, hnormal, rfl⟩ := mem_recipePointers.mp hcp
          exact hids c hc hnormal

/-- The end of a backup leaves the store in order. -/
theorem finishJob_ensures (hset : cfg.Settled) (hexact : sc.exact → ExactIndex cfg)
    (h : JobInv cfg sc store job) :
    Ensures (AllowedAbort cfg)
      (fun store' => CoreInv cfg sc store'.pool { containerBuffer := none, chunks := [] }
          store'.backups store'.htable (fun _ => False) ∧
        store'.backups = store.backups ++ [updateBackupVersion job.bv] ∧
        store'.manifest =
          some (updateManifest id store.manifest job.monitor.keys job.bv.bvNum).1 ∧
        ∀ i b, store.pool.containers.lookup i = some b →
          store'.pool.containers.lookup i = some b)
      (finishJob cfg store job) := by
  have hclose : Ensures (AllowedAbort cfg)
      (fun st => CoreInv cfg sc st.pool { containerBuffer := none, chunks := [] }
          (store.backups ++ [job.bv]) st.kv (fun _ => False) ∧
        ∀ i b, store.pool.containers.lookup i = some b →
          st.pool.containers.lookup i = some b)
      (closeStorage cfg (job.filterState store)) := by
    unfold closeStorage
    cases hb : (job.filterState store).storage.containerBuffer with
    | none =>
        exact ⟨h.core.closed hb, fun _ _ hb => hb⟩
    | some b =>
        have hnonempty := (h.core.open_ok b hb).nonempty
        simp only [hnonempty, Bool.false_eq_true, if_false]
        refine ((pushContainer_ensures (job.filterState store) hset hexact h.core hb).mono
          (fun _ h => Or.inl h) fun _ h => h).imp ?_
        rintro st ⟨kv, rfl, hcore⟩
        exact ⟨hcore, fun _ _ hc => lookup_push_mono (h.core.open_ok b hb) hc⟩
  exact hclose.bind fun st hst => ⟨hst.1.congr_current rfl rfl, rfl, rfl, hst.2⟩

end Steps

end Destor
