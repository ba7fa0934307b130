/- digest: The three restore threads hand on the same bytes, those recorded for each file. -/

import Destor.Recipe.AccessRecords
import Destor.Restore.AssemblyArea
import Destor.Restore.OptimalEviction
import Destor.Restore.PoolFile

set_option autoImplicit false
set_option relaxedAutoImplicit false

namespace Destor

open Library Library.Outcome Library.Bytes Library.Paging OptimalCache

def containerIds (stream : List Chunk) : List Int := (stream.filter Chunk.isNormal).map Chunk.id

theorem containerIds_cons {c : Chunk} (h : c.isNormal = true) (stream : List Chunk) :
    containerIds (c :: stream) = c.id :: containerIds stream := by
  unfold containerIds
  rw [List.filter_cons_of_pos h, List.map_cons]

theorem containerIds_cons_of_signal {c : Chunk} (h : c.isNormal = false) (stream : List Chunk) :
    containerIds (c :: stream) = containerIds stream := by
  unfold containerIds
  rw [List.filter_cons_of_neg (by simp [h])]

theorem mem_containerIds_cons {c : Chunk} {stream : List Chunk} {x : Int}
    (h : x ∈ containerIds stream) : x ∈ containerIds (c :: stream) := by
  by_cases hc : c.isNormal = true
  · rw [containerIds_cons hc]
    exact List.mem_cons_of_mem _ h
  · rwa [containerIds_cons_of_signal (by simpa using hc)]

section Optimal

variable {α : Type} {cfg : Config} {env : RestoreEnv}

theorem containerReader_lawful (cfg : Config) (env : RestoreEnv) :
    (containerReader cfg env).Lawful :=
  fun _ _ h => retrieveContainerById_id h

/-- Looking the fingerprint up again leaves the container just fetched in front. -/
theorem OptimalRestore.lookup_spec (hreads : cfg.simulationLevel.readsData = true)
    {s : OptimalRestore Container} {con : Container} {queue : List Container}
    (hqueue : s.cache.lruQueue.elemQueue = con :: queue) {c : Chunk} (hc : c.isNormal = true)
    (hcon : env.store.retrieveContainerById cfg c.id = .ok con)
    (hfp : con.lookupFingerprint c.fp = true) :
    ∃ rc, s.lookup cfg env c.fp = .ok (rc, { s with cache := { s.cache with lruQueue :=
        { s.cache.lruQueue with hitCount := s.cache.lruQueue.hitCount + 1 } } }) ∧
      Restores cfg env c rc := by
  obtain ⟨rc, hrc, hrestores⟩ :=
    getChunkInContainer_restores hreads hcon hc hfp (env.stray con c.fp)
  have hhit : (containerReader cfg env).hasFp c.fp con = true := hfp
  have hfind : s.cache.lruQueue.elemQueue.find? ((containerReader cfg env).hasFp c.fp) =
      some con := by
    rw [hqueue]
    exact List.find?_cons_of_pos hhit
  have hfront : LruCache.moveToFront ((containerReader cfg env).hasFp c.fp)
      s.cache.lruQueue.elemQueue = s.cache.lruQueue.elemQueue := by
    rw [LruCache.moveToFront_of_find? hfind, hqueue, List.eraseP_cons_of_pos hhit]
  have hlookup : s.cache.lruQueue.lookup ((containerReader cfg env).hasFp c.fp) =
      (some con, { s.cache.lruQueue with hitCount := s.cache.lruQueue.hitCount + 1 }) := by
    simp only [LruCache.lookup, hfind, hfront]
  refine ⟨rc, ?_, hrestores⟩
  unfold OptimalRestore.lookup
  simp only [hlookup]
  exact bind_ok_iff.mpr ⟨rc, hrc, rfl⟩

theorem OptimalInv.setHitCount {reader : CacheReader α} {s : OptimalCache α} {rest : List Int}
    (h : OptimalInv env reader s rest) (hits : Nat) :
    OptimalInv env reader { s with lruQueue := { s.lruQueue with hitCount := hits } } rest := by
  obtain ⟨n, window, hwin⟩ := h.window
  refine ⟨⟨⟨h.cache.bound.size_eq, h.cache.bound.size_le⟩, h.cache.positive, h.cache.retrieved,
    h.cache.distinct, h.cache.sorted, h.cache.recorded⟩, ⟨n, window, ?_⟩, h.slides, h.last⟩
  exact ⟨hwin.number, hwin.queues, hwin.buffered, hwin.within, hwin.pending, hwin.recordsEnd⟩

/-- The window that the optimal cache can serve for so many records, the terminator included: an array
takes all ids of a window, and twice a full window is an `int` unless the first one takes them all. -/
structure RestoreEnv.WindowFits (env : RestoreEnv) (records : Nat) : Prop where
  allocates : env.optWindowSize + 1 < 2 ^ 31
  slides : env.optWindowSize < 2 ^ 30 ∨ (records : Int) ≤ env.optWindowSize

theorem RestoreEnv.WindowFits.sized {records : Nat} (h : env.WindowFits records)
    (hpos : 1 ≤ env.optWindowSize) : env.WindowSized := ⟨hpos, h.allocates⟩

theorem OptimalInv.init (cfg : Config) (reader : CacheReader α) (hpos : 1 ≤ env.optWindowSize)
    (hcache : 1 ≤ cfg.restoreCacheSize) {ids : List Int} (hids : ∀ x ∈ ids, x ≠ temporaryId)
    (hfits : env.WindowFits (accessRecords ids).length) :
    ∃ s : OptimalRestore α,
      OptimalRestore.init cfg env (accessRecords ids) = .ok s ∧
      OptimalInv env reader s.cache ids ∧ s.counts = {} ∧ s.pushed = [] ∧
      s.cache.lruQueue = LruCache.newLruCache cfg.restoreCacheSize ∧
      s.cache.lastId = temporaryId ∧
      ((accessRecords ids).length ≤ env.optWindowSize → s.cache.records = []) := by
  have hfuture : ∀ id ∈ changes temporaryId ids, id ≠ temporaryId :=
    fun id hid => hids id (mem_of_mem_changes hid)
  obtain ⟨s, window, hok, hwin, hsorted, hlru, hlast, hall, -⟩ :=
    OptimalCache.init_spec (α := α) cfg (hfits.sized hpos) hfuture
  refine ⟨{ cache := s, counts := {}, pushed := [] }, bind_ok_iff.mpr ⟨s, hok, rfl⟩,
    ⟨⟨?_, ?_, ?_, ?_, ?_, ?_⟩, ⟨0, window, ?_⟩, hfits.slides.imp_right hall, Or.inl hlast⟩, rfl, rfl,
    hlru, hlast, hall⟩
  · show s.lruQueue.WithinBound
    rw [hlru]
    exact LruCache.withinBound_new _
  · show 0 < s.lruQueue.maxSize
    rw [hlru]
    exact hcache
  · intro e he
    have hmem : e ∈ s.lruQueue.elemQueue := he
    rw [hlru] at hmem
    cases hmem
  · show (reader.ids s.lruQueue).Nodup
    rw [hlru]
    exact List.nodup_nil
  · show s.sortedRecords.Perm (reader.ids s.lruQueue)
    rw [hsorted, hlru]
    exact List.Perm.refl _
  · intro cid hcid
    have hmem : cid ∈ reader.ids s.lruQueue := hcid
    rw [hlru] at hmem
    cases hmem
  · show WindowInv env 0 s window (changes s.lastId ids)
    rw [hlast]
    exact hwin

/-- One chunk of the recipe goes through the optimal cache. -/
theorem optimalChunk_spec (hreads : cfg.simulationLevel.readsData = true)
    (hwindow : env.WindowSized) {s : OptimalRestore Container} {c : Chunk}
    {rest : List Chunk} (hids : ∀ x ∈ containerIds (c :: rest), x ≠ temporaryId)
    (hheld : c.Held cfg env)
    (h : OptimalInv env (containerReader cfg env) s.cache (containerIds (c :: rest))) :
    ∃ s' rc, OptimalRestore.chunk cfg env s c = .ok s' ∧
      OptimalInv env (containerReader cfg env) s'.cache (containerIds rest) ∧
      s'.pushed = s.pushed ++ [rc] ∧ Restores cfg env c rc := by
  unfold OptimalRestore.chunk
  by_cases hc : c.isNormal = true
  · rw [containerIds_cons hc] at hids h
    obtain ⟨con, hcon, hfp⟩ := (hheld hc).lookupFingerprint
    obtain ⟨s₁, queue, loads, hfetch, hinv, hqueue, -, hpushed, -⟩ :=
      OptimalRestore.fetch_spec hwindow (containerReader_lawful cfg env) hids h hcon
    obtain ⟨rc, hlookup, hrestores⟩ := OptimalRestore.lookup_spec hreads hqueue hc hcon hfp
    refine ⟨_, rc, (if_pos hc).trans (bind_ok_iff.mpr ⟨s₁, hfetch,
      bind_ok_iff.mpr ⟨_, hlookup, rfl⟩⟩), hinv.setHitCount _, ?_, hrestores⟩
    show s₁.pushed ++ [rc] = s.pushed ++ [rc]
    rw [hpushed]
  · rw [containerIds_cons_of_signal (by simpa using hc)] at h
    refine ⟨_, c, if_neg hc, h, rfl, ?_⟩
    unfold Restores
    rw [if_neg hc]

theorem foldE_optimalChunk (hreads : cfg.simulationLevel.readsData = true)
    (hwindow : env.WindowSized) {stream : List Chunk}
    (hids : ∀ x ∈ containerIds stream, x ≠ temporaryId) (hheld : ∀ c ∈ stream, c.Held cfg env)
    {s : OptimalRestore Container}
    (h : OptimalInv env (containerReader cfg env) s.cache (containerIds stream)) :
    ∃ s' restored, foldE (OptimalRestore.chunk cfg env) s stream = .ok s' ∧
      s'.pushed = s.pushed ++ restored ∧ List.Forall₂ (Restores cfg env) stream restored := by
  induction stream generalizing s with
  | nil => exact ⟨s, [], rfl, (List.append_nil _).symm, .nil⟩
  | cons c stream ih =>
      obtain ⟨hc, hstream⟩ := List.forall_mem_cons.mp hheld
      obtain ⟨s₁, rc, hok₁, hinv₁, hpushed₁, hrc⟩ := optimalChunk_spec hreads hwindow hids hc h
      have hids' : ∀ x ∈ containerIds stream, x ≠ temporaryId :=
        fun x hx => hids x (mem_containerIds_cons hx)
      obtain ⟨s₂, restored, hok₂, hpushed₂, hall⟩ := ih hids' hstream hinv₁
      refine ⟨s₂, rc :: restored, bind_ok_iff.mpr ⟨s₁, hok₁, hok₂⟩, ?_, .cons hrc hall⟩
      rw [hpushed₂, hpushed₁, List.append_assoc, List.singleton_append]

/-- What an initial state tells of the window. -/
theorem init_ok (hpos : 1 ≤ env.optWindowSize) {ids : List Int} (hids : ∀ x ∈ ids, x ≠ temporaryId)
    {t : OptimalRestore α} (hinit : OptimalRestore.init cfg env (accessRecords ids) = .ok t) :
    env.WindowSized ∧ ∃ window, WindowInv env 0 t.cache window (changes temporaryId ids) ∧
      t.cache.sortedRecords = [] ∧
      t.cache.lruQueue = LruCache.newLruCache cfg.restoreCacheSize ∧
      t.cache.lastId = temporaryId ∧
      (t.cache.records ≠ [] → (window.length : Int) = env.optWindowSize) := by
  obtain ⟨s, hs, heq⟩ := bind_ok_iff.mp hinit
  cases heq
  have hallocates : env.optWindowSize + 1 < 2 ^ 31 := by
    by_contra hbig
    rw [init_of_unallocated cfg hbig] at hs
    cases hs
  have hfuture : ∀ id ∈ changes temporaryId ids, id ≠ temporaryId :=
    fun id hid => hids id (mem_of_mem_changes hid)
  obtain ⟨s', window, hs', hwin, hsorted, hlru, hlast, -, hfull⟩ :=
    OptimalCache.init_spec (α := α) cfg ⟨hpos, hallocates⟩ hfuture
  obtain rfl := Except.ok.inj (hs'.symm.trans hs)
  exact ⟨⟨hpos, hallocates⟩, window, hwin, hsorted, hlru, hlast, hfull⟩

/-- Where the window does not fit, the thread has an initial state only if an array takes a whole window,
and then the first access fails. -/
theorem init_of_not_windowFits (hpos : 1 ≤ env.optWindowSize) {ids : List Int}
    (hids : ∀ x ∈ ids, x ≠ temporaryId) (hnot : ¬ env.WindowFits (accessRecords ids).length)
    {t : OptimalRestore α} (hinit : OptimalRestore.init cfg env (accessRecords ids) = .ok t) :
    ids ≠ [] ∧ ∀ id, id ≠ temporaryId →
      t.cache.refill env = .error .recordsUninitialised ∧
        t.cache.access env id = .error .recordsUninitialised := by
  obtain ⟨hsized, window, hwin, -, -, hlast, hfull⟩ := init_ok hpos hids hinit
  have hslides : ¬ (env.optWindowSize < 2 ^ 30 ∨
      ((accessRecords ids).length : Int) ≤ env.optWindowSize) := fun h => hnot ⟨hsized.lt, h⟩
  rw [not_or, Int.not_lt] at hslides
  have hmore : t.cache.records ≠ [] := by
    intro hnil
    have hlength := congrArg List.length hwin.pending
    rw [hnil, List.append_nil] at hlength
    have hwithin := hwin.within
    rw [hlength] at hwithin
    exact hslides.2 hwithin
  refine ⟨fun hnil => ?_, fun id hid => ?_⟩
  · subst hnil
    have hone : (accessRecords []).length = 1 := rfl
    exact hslides.2 (by omega)
  · have hrefill := refill_of_full hsized hslides.1 hwin (hfull hmore) hmore
    refine ⟨hrefill, ?_⟩
    unfold OptimalCache.access OptimalCache.windowSlides
    rw [if_pos (by rw [hlast]; exact hid.symm), hrefill]
    rfl

theorem fetch_of_access_error {reader : CacheReader α} {t : OptimalRestore α} {c : Chunk} {e : Abort}
    (h : t.cache.access env c.id = .error e) : t.fetch env reader c = .error e := by
  unfold OptimalRestore.fetch OptimalCache.hits
  rw [h]
  rfl

/-- The loop bodies of `optimal_restore_thread`: signals leave the cache alone, and no other chunk gets
past a fetch that fails. -/
structure FetchStep (env : RestoreEnv) (reader : CacheReader α)
    (step : OptimalRestore α → Chunk → Except Abort (OptimalRestore α)) : Prop where
  signal : ∀ (t : OptimalRestore α) {c : Chunk}, c.isNormal = false →
    ∃ t', step t c = .ok t' ∧ t'.cache = t.cache
  fetches : ∀ {t t' : OptimalRestore α} {c : Chunk}, c.isNormal = true → step t c = .ok t' →
    ∃ t₁, t.fetch env reader c = .ok t₁

theorem fetchStep_chunk (cfg : Config) (env : RestoreEnv) :
    FetchStep env (containerReader cfg env) (OptimalRestore.chunk cfg env) where
  signal t c hc := ⟨_, if_neg (by simp [hc]), rfl⟩
  fetches hc hok := by
    rw [OptimalRestore.chunk, if_pos hc] at hok
    obtain ⟨t₁, hfetch, -⟩ := bind_ok_iff.mp hok
    exact ⟨t₁, hfetch⟩

theorem fetchStep_chunkMeta (cfg : Config) (env : RestoreEnv) :
    FetchStep env (containerMetaReader cfg env) (OptimalRestore.chunkMeta cfg env) where
  signal t c hc := ⟨_, if_neg (by simp [hc]), rfl⟩
  fetches hc hok := by
    rw [OptimalRestore.chunkMeta, if_pos hc] at hok
    obtain ⟨t₁, hfetch, -⟩ := bind_ok_iff.mp hok
    exact ⟨t₁, hfetch⟩

section Stuck

variable {reader : CacheReader α} {step : OptimalRestore α → Chunk → Except Abort (OptimalRestore α)}

theorem FetchStep.signals (hstep : FetchStep env reader step) {done : List Chunk}
    (hdone : ∀ c ∈ done, c.isNormal = false) (t : OptimalRestore α) :
    ∃ t', foldE step t done = .ok t' ∧ t'.cache = t.cache := by
  induction done generalizing t with
  | nil => exact ⟨t, rfl, rfl⟩
  | cons c done ih =>
      obtain ⟨hc, hrest⟩ := List.forall_mem_cons.mp hdone
      obtain ⟨t₁, hok₁, hcache₁⟩ := hstep.signal t hc
      obtain ⟨t₂, hok₂, hcache₂⟩ := ih hrest t₁
      exact ⟨t₂, bind_ok_iff.mpr ⟨t₁, hok₁, hok₂⟩, hcache₂.trans hcache₁⟩

theorem exists_first_access {stream : List Chunk} (h : containerIds stream ≠ []) :
    ∃ done c rest, stream = done ++ c :: rest ∧ c.isNormal = true ∧
      ∀ x ∈ done, x.isNormal = false := by
  obtain ⟨c, hc⟩ : ∃ c, stream.find? Chunk.isNormal = some c := by
    refine Option.isSome_iff_exists.mp (List.find?_isSome.mpr ?_)
    obtain ⟨x, hx⟩ := List.exists_mem_of_ne_nil _ h
    obtain ⟨c, hc, -⟩ := List.mem_map.mp hx
    exact ⟨c, List.mem_filter.mp hc⟩
  obtain ⟨hnormal, done, rest, hstream, hdone⟩ := List.find?_eq_some_iff_append.mp hc
  exact ⟨done, c, rest, hstream, hnormal, fun x hx => by simpa using hdone x hx⟩

/-- A thread that comes to its end has a window that fits. -/
theorem FetchStep.windowFits (hstep : FetchStep env reader step) (hpos : 1 ≤ env.optWindowSize)
    {stream : List Chunk} (hids : ∀ x ∈ containerIds stream, x ≠ temporaryId)
    {t t' : OptimalRestore α}
    (hinit : OptimalRestore.init cfg env (accessRecords (containerIds stream)) = .ok t)
    (hok : foldE step t stream = .ok t') :
    env.WindowFits (accessRecords (containerIds stream)).length := by
  by_contra hnot
  obtain ⟨hne, hstuck⟩ := init_of_not_windowFits hpos hids hnot hinit
  obtain ⟨done, c, rest, rfl, hc, hdone⟩ := exists_first_access hne
  obtain ⟨t₁, hok₁, hcache⟩ := hstep.signals hdone t
  rw [foldE_append] at hok
  obtain ⟨t₂, hok₂, hok⟩ := bind_ok_iff.mp hok
  obtain rfl := Except.ok.inj (hok₁.symm.trans hok₂)
  obtain ⟨t₃, hok₃, -⟩ := bind_ok_iff.mp hok
  obtain ⟨t₄, hfetch⟩ := hstep.fetches hc hok₃
  have hid : c.id ∈ containerIds (done ++ c :: rest) := by
    unfold containerIds
    exact List.mem_map_of_mem (List.mem_filter.mpr ⟨List.mem_append_right _ List.mem_cons_self, hc⟩)
  have herror := (hstuck c.id (hids c.id hid)).2
  rw [← hcache] at herror
  rw [fetch_of_access_error herror] at hfetch
  cases hfetch

/-- The same of `optimal_restore_thread`, at every level. -/
theorem windowFits_of_optimalRestoreThread (hpos : 1 ≤ env.optWindowSize) {stream : List Chunk}
    (hids : ∀ x ∈ containerIds stream, x ≠ temporaryId) {r : RestoreCounts × List Chunk}
    (hok : optimalRestoreThread cfg env (accessRecords (containerIds stream)) stream = .ok r) :
    env.WindowFits (accessRecords (containerIds stream)).length := by
  unfold optimalRestoreThread at hok
  split at hok
  · obtain ⟨t, hinit, hok⟩ := bind_ok_iff.mp hok
    obtain ⟨t', hrun, -⟩ := bind_ok_iff.mp hok
    exact (fetchStep_chunk cfg env).windowFits hpos hids hinit hrun
  · obtain ⟨t, hinit, hok⟩ := bind_ok_iff.mp hok
    obtain ⟨t', hrun, -⟩ := bind_ok_iff.mp hok
    exact (fetchStep_chunkMeta cfg env).windowFits hpos hids hinit hrun

end Stuck

end Optimal

section Recipes

variable {cfg : Config} {env : RestoreEnv} {rb : RecordedBackup}

/-- Each pointer of the backup names a container that holds its chunk. -/
def RecordedBackup.Sound (rb : RecordedBackup) (cfg : Config) (env : RestoreEnv) : Prop :=
  ∀ cp ∈ rb.pointers, Holds cfg env cp.id cp.fp cp.size

theorem filter_toChunk (cps : List ChunkPointer) :
    (cps.map ChunkPointer.toChunk).filter Chunk.isNormal = cps.map ChunkPointer.toChunk := by
  apply List.filter_eq_self.mpr
  intro c hc
  obtain ⟨cp, -, rfl⟩ := List.mem_map.mp hc
  rfl

theorem containerIds_toChunk (cps : List ChunkPointer) :
    containerIds (cps.map ChunkPointer.toChunk) = cps.map ChunkPointer.id := by
  unfold containerIds
  rw [filter_toChunk, List.map_map]
  rfl

theorem filter_restoreStream (files : List StoredFile) :
    (files.flatMap StoredFile.restoreStream).filter Chunk.isNormal =
      (files.flatMap StoredFile.pointers).map ChunkPointer.toChunk := by
  induction files with
  | nil => rfl
  | cons f files ih =>
      have hfile : f.restoreStream.filter Chunk.isNormal =
          f.pointers.map ChunkPointer.toChunk := by
        show ((f.fileRecipeMeta.startChunk :: f.pointers.map ChunkPointer.toChunk) ++
          [Chunk.fileEnd]).filter Chunk.isNormal = _
        rw [List.filter_append, List.filter_cons_of_neg (by simp [FileRecipeMeta.startChunk,
          Chunk.isNormal]), filter_toChunk]
        exact List.append_nil _
      rw [List.flatMap_cons, List.filter_append, hfile, ih, List.flatMap_cons, List.map_append]

theorem containerIds_restoreStream (rb : RecordedBackup) :
    containerIds rb.restoreStream = rb.pointers.map ChunkPointer.id := by
  unfold containerIds RecordedBackup.restoreStream RecordedBackup.pointers
  rw [filter_restoreStream, List.map_map]
  rfl

/-- The chunks of the restore stream are held, given a sound recipe. -/
theorem RecordedBackup.Sound.held (h : rb.Sound cfg env) :
    ∀ c ∈ rb.restoreStream, c.Held cfg env := by
  intro c hc hnormal
  have hmem := List.mem_filter.mpr ⟨hc, hnormal⟩
  rw [RecordedBackup.restoreStream, filter_restoreStream] at hmem
  obtain ⟨cp, hcp, rfl⟩ := List.mem_map.mp hmem
  exact h cp hcp

theorem RecordedBackup.Sound.ids (h : rb.Sound cfg env) :
    ∀ x ∈ containerIds rb.restoreStream, x ≠ temporaryId := by
  intro x hx
  rw [containerIds_restoreStream] at hx
  obtain ⟨cp, hcp, rfl⟩ := List.mem_map.mp hx
  exact ne_temporaryId_of_nonneg (h cp hcp).1.nonneg

theorem restoreStream_not_ready (rb : RecordedBackup) :
    ∀ c ∈ rb.restoreStream, c.flag.ready = false := by
  intro c hc
  obtain ⟨f, -, hcf⟩ := List.mem_flatMap.mp hc
  rcases List.mem_append.mp hcf with hcf | hcf
  · rcases List.mem_cons.mp hcf with rfl | hcf
    · rfl
    · obtain ⟨cp, -, rfl⟩ := List.mem_map.mp hcf
      rfl
  · rw [List.mem_singleton.mp hcf]
    rfl

def StoredFile.items (content : Fingerprint → List UInt8) (f : StoredFile) : List RestoreItem :=
  .fileStart (f.name ++ [0]) ::
    f.pointers.map (fun cp => .content cp.size (content cp.fp)) ++ [.fileEnd]

theorem target_restoreStream (content : Fingerprint → List UInt8) (rb : RecordedBackup) :
    rb.restoreStream.map (Chunk.target content) = rb.files.flatMap (StoredFile.items content) := by
  unfold RecordedBackup.restoreStream
  rw [List.map_flatMap]
  congr 1
  funext f
  unfold StoredFile.restoreStream StoredFile.items
  rw [List.map_append, List.map_cons, List.map_map]
  rfl

/-- What a restore reads of the containers of a backup. -/
def RecordedBackup.records (rb : RecordedBackup) : List Int :=
  accessRecords (rb.pointers.map ChunkPointer.id)

theorem optimalRestoreThread_spec (hreads : cfg.simulationLevel.readsData = true)
    (hcache : 1 ≤ cfg.restoreCacheSize) (hpos : 1 ≤ env.optWindowSize)
    (hfits : env.WindowFits rb.records.length) (hsound : rb.Sound cfg env) {bv : BackupVersion}
    (hrec : Recorded bv rb) :
    ∃ r, optimalRestoreThread cfg env bv.records rb.restoreStream = .ok r ∧
      List.Forall₂ (Restores cfg env) rb.restoreStream r.2 := by
  unfold RecordedBackup.records at hfits
  rw [← containerIds_restoreStream] at hfits
  obtain ⟨s, hinit, hinv, -, hpushed, -⟩ := OptimalInv.init cfg (containerReader cfg env) hpos
    hcache hsound.ids hfits
  rw [containerIds_restoreStream, accessRecords, ← hrec.records] at hinit
  obtain ⟨s', restored, hok, hpushed', hall⟩ :=
    foldE_optimalChunk hreads (hfits.sized hpos) hsound.ids hsound.held hinv
  refine ⟨(s'.counts, s'.pushed), ?_, ?_⟩
  · unfold optimalRestoreThread
    rw [if_pos hreads]
    exact bind_ok_iff.mpr ⟨s, hinit, bind_ok_iff.mpr ⟨s', hok, rfl⟩⟩
  · rw [hpushed', hpushed, List.nil_append]
    exact hall

/-- A recipe that the recipe thread and the optimal thread get through, at any level. -/
theorem windowFits_of_recorded (hpos : 1 ≤ env.optWindowSize) (hsound : rb.Sound cfg env)
    {bv : BackupVersion} (hrec : Recorded bv rb) {cfg' : Config} {stream : List Chunk}
    (hstream : readRecipeThread bv = .ok stream) {r : RestoreCounts × List Chunk}
    (hok : optimalRestoreThread cfg' env bv.records stream = .ok r) :
    rb.CountsFit ∧ env.WindowFits rb.records.length := by
  have hcounts := hrec.countsFit hstream
  obtain rfl := Except.ok.inj ((hrec.readRecipeThread hcounts).symm.trans hstream)
  have hrecords : bv.records = accessRecords (containerIds rb.restoreStream) := by
    rw [containerIds_restoreStream]
    exact hrec.records
  rw [hrecords] at hok
  have hfits := windowFits_of_optimalRestoreThread hpos hsound.ids hok
  rw [containerIds_restoreStream] at hfits
  exact ⟨hcounts, hfits⟩

end Recipes

section Example

def pooledConfig : Config :=
  { smallConfig .exact .physical with simulationLevel := .no, restoreCacheSize := 2 }

def byteChunk (b : UInt8) : Chunk := .normal (.fill b) 1 [b]

def byteContent (fp : Fingerprint) : List UInt8 := fp.bytes.take 1

def byteContainer (id : Nat) (bs : List UInt8) : Container :=
  bs.foldl (fun c b => appendChunk pooledConfig c (byteChunk b))
    (createContainer pooledConfig ⟨∅, id⟩).1

def pooledContainers : List Container :=
  [byteContainer 0 [1, 2], byteContainer 1 [3], byteContainer 2 [4]]

theorem pooledContainers_genuine :
    ∀ b ∈ pooledContainers, b.Genuine pooledConfig byteContent := by
  have hgenuine : ∀ b, (byteChunk b).Genuine byteContent := fun _ => ⟨rfl, rfl⟩
  have hone : ∀ (id : Nat) (b : UInt8), (byteContainer id [b]).Genuine pooledConfig byteContent :=
    fun id b => (createContainer_genuine pooledConfig byteContent ⟨∅, id⟩).add (hgenuine b) rfl
  intro b hb
  rcases List.mem_cons.mp hb with rfl | hb
  · exact (hone 0 1).add (hgenuine 2) rfl
  · rcases List.mem_cons.mp hb with rfl | hb
    · exact hone 1 3
    · rw [List.mem_singleton.mp hb]
      exact hone 2 4

def pooledStore : ContainerStore :=
  match foldE (ContainerStore.writeContainer pooledConfig ContainerStore.entryOrder) ⟨3, zeros⟩
    pooledContainers with
  | .ok s => s
  | .error _ => ⟨3, zeros⟩

theorem pooledStore_poolFile : PoolFile pooledConfig byteContent pooledContainers pooledStore := by
  obtain ⟨s, hok, -, hpool⟩ := exists_poolFile ContainerStore.entryOrder 3 pooledContainers_genuine
    (by decide) (by decide) (by decide)
  have hstore : pooledStore = s := by
    unfold pooledStore
    rw [hok]
  rwa [hstore]

def pooledEnv (window : Int) : RestoreEnv :=
  { store := pooledStore, optWindowSize := window, stray := fun _ fp => fp
    place := fun _ _ _ => 0 }

def bytePointer (b : UInt8) (id : Int) : ChunkPointer := { fp := .fill b, id := id, size := 1 }

/-- Two files in two segments, the second file in both of them. The recipe goes through the three
containers and back to the first two. -/
def pooledBackup : RecordedBackup where
  files := [{ name := [97], pointers := [bytePointer 1 0, bytePointer 3 1] },
    { name := [98], pointers := [bytePointer 4 2, bytePointer 2 0, bytePointer 3 1] }]
  segments := [[.fileStart [97], (bytePointer 1 0).toChunk, (bytePointer 3 1).toChunk, .fileEnd,
      .fileStart [98], (bytePointer 4 2).toChunk],
    [(bytePointer 2 0).toChunk, (bytePointer 3 1).toChunk, .fileEnd]]
  cut := rfl

theorem pooledEnv_poolFile (window : Int) :
    PoolFile pooledConfig byteContent pooledContainers (pooledEnv window).store :=
  pooledStore_poolFile

theorem pooledBackup_sound (window : Int) : pooledBackup.Sound pooledConfig (pooledEnv window) := by
  have hholds : ∀ b ∈ pooledContainers, ∀ fp, b.lookupFingerprint fp = true →
      Holds pooledConfig (pooledEnv window) b.id fp (byteContent fp).length :=
    fun b hb fp hfp => (pooledEnv_poolFile window).holds rfl hb hfp
  have hfirst := hholds (byteContainer 0 [1, 2]) List.mem_cons_self
  have hsecond := hholds (byteContainer 1 [3]) (List.mem_cons_of_mem _ List.mem_cons_self)
  have hthird := hholds (byteContainer 2 [4])
    (List.mem_cons_of_mem _ (List.mem_cons_of_mem _ List.mem_cons_self))
  intro cp hcp
  have hpointers : pooledBackup.pointers = [bytePointer 1 0, bytePointer 3 1, bytePointer 4 2,
    bytePointer 2 0, bytePointer 3 1] := rfl
  rw [hpointers] at hcp
  simp only [List.mem_cons, List.not_mem_nil, or_false] at hcp
  rcases hcp with rfl | rfl | rfl | rfl | rfl
  · exact hfirst (.fill 1) (by decide)
  · exact hsecond (.fill 3) (by decide)
  · exact hthird (.fill 4) (by decide)
  · exact hfirst (.fill 2) (by decide)
  · exact hsecond (.fill 3) (by decide)

theorem pooledBackup_countsFit : pooledBackup.CountsFit := ⟨by decide, by decide⟩

theorem pooledStore_sameContent (window : Int) :
    SameContent pooledConfig (pooledEnv window) byteContent :=
  (pooledEnv_poolFile window).sameContent rfl

end Example

/-- The three restore threads push the same items of a backup: each file with the bytes recorded for it,
in order. None of them fails, and the assembly area ends empty. -/
def RestoreThreadsAgree (cfg : Config) (env : RestoreEnv) (rb : RecordedBackup) (bvNum : Nat)
    (content : Fingerprint → List UInt8) : Prop :=
  ∃ bv stream lru opt asm, rb.write bvNum = .ok bv ∧ readRecipeThread bv = .ok stream ∧
    lruRestoreThread cfg env stream = .ok lru ∧
    optimalRestoreThread cfg env bv.records stream = .ok opt ∧
    assemblyRestoreThread cfg env stream = .ok asm ∧
    lru.2.map Chunk.restoreItem = rb.files.flatMap (StoredFile.items content) ∧
    opt.2.map Chunk.restoreItem = rb.files.flatMap (StoredFile.items content) ∧
    asm.2.1.map Chunk.restoreItem = rb.files.flatMap (StoredFile.items content) ∧
    asm.2.2 = []

/-- Of a backup whose pointers lead to containers with their chunks, the three threads push the same
items if and only if `read_recipe_thread` can count its files and chunks and the optimal thread can
serve its window. -/
theorem restore_threads_agree_iff (cfg : Config) (env : RestoreEnv) (rb : RecordedBackup)
    (bvNum : Nat) (content : Fingerprint → List UInt8) (hlevel : cfg.simulationLevel = .no)
    (hcache : 1 ≤ cfg.restoreCacheSize) (hwindow : 1 ≤ env.optWindowSize)
    (hsound : rb.Sound cfg env) (hcontent : SameContent cfg env content) :
    RestoreThreadsAgree cfg env rb bvNum content ↔
      rb.CountsFit ∧ env.WindowFits rb.records.length := by
  obtain ⟨bv, hwrite, hrec⟩ := rb.write_recorded bvNum fun cp hcp => (hsound cp hcp).1.nonneg
  constructor
  · rintro ⟨bv', stream, lru, opt, asm, hwrite', hstream, -, hopt, -⟩
    obtain rfl := Except.ok.inj (hwrite.symm.trans hwrite')
    exact windowFits_of_recorded hwindow hsound hrec hstream hopt
  · rintro ⟨hcounts, hfits⟩
    have hreads : cfg.simulationLevel.readsData = true := by
      rw [hlevel]
      decide
    obtain ⟨lru, hlru, hlruAll⟩ := lruRestoreThread_spec hreads hsound.held
    obtain ⟨opt, hopt, hoptAll⟩ :=
      optimalRestoreThread_spec hreads hcache hwindow hfits hsound hrec
    obtain ⟨asm, hasm, hasmAll, hempty⟩ :=
      assemblyRestoreThread_spec hreads (restoreStream_not_ready rb) hsound.held
    have htarget := target_restoreStream content rb
    refine ⟨bv, rb.restoreStream, lru, opt, asm, hwrite, hrec.readRecipeThread hcounts, hlru, hopt,
      hasm, ?_, ?_, ?_, hempty⟩
    · rw [← htarget]
      exact restoreItem_eq_target hreads hcontent hsound.held hlruAll
    · rw [← htarget]
      exact restoreItem_eq_target hreads hcontent hsound.held hoptAll
    · rw [← htarget]
      exact restoreItem_eq_target hreads hcontent hsound.held hasmAll

/-- In windows of two records, through a cache of two containers. -/
theorem restore_threads_agree_iff_pooled :
    RestoreThreadsAgree pooledConfig (pooledEnv 2) pooledBackup 0 byteContent :=
  (restore_threads_agree_iff pooledConfig (pooledEnv 2) pooledBackup 0 byteContent rfl (by decide)
    (by decide) (pooledBackup_sound 2) (pooledStore_sameContent 2)).mpr
    ⟨pooledBackup_countsFit, by decide, .inl (by decide)⟩

/-- The greatest window that an `int` takes leaves the optimal thread without its array. -/
theorem optimal_thread_fails_in_greatest_window :
    ¬ RestoreThreadsAgree pooledConfig (pooledEnv 2147483647) pooledBackup 0 byteContent := by
  obtain ⟨bv, hwrite, hrec⟩ :=
    pooledBackup.write_recorded 0 fun cp hcp => (pooledBackup_sound 2147483647 cp hcp).1.nonneg
  rintro ⟨bv', stream, lru, opt, asm, hwrite', hstream, -, hopt, -⟩
  obtain rfl := Except.ok.inj (hwrite.symm.trans hwrite')
  obtain ⟨-, hfits⟩ :=
    windowFits_of_recorded (by decide) (pooledBackup_sound 2147483647) hrec hstream hopt
  exact absurd hfits.allocates (by decide)

end Destor
