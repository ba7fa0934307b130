/- digest: With the whole backup in its window, the optimal cache reads the fewest containers. -/

import Destor.Restore.RestoreAgree

set_option autoImplicit false
set_option relaxedAutoImplicit false

namespace Destor

open Library Library.Outcome Library.Paging OptimalCache

variable {α : Type} {reader : CacheReader α} {cfg : Config} {env : RestoreEnv}

def CacheReader.pages (reader : CacheReader α) (c : LruCache α) : Finset Int :=
  (reader.ids c).toFinset

def slots (c : LruCache α) : Nat := c.maxSize.toNat

section Step

variable {s : OptimalCache α} {requests : List Int} {id : Int} {n : Nat}

theorem card_pages (h : CacheInv reader s) : (reader.pages s.lruQueue).card = s.lruQueue.size := by
  rw [CacheReader.pages, List.toFinset_card_of_nodup h.distinct, CacheReader.ids, List.length_map]
  exact h.bound.size_eq.symm

theorem card_pages_eq (h : CacheInv reader s) (hfull : s.lruQueue.isFull = true) :
    (reader.pages s.lruQueue).card = slots s.lruQueue := by
  have hpositive := h.positive
  have hle := h.bound.size_le hpositive
  unfold LruCache.isFull at hfull
  rw [if_neg (by omega)] at hfull
  have hge := of_decide_eq_true hfull
  rw [card_pages h, slots]
  omega

theorem card_pages_lt (h : CacheInv reader s) (hroom : s.lruQueue.isFull = false) :
    (reader.pages s.lruQueue).card < slots s.lruQueue := by
  have hpositive := h.positive
  unfold LruCache.isFull at hroom
  rw [if_neg (by omega)] at hroom
  have hlt := of_decide_eq_false hroom
  rw [card_pages h, slots]
  omega

/-- A fetch serves one request, evicting a page that is requested last. -/
theorem servesFarthest_of_fetched (h : CacheInv reader s) {c : LruCache α}
    {loads : Nat} (hfetched : Fetched (reader.ids s.lruQueue) s.lruQueue.isFull
      (fun victim => ∀ w ∈ reader.ids s.lruQueue, requests.idxOf w ≤ requests.idxOf victim)
      id (reader.ids c) loads)
    (hrest : ServesFarthest (slots s.lruQueue) (reader.pages c) requests n) :
    ServesFarthest (slots s.lruQueue) (reader.pages s.lruQueue) (id :: requests) (n + loads) := by
  unfold CacheReader.pages at hrest
  generalize hids : reader.ids c = ids at hfetched hrest
  cases hfetched with
  | hit hid perm =>
      rw [List.toFinset_eq_of_perm _ _ perm] at hrest
      exact .hit (List.mem_toFinset.mpr hid) hrest
  | load hid room =>
      rw [List.toFinset_cons] at hrest
      exact .load (fun hmem => hid (List.mem_toFinset.mp hmem)) (card_pages_lt h room) hrest
  | @evict victim kept hid hfull perm hvictim =>
      have hnodup := perm.nodup_iff.mp h.distinct
      have hkept : kept.toFinset = (reader.pages s.lruQueue).erase victim := by
        rw [CacheReader.pages, List.toFinset_eq_of_perm _ _ perm, List.toFinset_cons,
          Finset.erase_insert]
        exact fun hmem => (List.nodup_cons.mp hnodup).1 (List.mem_toFinset.mp hmem)
      rw [List.toFinset_cons, hkept] at hrest
      exact .evict (fun hmem => hid (List.mem_toFinset.mp hmem)) (card_pages_eq h hfull)
        (List.mem_toFinset.mpr (perm.mem_iff.mpr List.mem_cons_self))
        (fun y hy => hvictim y (List.mem_toFinset.mp hy)) hrest

theorem hit_of_mem {ids ids' : List Int} {full : Bool} {farthest : Int → Prop} {loads : Nat}
    (h : Fetched ids full farthest id ids' loads) (hid : id ∈ ids) : ids'.Perm ids ∧ loads = 0 := by
  cases h with
  | hit _ perm => exact ⟨perm, rfl⟩
  | load hnot => exact absurd hid hnot
  | evict hnot => exact absurd hid hnot

end Step

section Run

structure Fetches (env : RestoreEnv) (reader : CacheReader α) (s s' : OptimalRestore α) (c : Chunk)
    (rest : List Int) : Prop where
  inv : OptimalInv env reader s'.cache rest
  maxSize : s'.cache.lruQueue.maxSize = s.cache.lruQueue.maxSize
  lastId : s'.cache.lastId = c.id
  effect : ∃ loads,
    s'.counts.readContainerNum = s.counts.readContainerNum + loads ∧
      (s.cache.records = [] →
        s'.cache.records = [] ∧
          Fetched (reader.ids s.cache.lruQueue) s.cache.lruQueue.isFull
            (fun victim => ∀ w ∈ reader.ids s.cache.lruQueue,
              (changes c.id rest).idxOf w ≤ (changes c.id rest).idxOf victim)
            c.id (reader.ids s'.cache.lruQueue) loads)

/-- The loop bodies of `optimal_restore_thread`, as far as its cache is concerned. -/
structure PagingStep (cfg : Config) (env : RestoreEnv) (reader : CacheReader α)
    (step : OptimalRestore α → Chunk → Except Abort (OptimalRestore α)) : Prop where
  normal : ∀ {s : OptimalRestore α} {c : Chunk} {rest : List Int}, c.isNormal = true →
    c.Held cfg env → (∀ x ∈ c.id :: rest, x ≠ temporaryId) →
    OptimalInv env reader s.cache (c.id :: rest) →
    ∃ s', step s c = .ok s' ∧ Fetches env reader s s' c rest
  signal : ∀ (s : OptimalRestore α) {c : Chunk}, c.isNormal = false →
    ∃ s', step s c = .ok s' ∧ s'.cache = s.cache ∧ s'.counts = s.counts

/-- With all records read, the thread serves the accesses to come as a farthest-first policy. -/
theorem paging_run {step : OptimalRestore α → Chunk → Except Abort (OptimalRestore α)}
    (hstep : PagingStep cfg env reader step) {stream : List Chunk}
    (hids : ∀ x ∈ containerIds stream, x ≠ temporaryId) (hheld : ∀ c ∈ stream, c.Held cfg env)
    {s : OptimalRestore α} (h : OptimalInv env reader s.cache (containerIds stream))
    (hread : s.cache.records = []) :
    ∃ s' n, foldE step s stream = .ok s' ∧
      s'.counts.readContainerNum = s.counts.readContainerNum + n ∧
      ServesFarthest (slots s.cache.lruQueue) (reader.pages s.cache.lruQueue)
        (changes s.cache.lastId (containerIds stream)) n := by
  induction stream generalizing s with
  | nil => exact ⟨s, 0, rfl, rfl, .nil⟩
  | cons c stream ih =>
      obtain ⟨hc, hstream⟩ := List.forall_mem_cons.mp hheld
      by_cases hnormal : c.isNormal = true
      · rw [containerIds_cons hnormal] at hids h ⊢
        obtain ⟨s₁, hok₁, hfetches⟩ := hstep.normal hnormal hc hids h
        obtain ⟨loads, hloads, heffect⟩ := hfetches.effect
        obtain ⟨hread₁, hfetched⟩ := heffect hread
        obtain ⟨s₂, n, hok₂, hcount, hserves⟩ := ih
          (fun x hx => hids x (List.mem_cons_of_mem _ hx)) hstream hfetches.inv hread₁
        rw [slots, hfetches.maxSize, hfetches.lastId] at hserves
        refine ⟨s₂, n + loads, bind_ok_iff.mpr ⟨s₁, hok₁, hok₂⟩, by omega, ?_⟩
        by_cases hlast : s.cache.lastId = c.id
        · -- an access that repeats the one before it hits
          have hmem : c.id ∈ reader.ids s.cache.lruQueue := by
            rcases h.last with htemp | hmem
            · exact absurd (hlast.symm.trans htemp) (hids c.id List.mem_cons_self)
            · exact hlast ▸ hmem
          obtain ⟨hperm, hzero⟩ := hit_of_mem hfetched hmem
          rw [CacheReader.pages, List.toFinset_eq_of_perm _ _ hperm] at hserves
          rw [hlast, changes_cons_self, hzero]
          exact hserves
        · rw [changes_cons_of_ne hlast]
          exact servesFarthest_of_fetched h.cache hfetched hserves
      · have hsignal : c.isNormal = false := by simpa using hnormal
        rw [containerIds_cons_of_signal hsignal] at hids h ⊢
        obtain ⟨s₁, hok₁, hcache, hcounts⟩ := hstep.signal s hsignal
        rw [← hcache] at h hread
        obtain ⟨s₂, n, hok₂, hcount, hserves⟩ := ih hids hstream h hread
        rw [hcache] at hserves
        rw [hcounts] at hcount
        exact ⟨s₂, n, bind_ok_iff.mpr ⟨s₁, hok₁, hok₂⟩, hcount, hserves⟩

end Run

section Threads

/-- Whole containers and metadata alone, whichever the simulation level caches. -/
theorem containerMetaReader_lawful (cfg : Config) (env : RestoreEnv) :
    (containerMetaReader cfg env).Lawful :=
  fun _ _ h => retrieveContainerMetaById_id h

theorem pagingStep_chunk (hreads : cfg.simulationLevel.readsData = true)
    (hwindow : env.WindowSized) :
    PagingStep cfg env (containerReader cfg env) (OptimalRestore.chunk cfg env) where
  normal := by
    intro s c rest hc hheld hids h
    obtain ⟨con, hcon, hfp⟩ := (hheld hc).lookupFingerprint
    obtain ⟨s₁, queue, loads, hfetch, hinv, hqueue, hmax, hpushed, hcounts, hlast, heffect⟩ :=
      OptimalRestore.fetch_spec hwindow (containerReader_lawful cfg env) hids h hcon
    obtain ⟨rc, hlookup, -⟩ := OptimalRestore.lookup_spec hreads hqueue hc hcon hfp
    refine ⟨_, (if_pos hc).trans (bind_ok_iff.mpr ⟨s₁, hfetch,
      bind_ok_iff.mpr ⟨_, hlookup, rfl⟩⟩), hinv.setHitCount _, hmax, hlast, loads, ?_, heffect⟩
    show s₁.counts.readContainerNum = _
    rw [hcounts]
  signal s c hc := ⟨_, if_neg (by simp [hc]), rfl, rfl⟩

theorem pagingStep_chunkMeta (hwindow : env.WindowSized) :
    PagingStep cfg env (containerMetaReader cfg env) (OptimalRestore.chunkMeta cfg env) where
  normal := by
    intro s c rest hc hheld hids h
    obtain ⟨hid, con, me, hcon, -⟩ := hheld hc
    obtain ⟨s₁, queue, loads, hfetch, hinv, -, hmax, -, hcounts, hlast, heffect⟩ :=
      OptimalRestore.fetch_spec hwindow (containerMetaReader_lawful cfg env) hids h
        (retrieveContainerMetaById_of_byId hid hcon)
    refine ⟨_, (if_pos hc).trans (bind_ok_iff.mpr ⟨s₁, hfetch, rfl⟩), hinv, hmax, hlast, loads,
      ?_, heffect⟩
    show s₁.counts.readContainerNum = _
    rw [hcounts]
  signal s c hc := ⟨_, if_neg (by simp [hc]), rfl, rfl⟩

variable {rb : RecordedBackup}

theorem RestoreEnv.windowFits_of_fits {records : Nat} (hallocates : env.optWindowSize + 1 < 2 ^ 31)
    (hfits : (records : Int) ≤ env.optWindowSize) : env.WindowFits records :=
  ⟨hallocates, Or.inr hfits⟩

theorem RecordedBackup.one_le_window (hfits : (rb.records.length : Int) ≤ env.optWindowSize) :
    1 ≤ env.optWindowSize := by
  unfold RecordedBackup.records accessRecords at hfits
  rw [List.length_append, List.length_singleton] at hfits
  omega

/-- The thread, run by either of its loop bodies, reads no more containers than any policy. -/
theorem paging_optimal {step : OptimalRestore α → Chunk → Except Abort (OptimalRestore α)}
    (hstep : PagingStep cfg env reader step) (hcache : 1 ≤ cfg.restoreCacheSize)
    (hsound : rb.Sound cfg env) (hfits : (rb.records.length : Int) ≤ env.optWindowSize)
    (hallocates : env.optWindowSize + 1 < 2 ^ 31) :
    ∃ s s' : OptimalRestore α, OptimalRestore.init cfg env rb.records = .ok s ∧
      foldE step s rb.restoreStream = .ok s' ∧
      ∀ m, Serves cfg.restoreCacheSize.toNat ∅ (rb.pointers.map ChunkPointer.id) m →
        s'.counts.readContainerNum ≤ m := by
  have hpos := rb.one_le_window hfits
  have hrecords : rb.records = accessRecords (containerIds rb.restoreStream) := by
    rw [containerIds_restoreStream]
    rfl
  rw [hrecords] at hfits ⊢
  obtain ⟨s, hinit, hinv, hcounts, -, hlru, hlast, hall⟩ :=
    OptimalInv.init cfg reader hpos hcache hsound.ids
      (RestoreEnv.windowFits_of_fits hallocates hfits)
  have hids : reader.ids s.cache.lruQueue = [] := by
    rw [hlru]
    rfl
  have hslots : slots s.cache.lruQueue = cfg.restoreCacheSize.toNat := by
    rw [hlru]
    rfl
  obtain ⟨s', n, hok, hcount, hserves⟩ :=
    paging_run hstep hsound.ids hsound.held hinv (hall hfits)
  rw [hcounts] at hcount
  rw [hslots, hlast, CacheReader.pages, hids, List.toFinset_nil, containerIds_restoreStream]
    at hserves
  have hhead : (rb.pointers.map ChunkPointer.id).head? ≠ some temporaryId := by
    intro heq
    rw [← containerIds_restoreStream] at heq
    exact hsound.ids temporaryId (List.mem_of_head? heq) rfl
  refine ⟨s, s', hinit, hok, fun m hm => ?_⟩
  have hle := hserves.le (by simp) (hm.changes (Or.inr hhead))
  have hzero : s'.counts.readContainerNum = n := by
    rw [hcount]
    exact Nat.zero_add n
  omega

/-- The optimal thread comes to its end on what the recipe thread reads of the backup, with no more
containers read than by any demand-fetching policy with as many slots that serves the containers of the
recipe. -/
def ReadsFewest (cfg : Config) (env : RestoreEnv) (rb : RecordedBackup) (bvNum : Nat) : Prop :=
  ∃ bv stream r, rb.write bvNum = .ok bv ∧ readRecipeThread bv = .ok stream ∧
    optimalRestoreThread cfg env bv.records stream = .ok r ∧
    ∀ m, Serves cfg.restoreCacheSize.toNat ∅ (rb.pointers.map ChunkPointer.id) m →
      r.1.readContainerNum ≤ m

/-- Where the window takes all records of a backup, the terminator included, the optimal restore
thread reads the fewest containers if and only if the recipe thread can count the files and chunks and
an array takes the window. -/
theorem optimal_restore_is_optimal_iff (cfg : Config) (env : RestoreEnv) (rb : RecordedBackup)
    (bvNum : Nat) (hcache : 1 ≤ cfg.restoreCacheSize) (hsound : rb.Sound cfg env)
    (hfits : (rb.records.length : Int) ≤ env.optWindowSize) :
    ReadsFewest cfg env rb bvNum ↔ rb.CountsFit ∧ env.optWindowSize + 1 < 2 ^ 31 := by
  obtain ⟨bv, hwrite, hrec⟩ := rb.write_recorded bvNum fun cp hcp => (hsound cp hcp).1.nonneg
  constructor
  · rintro ⟨bv', stream, r, hwrite', hstream, hopt, -⟩
    obtain rfl := Except.ok.inj (hwrite.symm.trans hwrite')
    obtain ⟨hcounts, hwindow⟩ :=
      windowFits_of_recorded (rb.one_le_window hfits) hsound hrec hstream hopt
    exact ⟨hcounts, hwindow.allocates⟩
  · rintro ⟨hcounts, hallocates⟩
    have hwindow : env.WindowSized := ⟨rb.one_le_window hfits, hallocates⟩
    have hrecords : bv.records = rb.records := hrec.records
    suffices h : ∃ r, optimalRestoreThread cfg env rb.records rb.restoreStream = .ok r ∧
        ∀ m, Serves cfg.restoreCacheSize.toNat ∅ (rb.pointers.map ChunkPointer.id) m →
          r.1.readContainerNum ≤ m by
      obtain ⟨r, hok, hle⟩ := h
      exact ⟨bv, rb.restoreStream, r, hwrite, hrec.readRecipeThread hcounts, hrecords ▸ hok, hle⟩
    unfold optimalRestoreThread
    by_cases hreads : cfg.simulationLevel.readsData = true
    · obtain ⟨s, s', hinit, hok, hle⟩ :=
        paging_optimal (pagingStep_chunk hreads hwindow) hcache hsound hfits hallocates
      refine ⟨(s'.counts, s'.pushed), ?_, hle⟩
      rw [if_pos hreads]
      exact bind_ok_iff.mpr ⟨s, hinit, bind_ok_iff.mpr ⟨s', hok, rfl⟩⟩
    · obtain ⟨s, s', hinit, hok, hle⟩ :=
        paging_optimal (pagingStep_chunkMeta hwindow) hcache hsound hfits hallocates
      refine ⟨(s'.counts, s'.pushed), ?_, hle⟩
      rw [if_neg hreads]
      exact bind_ok_iff.mpr ⟨s, hinit, bind_ok_iff.mpr ⟨s', hok, rfl⟩⟩

/-- Two slots for three containers: a policy that evicts container 1 for container 2 gets by with four
reads, so the optimal thread does. -/
theorem optimal_restore_is_optimal_iff_pooled : ∃ bv stream r,
    pooledBackup.write 0 = .ok bv ∧ readRecipeThread bv = .ok stream ∧
      optimalRestoreThread pooledConfig (pooledEnv 6) bv.records stream = .ok r ∧
      r.1.readContainerNum ≤ 4 := by
  obtain ⟨bv, stream, r, hwrite, hread, hopt, hle⟩ :=
    (optimal_restore_is_optimal_iff pooledConfig (pooledEnv 6) pooledBackup 0 (by decide)
      (pooledBackup_sound 6) (by decide)).mpr ⟨pooledBackup_countsFit, by decide⟩
  have hpolicy : Serves 2 ∅ [(0 : Int), 1, 2, 0, 1] 4 := by
    refine .load (by decide) (by decide) (.load (by decide) (by decide) ?_)
    refine .evict (by decide) (by decide) (show (1 : Int) ∈ _ by decide) (.hit (by decide) ?_)
    exact .evict (by decide) (by decide) (show (2 : Int) ∈ _ by decide) .nil
  exact ⟨bv, stream, r, hwrite, hread, hopt, hle 4 hpolicy⟩

/-- The greatest window that an `int` takes would hold all records of the backup, but no array does. -/
theorem greatest_window_reads_nothing :
    (pooledBackup.records.length : Int) ≤ (pooledEnv 2147483647).optWindowSize ∧
      ¬ ReadsFewest pooledConfig (pooledEnv 2147483647) pooledBackup 0 := by
  refine ⟨by decide, ?_⟩
  obtain ⟨bv, hwrite, hrec⟩ :=
    pooledBackup.write_recorded 0 fun cp hcp => (pooledBackup_sound 2147483647 cp hcp).1.nonneg
  rintro ⟨bv', stream, r, hwrite', hstream, hopt, -⟩
  obtain rfl := Except.ok.inj (hwrite.symm.trans hwrite')
  obtain ⟨-, hfits⟩ :=
    windowFits_of_recorded (by decide) (pooledBackup_sound 2147483647) hrec hstream hopt
  exact absurd hfits.allocates (by decide)

end Threads

end Destor
