/- digest: The restore cache that a backup simulates by container ids, and the one that a restore
   searches by fingerprints. -/

import Destor.RewriteMonitor
import Destor.Restore.SimulatedRestore
import Destor.Utils.LruRecency

set_option autoImplicit false
set_option relaxedAutoImplicit false

namespace Destor

open Library.Outcome Library.Lru

def monitorRecipe (cfg : Config) (stream : List Chunk) : RestoreAware :=
  (stream.filter Chunk.isNormal).foldl (fun m c => restoreAwareUpdate m c.id c.size)
    (initRestoreAware cfg)

/-- The containers named last by the chunks of a recipe, as many as fit the cache, the latest
first. -/
def recentContainers (cfg : Config) (stream : List Chunk) : List Int :=
  ((stream.filter Chunk.isNormal).map Chunk.id).foldl (access cfg.restoreCacheSize.toNat) []

/-- Container `id` of the pool file can be read and has an entry for `fp`. -/
def HasChunk (cfg : Config) (env : RestoreEnv) (id : Int) (fp : Fingerprint) : Prop :=
  ContainerStore.InPool cfg id ∧ ∃ con, env.store.retrieveContainerById cfg id = .ok con ∧
    con.lookupFingerprint fp = true

def OwnContainerFirst (cfg : Config) (env : RestoreEnv) (stream : List Chunk) : Prop :=
  ∀ before c after, stream = before ++ c :: after → c.isNormal = true →
    ∀ id ∈ (recentContainers cfg before).takeWhile (· != c.id), ¬ HasChunk cfg env id c.fp

namespace LruCache

variable {α : Type} {hit hit' : α → Bool} {queue : List α}

/-- Two searches that agree up to the first element the second one finds. -/
theorem moveToFront_congr (hfront : ∀ e ∈ queue.takeWhile (fun e => !hit' e), hit e = false)
    (hfound : ∀ e ∈ queue, hit' e = true → hit e = true) :
    queue.find? hit = queue.find? hit' ∧ queue.eraseP hit = queue.eraseP hit' := by
  induction queue with
  | nil => exact ⟨rfl, rfl⟩
  | cons e queue ih =>
      obtain ⟨he, hqueue⟩ := List.forall_mem_cons.mp hfound
      cases hit'e : hit' e with
      | true => simp [hit'e, he hit'e]
      | false =>
          rw [List.takeWhile_cons_of_pos (by simp [hit'e])] at hfront
          obtain ⟨hite, hrest⟩ := List.forall_mem_cons.mp hfront
          obtain ⟨hfind, herase⟩ := ih hrest hqueue
          simp [hit'e, hite, hfind, herase]

theorem lookup_congr {c : LruCache α}
    (hfront : ∀ e ∈ c.elemQueue.takeWhile (fun e => !hit' e), hit e = false)
    (hfound : ∀ e ∈ c.elemQueue, hit' e = true → hit e = true) :
    c.lookup hit = c.lookup hit' := by
  obtain ⟨hfind, herase⟩ := moveToFront_congr hfront hfound
  unfold LruCache.lookup moveToFront
  rw [hfind, herase]

end LruCache

section Monitor

variable {cfg : Config} {stream : List Chunk} {m : RestoreAware} {c : Chunk}

theorem monitorRecipe_snoc (cfg : Config) (stream : List Chunk) (hc : c.isNormal = true) :
    monitorRecipe cfg (stream ++ [c]) =
      restoreAwareUpdate (monitorRecipe cfg stream) c.id c.size := by
  simp [monitorRecipe, hc]

theorem monitorRecipe_signal (cfg : Config) (stream : List Chunk) (hc : c.isNormal = false) :
    monitorRecipe cfg (stream ++ [c]) = monitorRecipe cfg stream := by
  simp [monitorRecipe, hc]

theorem recentContainers_snoc (cfg : Config) (stream : List Chunk) (hc : c.isNormal = true) :
    recentContainers cfg (stream ++ [c]) =
      access cfg.restoreCacheSize.toNat (recentContainers cfg stream) c.id := by
  simp [recentContainers, hc]

theorem recentContainers_signal (cfg : Config) (stream : List Chunk) (hc : c.isNormal = false) :
    recentContainers cfg (stream ++ [c]) = recentContainers cfg stream := by
  simp [recentContainers, hc]

structure MonitorCache (cfg : Config) (cache : LruCache Int) : Prop where
  maxSize : cache.maxSize = cfg.restoreCacheSize
  bound : cache.WithinBound

/-- An update uses its container. -/
theorem MonitorCache.update (h : MonitorCache cfg m.cache) (hpos : 1 ≤ cfg.restoreCacheSize)
    (id : Int) (size : Nat) :
    MonitorCache cfg (restoreAwareUpdate m id size).cache ∧
      (restoreAwareUpdate m id size).cache.elemQueue =
        access cfg.restoreCacheSize.toNat m.cache.elemQueue id := by
  have hmax : 0 < m.cache.maxSize := by
    rw [h.maxSize]
    omega
  have hbound := h.bound.lookup (· == id)
  cases hfind : m.cache.elemQueue.find? (· == id) with
  | some e =>
      have hmem : id ∈ m.cache.elemQueue := by
        have heq : e = id := by simpa using List.find?_some hfind
        exact heq ▸ List.mem_of_find?_eq_some hfind
      have hkey : id ∈ m.cache.elemQueue.map fun e => e := by simpa using hmem
      have hfront := LruCache.map_moveToFront hkey
      have hlen : (m.cache.elemQueue.map fun e => e).length ≤ m.cache.maxSize.toNat :=
        LruCache.length_keys_le h.bound hmax
      simp only [List.map_id'] at hfront hlen
      simp only [restoreAwareUpdate, LruCache.lookup, hfind] at hbound ⊢
      refine ⟨⟨h.maxSize, hbound⟩, ?_⟩
      rw [access_hit hmem (h.maxSize ▸ hlen)]
      exact hfront
  | none =>
      have hmem : id ∉ m.cache.elemQueue := by
        intro hmem
        have := List.find?_eq_none.mp hfind id hmem
        simp at this
      simp only [restoreAwareUpdate, LruCache.lookup, hfind] at hbound ⊢
      refine ⟨⟨?_, hbound.insert id⟩, ?_⟩
      · rw [LruCache.maxSize_insert]
        exact h.maxSize
      · rw [access_miss hmem, LruCache.insert_elemQueue_eq hbound hmax, h.maxSize]

/-- The monitor holds the containers used last. -/
theorem monitorRecipe_cache (hpos : 1 ≤ cfg.restoreCacheSize) (stream : List Chunk) :
    MonitorCache cfg (monitorRecipe cfg stream).cache ∧
      (monitorRecipe cfg stream).cache.elemQueue = recentContainers cfg stream := by
  induction stream using List.reverseRecOn with
  | nil => exact ⟨⟨rfl, LruCache.withinBound_new _⟩, rfl⟩
  | append_singleton stream c ih =>
      cases hc : c.isNormal with
      | false =>
          rw [monitorRecipe_signal cfg stream hc, recentContainers_signal cfg stream hc]
          exact ih
      | true =>
          obtain ⟨hcache, hqueue⟩ := ih
          rw [monitorRecipe_snoc cfg stream hc, recentContainers_snoc cfg stream hc, ← hqueue]
          exact hcache.update hpos c.id c.size

end Monitor

section Restore

variable {cfg : Config} {env : RestoreEnv} {α : Type} {reader : CacheReader α}
  {s : LruRestore α} {m : RestoreAware} {c : Chunk}

/-- A reader finds the containers of the store, with their metadata. -/
def CacheReader.Reads (reader : CacheReader α) (cfg : Config) (env : RestoreEnv) : Prop :=
  ∀ id con, ContainerStore.InPool cfg id → env.store.retrieveContainerById cfg id = .ok con →
    ∃ e, reader.retrieve id = .ok e ∧ reader.toMeta e = con.toContainerMeta

theorem containerReader_reads (cfg : Config) (env : RestoreEnv) :
    (containerReader cfg env).Reads cfg env :=
  fun _ con _ hcon => ⟨con, hcon, rfl⟩

theorem containerMetaReader_reads (cfg : Config) (env : RestoreEnv) :
    (containerMetaReader cfg env).Reads cfg env :=
  fun _ con hid hcon => ⟨con.toContainerMeta, retrieveContainerMetaById_of_byId hid hcon, rfl⟩

/-- What is cached was read under its own id, as the container of the store. -/
def ReadFrom (reader : CacheReader α) (cfg : Config) (env : RestoreEnv) (e : α) : Prop :=
  reader.retrieve (reader.toMeta e).id = .ok e ∧
    ContainerStore.InPool cfg (reader.toMeta e).id ∧
    ∃ con, env.store.retrieveContainerById cfg (reader.toMeta e).id = .ok con ∧
      reader.toMeta e = con.toContainerMeta

/-- The restore cache holds the containers whose ids the monitor holds, in the same order. -/
structure Follows (reader : CacheReader α) (cfg : Config) (env : RestoreEnv) (s : LruRestore α)
    (m : RestoreAware) : Prop where
  cache : LruCache.Mirrors (fun e => (reader.toMeta e).id) s.cache m.cache
  counts : s.counts.readContainerNum = m.ccf
  read : ∀ e ∈ s.cache.elemQueue, ReadFrom reader cfg env e

theorem ReadFrom.hasFp_iff {e : α} (h : ReadFrom reader cfg env e) (fp : Fingerprint) :
    reader.hasFp fp e = true ↔ HasChunk cfg env (reader.toMeta e).id fp := by
  obtain ⟨-, hid, con, hcon, hmeta⟩ := h
  constructor
  · intro hfp
    refine ⟨hid, con, hcon, ?_⟩
    rw [CacheReader.hasFp, hmeta] at hfp
    exact hfp
  · rintro ⟨-, con', hcon', hfp⟩
    cases hcon.symm.trans hcon'
    rw [CacheReader.hasFp, hmeta]
    exact hfp

/-- Where no other container comes first, the search by fingerprint is one by container id. -/
theorem Follows.lookup_eq (h : Follows reader cfg env s m) (hown : HasChunk cfg env c.id c.fp)
    (hfirst : ∀ id ∈ m.cache.elemQueue.takeWhile (· != c.id), ¬ HasChunk cfg env id c.fp) :
    s.cache.lookup (reader.hasFp c.fp) = s.cache.lookup (reader.checkId c.id) := by
  refine LruCache.lookup_congr ?_ ?_
  · intro e he
    have hread := h.read e ((List.takeWhile_sublist _).subset he)
    have hnot := hfirst (reader.toMeta e).id (by
      rw [h.cache.elemQueue, List.takeWhile_map]
      exact List.mem_map_of_mem he)
    exact Bool.eq_false_iff.mpr fun hfp => hnot ((hread.hasFp_iff c.fp).mp hfp)
  · intro e he hid
    have heq : (reader.toMeta e).id = c.id := by simpa [CacheReader.checkId] using hid
    exact ((h.read e he).hasFp_iff c.fp).mpr (heq.symm ▸ hown)

/-- One chunk is fetched as the monitor foresaw it. -/
theorem lruFetch_follows (hreads : reader.Reads cfg env) (check : α → Except Abort Unit)
    (hcheck : ∀ e, reader.hasFp c.fp e = true → check e = .ok ())
    (h : Follows reader cfg env s m) (hown : HasChunk cfg env c.id c.fp)
    (hfirst : ∀ id ∈ m.cache.elemQueue.takeWhile (· != c.id), ¬ HasChunk cfg env id c.fp) :
    ∃ e s', lruFetch reader check s c = .ok (e, s') ∧ ReadFrom reader cfg env e ∧
      reader.hasFp c.fp e = true ∧
      Follows reader cfg env s' (restoreAwareUpdate m c.id c.size) := by
  have hlookup : (m.cache.lookup (· == c.id)).1 =
        (s.cache.lookup (reader.checkId c.id)).1.map (fun e => (reader.toMeta e).id) ∧
      LruCache.Mirrors (fun e => (reader.toMeta e).id) (s.cache.lookup (reader.checkId c.id)).2
        (m.cache.lookup (· == c.id)).2 := h.cache.lookup fun _ => rfl
  obtain ⟨hfst, hsnd⟩ := hlookup
  unfold lruFetch restoreAwareUpdate
  rw [h.lookup_eq hown hfirst]
  have hmem := fun e => LruCache.mem_lookup_snd (e := e) s.cache (reader.checkId c.id)
  have hfind := LruCache.lookup_fst s.cache (reader.checkId c.id)
  generalize s.cache.lookup (reader.checkId c.id) = r at hfst hsnd hmem hfind
  generalize m.cache.lookup (· == c.id) = r' at hfst hsnd
  obtain ⟨found, cache⟩ := r
  obtain ⟨found', cache'⟩ := r'
  simp only at hfst hsnd hmem hfind
  subst hfst
  cases found with
  | some e =>
      have hin : e ∈ s.cache.elemQueue := List.mem_of_find?_eq_some hfind.symm
      have hid : (reader.toMeta e).id = c.id := by
        simpa [CacheReader.checkId] using List.find?_some hfind.symm
      refine ⟨e, _, rfl, h.read e hin, ((h.read e hin).hasFp_iff c.fp).mpr (hid.symm ▸ hown), hsnd,
        h.counts, fun e' he' => h.read e' ((hmem e').mp he')⟩
  | none =>
      obtain ⟨hid, con, hcon, hfp⟩ := hown
      obtain ⟨e, he, hmeta⟩ := hreads c.id con hid hcon
      have heid : (reader.toMeta e).id = c.id := by
        rw [hmeta]
        exact retrieveContainerById_id hcon
      have hread : ReadFrom reader cfg env e := by
        rw [ReadFrom, heid]
        exact ⟨he, hid, con, hcon, hmeta⟩
      have hefp := (hread.hasFp_iff c.fp).mpr (heid.symm ▸ ⟨hid, con, hcon, hfp⟩)
      refine ⟨e, _, bind_ok_iff.mpr ⟨e, he, bind_ok_iff.mpr ⟨(), hcheck e hefp, rfl⟩⟩, hread, hefp,
        ?_, congrArg (· + 1) h.counts, fun e' he' => ?_⟩
      · have hinsert := hsnd.insert e
        rwa [heid] at hinsert
      · rcases LruCache.mem_of_mem_insert he' with rfl | he'
        · exact hread
        · exact h.read e' ((hmem e').mp he')

/-- Where another container comes first, the chunk is served by it, and nothing is read. -/
theorem lruFetch_foreign (check : α → Except Abort Unit) (h : Follows reader cfg env s m)
    (hforeign : ∃ id ∈ m.cache.elemQueue.takeWhile (· != c.id), HasChunk cfg env id c.fp) :
    ∃ e s', lruFetch reader check s c = .ok (e, s') ∧ (reader.toMeta e).id ≠ c.id ∧
      ReadFrom reader cfg env e ∧ reader.hasFp c.fp e = true ∧ s'.counts = s.counts := by
  obtain ⟨id, hid, hhas⟩ := hforeign
  rw [h.cache.elemQueue, List.takeWhile_map] at hid
  obtain ⟨e₀, he₀, rfl⟩ := List.mem_map.mp hid
  have hqueue := List.takeWhile_append_dropWhile (l := s.cache.elemQueue)
    (p := fun e => (reader.toMeta e).id != c.id)
  have hread : ∀ e ∈ s.cache.elemQueue.takeWhile fun e => (reader.toMeta e).id != c.id,
      ReadFrom reader cfg env e := fun e he => h.read e ((List.takeWhile_sublist _).subset he)
  have hsome : ((s.cache.elemQueue.takeWhile fun e => (reader.toMeta e).id != c.id).find?
      (reader.hasFp c.fp)).isSome = true :=
    List.find?_isSome.mpr ⟨e₀, he₀, ((hread e₀ he₀).hasFp_iff c.fp).mpr hhas⟩
  obtain ⟨e, he⟩ := Option.isSome_iff_exists.mp hsome
  have hfront := List.mem_of_find?_eq_some he
  have hfind : s.cache.elemQueue.find? (reader.hasFp c.fp) = some e := by
    rw [← hqueue, List.find?_append, he]
    rfl
  have hne : (reader.toMeta e).id ≠ c.id := by
    simpa using List.mem_takeWhile_imp (p := fun e => (reader.toMeta e).id != c.id) hfront
  refine ⟨e, { s with cache := (s.cache.lookup (reader.hasFp c.fp)).2 }, ?_, hne, hread e hfront,
    List.find?_some he, rfl⟩
  simp only [lruFetch, LruCache.lookup, hfind]

theorem lruRestoreChunk_follows (hdata : cfg.simulationLevel.readsData = true)
    {s : LruRestore Container} (h : Follows (containerReader cfg env) cfg env s m)
    (hc : c.isNormal = true) (hown : HasChunk cfg env c.id c.fp)
    (hfirst : ∀ id ∈ m.cache.elemQueue.takeWhile (· != c.id), ¬ HasChunk cfg env id c.fp) :
    ∃ s', lruRestoreChunk cfg env s c = .ok s' ∧
      Follows (containerReader cfg env) cfg env s' (restoreAwareUpdate m c.id c.size) := by
  obtain ⟨con, s₁, hfetch, hread, hfp, h₁⟩ :=
    lruFetch_follows (containerReader_reads cfg env) (fun _ => .ok ()) (fun _ _ => rfl) h hown hfirst
  obtain ⟨rc, hrc, -⟩ :=
    getChunkInContainer_restores hdata hread.1 hc hfp (env.stray con c.fp)
  unfold lruRestoreChunk
  rw [if_pos hc]
  exact ⟨_, bind_ok_iff.mpr ⟨_, hfetch, bind_ok_iff.mpr ⟨rc, hrc, rfl⟩⟩, h₁.cache, h₁.counts,
    h₁.read⟩

/-- The miss that the monitor counts for such a chunk is none of the restore's. -/
theorem lruRestoreChunk_foreign (hdata : cfg.simulationLevel.readsData = true)
    {s : LruRestore Container} (h : Follows (containerReader cfg env) cfg env s m)
    (hc : c.isNormal = true)
    (hforeign : ∃ id ∈ m.cache.elemQueue.takeWhile (· != c.id), HasChunk cfg env id c.fp) :
    ∃ s', lruRestoreChunk cfg env s c = .ok s' ∧
      s'.counts.readContainerNum = s.counts.readContainerNum := by
  obtain ⟨con, s₁, hfetch, -, hread, hfp, hcounts⟩ := lruFetch_foreign (fun _ => .ok ()) h hforeign
  obtain ⟨rc, hrc, -⟩ :=
    getChunkInContainer_restores hdata hread.1 hc hfp (env.stray con c.fp)
  unfold lruRestoreChunk
  rw [if_pos hc]
  refine ⟨_, bind_ok_iff.mpr ⟨_, hfetch, bind_ok_iff.mpr ⟨rc, hrc, rfl⟩⟩, ?_⟩
  show s₁.counts.readContainerNum = s.counts.readContainerNum
  rw [hcounts]

theorem lruRestoreChunkMeta_follows {s : LruRestore ContainerMeta}
    (h : Follows (containerMetaReader cfg env) cfg env s m) (hc : c.isNormal = true)
    (hown : HasChunk cfg env c.id c.fp)
    (hfirst : ∀ id ∈ m.cache.elemQueue.takeWhile (· != c.id), ¬ HasChunk cfg env id c.fp) :
    ∃ s', lruRestoreChunkMeta cfg env s c = .ok s' ∧
      Follows (containerMetaReader cfg env) cfg env s' (restoreAwareUpdate m c.id c.size) := by
  obtain ⟨cm, s₁, hfetch, -, -, h₁⟩ :=
    lruFetch_follows (containerMetaReader_reads cfg env)
      (fun cm => require (cm.lookupFingerprint c.fp = true) .fingerprintNotInMeta)
      (fun _ hfp => require_of hfp) h hown hfirst
  unfold lruRestoreChunkMeta
  rw [if_pos hc]
  exact ⟨_, bind_ok_iff.mpr ⟨_, hfetch, rfl⟩, h₁.cache, h₁.counts, h₁.read⟩

/-- A whole recipe, given what one chunk and one signal do. -/
theorem foldE_follows {f : LruRestore α → Chunk → Except Abort (LruRestore α)} {stream : List Chunk}
    (hchunk : ∀ s m c, Follows reader cfg env s m → c.isNormal = true → HasChunk cfg env c.id c.fp →
      (∀ id ∈ m.cache.elemQueue.takeWhile (· != c.id), ¬ HasChunk cfg env id c.fp) →
        ∃ s', f s c = .ok s' ∧ Follows reader cfg env s' (restoreAwareUpdate m c.id c.size))
    (hsignal : ∀ s m c, Follows reader cfg env s m → c.isNormal = false →
      ∃ s', f s c = .ok s' ∧ Follows reader cfg env s' m)
    (hpos : 1 ≤ cfg.restoreCacheSize)
    (hown : ∀ c ∈ stream, c.isNormal = true → HasChunk cfg env c.id c.fp)
    (hfirst : OwnContainerFirst cfg env stream) :
    ∀ rest before s, before ++ rest = stream →
      Follows reader cfg env s (monitorRecipe cfg before) →
        ∃ s', foldE f s rest = .ok s' ∧ Follows reader cfg env s' (monitorRecipe cfg stream) := by
  intro rest
  induction rest with
  | nil =>
      intro before s hsplit h
      rw [List.append_nil] at hsplit
      exact ⟨s, rfl, hsplit ▸ h⟩
  | cons c rest ih =>
      intro before s hsplit h
      have hsplit' : (before ++ [c]) ++ rest = stream := by
        rw [List.append_assoc]
        exact hsplit
      cases hc : c.isNormal with
      | false =>
          obtain ⟨s₁, hok, h₁⟩ := hsignal s _ c h hc
          rw [← monitorRecipe_signal cfg before hc] at h₁
          obtain ⟨s', hrest, h'⟩ := ih (before ++ [c]) s₁ hsplit' h₁
          exact ⟨s', bind_ok_iff.mpr ⟨s₁, hok, hrest⟩, h'⟩
      | true =>
          have hmem : c ∈ stream := hsplit ▸ List.mem_append_right _ List.mem_cons_self
          have hfront := hfirst before c rest hsplit.symm hc
          rw [← (monitorRecipe_cache hpos before).2] at hfront
          obtain ⟨s₁, hok, h₁⟩ := hchunk s _ c h hc (hown c hmem hc) hfront
          rw [← monitorRecipe_snoc cfg before hc] at h₁
          obtain ⟨s', hrest, h'⟩ := ih (before ++ [c]) s₁ hsplit' h₁
          exact ⟨s', bind_ok_iff.mpr ⟨s₁, hok, hrest⟩, h'⟩

theorem follows_init (reader : CacheReader α) (cfg : Config) (env : RestoreEnv) :
    Follows reader cfg env (LruRestore.init cfg) (monitorRecipe cfg []) :=
  ⟨LruCache.mirrors_new _ _, rfl, fun _ he => absurd he List.not_mem_nil⟩

/-- The monitor of a backup foresees how many containers its restore reads, as long as the cache
never shows another container with the fingerprint before the chunk's own. -/
theorem monitor_foresees_restore (cfg : Config) (env : RestoreEnv) (stream : List Chunk)
    (hpos : 1 ≤ cfg.restoreCacheSize)
    (hown : ∀ c ∈ stream, c.isNormal = true → HasChunk cfg env c.id c.fp)
    (hfirst : OwnContainerFirst cfg env stream) :
    ∃ r, lruRestoreThread cfg env stream = .ok r ∧
      r.1.readContainerNum = (monitorRecipe cfg stream).ccf := by
  unfold lruRestoreThread
  cases hdata : cfg.simulationLevel.readsData with
  | true =>
      obtain ⟨s, hok, h⟩ := foldE_follows (f := lruRestoreChunk cfg env)
        (fun s m c h hc hown hfirst => lruRestoreChunk_follows hdata h hc hown hfirst)
        (fun s m c h hc => ⟨{ s with pushed := s.pushed ++ [c] }, by simp [lruRestoreChunk, hc],
          h.cache, h.counts, h.read⟩)
        hpos hown hfirst stream [] (LruRestore.init cfg) rfl (follows_init _ cfg env)
      exact ⟨(s.counts, s.pushed), bind_ok_iff.mpr ⟨s, hok, rfl⟩, h.counts⟩
  | false =>
      obtain ⟨s, hok, h⟩ := foldE_follows (f := lruRestoreChunkMeta cfg env)
        (fun s m c h hc hown hfirst => lruRestoreChunkMeta_follows h hc hown hfirst)
        (fun s m c h hc => ⟨{ s with pushed := s.pushed ++ [c] }, by simp [lruRestoreChunkMeta, hc],
          h.cache, h.counts, h.read⟩)
        hpos hown hfirst stream [] (LruRestore.init cfg) rfl (follows_init _ cfg env)
      exact ⟨(s.counts, s.pushed), bind_ok_iff.mpr ⟨s, hok, rfl⟩, h.counts⟩

end Restore

section Example

open Library.Bytes

private def sameContainer : List Chunk := [(bytePointer 1 0).toChunk, (bytePointer 2 0).toChunk]

/-- The second chunk is found where the first one was. -/
theorem monitor_foresees_restore_same_container : ∃ r,
    lruRestoreThread pooledConfig (pooledEnv 2) sameContainer = .ok r ∧
      r.1.readContainerNum = (monitorRecipe pooledConfig sameContainer).ccf := by
  have hpointers : ∀ cp ∈ [bytePointer 1 0, bytePointer 2 0], cp ∈ pooledBackup.pointers := by decide
  refine monitor_foresees_restore pooledConfig (pooledEnv 2) sameContainer (by decide) ?_ ?_
  · intro c hc hnormal
    obtain ⟨cp, hcp, rfl⟩ : ∃ cp ∈ [bytePointer 1 0, bytePointer 2 0], cp.toChunk = c :=
      List.mem_map.mp hc
    have hholds : Holds pooledConfig (pooledEnv 2) cp.toChunk.id cp.toChunk.fp cp.toChunk.size :=
      pooledBackup_sound 2 cp (hpointers cp hcp)
    exact ⟨hholds.1, hholds.lookupFingerprint⟩
  · intro before c after hsplit _ id hid
    -- what was used before the second chunk is its own container
    rcases before with _ | ⟨x, _ | ⟨y, before⟩⟩
    · exact absurd hid List.not_mem_nil
    · obtain ⟨hx, hc⟩ := List.cons.inj hsplit
      obtain ⟨hc, -⟩ := List.cons.inj hc
      subst hx hc
      have hnone : (recentContainers pooledConfig ([] ++ [(bytePointer 1 0).toChunk])).takeWhile
          (· != 0) = [] := by decide
      exact absurd (hnone ▸ hid) List.not_mem_nil
    · have hlen := congrArg List.length hsplit
      simp [sameContainer] at hlen

private def twoEntries : List Chunk :=
  [ChunkPointer.toChunk { fp := .fill 0, id := 0, size := 1 },
    ChunkPointer.toChunk { fp := .fill 0, id := 1, size := 1 }]

/-- Two containers, each of which holds one chunk of one byte with the same fingerprint. -/
def twoCopiesStore : ContainerStore where
  containerCount := 2
  file i :=
    let block := containerSize - containerMetaSize + 8
    if i = block + 11 ∨ i = block + 36 ∨ i = containerSize + block + 7 ∨
      i = containerSize + block + 11 ∨ i = containerSize + block + 36 then 1
    else 0

def twoCopiesEnv : RestoreEnv := { pooledEnv 2 with store := twoCopiesStore }

private theorem hasChunk_of_block {env : RestoreEnv} {id : Int}
    (hpool : ContainerStore.InPool pooledConfig id) (block : Image)
    (hblock : fromOffset (fromOffset env.store.file (toInt64 (id * containerSize + 8)).toNat)
      (containerSize - containerMetaSize) = block)
    (hid : unserInt64 (read block 0 8) = id) (hnum : unserInt32 (read block 8 4) = 1)
    (hfp : read block 16 20 = (Fingerprint.fill 0).bytes) :
    HasChunk pooledConfig env id (.fill 0) := by
  have hreads : pooledConfig.simulationLevel.readsData = true := rfl
  have hkey : (⟨read block 16 20, length_read _ _ _⟩ : Fingerprint) = .fill 0 :=
    Fingerprint.ext hfp
  refine ⟨hpool, ?_⟩
  unfold ContainerStore.retrieveContainerById
  simp only [hreads, if_true, hblock]
  unfold unserContainerMeta
  rw [require_of hid, hnum]
  refine ⟨_, rfl, ?_⟩
  show (AList.lookup (Fingerprint.fill 0) (AList.insert ⟨read block 16 20, length_read _ _ _⟩
    _ ∅)).isSome = true
  rw [hkey, AList.lookup_insert]
  rfl

private theorem twoCopies_hasChunk {id : Int} (h : id = 0 ∨ id = 1) :
    HasChunk pooledConfig twoCopiesEnv id (.fill 0) := by
  rcases h with rfl | rfl
  · refine hasChunk_of_block ⟨by decide, by decide⟩ _ rfl ?_ ?_ ?_ <;> decide +kernel
  · refine hasChunk_of_block ⟨by decide, by decide⟩ _ rfl ?_ ?_ ?_ <;> decide +kernel

/-- The monitor counts both containers; the restore finds the second chunk in the first one. -/
theorem monitor_counts_second_copy :
    (∀ c ∈ twoEntries, c.isNormal = true → HasChunk pooledConfig twoCopiesEnv c.id c.fp) ∧
      (monitorRecipe pooledConfig twoEntries).ccf = 2 ∧
      ∃ r, lruRestoreThread pooledConfig twoCopiesEnv twoEntries = .ok r ∧
        r.1.readContainerNum = 1 := by
  refine ⟨?_, by decide, ?_⟩
  · intro c hc _
    have hid : c.fp = .fill 0 ∧ (c.id = 0 ∨ c.id = 1) := by
      simp only [twoEntries, List.mem_cons, List.not_mem_nil, or_false] at hc
      rcases hc with rfl | rfl
      · exact ⟨rfl, Or.inl rfl⟩
      · exact ⟨rfl, Or.inr rfl⟩
    rw [hid.1]
    exact twoCopies_hasChunk hid.2
  · have hdata : pooledConfig.simulationLevel.readsData = true := rfl
    obtain ⟨s₁, hok₁, h₁⟩ := lruRestoreChunk_follows (c := ChunkPointer.toChunk
      { fp := .fill 0, id := 0, size := 1 }) hdata (follows_init _ pooledConfig twoCopiesEnv) rfl
      (twoCopies_hasChunk (Or.inl rfl)) (fun _ h => absurd h List.not_mem_nil)
    obtain ⟨s₂, hok₂, hcounts⟩ := lruRestoreChunk_foreign (c := ChunkPointer.toChunk
      { fp := .fill 0, id := 1, size := 1 }) hdata h₁ rfl
      ⟨0, by decide, twoCopies_hasChunk (Or.inl rfl)⟩
    refine ⟨(s₂.counts, s₂.pushed), ?_, hcounts.trans h₁.counts⟩
    unfold lruRestoreThread
    rw [if_pos hdata]
    exact bind_ok_iff.mpr ⟨s₂, bind_ok_iff.mpr ⟨s₁, hok₁, bind_ok_iff.mpr ⟨s₂, hok₂, rfl⟩⟩, rfl⟩

end Example

end Destor
