/- digest: Pointers whose containers hold their chunks; what an LRU cache restores of them. -/

import Destor.Restore.RecordedBackup

set_option autoImplicit false
set_option relaxedAutoImplicit false

namespace Destor

open Library.Outcome Library.Bytes

/-- What `write_restore_data` reads of a chunk. -/
inductive RestoreItem where
  | fileStart (name : List UInt8)
  | content (size : Nat) (data : List UInt8)
  | fileEnd
deriving DecidableEq

/-- A chunk as `write_restore_data` sees it. -/
def Chunk.restoreItem (c : Chunk) : RestoreItem :=
  if c.flag.fileStart then .fileStart c.data
  else if c.flag.fileEnd then .fileEnd
  else .content c.size c.data

theorem Chunk.restoreItem_normal {c : Chunk} (h : c.isNormal = true) :
    c.restoreItem = .content c.size c.data := by
  simp only [Chunk.isNormal, Bool.and_eq_true, Bool.not_eq_true'] at h
  simp [Chunk.restoreItem, h.1, h.2]

/-- What a restore has to hand on for a chunk of the recipe, the fingerprints standing for these
bytes. -/
def Chunk.target (content : Fingerprint → List UInt8) (c : Chunk) : RestoreItem :=
  if c.isNormal then .content c.size (content c.fp) else c.restoreItem

def Holds (cfg : Config) (env : RestoreEnv) (id : Int) (fp : Fingerprint) (size : Nat) : Prop :=
  ContainerStore.InPool cfg id ∧ ∃ con me, env.store.retrieveContainerById cfg id = .ok con ∧
    con.map.lookup fp = some me ∧ me.len = size

def Chunk.Held (cfg : Config) (env : RestoreEnv) (c : Chunk) : Prop :=
  c.isNormal = true → Holds cfg env c.id c.fp c.size

/-- Equal fingerprints stand for equal bytes, in whichever container. -/
def SameContent (cfg : Config) (env : RestoreEnv) (content : Fingerprint → List UInt8) : Prop :=
  ∀ id con fp me d, env.store.retrieveContainerById cfg id = .ok con →
    con.map.lookup fp = some me → con.data = some d → read d me.off me.len = content fp

/-- `rc` is what a restore hands on for `c`: the bytes some container has under its fingerprint. -/
def Restores (cfg : Config) (env : RestoreEnv) (c rc : Chunk) : Prop :=
  if c.isNormal then
    ∃ id con me d, env.store.retrieveContainerById cfg id = .ok con ∧
      con.map.lookup c.fp = some me ∧ con.data = some d ∧
      rc.restoreItem = .content me.len (read d me.off me.len)
  else rc = c

section Retrieve

variable {cfg : Config} {env : RestoreEnv} {id : Int} {con : Container}

private theorem unserContainerMeta_id {buf : Image} {cm : ContainerMeta}
    (h : unserContainerMeta buf id = .ok cm) : cm.id = id := by
  obtain ⟨_, hid, h⟩ := bind_ok_iff.mp h
  cases h
  exact require_ok_iff.mp hid

theorem retrieveContainerById_id {store : ContainerStore}
    (h : store.retrieveContainerById cfg id = .ok con) : con.id = id := by
  obtain ⟨cm, hcm, h⟩ := bind_ok_iff.mp h
  obtain ⟨_, -, h⟩ := bind_ok_iff.mp h
  cases h
  exact unserContainerMeta_id hcm

theorem retrieveContainerMetaById_id {store : ContainerStore} {cm : ContainerMeta}
    (h : store.retrieveContainerMetaById cfg [] id = .ok cm) : cm.id = id :=
  unserContainerMeta_id h

theorem retrieveContainerById_data {store : ContainerStore}
    (hreads : cfg.simulationLevel.readsData = true)
    (h : store.retrieveContainerById cfg id = .ok con) : ∃ d, con.data = some d := by
  obtain ⟨cm, -, h⟩ := bind_ok_iff.mp h
  obtain ⟨_, -, h⟩ := bind_ok_iff.mp h
  cases h
  exact ⟨_, if_pos hreads⟩

theorem retrieveContainerMetaById_of_byId {store : ContainerStore}
    (hid : ContainerStore.InPool cfg id) (h : store.retrieveContainerById cfg id = .ok con) :
    store.retrieveContainerMetaById cfg [] id = .ok con.toContainerMeta := by
  obtain ⟨cm, hcm, h⟩ := bind_ok_iff.mp h
  obtain ⟨_, -, h⟩ := bind_ok_iff.mp h
  cases h
  unfold ContainerStore.retrieveContainerMetaById
  rw [List.find?_nil]
  by_cases hreads : cfg.simulationLevel.readsData = true
  · rw [if_pos hreads, ContainerStore.fromOffset_block hid.reaches hreads] at hcm
    exact hcm
  · rw [if_neg hreads] at hcm
    exact hcm

theorem getChunkInContainer_eq (hreads : cfg.simulationLevel.readsData = true)
    (h : env.store.retrieveContainerById cfg id = .ok con) {fp : Fingerprint} {me : MetaEntry}
    (hme : con.map.lookup fp = some me) (stray : Fingerprint) :
    ∃ d rc, con.data = some d ∧ getChunkInContainer cfg stray con fp = .ok rc ∧
      rc.isNormal = true ∧ rc.size = me.len ∧ rc.data = read d me.off me.len := by
  obtain ⟨d, hd⟩ := retrieveContainerById_data hreads h
  refine ⟨d, { newChunk me.len with data := read d me.off me.len, id := con.id, fp := stray }, hd,
    ?_, rfl, rfl, rfl⟩
  simp [getChunkInContainer, hme, hreads, hd]

/-- What a cached container gives for a fingerprint it was found by. -/
theorem getChunkInContainer_restores (hreads : cfg.simulationLevel.readsData = true)
    (h : env.store.retrieveContainerById cfg id = .ok con) {c : Chunk}
    (hc : c.isNormal = true) (hfp : con.lookupFingerprint c.fp = true) (stray : Fingerprint) :
    ∃ rc, getChunkInContainer cfg stray con c.fp = .ok rc ∧ Restores cfg env c rc := by
  obtain ⟨me, hme⟩ := Option.isSome_iff_exists.mp hfp
  obtain ⟨d, rc, hd, hok, hnormal, hsize, hdata⟩ := getChunkInContainer_eq hreads h hme stray
  refine ⟨rc, hok, ?_⟩
  unfold Restores
  rw [if_pos hc]
  exact ⟨id, con, me, d, h, hme, hd, by rw [Chunk.restoreItem_normal hnormal, hsize, hdata]⟩

theorem Holds.lookupFingerprint {fp : Fingerprint} {size : Nat} (h : Holds cfg env id fp size) :
    ∃ con, env.store.retrieveContainerById cfg id = .ok con ∧ con.lookupFingerprint fp = true := by
  obtain ⟨-, con, me, hcon, hme, -⟩ := h
  exact ⟨con, hcon, Option.isSome_iff_exists.mpr ⟨me, hme⟩⟩

theorem Restores.restoreItem {content : Fingerprint → List UInt8} {c rc : Chunk}
    (hreads : cfg.simulationLevel.readsData = true) (hcontent : SameContent cfg env content)
    (hheld : c.Held cfg env) (h : Restores cfg env c rc) : rc.restoreItem = c.target content := by
  unfold Restores at h
  unfold Chunk.target
  by_cases hc : c.isNormal = true
  · rw [if_pos hc] at h ⊢
    obtain ⟨id, con, me, d, hcon, hme, hd, hitem⟩ := h
    obtain ⟨-, con', me', hcon', hme', hsize⟩ := hheld hc
    obtain ⟨d', hd'⟩ := retrieveContainerById_data hreads hcon'
    have hbytes := hcontent id con c.fp me d hcon hme hd
    have hlen : me.len = c.size := by
      have hlength := congrArg List.length
        (hbytes.trans (hcontent c.id con' c.fp me' d' hcon' hme' hd').symm)
      rwa [length_read, length_read, hsize] at hlength
    rw [hitem, hbytes, hlen]
  · rw [if_neg hc] at h ⊢
    rw [h]

theorem restoreItem_eq_target {content : Fingerprint → List UInt8} {stream pushed : List Chunk}
    (hreads : cfg.simulationLevel.readsData = true) (hcontent : SameContent cfg env content)
    (hheld : ∀ c ∈ stream, c.Held cfg env) (h : List.Forall₂ (Restores cfg env) stream pushed) :
    pushed.map Chunk.restoreItem = stream.map (Chunk.target content) := by
  induction h with
  | nil => rfl
  | cons hrc _ ih =>
      obtain ⟨hc, hrest⟩ := List.forall_mem_cons.mp hheld
      rw [List.map_cons, List.map_cons, hrc.restoreItem hreads hcontent hc, ih hrest]

end Retrieve

section Lru

variable {cfg : Config} {env : RestoreEnv}

def LruRestore.FromStore (cfg : Config) (env : RestoreEnv) (s : LruRestore Container) : Prop :=
  ∀ con ∈ s.cache.elemQueue, ∃ id, env.store.retrieveContainerById cfg id = .ok con

/-- The cache, or else the container of the chunk, has its fingerprint. -/
theorem lruFetch_spec {s : LruRestore Container} (hs : s.FromStore cfg env) {c : Chunk}
    (hheld : Holds cfg env c.id c.fp c.size) :
    ∃ con s', lruFetch (containerReader cfg env) (fun _ => .ok ()) s c = .ok (con, s') ∧
      s'.FromStore cfg env ∧ s'.pushed = s.pushed ∧
      (∃ id, env.store.retrieveContainerById cfg id = .ok con) ∧
      con.lookupFingerprint c.fp = true := by
  unfold lruFetch
  have hfst := LruCache.lookup_fst s.cache ((containerReader cfg env).hasFp c.fp)
  rcases hlookup : s.cache.lookup ((containerReader cfg env).hasFp c.fp) with ⟨found, cache⟩
  have hmem : ∀ con, con ∈ cache.elemQueue ↔ con ∈ s.cache.elemQueue := by
    intro con
    have hiff := LruCache.mem_lookup_snd (e := con) s.cache ((containerReader cfg env).hasFp c.fp)
    rwa [hlookup] at hiff
  rw [hlookup] at hfst
  cases found with
  | some con =>
      have hfind : s.cache.elemQueue.find? ((containerReader cfg env).hasFp c.fp) = some con :=
        hfst.symm
      have hfp : (containerReader cfg env).hasFp c.fp con = true := List.find?_some hfind
      exact ⟨con, _, rfl, fun con' hcon' => hs con' ((hmem con').mp hcon'), rfl,
        hs con (List.mem_of_find?_eq_some hfind), hfp⟩
  | none =>
      obtain ⟨con, hcon, hfp⟩ := hheld.lookupFingerprint
      refine ⟨con, _, bind_ok_iff.mpr ⟨con, hcon, rfl⟩, fun con' hcon' => ?_, rfl, ⟨c.id, hcon⟩, hfp⟩
      rcases LruCache.mem_of_mem_insert hcon' with rfl | hold
      · exact ⟨c.id, hcon⟩
      · exact hs con' ((hmem con').mp hold)

theorem lruRestoreChunk_spec (hreads : cfg.simulationLevel.readsData = true)
    {s : LruRestore Container} (hs : s.FromStore cfg env) {c : Chunk} (hheld : c.Held cfg env) :
    ∃ s' rc, lruRestoreChunk cfg env s c = .ok s' ∧ s'.FromStore cfg env ∧
      s'.pushed = s.pushed ++ [rc] ∧ Restores cfg env c rc := by
  unfold lruRestoreChunk
  by_cases hc : c.isNormal = true
  · rw [if_pos hc]
    obtain ⟨con, s', hfetch, hs', hpushed, ⟨id, hcon⟩, hfp⟩ := lruFetch_spec hs (hheld hc)
    obtain ⟨rc, hrc, hrestores⟩ :=
      getChunkInContainer_restores hreads hcon hc hfp (env.stray con c.fp)
    refine ⟨_, rc, bind_ok_iff.mpr ⟨_, hfetch, bind_ok_iff.mpr ⟨rc, hrc, rfl⟩⟩, hs', ?_,
      hrestores⟩
    show s'.pushed ++ [rc] = s.pushed ++ [rc]
    rw [hpushed]
  · rw [if_neg hc]
    refine ⟨_, c, rfl, hs, rfl, ?_⟩
    unfold Restores
    rw [if_neg hc]

/-- The LRU cache restores every chunk of a sound recipe, in order. -/
theorem foldE_lruRestoreChunk (hreads : cfg.simulationLevel.readsData = true)
    {stream : List Chunk} (hheld : ∀ c ∈ stream, c.Held cfg env) {s : LruRestore Container}
    (hs : s.FromStore cfg env) :
    ∃ s' restored, foldE (lruRestoreChunk cfg env) s stream = .ok s' ∧
      s'.pushed = s.pushed ++ restored ∧ List.Forall₂ (Restores cfg env) stream restored := by
  induction stream generalizing s with
  | nil => exact ⟨s, [], rfl, (List.append_nil _).symm, .nil⟩
  | cons c stream ih =>
      obtain ⟨hc, hstream⟩ := List.forall_mem_cons.mp hheld
      obtain ⟨s₁, rc, hok₁, hs₁, hpushed₁, hrc⟩ := lruRestoreChunk_spec hreads hs hc
      obtain ⟨s₂, restored, hok₂, hpushed₂, hall⟩ := ih hstream hs₁
      refine ⟨s₂, rc :: restored, bind_ok_iff.mpr ⟨s₁, hok₁, hok₂⟩, ?_, .cons hrc hall⟩
      rw [hpushed₂, hpushed₁, List.append_assoc, List.singleton_append]

theorem lruRestoreThread_spec (hreads : cfg.simulationLevel.readsData = true)
    {stream : List Chunk} (hheld : ∀ c ∈ stream, c.Held cfg env) :
    ∃ r, lruRestoreThread cfg env stream = .ok r ∧
      List.Forall₂ (Restores cfg env) stream r.2 := by
  have hinit : (LruRestore.init cfg : LruRestore Container).FromStore cfg env := by
    intro con hcon
    cases hcon
  obtain ⟨s, restored, hok, hpushed, hall⟩ := foldE_lruRestoreChunk hreads hheld hinit
  refine ⟨(s.counts, s.pushed), ?_, ?_⟩
  · unfold lruRestoreThread
    rw [if_pos hreads]
    exact bind_ok_iff.mpr ⟨s, hok, rfl⟩
  · rw [hpushed]
    exact hall

end Lru

end Destor
