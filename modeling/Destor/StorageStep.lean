/- digest: The storage buffer: opening, filling and handing over containers keep the store in order. -/

import Destor.DedupPhase

set_option autoImplicit false
set_option relaxedAutoImplicit false

namespace Destor

open Library.Outcome

/-- The aborts that a job with well-formed input can end in: a sampler without ratio, a content-defined
segment with zero for the divisor, and, where history-aware rewriting runs without a rewriting
algorithm, a rewritten chunk that the open container already has. -/
def AllowedAbort (cfg : Config) (a : Abort) : Prop :=
  (a = .samplingRatioZero ∧ cfg.samplingRatio = 0) ∨ DividesByZero cfg a ∨
    (a = .alreadyStored ∧ cfg.indexCategory = .exact ∧ cfg.rewriteAlgorithm = .no ∧
      cfg.rewriteEnableHar = true)

section Monotone

variable {cfg : Config} {sc : Coverage} {pool pool' : ContainerPool}
  {storage storage' : Option Container} {versions : List BackupVersion}

theorem Scope.Sound.mono {id : Int} {fp : Fingerprint} (h : sc.Sound pool storage id fp)
    (hstored : ∀ id fp, Stored pool storage id fp → Stored pool' storage' id fp) :
    sc.Sound pool' storage' id fp :=
  ⟨h.1, hstored id fp h.2⟩

theorem VersionsInv.mono {oldest : Nat} {sound sound' : Int → Fingerprint → Prop}
    (h : VersionsInv cfg oldest sound versions) (himp : ∀ id fp, sound id fp → sound' id fp) :
    VersionsInv cfg oldest sound' versions := by
  refine ⟨h.num, fun b hb => ?_⟩
  obtain ⟨segments, hrecipe, hsound, hfits⟩ := h.recipe b hb
  exact ⟨segments, hrecipe, fun hold ps hps cp hcp => himp _ _ (hsound hold ps hps cp hcp), hfits⟩

/-- Units stay units while the pool grows. -/
theorem Scope.StoreUnit.mono_pool {u : CacheUnit} (h : sc.StoreUnit cfg pool versions u)
    (hpool : ∀ i c, pool.containers.lookup i = some c → pool'.containers.lookup i = some c) :
    sc.StoreUnit cfg pool' versions u := by
  cases u with
  | containerMeta cm =>
      obtain ⟨hloc, hlive, c, hc, heq⟩ := h
      exact ⟨hloc, hlive, c, hpool _ _ hc, heq⟩
  | segmentRecipe sr => exact h

end Monotone

section Key

variable {cfg : Config}

/-- A key of full length is the fingerprint itself. -/
theorem key_injective (h : cfg.indexKeySize = 20) {fp fp' : Fingerprint}
    (heq : cfg.key fp = cfg.key fp') : fp = fp' := by
  unfold Config.key at heq
  rw [h, List.take_of_length_le fp.length_eq.le, List.take_of_length_le fp'.length_eq.le] at heq
  exact Fingerprint.ext heq

end Key

section Push

variable {cfg : Config} {sc : Coverage} {st : FilterState} {b : Container}
  {versions : List BackupVersion} {pending : Fingerprint → Prop}

def ContainerPool.push (pool : ContainerPool) (b : Container) : ContainerPool :=
  { pool with containers := pool.containers.insert b.id b }

theorem lookup_push {pool : ContainerPool} {i : Int} :
    (pool.push b).containers.lookup i = if i = b.id then some b else pool.containers.lookup i := by
  unfold ContainerPool.push
  split
  · subst i
    exact AList.lookup_insert _
  · exact AList.lookup_insert_ne (by assumption)

theorem lookup_push_mono {pool : ContainerPool} (h : OpenContainer pool b) {i : Int}
    {c : Container} (hc : pool.containers.lookup i = some c) :
    (pool.push b).containers.lookup i = some c := by
  have hlt := h.pushed_lt i c hc
  rw [lookup_push, if_neg (by omega), hc]

/-- Pushing the open container stores nothing new and loses nothing. -/
theorem stored_push {pool : ContainerPool} (h : OpenContainer pool b) (id : Int)
    (fp : Fingerprint) :
    Stored (pool.push b) none id fp ↔ Stored pool (some b) id fp := by
  unfold Stored ContainerPool.Holds
  rw [lookup_push]
  constructor
  · rintro (⟨c, hc, hfp⟩ | ⟨c, hc, -⟩)
    · split at hc
      · rename_i hid
        cases hc
        exact Or.inr ⟨b, rfl, hid.symm, hfp⟩
      · exact Or.inl ⟨c, hc, hfp⟩
    · cases hc
  · rintro (⟨c, hc, hfp⟩ | ⟨c, hc, hid, hfp⟩)
    · have hlt := h.pushed_lt id c hc
      exact Or.inl ⟨c, by rw [if_neg (by omega), hc], hfp⟩
    · cases hc
      exact Or.inl ⟨b, by rw [if_pos hid.symm], hfp⟩

theorem ContainerPool.WellFormed.push {pool : ContainerPool} (hwf : pool.WellFormed)
    (h : OpenContainer pool b) : (pool.push b).WellFormed := by
  refine ⟨fun i c hc => ?_, fun i c hc => ?_⟩
  · rw [lookup_push] at hc
    split at hc
    · cases hc
      exact (by assumption : i = _).symm
    · exact hwf.id_eq i c hc
  · rw [lookup_push] at hc
    split at hc
    · rename_i hid
      subst hid
      exact ⟨h.nonneg, h.id_lt⟩
    · exact hwf.lt_count i c hc

theorem OpenContainer.exists_fp {pool : ContainerPool} (h : OpenContainer pool b) :
    ∃ fp, b.lookupFingerprint fp = true := by
  have hne : b.map.entries ≠ [] := by
    intro hnil
    have hcounted := h.counted
    have hnonempty := h.nonempty
    unfold Container.Counted at hcounted
    simp [ContainerMeta.isEmpty, hcounted, hnil] at hnonempty
  obtain ⟨e, he⟩ := List.exists_mem_of_ne_nil _ hne
  refine ⟨e.1, ?_⟩
  rw [ContainerMeta.lookupFingerprint, AList.lookup_isSome]
  exact List.mem_map.mpr ⟨e, he, rfl⟩

/-- What a container pushed under physical locality does to the key-value store: its id becomes
the latest unit of each of its fingerprints, and of no other one. -/
structure PhysicalUpdate (cfg : Config) (b : Container) (kv kv' : KvStore) : Prop where
  covered : ∀ fp, b.lookupFingerprint fp = true →
    ∃ ids, kv'.lookup (cfg.key fp) = some ids ∧ ids.headD temporaryId = b.id
  kept : ∀ fp, b.lookupFingerprint fp = false →
    kv'.lookup (cfg.key fp) = kv.lookup (cfg.key fp)

theorem updatePhysicalIndex_ensures (hset : cfg.Settled)
    (hcore : CoreInv cfg sc st.pool st.storage versions st.kv pending)
    (hb : st.storage.containerBuffer = some b) :
    Ensures (fun a => a = .samplingRatioZero ∧ cfg.samplingRatio = 0)
      (fun kv => KvShape cfg (sc.UnitId cfg (st.pool.push b) versions) kv ∧
        (cfg.locality = .logical → kv = st.kv) ∧
        (cfg.locality = .physical → cfg.indexCategory = .exact → PhysicalUpdate cfg b st.kv kv))
      (updatePhysicalIndex cfg st b) := by
  have hopen := hcore.open_ok b hb
  have hmono : ∀ id, sc.UnitId cfg st.pool versions id →
      sc.UnitId cfg (st.pool.push b) versions id := by
    rintro id ⟨u, hu, hid⟩
    exact ⟨u, hu.mono_pool fun i c hc => lookup_push_mono hopen hc, hid⟩
  unfold updatePhysicalIndex
  cases hloc : cfg.locality with
  | logical =>
      exact ⟨hcore.kv_shape.mono hmono, fun _ => rfl, nofun⟩
  | physical =>
      refine (sampling_ensures cfg st.storage.chunks
        (fun h => by rw [h]; rfl)).and_eq.bind fun features ⟨hsampled, hok⟩ => ?_
      refine ⟨hcore.kv_shape.indexUpdate hsampled.nodup hmono ?_ ?_, nofun, ?_⟩
      · exact ⟨.containerMeta b.toContainerMeta, ⟨hloc, hcore.open_live b hb, b, by
          rw [lookup_push, if_pos rfl], rfl⟩, rfl⟩
      · rintro i ⟨u, hu, rfl⟩
        cases u with
        | containerMeta cm =>
            obtain ⟨-, -, c, hc, -⟩ := hu
            exact hopen.pushed_lt _ c hc
        | segmentRecipe sr =>
            have := hu.1
            rw [hloc] at this
            cases this
      · intro _ hcat
        obtain ⟨hmethod, hratio⟩ := hset.uniform_exact hloc hcat
        have hkey := hset.keySize_exact hcat
        have hchunks := hcore.open_chunks hloc b hb
        have hne : st.storage.chunks ≠ [] := by
          obtain ⟨fp, hfp⟩ := hopen.exists_fp
          obtain ⟨c, hc, -⟩ := (hchunks fp).mp hfp
          exact List.ne_nil_of_mem hc
        have hall := sampling_uniform_all hmethod hratio hok
        have honly := sampling_uniform_only hmethod hratio hne hok
        refine ⟨fun fp hfp => ?_, fun fp hfp => ?_⟩
        · obtain ⟨c, hc, rfl⟩ := (hchunks fp).mp hfp
          rw [lookup_indexUpdate hsampled.nodup, if_pos (hall c hc)]
          exact ⟨_, rfl, rfl⟩
        · rw [lookup_indexUpdate hsampled.nodup, if_neg]
          intro hmem
          obtain ⟨c, hc, heq⟩ := honly _ hmem
          have := (hchunks fp).mpr ⟨c, hc, (key_injective hkey heq).symm⟩
          rw [hfp] at this
          cases this

theorem storeUnit_push {pool : ContainerPool} {u : CacheUnit}
    (hu : sc.StoreUnit cfg (pool.push b) versions u) :
    sc.StoreUnit cfg pool versions u ∨
      cfg.locality = .physical ∧ u = .containerMeta b.toContainerMeta := by
  cases u with
  | containerMeta cm =>
      obtain ⟨hloc, hlive, c, hc, rfl⟩ := hu
      rw [lookup_push] at hc
      split at hc
      · cases hc
        exact .inr ⟨hloc, rfl⟩
      · exact .inl ⟨hloc, hlive, c, hc, rfl⟩
  | segmentRecipe sr => exact .inl hu

theorem Scope.StoreUnit.id_lt {pool : ContainerPool} (h : OpenContainer pool b)
    (hloc : cfg.locality = .physical) {u : CacheUnit} (hu : sc.StoreUnit cfg pool versions u) :
    u.id < b.id := by
  cases u with
  | containerMeta cm =>
      obtain ⟨-, -, c, hc, -⟩ := hu
      exact h.pushed_lt _ c hc
  | segmentRecipe sr =>
      rw [hu.1] at hloc
      cases hloc

/-- The head of a value is the id of a unit. -/
theorem KvShape.headD {valid : Int → Prop} {kv : KvStore} (h : KvShape cfg valid kv) {key : Key}
    {ids : List Int} (hids : kv.lookup key = some ids) : valid (ids.headD temporaryId) := by
  obtain ⟨ids', hids'⟩ := h key ids hids
  obtain ⟨head, rest, -, hhead, hvalid⟩ := hids'.head
  rwa [List.headD_eq_head?_getD, hhead]

/-- What was stored before the push is found through the key-value store after it. -/
theorem CoreInv.indexed_push (h : CoreInv cfg sc st.pool st.storage versions st.kv pending)
    (hb : st.storage.containerBuffer = some b) {kv : KvStore}
    (hlogical : cfg.locality = .logical → kv = st.kv)
    (hphysical : cfg.locality = .physical → PhysicalUpdate cfg b st.kv kv) (hex : sc.exact)
    {fp : Fingerprint} {i : Int} (hcounted : sc.counted i)
    (hold : sc.Sound st.pool st.storage.containerBuffer i fp) :
    (cfg.locality = .logical ∧ pending fp) ∨
      ∃ ids, kv.lookup (cfg.key fp) = some ids ∧
        ∀ u, sc.StoreUnit cfg (st.pool.push b) versions u → u.id = ids.headD temporaryId →
          u.holds fp = true := by
  have hopen := h.open_ok b hb
  have hindexed := h.indexed hex fp i hcounted hold
  cases hloc : cfg.locality with
  | logical =>
      rw [hlogical hloc]
      rw [hloc] at hindexed
      obtain ⟨hphys, -⟩ | hpending | ⟨ids, hids, hunits⟩ := hindexed
      · cases hphys
      · exact .inl hpending
      · refine .inr ⟨ids, hids, fun u hu huid => hunits u ?_ huid⟩
        apply (storeUnit_push hu).resolve_right
        intro hphys
        rw [hloc] at hphys
        exact absurd hphys.1 (by decide)
  | physical =>
      have hupdate := hphysical hloc
      cases hfp : b.lookupFingerprint fp with
      | true =>
          obtain ⟨ids, hids, hhead⟩ := hupdate.covered fp hfp
          refine .inr ⟨ids, hids, fun u hu huid => ?_⟩
          obtain hu | ⟨-, rfl⟩ := storeUnit_push hu
          · have hlt := hu.id_lt hopen hloc
            omega
          · exact hfp
      | false =>
          rw [hloc] at hindexed
          obtain ⟨-, b', hb', hfp'⟩ | ⟨hlog, -⟩ | ⟨ids, hids, hunits⟩ := hindexed
          · cases hb.symm.trans hb'
            rw [hfp] at hfp'
            cases hfp'
          · cases hlog
          · refine .inr ⟨ids, by rw [hupdate.kept fp hfp, hids], fun u hu huid => ?_⟩
            obtain hu | ⟨-, rfl⟩ := storeUnit_push hu
            · exact hunits u hu huid
            · -- the latest unit of the key was listed before the container was pushed
              obtain ⟨u', hu', huid'⟩ := h.kv_shape.headD hids
              have hlt := hu'.id_lt hopen hloc
              rw [huid', ← huid] at hlt
              exact absurd hlt (lt_irrefl b.id)

variable (st) in
/-- Handing over the open container. -/
theorem pushContainer_ensures (hset : cfg.Settled) (hexact : sc.exact → ExactIndex cfg)
    (hcore : CoreInv cfg sc st.pool st.storage versions st.kv pending)
    (hb : st.storage.containerBuffer = some b) :
    Ensures (fun a => a = .samplingRatioZero ∧ cfg.samplingRatio = 0)
      (fun st' => ∃ kv, st' = { st with
          pool := st.pool.push b
          kv := kv
          storage := { containerBuffer := none, chunks := [] } } ∧
        CoreInv cfg sc (st.pool.push b) { containerBuffer := none, chunks := [] } versions kv
          pending)
      (pushContainer cfg st b) := by
  have hopen := hcore.open_ok b hb
  have hstored := stored_push hopen
  have hsound : ∀ id fp, sc.Sound (st.pool.push b) none id fp ↔
      sc.Sound st.pool st.storage.containerBuffer id fp := by
    intro id fp
    rw [hb]
    exact and_congr_right fun _ => hstored id fp
  apply (updatePhysicalIndex_ensures hset hcore hb).bind
  rintro kv ⟨hshape, hlogical, hphysical⟩
  rw [writeContainerAsync_ensures hopen.counted hopen.nonempty]
  refine ⟨kv, rfl, ⟨hcore.pool_wf.push hopen, by simp, by simp, hcore.next_live, by simp, ?_,
    hshape, ?_, ?_, ?_⟩⟩
  · exact hcore.versions_ok.mono fun id fp h => (hsound id fp).mpr h
  · intro hex fp i j hci hcj hi hj
    exact hcore.once hex fp i j hci hcj ((hsound i fp).mp hi) ((hsound j fp).mp hj)
  · intro hex fp i hcounted hi
    exact .inr (hcore.indexed_push hb hlogical (fun hloc => hphysical hloc (hexact hex).exact) hex
      hcounted ((hsound i fp).mp hi))
  · intro hex hloc fp i hi
    apply hcore.no_filler hex hloc fp i
    rw [hb]
    exact (hstored i fp).mp hi

end Push

section Fill

variable {cfg : Config} {sc : Coverage} {st : FilterState} {b b' : Container}
  {versions : List BackupVersion} {pending pending' : Fingerprint → Prop}

theorem CoreInv.weaken {pool : ContainerPool} {storage : StorageBuffer} {kv : KvStore}
    (h : CoreInv cfg sc pool storage versions kv pending)
    (himp : sc.exact → ∀ fp, pending fp → pending' fp) :
    CoreInv cfg sc pool storage versions kv pending' where
  pool_wf := h.pool_wf
  open_ok := h.open_ok
  open_live := h.open_live
  next_live := h.next_live
  open_chunks := h.open_chunks
  versions_ok := h.versions_ok
  kv_shape := h.kv_shape
  once := h.once
  indexed hex fp i hcounted hi := (h.indexed hex fp i hcounted hi).imp_right fun hrest =>
    hrest.imp_left fun h => ⟨h.1, himp hex fp h.2⟩
  no_filler := h.no_filler

/-- Without an open container nothing depends on the list of its chunks. -/
theorem CoreInv.closed {pool : ContainerPool} {storage : StorageBuffer} {kv : KvStore}
    (h : CoreInv cfg sc pool storage versions kv pending)
    (hnone : storage.containerBuffer = none) :
    CoreInv cfg sc pool { containerBuffer := none, chunks := [] } versions kv pending := by
  refine ⟨h.pool_wf, by simp, by simp, h.next_live, by simp, ?_, h.kv_shape, ?_, ?_, ?_⟩
  · simpa only [hnone] using h.versions_ok
  · simpa only [hnone] using h.once
  · simpa only [hnone] using h.indexed
  · simpa only [hnone] using h.no_filler

/-- The open container as the invariant sees it: a container without chunks is not open yet. -/
def openPart (b : Container) : Option Container := if b.isEmpty then none else some b

/-- A container that is about to take a chunk. -/
structure ReadyContainer (cfg : Config) (sc : Coverage) (versions : List BackupVersion)
    (pending : Fingerprint → Prop) (st : FilterState) (b : Container) : Prop where
  core : CoreInv cfg sc st.pool { containerBuffer := openPart b, chunks := st.storage.chunks }
    versions st.kv pending
  counted : b.Counted
  roomy : b.Roomy
  nonneg : 0 ≤ b.id
  id_lt : b.id < st.pool.containerCount
  pushed_lt : ∀ i c, st.pool.containers.lookup i = some c → i < b.id
  live : sc.live b.id
  chunks : cfg.locality = .physical → ∀ fp,
    b.lookupFingerprint fp = true ↔ ∃ c ∈ st.storage.chunks, c.fp = fp

theorem lookup_of_isEmpty (hcounted : b.Counted) (hempty : b.isEmpty = true)
    (fp : Fingerprint) : b.lookupFingerprint fp = false := by
  have hnil : b.map.entries = [] := by
    unfold Container.Counted at hcounted
    simpa [ContainerMeta.isEmpty, hcounted] using hempty
  rw [ContainerMeta.lookupFingerprint, Option.isSome_eq_false_iff, Option.isNone_iff_eq_none,
    AList.lookup_eq_none]
  intro hmem
  have hkeys := AList.mem_keys.mp hmem
  simp [AList.keys, hnil, List.keys] at hkeys

private theorem openPart_nonempty (h : b.isEmpty = false) : openPart b = some b := by
  simp [openPart, h]

theorem stored_openPart {pool : ContainerPool} (hcounted : b.Counted) (id : Int)
    (fp : Fingerprint) :
    Stored pool (openPart b) id fp ↔ Stored pool (some b) id fp := by
  unfold openPart
  split
  · rename_i hempty
    refine or_congr_right ⟨nofun, ?_⟩
    rintro ⟨c, hc, -, hfp⟩
    cases hc
    rw [lookup_of_isEmpty hcounted hempty] at hfp
    cases hfp
  · exact Iff.rfl

/-- What `containerFor` leaves untouched. -/
def SameTables (st st' : FilterState) : Prop :=
  st'.monitor = st.monitor ∧ st'.restoreAware = st.restoreAware ∧
    st'.enableRewrite = st.enableRewrite ∧ st'.recentlyUnique = st.recentlyUnique ∧
    st'.recentlyRewritten = st.recentlyRewritten

private theorem newContainer_ready (st : FilterState) {pool : ContainerPool} {kv : KvStore}
    (hcore : CoreInv cfg sc pool { containerBuffer := none, chunks := [] } versions kv pending)
    (hpool : st.pool = pool) (hkv : st.kv = kv) (hchunks : st.storage.chunks = []) :
    ReadyContainer cfg sc versions pending (newContainer cfg st).1 (newContainer cfg st).2 := by
  subst hpool hkv
  have hopen : openPart (newContainer cfg st).2 = none := rfl
  refine ⟨?_, createContainer_counted cfg st.pool, Nat.zero_le _, ?_, ?_, ?_, ?_, ?_⟩
  · rw [hopen]
    simp only [newContainer, hchunks]
    refine ⟨⟨hcore.pool_wf.id_eq, fun i c hc => ?_⟩, by simp, by simp, fun i hi => ?_, by simp,
      hcore.versions_ok, hcore.kv_shape, hcore.once, hcore.indexed, hcore.no_filler⟩
    · have := hcore.pool_wf.lt_count i c hc
      simp only [createContainer_count]
      omega
    · apply hcore.next_live i
      simp only [createContainer_count] at hi
      omega
  · simp [newContainer]
  · simp only [newContainer, createContainer_id, createContainer_count]
    omega
  · intro i c hc
    exact (hcore.pool_wf.lt_count i c hc).2
  · exact hcore.next_live _ le_rfl
  · intro _ fp
    simp only [newContainer, hchunks, createContainer_lookup]
    simp

/-- A container that can take the chunk was found or made, and nothing stored changed. -/
structure MadeReady (cfg : Config) (sc : Coverage) (versions : List BackupVersion)
    (pending : Fingerprint → Prop) (st : FilterState) (size : Nat) (st' : FilterState)
    (b : Container) : Prop where
  ready : ReadyContainer cfg sc versions pending st' b
  room : containerOverflow b size = false
  stored : ∀ id fp, Stored st'.pool (openPart b) id fp ↔
    Stored st.pool st.storage.containerBuffer id fp
  opened : ∀ b' ∈ openPart b, st.storage.containerBuffer = some b'
  pool_mono : ∀ i c, st.pool.containers.lookup i = some c →
    st'.pool.containers.lookup i = some c
  tables : SameTables st st'

theorem containerFor_ensures (hset : cfg.Settled) (hexact : sc.exact → ExactIndex cfg)
    (hcore : CoreInv cfg sc st.pool st.storage versions st.kv pending) {size : Nat}
    (hfits : fitsEmptyContainer size) :
    Ensures (AllowedAbort cfg) (fun r => MadeReady cfg sc versions pending st size r.1 r.2)
      (containerFor cfg st size) := by
  unfold containerFor
  cases hb : st.storage.containerBuffer with
  | none =>
      refine ⟨newContainer_ready { st with storage := { st.storage with chunks := [] } }
        (hcore.closed hb) rfl rfl rfl, createContainer_not_overflow hfits, fun id fp => ?_, nofun,
        fun _ _ h => h, rfl, rfl, rfl, rfl, rfl⟩
      rw [hb]
      exact Iff.rfl
  | some b =>
      have hopen := hcore.open_ok b hb
      simp only
      split
      · refine ((pushContainer_ensures st hset hexact hcore hb).mono (fun _ h => Or.inl h)
          fun _ h => h).bind ?_
        rintro st' ⟨kv, rfl, hcore'⟩
        refine ⟨newContainer_ready _ hcore' rfl rfl rfl, createContainer_not_overflow hfits,
          fun id fp => ?_, nofun, fun _ _ h => lookup_push_mono hopen h, rfl, rfl, rfl, rfl, rfl⟩
        rw [hb]
        exact stored_push hopen id fp
      · rename_i hover
        have hpart := openPart_nonempty hopen.nonempty
        refine ⟨⟨?_, hopen.counted, hopen.roomy, hopen.nonneg, hopen.id_lt, hopen.pushed_lt,
          hcore.open_live b hb, fun hloc => hcore.open_chunks hloc b hb⟩, by simpa using hover,
          fun id fp => ?_, fun b' h => ?_, fun _ _ h => h, rfl, rfl, rfl, rfl, rfl⟩
        · rw [hpart, ← hb]
          exact hcore
        · rw [hpart, hb]
        · rw [hpart] at h
          exact hb.trans h

/-- What writing a chunk leaves: the chunk is stored under its new id, and nothing else is. -/
structure WriteResult (cfg : Config) (sc : Coverage) (versions : List BackupVersion)
    (st : FilterState) (c : Chunk) (st' : FilterState) (c' : Chunk) : Prop where
  core : CoreInv cfg sc st'.pool st'.storage versions st'.kv
    fun fp => (st'.recentlyUnique.lookup fp).isSome
  chunk_eq : c' = { c with id := c'.id }
  sound : sc.Sound st'.pool st'.storage.containerBuffer c'.id c.fp
  stored_mono : ∀ id fp, Stored st.pool st.storage.containerBuffer id fp →
    Stored st'.pool st'.storage.containerBuffer id fp
  stored_of : ∀ id fp, Stored st'.pool st'.storage.containerBuffer id fp →
    Stored st.pool st.storage.containerBuffer id fp ∨ (id = c'.id ∧ fp = c.fp)
  pool_mono : ∀ i b, st.pool.containers.lookup i = some b →
    st'.pool.containers.lookup i = some b
  absent : ∀ fp, fp ≠ c.fp → sc.Absent st.pool st.storage.containerBuffer fp →
    sc.Absent st'.pool st'.storage.containerBuffer fp
  unique_of_mem : ∀ fp id, st'.recentlyUnique.lookup fp = some id →
    st.recentlyUnique.lookup fp = some id ∨ (fp = c.fp ∧ id = c'.id ∧ c.flag.duplicate = false)
  unique_mono : ∀ fp, (st.recentlyUnique.lookup fp).isSome →
    (st'.recentlyUnique.lookup fp).isSome
  unique_new : c.flag.duplicate = false →
    ¬ OpenHolds st.storage.containerBuffer c.fp → (st'.recentlyUnique.lookup c.fp).isSome
  rewritten_of_mem : ∀ fp id, st'.recentlyRewritten.lookup fp = some id →
    st.recentlyRewritten.lookup fp = some id ∨ (fp = c.fp ∧ id = c'.id)
  monitors : st'.monitor = st.monitor ∧ st'.restoreAware = st.restoreAware ∧
    st'.enableRewrite = st.enableRewrite

private theorem lookup_insert_cases {m : FpMap Int} {fp fp' : Fingerprint} {id id' : Int}
    (h : (m.insert fp' id').lookup fp = some id) :
    m.lookup fp = some id ∨ (fp = fp' ∧ id = id') := by
  by_cases heq : fp = fp'
  · subst heq
    rw [AList.lookup_insert] at h
    cases h
    exact Or.inr ⟨rfl, rfl⟩
  · rw [AList.lookup_insert_ne heq] at h
    exact Or.inl h

private theorem isSome_lookup_insert {m : FpMap Int} {fp fp' : Fingerprint} {id' : Int}
    (h : fp = fp' ∨ (m.lookup fp).isSome) : ((m.insert fp' id').lookup fp).isSome := by
  by_cases heq : fp = fp'
  · subst heq
    simp
  · rw [AList.lookup_insert_ne heq]
    exact h.resolve_left heq

/-- A container that takes a new entry stores that entry besides what it had. -/
theorem stored_added {pool : ContainerPool} {c c' : Chunk} (hcounted : b.Counted)
    (hadd : Added b c true b' c') (id : Int) (fp : Fingerprint) :
    Stored pool (some b') id fp ↔ Stored pool (openPart b) id fp ∨ (id = b.id ∧ fp = c.fp) := by
  rw [stored_openPart hcounted]
  unfold Stored
  constructor
  · rintro (h | ⟨d, hd, rfl, hfp⟩)
    · exact Or.inl (Or.inl h)
    · cases hd
      rw [hadd.lookup_eq, Bool.or_eq_true, beq_iff_eq] at hfp
      rcases hfp with hfp | hfp
      · exact Or.inl (Or.inr ⟨b, rfl, hadd.id_eq.symm, hfp⟩)
      · exact Or.inr ⟨hadd.id_eq, hfp⟩
  · rintro ((h | ⟨d, hd, rfl, hfp⟩) | ⟨rfl, rfl⟩)
    · exact Or.inl h
    · cases hd
      exact Or.inr ⟨b', rfl, hadd.id_eq, by rw [hadd.lookup_eq, hfp, Bool.true_or]⟩
    · exact Or.inr ⟨b', rfl, hadd.id_eq, by simp [hadd.lookup_eq]⟩

theorem ReadyContainer.sound_added {c c' : Chunk}
    (hready : ReadyContainer cfg sc versions pending st b) (hadd : Added b c true b' c') (id : Int)
    (fp : Fingerprint) :
    sc.Sound st.pool (some b') id fp ↔
      sc.Sound st.pool (openPart b) id fp ∨ (id = b.id ∧ fp = c.fp) := by
  unfold Scope.Sound
  rw [stored_added hready.counted hadd]
  constructor
  · rintro ⟨hlive, h | h⟩
    · exact Or.inl ⟨hlive, h⟩
    · exact Or.inr h
  · rintro (⟨hlive, h⟩ | ⟨rfl, rfl⟩)
    · exact ⟨hlive, Or.inl h⟩
    · exact ⟨hready.live, Or.inr ⟨rfl, rfl⟩⟩

theorem ReadyContainer.openContainer {c c' : Chunk}
    (hready : ReadyContainer cfg sc versions pending st b) (hadd : Added b c true b' c') :
    OpenContainer st.pool b' := by
  refine ⟨hadd.counted hready.counted, hadd.nonempty hready.counted, hadd.roomy hready.roomy,
    ?_, ?_, ?_⟩
  · rw [hadd.id_eq]
    exact hready.nonneg
  · rw [hadd.id_eq]
    exact hready.id_lt
  · rw [hadd.id_eq]
    exact hready.pushed_lt

/-- The chunks of the open container, when it takes one more. -/
theorem ReadyContainer.chunks_added {c c' : Chunk}
    (hready : ReadyContainer cfg sc versions pending st b) (hadd : Added b c true b' c')
    (hloc : cfg.locality = .physical) (fp : Fingerprint) : b'.lookupFingerprint fp = true ↔
      ∃ d ∈ st.storage.chunks ++ [{ newChunk 0 with fp := c.fp }], d.fp = fp := by
  rw [hadd.lookup_eq, Bool.or_eq_true, hready.chunks hloc fp, beq_iff_eq]
  simp only [List.mem_append, List.mem_singleton]
  constructor
  · rintro (⟨d, hd, rfl⟩ | rfl)
    · exact ⟨d, Or.inl hd, rfl⟩
    · exact ⟨_, Or.inr rfl, rfl⟩
  · rintro ⟨d, hd | rfl, rfl⟩
    · exact Or.inl ⟨d, hd, rfl⟩
    · exact Or.inr rfl

variable (pending') in
private theorem ReadyContainer.added {c c' : Chunk}
    (hready : ReadyContainer cfg sc versions pending st b) (hadd : Added b c true b' c')
    (hexact : sc.exact → sc.Absent st.pool (openPart b) c.fp ∧
      (cfg.locality = .logical → c.fp ≠ cfg.fillerFp) ∧
      ∀ fp, pending fp ∨ fp = c.fp → pending' fp) :
    CoreInv cfg sc st.pool
      { containerBuffer := some b'
        chunks := match cfg.locality with
          | .physical => st.storage.chunks ++ [{ newChunk 0 with fp := c.fp }]
          | .logical => st.storage.chunks } versions st.kv pending' := by
  have hsound := hready.sound_added hadd
  have hcore := hready.core
  refine ⟨hcore.pool_wf, ?_, ?_, hcore.next_live, ?_, ?_, hcore.kv_shape, ?_, ?_, ?_⟩
  · rintro d hd
    cases hd
    exact hready.openContainer hadd
  · rintro d hd
    cases hd
    rw [hadd.id_eq]
    exact hready.live
  · intro hloc d hd fp
    cases hd
    simp only [hloc]
    exact hready.chunks_added hadd hloc fp
  · exact hcore.versions_ok.mono fun id fp h => (hsound id fp).mpr (Or.inl h)
  · intro hex fp i j hci hcj hi hj
    have hnone := (hexact hex).1.2 hex
    rcases (hsound i fp).mp hi with hi | ⟨hib, hifp⟩
    · rcases (hsound j fp).mp hj with hj | ⟨-, hjfp⟩
      · exact hcore.once hex fp i j hci hcj hi hj
      · exact absurd (hjfp ▸ hi) (hnone i hci)
    · rcases (hsound j fp).mp hj with hj | ⟨hjb, -⟩
      · exact absurd (hifp ▸ hj) (hnone j hcj)
      · exact hib.trans hjb.symm
  · intro hex fp i hcounted hi
    obtain ⟨-, -, hpending⟩ := hexact hex
    rcases (hsound i fp).mp hi with hi | ⟨-, hfp⟩
    · refine (hcore.indexed hex fp i hcounted hi).imp ?_ fun hrest => hrest.imp_left fun h =>
        ⟨h.1, hpending fp (Or.inl h.2)⟩
      rintro ⟨hloc, d, hd, hfp⟩
      refine ⟨hloc, b', rfl, ?_⟩
      simp only [openPart] at hd
      split at hd
      · cases hd
      · cases hd
        rw [hadd.lookup_eq, hfp, Bool.true_or]
    · cases hloc : cfg.locality with
      | physical => exact Or.inl ⟨rfl, b', rfl, by simp [hadd.lookup_eq, hfp]⟩
      | logical => exact Or.inr (Or.inl ⟨rfl, hpending fp (Or.inr hfp)⟩)
  · intro hex hloc fp i hi
    rcases (stored_added hready.counted hadd i fp).mp hi with hi | ⟨-, rfl⟩
    · exact hcore.no_filler hex hloc fp i hi
    · exact (hexact hex).2.1 hloc

structure Writable (cfg : Config) (sc : Coverage) (st : FilterState) (c : Chunk) : Prop where
  fits : fitsEmptyContainer c.size
  absent : c.flag.duplicate = false ∨ sc.exact →
    c.flag.duplicate = false ∧ sc.Absent st.pool st.storage.containerBuffer c.fp
  filler : sc.exact → cfg.locality = .logical → c.fp ≠ cfg.fillerFp
  rewrite : c.flag.duplicate = true → cfg.rewriteAlgorithm ≠ .no ∨ cfg.rewriteEnableHar = true

section Write

variable {st₁ : FilterState} {size : Nat} {c c' : Chunk}

theorem MadeReady.sound (h : MadeReady cfg sc versions pending st size st₁ b) (id : Int)
    (fp : Fingerprint) : sc.Sound st₁.pool (openPart b) id fp ↔
      sc.Sound st.pool st.storage.containerBuffer id fp :=
  and_congr_right fun _ => h.stored id fp

theorem MadeReady.opened_of_lookup (h : MadeReady cfg sc versions pending st size st₁ b)
    {fp : Fingerprint} (hfp : b.lookupFingerprint fp = true) :
    openPart b = some b ∧ st.storage.containerBuffer = some b := by
  have hne : openPart b = some b := by
    refine openPart_nonempty (Bool.eq_false_iff.mpr fun hempty => ?_)
    rw [lookup_of_isEmpty h.ready.counted hempty] at hfp
    cases hfp
  exact ⟨hne, h.opened b hne⟩

theorem MadeReady.absent (h : MadeReady cfg sc versions pending st size st₁ b) {fp : Fingerprint}
    (habsent : sc.Absent st.pool st.storage.containerBuffer fp) :
    b.lookupFingerprint fp = false ∧ sc.Absent st₁.pool (openPart b) fp := by
  have hnot : ¬ b.lookupFingerprint fp = true := fun hfp =>
    habsent.1 ⟨b, (h.opened_of_lookup hfp).2, hfp⟩
  refine ⟨Bool.eq_false_iff.mpr hnot, fun ⟨d, hd, hfp⟩ => habsent.1 ⟨d, h.opened d hd, hfp⟩,
    fun hex id hcounted hs => habsent.2 hex id hcounted ((h.sound id fp).mp hs)⟩

private theorem writeResult_kept
    (h : MadeReady cfg sc versions (fun fp => (st.recentlyUnique.lookup fp).isSome) st size st₁ b)
    (hadd : Added b c false b' c') :
    WriteResult cfg sc versions st c
      { st₁ with storage := { st₁.storage with containerBuffer := some b' } } c' := by
  obtain ⟨hmon, hra, hen, hru, hrr⟩ := h.tables
  have hcid : c'.id = b.id := by rw [hadd.chunk_eq]
  have hfp : b.lookupFingerprint c.fp = true := by simpa using hadd.added_eq
  obtain ⟨hne, hold⟩ := h.opened_of_lookup hfp
  have hstored := h.stored
  have hcore := h.ready.core
  obtain rfl := hadd.same rfl
  rw [hne] at hcore hstored
  rw [← hru] at hcore
  refine ⟨hcore, by rw [hadd.chunk_eq], ⟨hcid ▸ h.ready.live, Or.inr ⟨b', rfl, hcid.symm, hfp⟩⟩,
    fun id fp h => (hstored id fp).mpr h, fun id fp h => Or.inl ((hstored id fp).mp h), h.pool_mono,
    fun fp _ habs => ?_, fun fp id h => Or.inl (hru ▸ h), fun fp h => hru.symm ▸ h,
    fun _ hnot => ?_, fun fp id h => Or.inl (hrr ▸ h), hmon, hra, hen⟩
  · exact hne ▸ (h.absent habs).2
  · exact absurd ⟨b', hold, hfp⟩ hnot

private theorem writeResult_added
    (h : MadeReady cfg sc versions (fun fp => (st.recentlyUnique.lookup fp).isSome) st size st₁ b)
    (hadd : Added b c true b' c') (hwrite : Writable cfg sc st c) :
    WriteResult cfg sc versions st c (recordWritten cfg st₁ b' c') c' := by
  obtain ⟨hmon, hra, hen, hru, hrr⟩ := h.tables
  have hcid : c'.id = b.id := by rw [hadd.chunk_eq]
  have hcfp : c'.fp = c.fp := by rw [hadd.chunk_eq]
  have hcflag : c'.flag = c.flag := by rw [hadd.chunk_eq]
  have hstored : ∀ id fp, Stored st₁.pool (some b') id fp ↔
      Stored st₁.pool (openPart b) id fp ∨ (id = b.id ∧ fp = c.fp) :=
    stored_added h.ready.counted hadd
  have hcore := h.ready.added
    (fun fp => ((recordWritten cfg st₁ b' c').recentlyUnique.lookup fp).isSome) hadd (fun hex => by
      obtain ⟨hdup, habs⟩ := hwrite.absent (Or.inr hex)
      refine ⟨(h.absent habs).2, hwrite.filler hex, fun fp hfp => ?_⟩
      simp only [recordWritten, hcflag, hdup, hcfp, Bool.false_eq_true, if_false]
      apply isSome_lookup_insert
      rw [hru]
      exact hfp.symm)
  refine ⟨?_, by rw [hadd.chunk_eq], ?_, fun id fp hold => ?_, fun id fp hnew => ?_, h.pool_mono,
    fun fp hne habs => ?_, fun fp id hid => ?_, fun fp hsome => ?_, fun hdup _ => ?_,
    fun fp id hid => ?_, hmon, hra, hen⟩
  · rw [← hcfp] at hcore
    exact hcore
  · rw [hcid]
    exact ⟨h.ready.live, (hstored b.id c.fp).mpr (Or.inr ⟨rfl, rfl⟩)⟩
  · exact (hstored id fp).mpr (Or.inl ((h.stored id fp).mpr hold))
  · rw [hcid]
    exact ((hstored id fp).mp hnew).imp_left (h.stored id fp).mp
  · obtain ⟨hnot, hold⟩ := h.absent habs
    refine ⟨?_, fun hex id hcounted hs => ?_⟩
    · rintro ⟨d, hd, hdfp⟩
      cases hd
      rw [hadd.lookup_eq, hnot, Bool.false_or, beq_iff_eq] at hdfp
      exact hne hdfp
    · rcases (hstored id fp).mp hs.2 with hs' | ⟨-, hfp⟩
      · exact hold.2 hex id hcounted ⟨hs.1, hs'⟩
      · exact hne hfp
  · simp only [recordWritten, hcflag, hcfp, hru] at hid
    split at hid
    · exact Or.inl hid
    · rename_i hdup
      rcases lookup_insert_cases hid with hid | ⟨hfp, hid⟩
      · exact Or.inl hid
      · exact Or.inr ⟨hfp, hid, by simpa using hdup⟩
  · simp only [recordWritten, hru]
    split
    · exact hsome
    · exact isSome_lookup_insert (Or.inr hsome)
  · simp only [recordWritten, hcflag, hdup, hcfp, Bool.false_eq_true, if_false]
    exact isSome_lookup_insert (Or.inl rfl)
  · simp only [recordWritten, hcfp, hrr] at hid
    split at hid
    · exact lookup_insert_cases hid
    · exact Or.inl hid

/-- Writing a chunk: it may only be a duplicate where fragmented chunks are rewritten. -/
theorem writeChunk_ensures (hset : cfg.Settled) (hexact : sc.exact → ExactIndex cfg)
    (hcore : CoreInv cfg sc st.pool st.storage versions st.kv
      fun fp => (st.recentlyUnique.lookup fp).isSome) (hwrite : Writable cfg sc st c) :
    Ensures (AllowedAbort cfg) (fun r => WriteResult cfg sc versions st c r.1 r.2)
      (writeChunk cfg st c) := by
  apply (containerFor_ensures hset hexact hcore hwrite.fits).bind
  rintro ⟨st₁, b⟩ hmade
  refine ((addChunkToContainer_ensures cfg hmade.room (hmade.ready.roomy.sum_lt hwrite.fits)).mono
    (fun _ h => h.elim) fun _ h => h).bind ?_
  rintro ⟨added, b', c'⟩ hadd
  simp only at hmade hadd
  refine Ensures.bind (P := fun _ => True) ?_ (fun _ _ => ?_)
  · refine (ensures_require ?_).imp fun _ _ => trivial
    cases hadded : added with
    | true => exact Or.inl (Or.inl rfl)
    | false =>
        have hfp : b.lookupFingerprint c.fp = true := by simpa [hadded] using hadd.added_eq
        have hdup : c.flag.duplicate = true := by
          apply Bool.not_eq_false _ |>.mp
          intro hdup
          exact (hwrite.absent (Or.inl hdup)).2.1 ⟨b, (hmade.opened_of_lookup hfp).2, hfp⟩
        by_cases hcat : cfg.indexCategory = .exact ∧ cfg.rewriteAlgorithm = .no
        · exact Or.inr (Or.inr (Or.inr ⟨rfl, hcat.1, hcat.2,
            (hwrite.rewrite hdup).resolve_left fun h => h hcat.2⟩))
        · rw [not_and_or] at hcat
          exact Or.inl (Or.inr hcat)
  · rw [ensures_pure]
    cases added with
    | false =>
        simp only [Bool.false_eq_true, if_false]
        exact writeResult_kept hmade hadd
    | true =>
        simp only [if_true]
        exact writeResult_added hmade hadd hwrite

end Write

end Fill

end Destor
