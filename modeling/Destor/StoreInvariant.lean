/- digest: What holds of the store between steps: sound pointers, loadable units, no stored copy
   out of the index's sight. -/

import Destor.DoBackup

set_option autoImplicit false
set_option relaxedAutoImplicit false

namespace Destor

open Library.Outcome

/-- What an invariant is to cover: the containers that are not reclaimed, whether the index must
know each of their fingerprints, and the oldest backup that is not deleted. -/
structure Scope where
  live : Int → Prop
  exact : Prop
  oldest : Nat

/-- A scope in which an exact index must know what the containers `counted` hold, and the entries of the
keys `spared` may list any unit. -/
structure Coverage extends Scope where
  counted : Int → Prop := fun _ => True
  spared : Key → Prop := fun _ => False

/-- A whole scope: every container counts, and no key is spared. -/
instance : Coe Scope Coverage := ⟨fun sc => { sc with }⟩

instance : CoeOut Coverage Scope := ⟨Coverage.toScope⟩

def Stored (pool : ContainerPool) (storage : Option Container) (id : Int) (fp : Fingerprint) :
    Prop :=
  pool.Holds id fp ∨ ∃ b, storage = some b ∧ b.id = id ∧ b.lookupFingerprint fp = true

namespace Scope

variable (sc : Scope)

def Sound (pool : ContainerPool) (storage : Option Container) (id : Int) (fp : Fingerprint) :
    Prop :=
  sc.live id ∧ Stored pool storage id fp

/-- The units of locality that the index may know: live containers or segments of backups that
are not deleted. -/
def StoreUnit (cfg : Config) (pool : ContainerPool) (versions : List BackupVersion) :
    CacheUnit → Prop
  | .containerMeta cm => cfg.locality = .physical ∧ sc.live cm.id ∧
      ∃ c, pool.containers.lookup cm.id = some c ∧ c.toContainerMeta = cm
  | .segmentRecipe sr => cfg.locality = .logical ∧ ∃ b ∈ versions, sc.oldest ≤ b.bvNum ∧
      ∃ segments, b.recipe = encodeSegments segments ∧ sr ∈ segmentRecipes b.bvNum 0 segments

def UnitId (cfg : Config) (pool : ContainerPool) (versions : List BackupVersion) (id : Int) :
    Prop :=
  ∃ u, sc.StoreUnit cfg pool versions u ∧ u.id = id

end Scope

/-- A fingerprint that may be stored: the open container does not have it, nor does a live one in
which the index must know them all. -/
def Coverage.Absent (sc : Coverage) (pool : ContainerPool) (storage : Option Container)
    (fp : Fingerprint) : Prop :=
  ¬ OpenHolds storage fp ∧ (sc.exact → ∀ id, sc.counted id → ¬ sc.Sound pool storage id fp)

structure OpenContainer (pool : ContainerPool) (b : Container) : Prop where
  counted : b.Counted
  nonempty : b.isEmpty = false
  roomy : b.Roomy
  nonneg : 0 ≤ b.id
  id_lt : b.id < pool.containerCount
  pushed_lt : ∀ i c, pool.containers.lookup i = some c → i < b.id

/-- The ids of a version's segments fit their bit fields. -/
structure RecipeFits (bvNum : Nat) (segments : List (List ChunkPointer)) : Prop where
  bvNum_lt : bvNum < 2 ^ 15
  length_le : chunkPointerSize * (encodeSegments segments).length ≤ 2 ^ 32
  segment_lt : ∀ pointers ∈ segments, pointers.length < 2 ^ 16

/-- The backup versions, numbered in order; their recipes consist of segments, whose pointers
satisfy `sound` unless the backup is deleted. -/
structure VersionsInv (cfg : Config) (oldest : Nat) (sound : Int → Fingerprint → Prop)
    (versions : List BackupVersion) : Prop where
  num : ∀ (i : Nat) (b : BackupVersion), versions[i]? = some b → b.bvNum = i
  recipe : ∀ b ∈ versions, ∃ segments, b.recipe = encodeSegments segments ∧
    (oldest ≤ b.bvNum → ∀ pointers ∈ segments, ∀ cp ∈ pointers, sound cp.id cp.fp) ∧
    (cfg.locality = .logical → RecipeFits b.bvNum segments)

section Stored

variable {pool pool' : ContainerPool} {storage storage' : Option Container} {id : Int}
  {fp : Fingerprint} {sc : Scope}

theorem Stored.nonneg (h : Stored pool storage id fp) (hwf : pool.WellFormed)
    (hopen : ∀ b ∈ storage, OpenContainer pool b) : 0 ≤ id := by
  rcases h with ⟨c, hc, -⟩ | ⟨b, rfl, rfl, -⟩
  · exact (hwf.lt_count id c hc).1
  · exact (hopen b rfl).nonneg

end Stored

section Segments

structure SegmentOf (bvNum offset : Nat) (pointers : List ChunkPointer) (sr : SegmentRecipe) :
    Prop where
  id_eq : sr.id = makeSegmentId bvNum offset pointers.length
  kvpairs_eq : sr.kvpairs = segmentTable pointers

-- over variables, so that no id is evaluated
private theorem segmentRecipe_eq_mk {sr : SegmentRecipe} {i : Int} {m : FpMap ChunkPointer} :
    sr = { id := i, kvpairs := m } ↔ sr.id = i ∧ sr.kvpairs = m := by
  cases sr
  simp

private theorem segmentRecipe_id_mk (i : Int) (m : FpMap ChunkPointer) :
    ({ id := i, kvpairs := m } : SegmentRecipe).id = i := rfl

private theorem exists_segmentRecipe (i : Int) (m : FpMap ChunkPointer) :
    ∃ sr : SegmentRecipe, sr.id = i ∧ sr.kvpairs = m := ⟨⟨i, m⟩, rfl, rfl⟩

theorem exists_segmentOf (bvNum offset : Nat) (pointers : List ChunkPointer) :
    ∃ sr, SegmentOf bvNum offset pointers sr := by
  obtain ⟨sr, hid, hkv⟩ := exists_segmentRecipe (makeSegmentId bvNum offset pointers.length)
    (segmentTable pointers)
  exact ⟨sr, hid, hkv⟩

theorem mem_segmentRecipes {bvNum off : Nat} {segments : List (List ChunkPointer)}
    {sr : SegmentRecipe} :
    sr ∈ segmentRecipes bvNum off segments ↔
      ∃ before pointers after, segments = before ++ pointers :: after ∧
        SegmentOf bvNum (chunkPointerSize * (off + (encodeSegments before).length)) pointers
          sr := by
  induction segments generalizing off with
  | nil => simp [segmentRecipes]
  | cons head segments ih =>
      rw [segmentRecipes, List.mem_cons, ih, segmentRecipe_eq_mk]
      constructor
      · rintro (⟨hid, hkv⟩ | ⟨before, pointers, after, rfl, hsr⟩)
        · exact ⟨[], head, segments, rfl, hid, hkv⟩
        · refine ⟨head :: before, pointers, after, rfl, ?_⟩
          rwa [encodeSegments_cons, List.length_append, ← Nat.add_assoc]
      · rintro ⟨before, pointers, after, hsegments, hsr⟩
        cases before with
        | nil =>
            cases hsegments
            exact Or.inl ⟨hsr.id_eq, hsr.kvpairs_eq⟩
        | cons head' before =>
            cases hsegments
            refine Or.inr ⟨before, pointers, after, rfl, ?_⟩
            rwa [encodeSegments_cons, List.length_append, ← Nat.add_assoc] at hsr

/-- A recipe file determines its segments. -/
theorem encodeSegments_injective {segments segments' : List (List ChunkPointer)}
    (h : encodeSegments segments = encodeSegments segments') : segments = segments' := by
  induction segments generalizing segments' with
  | nil =>
      cases segments' with
      | nil => rfl
      | cons pointers' segments' => simp [encodeSegment] at h
  | cons pointers segments ih =>
      cases segments' with
      | nil => simp [encodeSegment] at h
      | cons pointers' segments' =>
          simp only [encodeSegments_cons, encodeSegment, List.cons_append, List.cons.injEq,
            segmentFlag, ChunkPointer.mk.injEq, true_and] at h
          obtain ⟨hlen, h⟩ := h
          simp only [List.append_assoc] at h
          obtain ⟨hpointers, hrest⟩ := List.append_inj h hlen
          rw [hpointers, ih (List.cons.inj hrest).2]

def segmentOffset (before : List (List ChunkPointer)) : Nat :=
  chunkPointerSize * (encodeSegments before).length

theorem RecipeFits.segmentId {bvNum : Nat} {before after : List (List ChunkPointer)}
    {pointers : List ChunkPointer} (h : RecipeFits bvNum (before ++ pointers :: after)) :
    SegmentIdFits bvNum (segmentOffset before) pointers.length := by
  refine ⟨h.bvNum_lt, ?_, h.segment_lt pointers (by simp)⟩
  have := h.length_le
  simp only [encodeSegments_append, encodeSegments_cons, List.length_append,
    length_encodeSegment] at this
  simp only [segmentOffset, chunkPointerSize] at *
  omega

theorem segmentOffset_lt {before after before' : List (List ChunkPointer)}
    {pointers : List ChunkPointer} (h : before' = before ++ pointers :: after) :
    segmentOffset before < segmentOffset before' := by
  subst h
  simp only [segmentOffset, encodeSegments_append, encodeSegments_cons, List.length_append,
    length_encodeSegment, chunkPointerSize]
  omega

end Segments

section Units

variable {cfg : Config} {sc : Scope} {pool : ContainerPool} {storage : Option Container}
  {versions : List BackupVersion} {u : CacheUnit}

/-- A unit of logical locality is a segment of a retained backup. -/
theorem Scope.StoreUnit.segment {sr : SegmentRecipe}
    (h : sc.StoreUnit cfg pool versions (.segmentRecipe sr)) :
    ∃ b ∈ versions, sc.oldest ≤ b.bvNum ∧ ∃ before pointers after,
      b.recipe = encodeSegments (before ++ pointers :: after) ∧
      SegmentOf b.bvNum (segmentOffset before) pointers sr := by
  obtain ⟨-, b, hb, hold, segments, hrecipe, hsr⟩ := h
  obtain ⟨before, pointers, after, rfl, hof⟩ := mem_segmentRecipes.mp hsr
  rw [Nat.zero_add] at hof
  exact ⟨b, hb, hold, before, pointers, after, hrecipe, hof⟩

/-- Whatever a unit says about a fingerprint is sound. -/
theorem Scope.StoreUnit.pointer_sound
    (hversions : VersionsInv cfg sc.oldest (sc.Sound pool storage) versions)
    (hu : sc.StoreUnit cfg pool versions u) {fp : Fingerprint} {id : Int}
    (hptr : u.pointer fp = some id) : sc.Sound pool storage id fp := by
  cases u with
  | containerMeta cm =>
      obtain ⟨-, hlive, c, hc, rfl⟩ := hu
      simp only [CacheUnit.pointer] at hptr
      split at hptr
      · cases hptr
        exact ⟨hlive, Or.inl ⟨c, hc, by assumption⟩⟩
      · cases hptr
  | segmentRecipe sr =>
      obtain ⟨b, hb, hold, before, pointers, after, hrecipe, hof⟩ := hu.segment
      obtain ⟨segments, hsegments, hsound, -⟩ := hversions.recipe b hb
      have := encodeSegments_injective (hsegments.symm.trans hrecipe)
      subst this
      simp only [CacheUnit.pointer, Option.map_eq_some_iff, hof.kvpairs_eq] at hptr
      obtain ⟨cp, hcp, rfl⟩ := hptr
      obtain ⟨hmem, rfl⟩ := mem_of_lookup_segmentTable hcp
      exact hsound hold pointers (by simp) cp hmem

theorem Scope.StoreUnit.pointer_assigned (hwf : pool.WellFormed)
    (hopen : ∀ b ∈ storage, OpenContainer pool b)
    (hversions : VersionsInv cfg sc.oldest (sc.Sound pool storage) versions) :
    PointersAssigned (sc.StoreUnit cfg pool versions) := by
  intro u fp id hu hptr
  exact temporaryId_lt_of_nonneg ((hu.pointer_sound hversions hptr).2.nonneg hwf hopen)

def SourceOf (source : IndexSource) (pool : ContainerPool) (versions : List BackupVersion)
    (kv : KvStore) : Prop :=
  source.pool = pool ∧ source.backups ++ [source.current] = versions ∧ source.kv = kv

theorem openVersion {source : IndexSource} {oldest : Nat} {sound : Int → Fingerprint → Prop}
    (hversions : VersionsInv cfg oldest sound versions)
    (heq : source.backups ++ [source.current] = versions) {b : BackupVersion}
    (hb : b ∈ versions) :
    versionForPrefetch source.backups source.current b.bvNum = .ok b := by
  subst heq
  unfold versionForPrefetch
  obtain ⟨i, hi⟩ := List.mem_iff_getElem?.mp hb
  have hnum := hversions.num i b hi
  have hcurrent := hversions.num source.backups.length source.current (by simp)
  by_cases hlt : i < source.backups.length
  · rw [if_neg (by omega)]
    rw [List.getElem?_append_left hlt] at hi
    simp [openBackupVersion, hnum, hi]
  · have hle : i < source.backups.length + 1 := by
      simpa using (List.getElem?_eq_some_iff.mp hi).1
    have hlast : i = source.backups.length := by omega
    subst hlast
    simp only [List.getElem?_append_right le_rfl, Nat.sub_self, List.getElem?_cons_zero,
      Option.some.injEq] at hi
    rw [if_pos (by rw [hi]), hi]

theorem Scope.UnitId.assigned (hwf : pool.WellFormed)
    (hversions : VersionsInv cfg sc.oldest (sc.Sound pool storage) versions) {id : Int}
    (h : sc.UnitId cfg pool versions id) : id ≠ temporaryId := by
  obtain ⟨u, hu, rfl⟩ := h
  cases u with
  | containerMeta cm =>
      obtain ⟨-, -, c, hc, rfl⟩ := hu
      exact ne_temporaryId_of_nonneg (hwf.lt_count _ _ hc).1
  | segmentRecipe sr =>
      have hloc := hu.1
      obtain ⟨b, hb, -, before, pointers, after, hrecipe, hof⟩ := hu.segment
      obtain ⟨segments, hsegments, -, hfits⟩ := hversions.recipe b hb
      have heq := encodeSegments_injective (hsegments.symm.trans hrecipe)
      subst heq
      have hid : (CacheUnit.segmentRecipe sr).id = sr.id := rfl
      rw [hid, hof.id_eq]
      exact ne_temporaryId_of_nonneg (makeSegmentId_nonneg (hfits hloc).segmentId)

theorem Scope.UnitId.loadable {source : IndexSource} {kv : KvStore}
    (hwf : pool.WellFormed)
    (hversions : VersionsInv cfg sc.oldest (sc.Sound pool storage) versions)
    (hopen : ∀ b ∈ storage, OpenContainer pool b) (hsource : SourceOf source pool versions kv)
    {id : Int} (h : sc.UnitId cfg pool versions id) :
    id ≠ temporaryId ∧ Loadable cfg source (sc.StoreUnit cfg pool versions) id := by
  have hne := h.assigned hwf hversions
  refine ⟨hne, ?_⟩
  obtain ⟨hpool, hback, -⟩ := hsource
  obtain ⟨u, hu, rfl⟩ := h
  cases u with
  | containerMeta cm =>
      obtain ⟨hloc, hlive, c, hc, rfl⟩ := hu
      simp only [Loadable, hloc, hpool]
      exact ⟨c.toContainerMeta, retrieveContainerMetaById_of_holds hc,
          ⟨hloc, hlive, c, hc, rfl⟩, rfl⟩
  | segmentRecipe sr =>
      have hloc := hu.1
      obtain ⟨b, hb, hold, before, pointers, after, hrecipe, hof⟩ := hu.segment
      obtain ⟨segments, hsegments, hsound, hfits⟩ := hversions.recipe b hb
      have heq := encodeSegments_injective (hsegments.symm.trans hrecipe)
      subst heq
      have hfit := (hfits hloc).segmentId
      have hassigned : ∀ ps ∈ pointers :: after, ∀ cp ∈ ps, temporaryId < cp.id := by
        intro ps hps cp hcp
        exact temporaryId_lt_of_nonneg
          ((hsound hold ps (List.mem_append_right _ hps) cp hcp).2.nonneg hwf hopen)
      have hoff : (idToOff sr.id).toNat / chunkPointerSize = (encodeSegments before).length := by
        rw [hof.id_eq, idToOff_makeSegmentId hfit, Int.toNat_natCast]
        simp [segmentOffset, chunkPointerSize]
      have hbnum : idToBnum sr.id = b.bvNum := by rw [hof.id_eq, idToBnum_makeSegmentId hfit]
      have hmem : ∀ sr' ∈ segmentRecipes b.bvNum (encodeSegments before).length
          (pointers :: after), sc.StoreUnit cfg pool versions (.segmentRecipe sr') := by
        intro sr' hsr'
        obtain ⟨before', ps, after', hsplit, hof'⟩ := mem_segmentRecipes.mp hsr'
        refine ⟨hloc, b, hb, hold, before ++ pointers :: after, hrecipe,
          mem_segmentRecipes.mpr ⟨before ++ before', ps, after', ?_, ?_⟩⟩
        · rw [hsplit, List.append_assoc]
        · rwa [encodeSegments_append, List.length_append, Nat.zero_add]
      simp only [Loadable, hloc, CacheUnit.id]
      refine ⟨(segmentRecipes b.bvNum (encodeSegments before).length
        (pointers :: after)).take cfg.segmentPrefetch,
        prefetchSegments_eq (b := b) hne ?_ ?_ ?_, ?_, ?_⟩
      · rw [hbnum]
        exact openVersion hversions hback hb
      · rw [hoff, hrecipe, encodeSegments_append, List.drop_left]
        exact prefetchLoop_encode _ _ _ _ hassigned
      · intro hpos
        obtain ⟨n, hn⟩ := Nat.exists_eq_succ_of_ne_zero hpos
        rw [hn, segmentRecipes, List.take_succ_cons]
        exact List.cons_ne_nil _ _
      · exact fun sr' hsr' => hmem sr' (List.mem_of_mem_take hsr')
      · intro hpos
        obtain ⟨n, hn⟩ := Nat.exists_eq_succ_of_ne_zero (Nat.ne_of_gt hpos)
        rw [hn, segmentRecipes, List.take_succ_cons, List.head?_cons]
        refine ⟨_, Option.mem_some_self _, ?_⟩
        rw [hof.id_eq]
        exact segmentRecipe_id_mk _ _

end Units

section Core

/-- What holds of pool, open container, recipes and index at every point of a job where no thread
is inside a segment; `pending` excuses fingerprints stored but not yet indexed. -/
structure CoreInv (cfg : Config) (sc : Coverage) (pool : ContainerPool) (storage : StorageBuffer)
    (versions : List BackupVersion) (kv : KvStore) (pending : Fingerprint → Prop) : Prop where
  pool_wf : pool.WellFormed
  open_ok : ∀ b ∈ storage.containerBuffer, OpenContainer pool b
  open_live : ∀ b ∈ storage.containerBuffer, sc.live b.id
  next_live : ∀ i : Int, pool.containerCount ≤ i → sc.live i
  open_chunks : cfg.locality = .physical → ∀ b ∈ storage.containerBuffer, ∀ fp,
    b.lookupFingerprint fp = true ↔ ∃ c ∈ storage.chunks, c.fp = fp
  versions_ok : VersionsInv cfg sc.oldest (sc.Sound pool storage.containerBuffer) versions
  kv_shape : KvShape cfg (sc.UnitId cfg pool versions) kv
  once : sc.exact → ∀ fp i j, sc.counted i → sc.counted j →
    sc.Sound pool storage.containerBuffer i fp → sc.Sound pool storage.containerBuffer j fp → i = j
  indexed : sc.exact → ∀ fp i, sc.counted i → sc.Sound pool storage.containerBuffer i fp →
    (cfg.locality = .physical ∧ OpenHolds storage.containerBuffer fp) ∨
      (cfg.locality = .logical ∧ pending fp) ∨
      ∃ ids, kv.lookup (cfg.key fp) = some ids ∧
        ∀ u, sc.StoreUnit cfg pool versions u → u.id = ids.headD temporaryId →
          u.holds fp = true
  no_filler : sc.exact → cfg.locality = .logical → ∀ fp i,
    Stored pool storage.containerBuffer i fp → fp ≠ cfg.fillerFp

variable {cfg : Config} {sc : Coverage} {pool : ContainerPool} {storage : StorageBuffer}
  {versions : List BackupVersion} {kv : KvStore} {pending : Fingerprint → Prop}
  {source : IndexSource}

theorem CoreInv.pointersAssigned (h : CoreInv cfg sc pool storage versions kv pending) :
    PointersAssigned (sc.StoreUnit cfg pool versions) :=
  Scope.StoreUnit.pointer_assigned h.pool_wf h.open_ok h.versions_ok

theorem CoreInv.kvLoadable (h : CoreInv cfg sc pool storage versions kv pending)
    (hsource : SourceOf source pool versions kv) :
    KvLoadable cfg source (sc.StoreUnit cfg pool versions) := by
  have hkv : source.kv = kv := hsource.2.2
  unfold KvLoadable
  rw [hkv]
  exact h.kv_shape.mono fun id hid =>
    hid.loadable h.pool_wf h.versions_ok h.open_ok hsource

/-- In a whole scope no two containers have the same fingerprint. -/
theorem CoreInv.unique {sc : Scope} (h : CoreInv cfg sc pool storage versions kv pending)
    (hexact : sc.exact) (fp : Fingerprint) (i j : Int)
    (hi : sc.Sound pool storage.containerBuffer i fp)
    (hj : sc.Sound pool storage.containerBuffer j fp) : i = j :=
  h.once hexact fp i j trivial trivial hi hj

/-- What the index must offer where a stored chunk may not be missed. -/
structure ExactIndex (cfg : Config) : Prop where
  exact : cfg.indexCategory = .exact
  rewrite : cfg.rewriteAlgorithm = .no
  har : cfg.rewriteEnableHar = false
  prefetch : cfg.locality = .physical ∨ 0 < cfg.segmentPrefetch

/-- A chunk that no place of the index knows is stored nowhere. -/
theorem CoreInv.absent_of_unique (h : CoreInv cfg sc pool storage versions kv fun _ => False)
    (hexact : sc.exact → ExactIndex cfg) (hsource : SourceOf source pool versions kv)
    {fp : Fingerprint} (hopen : ¬ OpenHolds storage.containerBuffer fp) {ask : Bool}
    (hask : cfg.indexCategory = .exact → ask = true)
    (hindex : ask = true → (cfg.locality = .physical ∨ 0 < cfg.segmentPrefetch) →
      ∀ ids, source.kv.lookup (cfg.key fp) = some ids →
        ∃ u, sc.StoreUnit cfg pool versions u ∧ u.id = ids.headD temporaryId ∧
          u.holds fp = false) :
    sc.Absent pool storage.containerBuffer fp := by
  refine ⟨hopen, fun hex id hcounted hsound => ?_⟩
  have hcfg := hexact hex
  rcases h.indexed hex fp id hcounted hsound with ⟨-, hin⟩ | ⟨-, hfalse⟩ | ⟨ids, hids, hunits⟩
  · exact hopen hin
  · exact hfalse
  · rw [← hsource.2.2] at hids
    obtain ⟨u, hu, huid, hmiss⟩ := hindex (hask hcfg.exact) hcfg.prefetch ids hids
    rw [hunits u hu huid] at hmiss
    cases hmiss

end Core

end Destor
