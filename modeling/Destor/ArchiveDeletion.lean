/- digest: The deletion of the oldest backup: which units go, and that the store stays in order
   without them. -/

import Destor.Archive

set_option autoImplicit false
set_option relaxedAutoImplicit false

namespace Destor

open Library.Outcome

section Deletion

variable {cfg : Config} {sc sc' : Coverage} {pool : ContainerPool} {versions : List BackupVersion}
  {kv kv' : KvStore} {gone : List CacheUnit}

/-- The units that a deletion takes away, in the order of its walk. -/
structure Gone (cfg : Config) (sc sc' : Coverage) (pool : ContainerPool)
    (versions : List BackupVersion) (gone : List CacheUnit) : Prop where
  units : ∀ u ∈ gone, sc.StoreUnit cfg pool versions u
  rest : ∀ u, sc.StoreUnit cfg pool versions u →
    u ∈ gone ∨ sc'.StoreUnit cfg pool versions u
  selected : ∀ u ∈ gone, cfg.locality = .physical → ¬ u.Unselected cfg
  distinct : (gone.map CacheUnit.id).Nodup

/-- The walk takes the deleted units out of every entry, and leaves the others. -/
theorem Gone.delete {storage : StorageBuffer} {pending : Fingerprint → Prop}
    (hgone : Gone cfg sc sc' pool versions gone)
    (hcore : CoreInv cfg sc pool storage versions kv pending)
    (hlisting : Listing cfg sc pool versions kv)
    (hspared : ∀ k, sc.spared k → listedIds kv k = [])
    (hend : ∀ k, GoFromEnd (gone.map CacheUnit.id) (listedIds kv k)) :
    ∃ kv', deleteWalk cfg kv gone = .ok kv' ∧ KvShape cfg (sc'.UnitId cfg pool versions) kv' ∧
      Listing cfg sc' pool versions kv' ∧
      ∀ k, listedIds kv' k = (listedIds kv k).filter fun i => decide ¬ Reaches cfg gone k i := by
  have hassigned : ∀ i, sc.UnitId cfg pool versions i → i ≠ temporaryId := fun i hi =>
    hi.assigned hcore.pool_wf hcore.versions_ok
  have hids : ∀ u ∈ gone, u.id ≠ temporaryId := fun u hu =>
    hassigned u.id ⟨u, hgone.units u hu, rfl⟩
  -- a deleted unit is listed only where the walk comes to
  have hkey : ∀ k u, u ∈ gone → u.Indexed cfg k → Reaches cfg gone k u.id := by
    rintro k u hu (hkey | ⟨hloc, hnone⟩)
    · exact ⟨u, hu, rfl, hkey⟩
    · exact absurd hnone (hgone.selected u hu hloc)
  have hreach : ∀ k i, i ∈ listedIds kv k → i ∈ gone.map CacheUnit.id → Reaches cfg gone k i := by
    intro k i hi hmem
    obtain ⟨u, hu, rfl, hindexed⟩ := hlisting.full hspared hi
    obtain ⟨u', hu', hid⟩ := List.mem_map.mp hmem
    obtain rfl := (hgone.units u' hu').eq_of_id hcore.versions_ok hu hid
    exact hkey k u' hu' hindexed
  obtain ⟨kv', hkv'⟩ :=
    deleteWalk_ok hcore.kv_shape hassigned hids hgone.distinct hreach hend
  obtain ⟨hshape, hlisted⟩ := deleteWalk_listed hcore.kv_shape hassigned hids hkv'
  have hlisting' : ∀ k i, i ∈ listedIds kv' k →
      ∃ u, sc'.StoreUnit cfg pool versions u ∧ u.id = i ∧ u.Indexed cfg k := by
    intro k i hi
    rw [hlisted] at hi
    obtain ⟨hi, hnot⟩ := List.mem_filter.mp hi
    obtain ⟨u, hu, rfl, hindexed⟩ := hlisting.full hspared hi
    rcases hgone.rest u hu with hu' | hu'
    · exact absurd (hkey k u hu' hindexed) (of_decide_eq_true hnot)
    · exact ⟨u, hu', rfl, hindexed⟩
  refine ⟨kv', hkv', hshape.restrict hassigned fun k i hi => ?_, fun k i _ hi => hlisting' k i hi,
    hlisted⟩
  obtain ⟨u, hu, hid, -⟩ := hlisting' k i hi
  exact ⟨u, hu, hid⟩

/-- Of an entry in descending order the smaller units stand at the end. -/
theorem goFromEnd_of_lt {ids goneIds : List Int} (hids : ids.Pairwise (· > ·))
    (hgone : goneIds.Pairwise (· < ·)) (hlt : ∀ i ∈ ids, i ∉ goneIds → ∀ j ∈ goneIds, j < i) :
    GoFromEnd goneIds ids := by
  refine ⟨ids.filter (· ∉ goneIds), ?_⟩
  have hsplit : ids = ids.filter (· ∉ goneIds) ++ ids.filter (· ∈ goneIds) := by
    induction ids with
    | nil => rfl
    | cons i ids ih =>
        obtain ⟨hi, hids⟩ := List.pairwise_cons.mp hids
        have hrest := ih hids fun j hj => hlt j (List.mem_cons_of_mem i hj)
        by_cases hmem : i ∈ goneIds
        · -- behind a deleted unit all are deleted
          have hall : ∀ j ∈ i :: ids, j ∈ goneIds := by
            intro j hj
            rcases List.mem_cons.mp hj with rfl | hj'
            · exact hmem
            · by_contra hnot
              exact Int.lt_irrefl i ((hlt j hj hnot i hmem).trans (hi j hj'))
          rw [List.filter_eq_nil_iff.mpr, List.nil_append, List.filter_eq_self.mpr]
          · exact fun j hj => decide_eq_true (hall j hj)
          · exact fun j hj hnot => of_decide_eq_true hnot (hall j hj)
        · rw [List.filter_cons, if_pos (decide_eq_true hmem), List.filter_cons,
            if_neg fun h => hmem (of_decide_eq_true h), List.cons_append, ← hrest]
  have hsame : ids.filter (· ∈ goneIds) = (goneIds.filter (· ∈ ids)).reverse := by
    have hleft : (ids.filter (· ∈ goneIds)).Pairwise (· > ·) := hids.filter _
    have hright : (goneIds.filter (· ∈ ids)).reverse.Pairwise (· > ·) :=
      List.pairwise_reverse.mpr (hgone.filter _)
    have hperm : (ids.filter (· ∈ goneIds)).Perm (goneIds.filter (· ∈ ids)).reverse := by
      rw [List.perm_ext_iff_of_nodup (hleft.imp fun h => Int.ne_of_gt h)
        (hright.imp fun h => Int.ne_of_gt h)]
      intro i
      rw [List.mem_reverse, List.mem_filter, List.mem_filter, decide_eq_true_eq, decide_eq_true_eq]
      exact and_comm
    exact hperm.eq_of_pairwise (fun _ _ _ _ h h' => absurd h (Int.not_lt.mpr h'.le)) hleft hright
  rw [← hsame]
  exact hsplit

end Deletion

/-- What the running job, or the store without one, keeps of the index. -/
def SystemIndexed (cfg : Config) (sc : Coverage) (sys : System) : Prop :=
  match sys.job with
  | none => Listing cfg sc sys.store.pool sys.store.backups sys.store.htable
  | some job => JobIndexed cfg sc sys.store job

/-- What holds of an archive between two events, as far as a coverage goes. -/
structure CoveredInv (cfg : Config) (sc : Coverage) (a : Archive) : Prop where
  sys : SystemInv cfg sc a.sys
  indexed : SystemIndexed cfg sc a.sys
  marks : ManifestMarks a.oldest a.sys.store
  reclaimed_nonneg : ∀ i ∈ a.reclaimed, 0 ≤ i

/-- What holds of an archive in its whole scope. -/
def ArchiveInv (cfg : Config) (exact : Prop) (a : Archive) : Prop :=
  CoveredInv cfg (a.scope exact) a

/-- The walk of the next deletion comes to every entry of a reclaimed container, and finds it last
there. -/
structure ReachedByWalk (order : List Int → List Int) (cfg : Config) (a : Archive) : Prop where
  selected : ∀ id ∈ expiredContainers a.sys.store.manifest a.oldest,
    ∀ c, a.sys.store.pool.containers.lookup id = some c →
      ¬ (CacheUnit.containerMeta c.toContainerMeta).Unselected cfg
  last : ∀ k, GoFromEnd (order (expiredContainers a.sys.store.manifest a.oldest))
    (listedIds a.sys.store.htable k)

section Step

variable {cfg : Config} {exact : Prop} {order : List Int → List Int} {store : Store} {oldest : Nat}
  {reclaimed : List Int} {counted : Int → Prop} {a : Archive}

theorem CoreInv.pointer_sound {sc : Coverage} {pool : ContainerPool} {storage : StorageBuffer}
    {versions : List BackupVersion} {kv : KvStore} {pending : Fingerprint → Prop}
    (h : CoreInv cfg sc pool storage versions kv pending) {b : BackupVersion} (hb : b ∈ versions)
    (hle : sc.oldest ≤ b.bvNum) {cp : ChunkPointer} (hcp : cp ∈ b.recipe) (hid : 0 ≤ cp.id) :
    sc.Sound pool storage.containerBuffer cp.id cp.fp := by
  obtain ⟨segments, hrecipe, hsound, -⟩ := h.versions_ok.recipe b hb
  rw [hrecipe] at hcp
  obtain ⟨pointers, hpointers, hmem⟩ := List.mem_flatMap.mp hcp
  exact hsound hle pointers hpointers cp (mem_encodeSegment.mp ⟨hmem, hid⟩).1

/-- The containers that a deletion reclaims are in the pool, and were not reclaimed before. -/
theorem expired_live {sc : Coverage} {kv : KvStore} {pending : Fingerprint → Prop}
    (hcore : CoreInv cfg sc store.pool { containerBuffer := none, chunks := [] } store.backups kv
      pending) (hmarks : ManifestMarks sc.oldest store) {jobid c : Int}
    (hc : c ∈ expiredContainers store.manifest jobid) :
    sc.live c ∧ ∃ container, store.pool.containers.lookup c = some container := by
  obtain ⟨t, ht, -⟩ := mem_expiredContainers.mp hc
  obtain ⟨hnonneg, b, hb, -, hle, cp, hcp, rfl⟩ := hmarks.sound c t ht
  obtain ⟨hlive, hstored⟩ := hcore.pointer_sound hb hle hcp hnonneg
  obtain ⟨container, hcontainer, -⟩ := stored_none hstored
  exact ⟨hlive, container, hcontainer⟩

/-- A container that a later backup refers to is not reclaimed. -/
theorem ManifestMarks.not_expired (h : ManifestMarks oldest store) {b : BackupVersion}
    (hb : b ∈ store.backups) (hlt : oldest < b.bvNum) {cp : ChunkPointer} (hcp : cp ∈ b.recipe)
    (hid : 0 ≤ cp.id) : cp.id ∉ expiredContainers store.manifest oldest := by
  intro hmem
  obtain ⟨t, ht, hle⟩ := mem_expiredContainers.mp hmem
  obtain ⟨t', ht', hle'⟩ := h.complete b hb (Nat.le_of_lt hlt) cp hcp hid
  have heq := List.inj_on_of_nodup_map h.distinct ht ht' rfl
  have htime : t = t' := congrArg ManifestRecord.time heq
  omega

/-- The scope after the deletion of the oldest backup, where `counted` are the containers that count
from then on. -/
def Coverage.deleted (sc : Coverage) (store : Store) (counted : Int → Prop) : Coverage :=
  { live := fun i => sc.live i ∧ i ∉ expiredContainers store.manifest sc.oldest
    exact := sc.exact
    oldest := sc.oldest + 1
    counted := counted
    spared := sc.spared }

theorem gone_containers {sc : Coverage} {kv : KvStore} {pending : Fingerprint → Prop}
    {ids : List Int} (hloc : cfg.locality = .physical)
    (hcore : CoreInv cfg sc store.pool { containerBuffer := none, chunks := [] } store.backups kv
      pending) (hmarks : ManifestMarks sc.oldest store)
    (hperm : ids.Perm (expiredContainers store.manifest sc.oldest))
    (hselected : ∀ id ∈ expiredContainers store.manifest sc.oldest,
      ∀ c, store.pool.containers.lookup id = some c →
        ¬ (CacheUnit.containerMeta c.toContainerMeta).Unselected cfg) :
    Gone cfg sc (sc.deleted store counted) store.pool store.backups
      (containerUnits store.pool ids) := by
  have hwf := hcore.pool_wf
  have hfound : ∀ id ∈ ids, ∃ c, store.pool.containers.lookup id = some c := fun id hid =>
    (expired_live hcore hmarks (hperm.mem_iff.mp hid)).2
  refine ⟨fun u hu => ?_, fun u hu => ?_, fun u hu _ => ?_, ?_⟩
  · obtain ⟨id, hid, c, hc, rfl⟩ := mem_containerUnits.mp hu
    have hlive := (expired_live hcore hmarks (hperm.mem_iff.mp hid)).1
    obtain rfl : c.id = id := hwf.id_eq id c hc
    exact ⟨hloc, hlive, c, hc, rfl⟩
  · cases u with
    | segmentRecipe sr => exact absurd (hu.1.symm.trans hloc) Locality.noConfusion
    | containerMeta cm =>
        obtain ⟨-, hlive, c, hc, heq⟩ := hu
        by_cases hid : cm.id ∈ ids
        · exact Or.inl (mem_containerUnits.mpr ⟨cm.id, hid, c, hc, by rw [heq]⟩)
        · exact Or.inr ⟨hloc, ⟨hlive, fun h => hid (hperm.mem_iff.mpr h)⟩, c, hc, heq⟩
  · obtain ⟨id, hid, c, hc, rfl⟩ := mem_containerUnits.mp hu
    exact hselected id (hperm.mem_iff.mp hid) c hc
  · rw [containerUnits_ids hwf hfound]
    exact hperm.nodup_iff.mpr (hmarks.distinct.expired _)

theorem gone_segments {sc : Coverage} {kv : KvStore} {pending : Fingerprint → Prop}
    {storage : StorageBuffer} {b : BackupVersion} {segments : List (List ChunkPointer)}
    (hloc : cfg.locality = .logical)
    (hcore : CoreInv cfg sc store.pool storage store.backups kv pending)
    (hb : b ∈ store.backups) (hnum : b.bvNum = sc.oldest)
    (hrecipe : b.recipe = encodeSegments segments) :
    Gone cfg sc (sc.deleted store counted) store.pool store.backups
        (recipeUnits b.bvNum segments) ∧
      ∀ kv k, (∀ i ∈ listedIds kv k, sc.UnitId cfg store.pool store.backups i) →
        (listedIds kv k).Pairwise (· > ·) →
        GoFromEnd ((recipeUnits b.bvNum segments).map CacheUnit.id) (listedIds kv k) := by
  have hversions := hcore.versions_ok
  obtain ⟨segments', hrecipe', -, hfits⟩ := hversions.recipe b hb
  obtain rfl := encodeSegments_injective (hrecipe'.symm.trans hrecipe)
  have hascending := (hfits hloc).ascending
  -- a segment is one of the deleted backup, or one of a later one
  have hcases : ∀ u, sc.StoreUnit cfg store.pool store.backups u →
      u ∈ recipeUnits b.bvNum segments' ∨ ((sc.deleted store counted).StoreUnit cfg store.pool
        store.backups u ∧ ∀ v ∈ recipeUnits b.bvNum segments', v.id < u.id) := by
    intro u hu
    cases u with
    | containerMeta cm => exact absurd (hu.1.symm.trans hloc) Locality.noConfusion
    | segmentRecipe sr =>
        obtain ⟨b', segs, hb', hle, hrec, hfits', hmem⟩ := hu.version hversions
        rcases Nat.eq_or_lt_of_le hle with heq | hlt
        · obtain rfl := hversions.eq_of_num hb hb' (hnum.trans heq)
          obtain rfl := encodeSegments_injective (hrecipe'.symm.trans hrec)
          exact Or.inl hmem
        · refine Or.inr ⟨⟨hloc, b', hb', hlt, segs, hrec, ?_⟩, fun v hv =>
            recipeUnits_lt (hfits hloc) hfits' (hnum ▸ hlt) hv hmem⟩
          obtain ⟨sr', hsr', heq⟩ := mem_recipeUnits.mp hmem
          cases heq
          exact hsr'
  refine ⟨⟨fun u hu => ?_, fun u hu => (hcases u hu).imp_right And.left, fun u _ hphysical => ?_,
    hascending.imp fun h => Int.ne_of_lt h⟩, fun kv k hlisted hdesc => ?_⟩
  · obtain ⟨sr, hsr, rfl⟩ := mem_recipeUnits.mp hu
    exact ⟨hloc, b, hb, Nat.le_of_eq hnum.symm, segments', hrecipe', hsr⟩
  · exact absurd (hphysical.symm.trans hloc) Locality.noConfusion
  · apply goFromEnd_of_lt hdesc hascending
    intro i hi hnot j hj
    obtain ⟨u, hu, rfl⟩ := hlisted i hi
    obtain ⟨v, hv, rfl⟩ := List.mem_map.mp hj
    rcases hcases u hu with hmem | ⟨-, hlt⟩
    · exact absurd (List.mem_map.mpr ⟨u, hmem, rfl⟩) hnot
    · exact hlt v hv

end Step

section Deleted

variable {cfg : Config} {exact : Prop} {order : List Int → List Int} {store : Store} {sc : Coverage}
  {counted : Int → Prop} {kv kv' : KvStore} {a : Archive}

/-- Where the index is exact, an entry of physical locality lists one container only: the one that
stores the fingerprint. -/
theorem CoreInv.listedIds_eq {storage : StorageBuffer} {versions : List BackupVersion}
    {pool : ContainerPool} {pending : Fingerprint → Prop} (hset : cfg.Settled)
    (hcore : CoreInv cfg sc pool storage versions kv pending)
    (hlisting : Listing cfg sc pool versions kv)
    (hspared : ∀ k, sc.spared k → listedIds kv k = []) (hexact : sc.exact)
    (hcounted : ∀ i, sc.counted i) (hloc : cfg.locality = .physical)
    (hcat : cfg.indexCategory = .exact) {fp : Fingerprint} {i j : Int}
    (hi : sc.Sound pool storage.containerBuffer i fp) (hj : j ∈ listedIds kv (cfg.key fp)) :
    j = i := by
  obtain ⟨u, hu, rfl, hindexed⟩ := hlisting.full hspared hj
  cases u with
  | segmentRecipe sr => exact absurd (hu.1.symm.trans hloc) Locality.noConfusion
  | containerMeta cm =>
      obtain ⟨-, hlive, c, hc, rfl⟩ := hu
      rcases hindexed with ⟨fp', hfp', hkey⟩ | ⟨-, hrandom, -⟩
      · rw [key_injective (hset.keySize_exact hcat) hkey] at hfp'
        exact hcore.once hexact fp _ i (hcounted _) (hcounted i)
          ⟨hlive, Or.inl ⟨c, hc, CacheUnit.mem_fps.mp hfp'⟩⟩ hi
      · rw [(hset.uniform_exact hloc hcat).1] at hrandom
        cases hrandom

/-- A deletion leaves the latest unit of each fingerprint that counts from then on. -/
structure HeadsKept (cfg : Config) (sc sc' : Coverage) (pool : ContainerPool) (kv kv' : KvStore) :
    Prop where
  counted : ∀ c, sc'.counted c → sc.counted c
  head : ∀ fp c, sc'.counted c → sc'.Sound pool none c fp → ∀ id,
    (listedIds kv (cfg.key fp)).head? = some id → (listedIds kv' (cfg.key fp)).head? = some id

theorem CoreInv.deleted
    (hcore : CoreInv cfg sc store.pool { containerBuffer := none, chunks := [] } store.backups kv
      fun _ => False)
    (hmarks : ManifestMarks sc.oldest store)
    (hshape : KvShape cfg ((sc.deleted store counted).UnitId cfg store.pool store.backups) kv')
    (hkept : sc.exact → HeadsKept cfg sc (sc.deleted store counted) store.pool kv kv') :
    CoreInv cfg (sc.deleted store counted) store.pool { containerBuffer := none, chunks := [] }
      store.backups kv' fun _ => False := by
  have hold : ∀ {id fp}, (sc.deleted store counted).Sound store.pool none id fp →
      sc.Sound store.pool none id fp := fun h => ⟨h.1.1, h.2⟩
  have hunits : ∀ u, (sc.deleted store counted).StoreUnit cfg store.pool store.backups u →
      sc.StoreUnit cfg store.pool store.backups u := by
    intro u hu
    cases u with
    | containerMeta cm => exact ⟨hu.1, hu.2.1.1, hu.2.2⟩
    | segmentRecipe sr =>
        obtain ⟨hloc, b, hb, hle, hrest⟩ := hu
        exact ⟨hloc, b, hb, Nat.le_of_succ_le hle, hrest⟩
  have hassigned : ∀ i, sc.UnitId cfg store.pool store.backups i → i ≠ temporaryId := fun i hi =>
    hi.assigned hcore.pool_wf hcore.versions_ok
  refine ⟨hcore.pool_wf, nofun, nofun, fun i hi => ⟨hcore.next_live i hi, fun hmem => ?_⟩, nofun,
    ⟨hcore.versions_ok.num, fun b hb => ?_⟩, hshape, fun hex fp i j hci hcj hi hj => ?_,
    fun hex fp i hcounted hi => ?_, hcore.no_filler⟩
  · obtain ⟨-, c, hc⟩ := expired_live hcore hmarks hmem
    exact Int.not_lt.mpr hi (hcore.pool_wf.lt_count i c hc).2
  · obtain ⟨segments, hrecipe, hsound, hfits⟩ := hcore.versions_ok.recipe b hb
    refine ⟨segments, hrecipe, fun hle ps hps cp hcp => ?_, hfits⟩
    have hsound' := hsound (Nat.le_of_succ_le hle) ps hps cp hcp
    have hid := hsound'.2.nonneg hcore.pool_wf hcore.open_ok
    have hmem : cp ∈ b.recipe := by
      rw [hrecipe]
      exact List.mem_flatMap.mpr ⟨ps, hps, (mem_encodeSegment.mpr ⟨hcp, hid⟩).1⟩
    exact ⟨⟨hsound'.1, hmarks.not_expired hb hle hmem hid⟩, hsound'.2⟩
  · have hsub := (hkept hex).counted
    exact hcore.once hex fp i j (hsub i hci) (hsub j hcj) (hold hi) (hold hj)
  · obtain ⟨hsub, hkept⟩ := hkept hex
    rcases hcore.indexed hex fp i (hsub i hcounted) (hold hi) with
      ⟨-, b, hb, -⟩ | ⟨-, hfalse⟩ | ⟨ids, hids, hholds⟩
    · cases hb
    · exact hfalse.elim
    · have hhead := hcore.kv_shape.head?_listed hassigned hids
      have hhead' := hkept fp i hcounted hi _ hhead
      obtain ⟨ids', hids', heq⟩ := hshape.lookup_of_head?
        (fun i ⟨u, hu, hid⟩ => hassigned i ⟨u, hunits u hu, hid⟩) hhead'
      exact Or.inr (Or.inr ⟨ids', hids', fun u hu huid =>
        hholds u (hunits u hu) (huid.trans heq)⟩)

theorem exists_openVersion {sound : Int → Fingerprint → Prop} {oldest : Nat}
    {backups : List BackupVersion} (h : VersionsInv cfg oldest sound backups) {i : Nat}
    (hlt : i < backups.length) :
    ∃ b ∈ backups, openBackupVersion backups i = .ok b ∧ b.bvNum = i := by
  have hi := List.getElem?_eq_getElem hlt
  have hnum := h.num i _ hi
  refine ⟨_, List.getElem_mem hlt, ?_, hnum⟩
  rw [openBackupVersion, if_pos (Int.natCast_nonneg i), Int.toNat_natCast, hi]
  exact if_pos (congrArg Nat.cast hnum)

/-- What a deletion of the oldest backup leaves. -/
def Archive.deleted (a : Archive) (kv : KvStore) (manifest : List Char) : Archive :=
  { a with
    sys := { store := { a.sys.store with htable := kv, manifest := some manifest }, job := none }
    oldest := a.oldest + 1
    reclaimed := a.reclaimed ++ expiredContainers a.sys.store.manifest a.oldest }

theorem Archive.deleted_scope (a : Archive) (kv : KvStore) (manifest : List Char) :
    (((a.deleted kv manifest).scope exact : Scope) : Coverage) =
      Coverage.deleted (a.scope exact) a.sys.store fun _ => True := by
  have hlive : ((a.deleted kv manifest).scope exact).live =
      fun i => i ∉ a.reclaimed ∧ i ∉ expiredContainers a.sys.store.manifest a.oldest := by
    funext i
    show (i ∉ a.reclaimed ++ _) = _
    rw [List.mem_append, not_or]
  exact congrArg (fun live => ({ live, exact, oldest := a.oldest + 1 } : Coverage)) hlive

variable (counted) in
/-- The units that the deletion of the oldest backup walks over. -/
theorem exists_gone (horder : ∀ l, (order l).Perm l)
    (hcore : CoreInv cfg sc store.pool { containerBuffer := none, chunks := [] } store.backups
      store.htable fun _ => False)
    (hmarks : ManifestMarks sc.oldest store) {b : BackupVersion} (hb : b ∈ store.backups)
    (hnum : b.bvNum = sc.oldest)
    (hselected : cfg.locality = .physical →
      ∀ id ∈ expiredContainers store.manifest sc.oldest,
        ∀ c, store.pool.containers.lookup id = some c →
          ¬ (CacheUnit.containerMeta c.toContainerMeta).Unselected cfg)
    (hlast : cfg.locality = .physical → ∀ k,
      GoFromEnd (order (expiredContainers store.manifest sc.oldest)) (listedIds store.htable k)) :
    ∃ gone, deleteUnits cfg store b (order (expiredContainers store.manifest sc.oldest)) =
        deleteWalk cfg store.htable gone ∧
      Gone cfg sc (sc.deleted store counted) store.pool store.backups gone ∧
      (∀ k, GoFromEnd (gone.map CacheUnit.id) (listedIds store.htable k)) ∧
      ∀ u ∈ gone, (cfg.locality = .physical ∧ u.id ∈ expiredContainers store.manifest sc.oldest) ∨
        (cfg.locality = .logical ∧ idToBnum u.id = sc.oldest) := by
  have hassigned : ∀ i, sc.UnitId cfg store.pool store.backups i → i ≠ temporaryId := fun i hi =>
    hi.assigned hcore.pool_wf hcore.versions_ok
  rw [deleteUnits]
  cases hloc : cfg.locality with
  | physical =>
      have hperm := horder (expiredContainers store.manifest sc.oldest)
      have hfound : ∀ id ∈ order (expiredContainers store.manifest sc.oldest),
          ∃ c, store.pool.containers.lookup id = some c := fun id hid =>
        (expired_live hcore hmarks (hperm.mem_iff.mp hid)).2
      have hids := containerUnits_ids hcore.pool_wf hfound
      refine ⟨_, deleteContainers_eq hcore.pool_wf hfound,
        gone_containers hloc hcore hmarks hperm (hselected hloc), fun k => ?_, fun u hu => ?_⟩
      · rw [hids]
        exact hlast hloc k
      · exact Or.inl ⟨rfl, hperm.mem_iff.mp (hids ▸ List.mem_map.mpr ⟨u, hu, rfl⟩)⟩
  | logical =>
      obtain ⟨segments, hrecipe, hsound, hfits⟩ := hcore.versions_ok.recipe b hb
      have hids : ∀ pointers ∈ segments, ∀ cp ∈ pointers, temporaryId < cp.id :=
        fun ps hps cp hcp => temporaryId_lt_of_nonneg
          ((hsound (Nat.le_of_eq hnum.symm) ps hps cp hcp).2.nonneg hcore.pool_wf hcore.open_ok)
      obtain ⟨hgone, hend⟩ := gone_segments hloc hcore hb hnum hrecipe
      have hfuel : segments.length ≤ b.recipe.length := by
        rw [hrecipe]
        exact length_le_encodeSegments segments
      refine ⟨_, ?_, hgone, fun k => hend _ k (fun i hi => hcore.kv_shape.units hassigned hi)
        (hcore.kv_shape.decreasing hassigned k), fun u hu => Or.inr ⟨rfl, ?_⟩⟩
      · show deleteSegments cfg b.bvNum b.recipe.length 0 b.recipe store.htable = _
        rw [hrecipe] at hfuel ⊢
        exact deleteSegments_eq hfuel hids
      · rw [idToBnum_recipeUnits (hfits hloc) hu, hnum]

theorem head?_filter_of_head {α : Type} {l : List α} {p : α → Bool} {x : α}
    (h : l.head? = some x) (hx : p x = true) : (l.filter p).head? = some x := by
  cases l with
  | nil => cases h
  | cons y l =>
      cases h
      rw [List.filter_cons_of_pos hx, List.head?_cons]

section Walk

variable {gone : List CacheUnit} (hset : cfg.Settled)
  (hcore : CoreInv cfg sc store.pool { containerBuffer := none, chunks := [] } store.backups
    store.htable fun _ => False)
  (hlisted : ∀ k, listedIds kv' k =
    (listedIds store.htable k).filter fun i => decide ¬ Reaches cfg gone k i)

include hlisted in
/-- The latest unit of an entry stays unless the walk takes it away. -/
theorem head_kept {k : Key} {id : Int} (hid : ∀ u ∈ gone, u.id ≠ id)
    (hhead : (listedIds store.htable k).head? = some id) :
    (listedIds kv' k).head? = some id := by
  rw [hlisted]
  refine head?_filter_of_head hhead (decide_eq_true ?_)
  rintro ⟨u, hu, heq, -⟩
  exact hid u hu heq

include hcore hlisted in
/-- Under logical locality the latest segment of what a later backup stored stays. -/
theorem YoungHeads.head_kept {starts : List Nat}
    (h : YoungHeads cfg starts sc.oldest store.pool none store.htable)
    (hgone : ∀ u ∈ gone, idToBnum u.id = sc.oldest) {n s : Nat} (hn : sc.oldest < n)
    (hs : starts[n]? = some s) {c : Int} {fp : Fingerprint} (hc : (s : Int) ≤ c)
    (hstored : Stored store.pool none c fp) :
    ∃ id, (listedIds store.htable (cfg.key fp)).head? = some id ∧
      (listedIds kv' (cfg.key fp)).head? = some id ∧ (n : Int) ≤ idToBnum id := by
  obtain ⟨ids, hids, hle⟩ := h n s (Nat.le_of_lt hn) hs c fp hc hstored
  have hhead := hcore.kv_shape.head?_listed
    (fun i hi => hi.assigned hcore.pool_wf hcore.versions_ok) hids
  refine ⟨_, hhead, Destor.head_kept hlisted (fun u hu heq => ?_) hhead, hle⟩
  have hnum := hgone u hu
  rw [heq] at hnum
  omega

include hcore hlisted in
theorem YoungHeads.deleted {starts : List Nat}
    (h : YoungHeads cfg starts sc.oldest store.pool none store.htable)
    (hgone : ∀ u ∈ gone, idToBnum u.id = sc.oldest)
    (hshape : KvShape cfg ((sc.deleted store counted).UnitId cfg store.pool store.backups) kv')
    (hassigned : ∀ i, (sc.deleted store counted).UnitId cfg store.pool store.backups i →
      i ≠ temporaryId) :
    YoungHeads cfg starts (sc.oldest + 1) store.pool none kv' := by
  intro n s hn hs c fp hc hstored
  obtain ⟨id, -, hhead, hle⟩ := h.head_kept hcore hlisted hgone hn hs hc hstored
  obtain ⟨ids, hids, heq⟩ := hshape.lookup_of_head? hassigned hhead
  exact ⟨ids, hids, heq ▸ hle⟩

include hset hcore hlisted in
/-- The latest unit of a fingerprint stays where it is not one of those that go. -/
theorem headsKept_of_walk {starts : List Nat}
    (hlisting : Listing cfg sc store.pool store.backups store.htable)
    (hspared : ∀ k, sc.spared k → listedIds store.htable k = [])
    (hexact : sc.exact) (hcat : cfg.indexCategory = .exact)
    (hgone : ∀ u ∈ gone, (cfg.locality = .physical ∧
        u.id ∈ expiredContainers store.manifest sc.oldest) ∨
      (cfg.locality = .logical ∧ idToBnum u.id = sc.oldest))
    (hcounted : sc.counted = fun c => cfg.locality = .logical → Young starts sc.oldest c)
    (hheads : cfg.locality = .logical →
      YoungHeads cfg starts sc.oldest store.pool none store.htable) :
    HeadsKept cfg sc (sc.deleted store fun c => cfg.locality = .logical →
      Young starts (sc.oldest + 1) c) store.pool store.htable kv' := by
  refine ⟨fun c hc => ?_, fun fp c hc hsound id hhead => ?_⟩
  · rw [hcounted]
    exact fun hloc => (hc hloc).older
  · cases hloc : cfg.locality with
    | physical =>
        have hall : ∀ i, sc.counted i := fun i => by
          rw [hcounted]
          exact fun hlog => absurd (hloc.symm.trans hlog) Locality.noConfusion
        have heq := hcore.listedIds_eq hset hlisting hspared hexact hall hloc hcat
          ⟨hsound.1.1, hsound.2⟩ (List.mem_of_head? hhead)
        refine head_kept hlisted (fun u hu hid => ?_) hhead
        rcases hgone u hu with ⟨-, hmem⟩ | ⟨hlog, -⟩
        · rw [hid, heq] at hmem
          exact hsound.1.2 hmem
        · exact absurd (hloc.symm.trans hlog) Locality.noConfusion
    | logical =>
        obtain ⟨n, s, hn, hs, hle⟩ := hc hloc
        have hbnum : ∀ u ∈ gone, idToBnum u.id = sc.oldest := fun u hu =>
          ((hgone u hu).resolve_left fun h =>
            absurd (hloc.symm.trans h.1) Locality.noConfusion).2
        obtain ⟨id', hold, hnew, -⟩ :=
          (hheads hloc).head_kept hcore hlisted hbnum hn hs hle hsound.2
        rwa [Option.some.inj (hhead.symm.trans hold)]

end Walk

/-- The deletion of the oldest backup succeeds and keeps the invariant. -/
theorem CoveredInv.delete {starts : List Nat} (hset : cfg.Settled)
    (hexact : sc.exact → ExactIndex cfg) (horder : ∀ l, (order l).Perm l)
    (h : CoveredInv cfg sc a) (hold : sc.oldest = a.oldest) (hjob : a.sys.job = none)
    (hlt : a.oldest < a.sys.store.backups.length)
    (hspared : ∀ k, sc.spared k → listedIds a.sys.store.htable k = [])
    (hcounted : sc.exact → sc.counted =
      fun c => cfg.locality = .logical → Young starts a.oldest c)
    (hcounted' : sc.exact → counted =
      fun c => cfg.locality = .logical → Young starts (a.oldest + 1) c)
    (hheads : sc.exact → cfg.locality = .logical →
      YoungHeads cfg starts a.oldest a.sys.store.pool none a.sys.store.htable)
    (hwalk : cfg.locality = .physical → ReachedByWalk order cfg a) :
    ∃ kv manifest, archiveStep order cfg a (.delete a.oldest) = .ok (a.deleted kv manifest) ∧
      CoveredInv cfg (sc.deleted a.sys.store counted) (a.deleted kv manifest) ∧
      (sc.exact → cfg.locality = .logical →
        YoungHeads cfg starts (a.oldest + 1) a.sys.store.pool none kv) := by
  obtain ⟨⟨store, job⟩, oldest, reclaimed⟩ := a
  obtain rfl : job = none := hjob
  obtain rfl : sc.oldest = oldest := hold
  obtain ⟨⟨hcore, -⟩, hlisting, hmarks, hnonneg⟩ := h
  have hlisting : Listing cfg sc store.pool store.backups store.htable := hlisting
  have hmanifest := hmarks.file (List.ne_nil_of_length_pos (Nat.zero_lt_of_lt hlt))
  obtain ⟨text, htext⟩ := Option.isSome_iff_exists.mp hmanifest
  obtain ⟨r, hr⟩ : ∃ r, truncManifest id store.manifest sc.oldest = .ok r := by
    rw [htext]
    exact ⟨_, rfl⟩
  obtain ⟨hinvalid, hmarks'⟩ := hmarks.delete hr
  obtain ⟨b, hb, hopen, hnum⟩ := exists_openVersion hcore.versions_ok hlt
  obtain ⟨gone, hunits, hgone, hend, hids⟩ := exists_gone counted horder hcore hmarks hb hnum
    (fun hloc => (hwalk hloc).selected) fun hloc => (hwalk hloc).last
  obtain ⟨kv, hkv, hshape, hlisting', hlisted⟩ := hgone.delete hcore hlisting hspared hend
  have hcore' := hcore.deleted hmarks hshape fun hex => by
    rw [hcounted' hex]
    exact headsKept_of_walk hset hcore hlisted hlisting hspared hex (hexact hex).exact hids
      (hcounted hex) (hheads hex)
  have hassigned : ∀ i, Scope.UnitId _ cfg store.pool store.backups i → i ≠ temporaryId :=
    fun i hi => hi.assigned hcore'.pool_wf hcore'.versions_ok
  refine ⟨kv, r.2.1, ?_, ⟨⟨hcore', hlt⟩, hlisting', hmarks'.congr rfl rfl, fun i hi => ?_⟩,
    fun hex hloc => ?_⟩
  · have hdelete : doDeleteIn order cfg store sc.oldest =
        .ok { store with htable := kv, manifest := some r.2.1 } := by
      refine bind_ok_iff.mpr ⟨r, hr, bind_ok_iff.mpr ⟨b, hopen, bind_ok_iff.mpr ⟨kv, ?_, rfl⟩⟩⟩
      have hwalk := congrArg (fun ids => deleteUnits cfg store b (order ids)) hinvalid
      exact (hwalk.trans hunits).trans hkv
    exact bind_ok_iff.mpr ⟨_, hdelete, rfl⟩
  · rcases List.mem_append.mp hi with hi | hi
    · exact hnonneg i hi
    · obtain ⟨t, ht, -⟩ := mem_expiredContainers.mp hi
      exact (hmarks.sound i t ht).1
  · refine (hheads hex hloc).deleted hcore hlisted (fun u hu => ?_) hshape hassigned
    exact ((hids u hu).resolve_left fun h =>
      absurd (h.1.symm.trans hloc) Locality.noConfusion).2

/-- The same in the whole scope of the archive. -/
theorem ArchiveInv.delete (hset : cfg.Settled)
    (hexact : exact → ExactIndex cfg ∧ cfg.locality = .physical)
    (horder : ∀ l, (order l).Perm l) (h : ArchiveInv cfg exact a) (hjob : a.sys.job = none)
    (hlt : a.oldest < a.sys.store.backups.length)
    (hwalk : cfg.locality = .physical → ReachedByWalk order cfg a) :
    ∃ kv manifest, archiveStep order cfg a (.delete a.oldest) = .ok (a.deleted kv manifest) ∧
      ArchiveInv cfg exact (a.deleted kv manifest) := by
  have hall : ∀ oldest, exact →
      (fun _ => True) = fun c => cfg.locality = .logical → Young [] oldest c := fun oldest hex =>
    funext fun c => propext ⟨fun _ hlog => absurd ((hexact hex).2.symm.trans hlog)
      Locality.noConfusion, fun _ => trivial⟩
  obtain ⟨kv, manifest, hstep, hinv, -⟩ := CoveredInv.delete hset (fun hex => (hexact hex).1)
    horder h rfl hjob hlt (fun k hk => hk.elim) (hall _) (hall _)
    (fun hex hlog => absurd ((hexact hex).2.symm.trans hlog) Locality.noConfusion) hwalk
  refine ⟨kv, manifest, hstep, ?_⟩
  rw [ArchiveInv, Archive.deleted_scope]
  exact hinv

end Deleted

end Destor
