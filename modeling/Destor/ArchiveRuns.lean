/- digest: Deleting backups in their order leaves no entry that points to reclaimed data, as long as
   every feature belongs to a chunk. -/

import Destor.ArchiveDeletion

set_option autoImplicit false
set_option relaxedAutoImplicit false

namespace Destor

open Library.Outcome Library.Transition

section Step

variable {cfg : Config} {sc : Coverage} {sys : System} {store : Store} {job job' : Job}

theorem lookupSegment_same {waitThreshold : Int}
    (hok : lookupSegment cfg store job waitThreshold = .ok job') :
    job'.bv = job.bv ∧ job'.storage = job.storage := by
  rw [lookupSegment] at hok
  split at hok
  · cases hok
    exact ⟨rfl, rfl⟩
  · split at hok
    · cases hok
      exact ⟨rfl, rfl⟩
    · split at hok
      · cases hok
        exact ⟨rfl, rfl⟩
      · obtain ⟨⟨index, chunks⟩, -, hok⟩ := bind_ok_iff.mp hok
        cases hok
        exact ⟨rfl, rfl⟩

theorem newJob_indexed (h : Listing cfg sc store.pool store.backups store.htable)
    (segments : List Segment) : JobIndexed cfg sc store (newJob cfg store segments) := by
  refine ⟨h.mono fun u hu => ?_, nofun⟩
  cases u with
  | containerMeta cm => exact hu
  | segmentRecipe sr =>
      obtain ⟨hloc, b, hb, hrest⟩ := hu
      exact ⟨hloc, b, List.mem_append_left _ hb, hrest⟩

/-- A step of a backup keeps the entries and the marks in order. -/
theorem step_indexed (hset : cfg.Settled) (hexact : sc.exact → ExactIndex cfg)
    (h : SystemInv cfg sc sys) (hindexed : SystemIndexed cfg sc sys)
    (hmarks : ManifestMarks sc.oldest sys.store) {e : Event} (hok : BackupEvent cfg sc sys e)
    (hsampled : cfg.locality = .logical → ∀ marks, e = .filter marks →
      ∀ job ∈ sys.job, SampledOrSpared cfg sc job) :
    Ensures (AllowedAbort cfg)
      (fun sys' => (SystemInv cfg sc sys' ∧ StoreGrows sys sys') ∧ SystemIndexed cfg sc sys' ∧
        ManifestMarks sc.oldest sys'.store) (step cfg sys e) := by
  apply (step_ensures hset hexact h hok).and_eq.imp
  rintro sys' ⟨hinv, hstep⟩
  refine ⟨hinv, ?_⟩
  clear hinv
  obtain ⟨store, job⟩ := sys
  cases job with
  | none =>
      cases e with
      | start files =>
          obtain ⟨segments, -, rfl⟩ := step_start hstep
          exact ⟨newJob_indexed hindexed segments, hmarks⟩
      | delete jobid => exact hok.elim
      | lookup limit =>
          cases hstep
          exact ⟨hindexed, hmarks⟩
      | filter marks =>
          cases hstep
          exact ⟨hindexed, hmarks⟩
      | finish =>
          cases hstep
          exact ⟨hindexed, hmarks⟩
  | some job =>
      have hjob : JobInv cfg sc store job := h
      have hindexed : JobIndexed cfg sc store job := hindexed
      cases e with
      | start files => exact absurd hok.1 (Option.some_ne_none job)
      | delete jobid => exact hok.elim
      | lookup limit =>
          obtain ⟨job', hlookup, hstep⟩ := bind_ok_iff.mp hstep
          cases hstep
          obtain ⟨hbv, hstorage⟩ := lookupSegment_same hlookup
          refine ⟨⟨?_, ?_⟩, hmarks⟩
          · show Listing cfg sc store.pool (store.backups ++ [job'.bv]) store.htable
            rw [hbv]
            exact hindexed.listing
          · show ∀ c ∈ job'.storage.chunks, _
            rw [hstorage]
            exact hindexed.chunks_normal
      | filter marks =>
          obtain ⟨⟨store', job'⟩, hfilter, hstep⟩ := bind_ok_iff.mp hstep
          cases hstep
          have hfiltered := ((filterSegment_ensures hset hexact hjob marks (fun _ _ => True) trivial
            fun _ _ _ _ _ _ _ => trivial).of_ok hfilter).2
          exact ⟨filterSegment_indexed hset hexact hjob hindexed
            (fun hloc => hsampled hloc marks rfl job rfl) hfilter,
            hmarks.congr hfiltered.manifest_eq hfiltered.backups_eq⟩
      | finish =>
          simp only [step] at hstep
          split at hstep
          · obtain ⟨store', hfinish, hstep⟩ := bind_ok_iff.mp hstep
            cases hstep
            obtain ⟨-, hbackups, hmanifest, -⟩ :=
              (finishJob_ensures hset hexact hjob).of_ok hfinish
            exact ⟨finishJob_indexed hset hjob hindexed hfinish,
              hmarks.finish hjob hjob.retained hbackups hmanifest⟩
          · cases hstep
            exact ⟨hindexed, hmarks⟩

end Step

/-- A step after which the walk of a deletion finds every entry again: a segment is sampled from its
chunks, and a reclaimed container was sampled and stands last in its entries. -/
def FoundAgain (order : List Int → List Int) (cfg : Config) (a : Archive) : Event → Prop
  | .filter _ => cfg.locality = .logical → ∀ job ∈ a.sys.job, SampledFromChunks cfg job
  | .delete _ => cfg.locality = .physical → ReachedByWalk order cfg a
  | _ => True

section Runs

variable {cfg : Config} {sc : Scope} {exact : Prop} {order : List Int → List Int} {a : Archive}

theorem archiveInv_init : ArchiveInv cfg exact initArchive := by
  refine ⟨systemInv_init rfl fun i _ => List.not_mem_nil, fun k id _ hid => ?_, manifestMarks_init,
    fun i hi => absurd hi List.not_mem_nil⟩
  have hnone : listedIds initArchive.sys.store.htable k = [] := listedIds_none (AList.lookup_empty k)
  rw [hnone] at hid
  exact absurd hid List.not_mem_nil

theorem archiveStep_run {e : Event} (he : ∀ jobid, e ≠ .delete jobid) :
    archiveStep order cfg a e = (step cfg a.sys e >>= fun sys => .ok { a with sys := sys }) := by
  cases e with
  | delete jobid => exact absurd rfl (he jobid)
  | start | lookup | filter | finish => rfl

theorem ArchiveEvent.backup {e : Event} (h : ArchiveEvent cfg sc a e)
    (he : ∀ jobid, e ≠ .delete jobid) : BackupEvent cfg sc a.sys e := by
  cases e with
  | delete jobid => exact absurd rfl (he jobid)
  | start | lookup | filter | finish => exact h

/-- What is asked of the files matters where the index is exact only. -/
theorem BackupEvent.weaken {sc' : Scope} {sys : System} {e : Event} (h : BackupEvent cfg sc sys e)
    (hscope : sc'.exact → sc.exact ∨ cfg.locality = .physical) : BackupEvent cfg sc' sys e := by
  cases e with
  | start files =>
      obtain ⟨hjob, hfiles, hids⟩ := h
      refine ⟨hjob, ⟨hfiles.fits, fun hex hloc => ?_⟩, hids⟩
      rcases hscope hex with hex | hphysical
      · exact hfiles.filler hex hloc
      · exact absurd (hphysical.symm.trans hloc) Locality.noConfusion
  | delete jobid => exact h
  | lookup | filter | finish => trivial

/-- A step of a backup keeps the invariant of the archive. -/
theorem step_covered {sc : Coverage} (hset : cfg.Settled) (hexact : sc.exact → ExactIndex cfg)
    (h : CoveredInv cfg sc a) (hold : sc.oldest = a.oldest) {e : Event}
    (hok : BackupEvent cfg sc a.sys e)
    (hsampled : cfg.locality = .logical → ∀ marks, e = .filter marks →
      ∀ job ∈ a.sys.job, SampledOrSpared cfg sc job) :
    Ensures (AllowedAbort cfg)
      (fun sys => CoveredInv cfg sc { a with sys := sys } ∧ StoreGrows a.sys sys)
      (step cfg a.sys e) := by
  apply (step_indexed hset hexact h.sys h.indexed (hold ▸ h.marks) hok hsampled).imp
  rintro sys ⟨⟨hsys, hgrows⟩, hindexed, hmarks⟩
  exact ⟨⟨hsys, hindexed, hold ▸ hmarks, h.reclaimed_nonneg⟩, hgrows⟩

/-- Every step of an archive keeps its invariant, as long as the entries are found again. -/
theorem archiveStep_ensures (hset : cfg.Settled)
    (hexact : exact → ExactIndex cfg ∧ cfg.locality = .physical)
    (horder : ∀ l, (order l).Perm l) (h : ArchiveInv cfg exact a) {e : Event}
    (hok : ArchiveEvent cfg sc a e) (hfound : FoundAgain order cfg a e) :
    Ensures (AllowedAbort cfg) (ArchiveInv cfg exact) (archiveStep order cfg a e) := by
  by_cases he : ∃ jobid, e = .delete jobid
  · obtain ⟨jobid, rfl⟩ := he
    obtain ⟨hjob, rfl, hlt⟩ := hok
    obtain ⟨kv, manifest, hstep, hinv⟩ := h.delete hset hexact horder hjob hlt hfound
    rw [hstep]
    exact hinv
  · have he : ∀ jobid, e ≠ .delete jobid := fun jobid heq => he ⟨jobid, heq⟩
    have hbackup : BackupEvent cfg (a.scope exact) a.sys e :=
      (hok.backup he).weaken fun hex => Or.inr (hexact hex).2
    rw [archiveStep_run he]
    refine (step_covered hset (fun hex => (hexact hex).1) h rfl hbackup ?_).bind ?_
    · rintro hloc marks rfl job hjob
      exact (hfound hloc job hjob).orSpared
    · rintro sys ⟨hinv, -⟩
      exact hinv

/-- No value of the key-value store holds the id of a reclaimed container, or of a segment of a deleted
backup. -/
structure NoStaleUnit (cfg : Config) (a : Archive) : Prop where
  containers : cfg.locality = .physical → ∀ k value, a.sys.store.htable.lookup k = some value →
    ∀ id ∈ value, id ∉ a.reclaimed
  segments : cfg.locality = .logical → ∀ k value, a.sys.store.htable.lookup k = some value →
    ∀ id ∈ value, ∀ b ∈ a.sys.store.backups, b.bvNum < a.oldest → ∀ segments,
      b.recipe = encodeSegments segments → ∀ sr ∈ segmentRecipes b.bvNum 0 segments, sr.id ≠ id

/-- The slots of a value hold units, or are not in use. -/
theorem KvShape.mem_value {unit : Int → Prop} {kv : KvStore} (h : KvShape cfg unit kv) {k : Key}
    {value : List Int} (hk : kv.lookup k = some value) {id : Int} (hid : id ∈ value) :
    unit id ∨ id = temporaryId := by
  obtain ⟨ids, hids⟩ := h k value hk
  rw [hids.eq] at hid
  rcases List.mem_append.mp hid with hid | hid
  · exact Or.inl (hids.units id hid)
  · exact Or.inr (List.eq_of_mem_replicate hid)

theorem CoreInv.noStaleUnit {storage : StorageBuffer} {versions : List BackupVersion}
    {pending : Fingerprint → Prop}
    (hcore : CoreInv cfg (a.scope exact) a.sys.store.pool storage versions a.sys.store.htable pending)
    (hversions : ∀ b ∈ a.sys.store.backups, b ∈ versions)
    (hnonneg : ∀ i ∈ a.reclaimed, 0 ≤ i) : NoStaleUnit cfg a := by
  refine ⟨fun hloc k value hk id hid hmem => ?_,
    fun hloc k value hk id hid b hb hlt segments hrecipe sr hsr heq => ?_⟩
  · rcases hcore.kv_shape.mem_value hk hid with ⟨u, hu, rfl⟩ | rfl
    · cases u with
      | containerMeta cm => exact hu.2.1 hmem
      | segmentRecipe sr => exact absurd (hu.1.symm.trans hloc) Locality.noConfusion
    · exact absurd (hnonneg temporaryId hmem) (by decide)
  · obtain ⟨segments', hrecipe', -, hfits⟩ := hcore.versions_ok.recipe b (hversions b hb)
    obtain rfl := encodeSegments_injective (hrecipe'.symm.trans hrecipe)
    have hmem : .segmentRecipe sr ∈ recipeUnits b.bvNum segments' :=
      mem_recipeUnits.mpr ⟨sr, hsr, rfl⟩
    rcases hcore.kv_shape.mem_value hk hid with ⟨u, hu, rfl⟩ | rfl
    · cases u with
      | containerMeta cm => exact absurd (hu.1.symm.trans hloc) Locality.noConfusion
      | segmentRecipe sr' =>
          obtain ⟨b', segs, -, hle, -, hfits', hmem'⟩ := hu.version hcore.versions_ok
          have hids := recipeUnits_lt (hfits hloc) hfits' (Nat.lt_of_lt_of_le hlt hle) hmem hmem'
          exact Int.ne_of_lt hids heq
    · obtain ⟨before, pointers, after, rfl, hof⟩ := mem_segmentRecipes.mp hsr
      rw [Nat.zero_add] at hof
      have hpos := makeSegmentId_nonneg (hfits hloc).segmentId
      exact ne_temporaryId_of_nonneg hpos (hof.id_eq.symm.trans heq)

theorem ArchiveInv.noStaleUnit (h : ArchiveInv cfg exact a) : NoStaleUnit cfg a := by
  have hsys := h.sys
  rw [SystemInv] at hsys
  split at hsys
  · exact hsys.1.noStaleUnit (fun _ hb => hb) h.reclaimed_nonneg
  · exact hsys.core.noStaleUnit (fun _ hb => List.mem_append_left _ hb) h.reclaimed_nonneg

/-- Garbage collection leaves no entry that points to reclaimed data: in every run of backups and of
deletions in their order whose steps all let the entries be found again, no value holds a stale unit in
any state reached, and the next deletion does not fail. -/
theorem deletions_leave_no_stale_unit (hcfg : cfg.Accepted) (horder : ∀ l, (order l).Perm l)
    {events : List Event}
    (hrun : Run (archiveStep order cfg)
      (fun a e => ArchiveEvent cfg backupScope a e ∧ FoundAgain order cfg a e) initArchive events a) :
    NoStaleUnit cfg a ∧ ∀ jobid, ArchiveEvent cfg backupScope a (.delete jobid) →
      FoundAgain order cfg a (.delete jobid) →
        ∃ a', archiveStep order cfg a (.delete jobid) = .ok a' ∧ NoStaleUnit cfg a' := by
  have hset := (Config.accepted_iff cfg).mp hcfg
  have hexact : False → ExactIndex cfg ∧ cfg.locality = .physical := False.elim
  have hinv : ArchiveInv cfg False a := hrun.invariant _ archiveInv_init fun s e hs hok =>
    archiveStep_ensures hset hexact horder hs hok.1 hok.2
  refine ⟨hinv.noStaleUnit, fun jobid hok hfound => ?_⟩
  obtain ⟨hjob, rfl, hlt⟩ := hok
  obtain ⟨kv, manifest, hstep, hinv'⟩ := hinv.delete hset hexact horder hjob hlt hfound
  exact ⟨_, hstep, hinv'.noStaleUnit⟩

end Runs

section Example

/-- Minimum sampling of segments of two chunks under logical locality. -/
def minSampled : Config :=
  { smallConfig .nearExact .logical with
    samplingMethod := .min
    segmentSize := 2 }

theorem minSampled_accepted : minSampled.Accepted :=
  (Config.accepted_iff _).mpr ⟨Nat.succ_pos _, Nat.le_refl _, fun _ => rfl, nofun, nofun⟩

def admitsArchive (cfg : Config) (a : Archive) : Event → Bool
  | .delete jobid => a.sys.job.isNone && jobid == a.oldest &&
      decide (jobid < a.sys.store.backups.length)
  | e => admitsBackup cfg a.sys e

theorem archiveEvent_of_admits {cfg : Config} {a : Archive} {e : Event}
    (h : admitsArchive cfg a e = true) : ArchiveEvent cfg backupScope a e := by
  cases e with
  | delete jobid =>
      simp only [admitsArchive, Bool.and_eq_true, Option.isNone_iff_eq_none, beq_iff_eq,
        decide_eq_true_eq] at h
      exact ⟨h.1.1, h.1.2, h.2⟩
  | start files =>
      have hstart : admitsBackup cfg a.sys (.start files) = true := h
      exact backupEvent_of_admits hstart
  | lookup | filter | finish => trivial

/-- `FoundAgain` under logical locality, computed. -/
def findsAgain (cfg : Config) (a : Archive) : Event → Bool
  | .filter _ => a.sys.job.all fun job => job.inflight.head?.all fun s =>
      match sampling cfg s.chunks s.chunkNum with
      | .ok features => features.all fun k =>
          s.chunks.any fun c => c.isNormal && k == c.fp.bytes.take cfg.indexKeySize
      | .error _ => true
  | _ => true

theorem foundAgain_of_finds {cfg : Config} {order : List Int → List Int} {a : Archive} {e : Event}
    (hloc : cfg.locality = .logical) (h : findsAgain cfg a e = true) :
    FoundAgain order cfg a e := by
  cases e with
  | delete jobid => exact fun hphysical => absurd (hphysical.symm.trans hloc) Locality.noConfusion
  | start | lookup | finish => trivial
  | filter marks =>
      intro _ job hjob s hs features hfeatures k hk
      have hjob : a.sys.job = some job := hjob
      have hs : job.inflight.head? = some s := hs
      simp only [findsAgain, hjob, hs, hfeatures, Option.all_some, List.all_eq_true,
        List.any_eq_true, Bool.and_eq_true, beq_iff_eq] at h
      exact h k hk

/-- Two backups of one chunk each; the first one is deleted, and the second one can be. -/
theorem deletions_leave_no_stale_unit_two_backups : ∃ a : Archive, a.oldest = 1 ∧
    a.sys.store.backups.length = 2 ∧ NoStaleUnit minSampled a ∧
      ∃ a', archiveStep id minSampled a (.delete 1) = .ok a' ∧ NoStaleUnit minSampled a' := by
  have hexec : (exec (archiveStep id minSampled)
      (fun a e => admitsArchive minSampled a e && findsAgain minSampled a e) initArchive
      (backupEvents [smallFile [1]] 1 ++ backupEvents [smallFile [2]] 1 ++ [.delete 0])).any
        (fun a => decide (a.oldest = 1 ∧ a.sys.store.backups.length = 2 ∧ a.sys.job.isNone)) =
      true := by decide +kernel
  obtain ⟨a, hrun, hcheck⟩ := (Option.any_eq_true _ _).mp hexec
  obtain ⟨holdest, hlength, hjob⟩ := of_decide_eq_true hcheck
  have hclean : ∀ a e, (admitsArchive minSampled a e && findsAgain minSampled a e) = true →
      ArchiveEvent minSampled backupScope a e ∧ FoundAgain id minSampled a e := by
    intro a e hadmits
    obtain ⟨hadmits, hfinds⟩ := Bool.and_eq_true_iff.mp hadmits
    exact ⟨archiveEvent_of_admits hadmits, foundAgain_of_finds rfl hfinds⟩
  obtain ⟨hstale, hdelete⟩ := deletions_leave_no_stale_unit minSampled_accepted
    (fun l => List.Perm.refl l) (Run.of_exec hclean hrun)
  exact ⟨a, holdest, hlength, hstale, hdelete 1
    ⟨Option.isNone_iff_eq_none.mp hjob, holdest.symm, by rw [hlength]; decide⟩ nofun⟩

/-- The first chunk of a stream is a file boundary, whose zero fingerprint uniform sampling takes; the
walk over the recipe does not come to it. -/
theorem boundary_entry_survives_deletion :
    ¬ ∀ (cfg : Config) (events : List Event) (a : Archive), cfg.Accepted →
      Run (archiveStep id cfg) (ArchiveEvent cfg backupScope) initArchive events a →
        NoStaleUnit cfg a := by
  intro hall
  have hexec : (exec (archiveStep id (smallConfig .exact .logical))
      (admitsArchive (smallConfig .exact .logical)) initArchive
      (backupEvents [smallFile [1]] 3 ++ [.delete 0])).any (fun a => decide (a.oldest = 1 ∧
        a.sys.store.htable.lookup (List.replicate 20 0) = some [makeSegmentId 0 96 0] ∧
        a.sys.store.backups.map (fun b => (b.bvNum, b.recipe)) =
          [(0, encodeSegments [[{ fp := .fill 1, id := 0, size := 8 }], []])])) = true := by
    decide +kernel
  obtain ⟨a, hrun, hcheck⟩ := (Option.any_eq_true _ _).mp hexec
  obtain ⟨holdest, hlookup, hbackups⟩ := of_decide_eq_true hcheck
  have hstale := hall _ _ a (smallConfig_accepted _ _)
    (Run.of_exec (fun _ _ => archiveEvent_of_admits) hrun)
  obtain ⟨b, hb, hpair⟩ := List.map_eq_singleton_iff.mp hbackups
  obtain ⟨hnum, hrecipe⟩ := Prod.mk.inj hpair
  obtain ⟨sr, hof⟩ := exists_segmentOf 0 96 []
  have hmem : sr ∈ segmentRecipes b.bvNum 0 [[{ fp := .fill 1, id := 0, size := 8 }], []] := by
    rw [hnum]
    exact mem_segmentRecipes.mpr
      ⟨[[{ fp := .fill 1, id := 0, size := 8 }]], [], [], rfl, hof⟩
  exact hstale.segments rfl _ _ hlookup _ (List.mem_singleton.mpr rfl) b
    (hb ▸ List.mem_singleton.mpr rfl) (by rw [hnum, holdest]; decide) _ hrecipe sr hmem hof.id_eq

end Example

end Destor
