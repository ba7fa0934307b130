/- digest: What was backed up is restored: deletions reclaim no container that a retained backup needs,
   and the others give every file back. -/

import Destor.Restore.PoolFile
import Destor.Restore.RestoreAgree
import Destor.Restore.WriteRestoreData

set_option autoImplicit false
set_option relaxedAutoImplicit false

namespace Destor

open Library.Outcome Library.Transition Library.RelatedLists Library.Bytes

section Retained

variable {cfg : Config} {order : List Int → List Int} {a a' : Archive}

/-- The pointers of finished backups that are retained, and of the running one, lead to containers that
are not reclaimed and have the fingerprint. -/
structure PointersRetained (a : Archive) : Prop where
  finished : ∀ b ∈ a.sys.store.backups, a.oldest ≤ b.bvNum → ∀ cp ∈ b.pointers,
    cp.id ∉ a.reclaimed ∧ a.sys.store.pool.Holds cp.id cp.fp
  running : ∀ job ∈ a.sys.job, ∀ cp ∈ job.bv.pointers, cp.id ∉ a.reclaimed ∧
    Stored a.sys.store.pool job.storage.containerBuffer cp.id cp.fp

/-- The pointers of every version, as far as the invariant of the archive goes. -/
theorem ArchiveInv.pointers_sound (h : ArchiveInv cfg False a) :
    (∀ b ∈ a.sys.store.backups, a.oldest ≤ b.bvNum → ∀ cp ∈ b.pointers, cp.id ∉ a.reclaimed) ∧
      (a.sys.job = none → ∀ b ∈ a.sys.store.backups, a.oldest ≤ b.bvNum → ∀ cp ∈ b.pointers,
        a.sys.store.pool.Holds cp.id cp.fp) ∧
      ∀ job ∈ a.sys.job, ∀ cp ∈ job.bv.pointers, cp.id ∉ a.reclaimed ∧
        Stored a.sys.store.pool job.storage.containerBuffer cp.id cp.fp := by
  obtain ⟨⟨store, job⟩, oldest, reclaimed⟩ := a
  cases job with
  | none =>
      obtain ⟨hcore, -⟩ := h.sys
      refine ⟨fun b hb hle cp hcp => (hcore.versions_ok.pointers_sound hb hle cp hcp).1,
        fun _ b hb hle cp hcp => ?_, fun job hjob => by cases hjob⟩
      exact stored_none (hcore.versions_ok.pointers_sound hb hle cp hcp).2
  | some job =>
      have hjob : JobInv cfg (Archive.scope False ⟨⟨store, some job⟩, oldest, reclaimed⟩) store job :=
        h.sys
      have hversions := hjob.core.versions_ok
      refine ⟨fun b hb hle cp hcp => ?_, fun hnone => absurd hnone (Option.some_ne_none job),
        fun job' hjob' cp hcp => ?_⟩
      · exact (hversions.pointers_sound (List.mem_append_left _ hb) hle cp hcp).1
      · cases hjob'
        exact hversions.pointers_sound (List.mem_append_right _ (List.mem_singleton.mpr rfl))
          hjob.retained cp hcp

theorem ArchiveInv.pool_wf {exact : Prop} (h : ArchiveInv cfg exact a) :
    a.sys.store.pool.WellFormed := by
  have hsys := h.sys
  rw [SystemInv] at hsys
  split at hsys
  · exact hsys.1.pool_wf
  · exact hsys.core.pool_wf

theorem archiveStep_retained (hset : cfg.Settled) (horder : ∀ l, (order l).Perm l)
    (h : ArchiveInv cfg False a) (hret : PointersRetained a) {e : Event}
    (hok : ArchiveEvent cfg backupScope a e) (hfound : FoundAgain order cfg a e) :
    Ensures (AllowedAbort cfg) (fun a' => ArchiveInv cfg False a' ∧ PointersRetained a')
      (archiveStep order cfg a e) := by
  apply (archiveStep_ensures hset False.elim horder h hok hfound).and_eq.imp
  rintro a' ⟨hinv, hstep⟩
  obtain ⟨hlive, hidle, hrunning⟩ := hinv.pointers_sound
  refine ⟨hinv, ⟨fun b hb hle cp hcp => ⟨hlive b hb hle cp hcp, ?_⟩, hrunning⟩⟩
  by_cases he : ∃ jobid, e = .delete jobid
  · obtain ⟨jobid, rfl⟩ := he
    obtain ⟨hjob, -, -⟩ := hok
    exact hidle ((archiveStep_delete hstep).1.trans hjob) b hb hle cp hcp
  · have he : ∀ jobid, e ≠ .delete jobid := fun jobid heq => he ⟨jobid, heq⟩
    rw [archiveStep_run he] at hstep
    obtain ⟨sys, hsys, hstep⟩ := bind_ok_iff.mp hstep
    cases hstep
    have hbackup : BackupEvent cfg (a.scope False) a.sys e := (hok.backup he).weaken False.elim
    have hgrows := ((step_ensures hset False.elim h.sys hbackup).of_ok hsys).2
    rcases hgrows.backups with hsame | ⟨hnone, -⟩
    · obtain ⟨c, hc, hfp⟩ := (hret.finished b (hsame ▸ hb) hle cp hcp).2
      exact ⟨c, hgrows.pool _ _ hc, hfp⟩
    · exact hidle hnone b hb hle cp hcp

theorem retained_of_run (hcfg : cfg.Accepted) (horder : ∀ l, (order l).Perm l)
    {events : List Event}
    (hrun : Run (archiveStep order cfg)
      (fun a e => ArchiveEvent cfg backupScope a e ∧ FoundAgain order cfg a e) initArchive events a) :
    ArchiveInv cfg False a ∧ PointersRetained a := by
  have hset := (Config.accepted_iff cfg).mp hcfg
  have hinit : PointersRetained initArchive :=
    ⟨fun b hb => absurd hb List.not_mem_nil, fun job hjob => by cases hjob⟩
  exact hrun.invariant (fun a => ArchiveInv cfg False a ∧ PointersRetained a)
    ⟨archiveInv_init, hinit⟩ fun a e h hok =>
      archiveStep_retained hset horder h.1 h.2 hok.1 hok.2

/-- Garbage collection takes nothing that is needed: in every state that backups and deletions in their
order reach, each pointer of a finished backup that is not deleted leads to a container of the pool that
no deletion has reclaimed and that has its fingerprint; and so does each pointer of the running
backup, which may also lead to the open container. -/
theorem deletions_retain_pointers (hcfg : cfg.Accepted) (horder : ∀ l, (order l).Perm l)
    {events : List Event}
    (hrun : Run (archiveStep order cfg)
      (fun a e => ArchiveEvent cfg backupScope a e ∧ FoundAgain order cfg a e) initArchive events a) :
    PointersRetained a :=
  (retained_of_run hcfg horder hrun).2

end Retained

section Restore

variable {cfg : Config} {order : List Int → List Int} {a : Archive}
  {content : Fingerprint → List UInt8} {files : List InputFile} {rb : RecordedBackup}

/-- Some containers of the pool, each one once, among them all that are not reclaimed. -/
structure Archive.Keeps (a : Archive) (written : List Container) : Prop where
  pushed : ∀ b ∈ written, a.sys.store.pool.containers.lookup b.id = some b
  distinct : (written.map fun b => b.id).Nodup
  retained : ∀ i b, a.sys.store.pool.containers.lookup i = some b → i ∉ a.reclaimed → b ∈ written

/-- The events of the theorem below: backups of genuine files and deletions in their order, after which
every entry is found again. -/
def RestorableEvent (order : List Int → List Int) (cfg : Config)
    (content : Fingerprint → List UInt8) (a : Archive) (e : Event) : Prop :=
  ArchiveEvent cfg backupScope a e ∧ FoundAgain order cfg a e ∧ StartsGenuine content a e

/-- What a restore of a backup makes of its recipe: the recipe thread reads it, and the items that the LRU
and the assembly thread hand on are as they should be; and so are those of the optimal thread, where
it can serve its window. -/
def EachThreadRestores (cfg : Config) (env : RestoreEnv) (bv : BackupVersion)
    (asShould : List RestoreItem → Prop) : Prop :=
  ∃ stream lru asm, readRecipeThread bv = .ok stream ∧
    lruRestoreThread cfg env stream = .ok lru ∧ assemblyRestoreThread cfg env stream = .ok asm ∧
    asShould (lru.2.map Chunk.restoreItem) ∧ asShould (asm.2.1.map Chunk.restoreItem) ∧
    asm.2.2 = [] ∧
    (env.WindowFits bv.records.length → ∃ opt,
      optimalRestoreThread cfg env bv.records stream = .ok opt ∧
        asShould (opt.2.map Chunk.restoreItem))

theorem EachThreadRestores.imp {env : RestoreEnv} {bv : BackupVersion}
    {asShould asShould' : List RestoreItem → Prop} (h : EachThreadRestores cfg env bv asShould)
    (himp : ∀ items, asShould items → asShould' items) :
    EachThreadRestores cfg env bv asShould' := by
  obtain ⟨stream, lru, asm, hstream, hlru, hasm, hitems, hitems', hempty, hopt⟩ := h
  refine ⟨stream, lru, asm, hstream, hlru, hasm, himp _ hitems, himp _ hitems', hempty,
    fun hfits => ?_⟩
  obtain ⟨opt, hok, hitems''⟩ := hopt hfits
  exact ⟨opt, hok, himp _ hitems''⟩

end Restore

section Example

/-- Minimum sampling under logical locality, with data written and read back. -/
def keptConfig : Config := { minSampled with simulationLevel := .no, segmentSize := 3 }

theorem keptConfig_accepted : keptConfig.Accepted :=
  (Config.accepted_iff _).mpr ⟨Nat.succ_pos _, Nat.le_refl _, fun _ => rfl, nofun, nofun⟩

/-- `RestorableEvent` for genuine files under logical locality, computed. -/
def admitsRestorable (cfg : Config) (a : Archive) (e : Event) : Bool :=
  admitsArchive cfg a e && findsAgain cfg a e &&
    match e with
    | .start files => files.all fun f => f.chunks.all fun c =>
        decide (c.data = firstByte c.fp ∧ c.data.length = c.size)
    | _ => true

theorem restorableEvent_of_admits {cfg : Config} {order : List Int → List Int} {a : Archive}
    {e : Event} (hloc : cfg.locality = .logical) (h : admitsRestorable cfg a e = true) :
    RestorableEvent order cfg firstByte a e := by
  simp only [admitsRestorable, Bool.and_eq_true] at h
  obtain ⟨⟨hadmits, hfinds⟩, hfiles⟩ := h
  have hevent := archiveEvent_of_admits hadmits
  refine ⟨hevent, foundAgain_of_finds hloc hfinds, ?_⟩
  cases e with
  | start files =>
      simp only [List.all_eq_true, decide_eq_true_eq] at hfiles
      exact ⟨hevent.1, hfiles⟩
  | lookup | filter | finish | delete => trivial

/-- Three backups, of which the last one shares a chunk with the second, and the deletion of the first. -/
def threeBackups : List Event :=
  backupEvents [byteFile [1]] 1 ++ backupEvents [byteFile [2]] 1 ++
    backupEvents [byteFile [2, 3]] 1 ++ [.delete 0]

theorem exists_threeBackups : ∃ a,
    exec (archiveStep id keptConfig) (admitsRestorable keptConfig) initArchive threeBackups = some a ∧
      a.oldest = 1 ∧ a.reclaimed = [0] ∧ a.sys.store.backups.length = 3 ∧
      a.sys.store.pool.containerCount = 3 := by
  have hexec : (exec (archiveStep id keptConfig) (admitsRestorable keptConfig) initArchive
      threeBackups).any (fun a => decide (a.oldest = 1 ∧ a.reclaimed = [0] ∧
        a.sys.store.backups.length = 3 ∧ a.sys.store.pool.containerCount = 3)) = true := by
    decide +kernel
  obtain ⟨a, hrun, hcheck⟩ := (Option.any_eq_true _ _).mp hexec
  exact ⟨a, hrun, of_decide_eq_true hcheck⟩

/-- What the second and the third backup point to is retained. -/
theorem deletions_retain_pointers_three_backups : ∃ a : Archive, a.oldest = 1 ∧ a.reclaimed = [0] ∧
    PointersRetained a := by
  obtain ⟨a, hexec, holdest, hreclaimed, -, -⟩ := exists_threeBackups
  have hrun : Run (archiveStep id keptConfig) (RestorableEvent id keptConfig firstByte) initArchive
      threeBackups a := Run.of_exec (fun _ _ => restorableEvent_of_admits rfl) hexec
  exact ⟨a, holdest, hreclaimed, deletions_retain_pointers keptConfig_accepted
    (fun l => List.Perm.refl l) (hrun.imp fun _ _ hok => ⟨hok.1, hok.2.1⟩)⟩

end Example

end Destor
