/- digest: Every recipe pointer names a container that holds its chunk, in any interleaving. -/

import Destor.JobInvariant
import Destor.Library.Transition

set_option autoImplicit false
set_option relaxedAutoImplicit false

namespace Destor

open Library.Outcome Library.Transition

/-- The chunk pointers of a recipe: its records less the flags at segment boundaries. -/
def BackupVersion.pointers (b : BackupVersion) : List ChunkPointer :=
  b.recipe.filter fun cp => cp.id ≠ 0 - chunkSegmentStart ∧ cp.id ≠ 0 - chunkSegmentEnd

/-- What holds of the system between two events. -/
def SystemInv (cfg : Config) (sc : Coverage) (sys : System) : Prop :=
  match sys.job with
  | none => CoreInv cfg sc sys.store.pool { containerBuffer := none, chunks := [] }
      sys.store.backups sys.store.htable (fun _ => False) ∧ sc.oldest ≤ sys.store.backups.length
  | some job => JobInv cfg sc sys.store job

/-- The events of backup runs without deletion. A backup starts when no other one runs, with
chunks that fit in an empty container and segment ids that fit their bit fields. -/
def BackupEvent (cfg : Config) (sc : Scope) (sys : System) : Event → Prop
  | .start files => sys.job = none ∧ AdmissibleFiles cfg sc files ∧
      SegmentIdsFit cfg sys.store files
  | .delete _ => False
  | _ => True

section Steps

variable {cfg : Config} {sc : Coverage} {sys : System}

/-- What a step of a backup does to the store besides keeping the invariant. -/
structure StoreGrows (sys sys' : System) : Prop where
  pool : ∀ i b, sys.store.pool.containers.lookup i = some b →
    sys'.store.pool.containers.lookup i = some b
  backups : sys'.store.backups = sys.store.backups ∨ (sys'.job = none ∧ ∃ job ∈ sys.job,
    sys'.store.backups = sys.store.backups ++ [updateBackupVersion job.bv])

theorem StoreGrows.refl (sys : System) : StoreGrows sys sys := ⟨fun _ _ h => h, Or.inl rfl⟩

/-- Every event of a backup run keeps the invariant. -/
theorem step_ensures (hset : cfg.Settled) (hexact : sc.exact → ExactIndex cfg)
    (h : SystemInv cfg sc sys) {e : Event} (hok : BackupEvent cfg sc sys e) :
    Ensures (AllowedAbort cfg) (fun sys' => SystemInv cfg sc sys' ∧ StoreGrows sys sys')
      (step cfg sys e) := by
  obtain ⟨store, job⟩ := sys
  cases job with
  | none =>
      obtain ⟨hcore, hretained⟩ := h
      cases e with
      | start files =>
          obtain ⟨-, hfiles, hids⟩ := hok
          apply (startJob_ensures cfg store files).bind
          rintro job ⟨segments, hsegment, rfl⟩
          exact ⟨newJob_inv hcore hretained hfiles hids hsegment, fun _ _ hb => hb, Or.inl rfl⟩
      | delete jobid => exact hok.elim
      | lookup limit => exact ⟨⟨hcore, hretained⟩, .refl _⟩
      | filter marks => exact ⟨⟨hcore, hretained⟩, .refl _⟩
      | finish => exact ⟨⟨hcore, hretained⟩, .refl _⟩
  | some job =>
      have hjob : JobInv cfg sc store job := h
      cases e with
      | start files => exact absurd hok.1 (by simp)
      | delete jobid => exact hok.elim
      | lookup limit =>
          exact (lookupSegment_ensures hexact hjob limit).bind fun job' hjob' =>
            ⟨hjob', fun _ _ hb => hb, Or.inl rfl⟩
      | filter marks =>
          refine (filterSegment_ensures hset hexact hjob marks (fun _ _ => True) trivial
            fun _ _ _ _ _ _ _ => trivial).bind ?_
          rintro ⟨store', job'⟩ ⟨hjob', hfiltered⟩
          exact ⟨hjob', hfiltered.pool_mono, Or.inl hfiltered.backups_eq⟩
      | finish =>
          simp only [step]
          split
          · apply (finishJob_ensures hset hexact hjob).bind
            rintro store' ⟨hcore, hbackups, -, hpool⟩
            refine ⟨⟨hcore, ?_⟩, hpool, Or.inr ⟨rfl, job, rfl, hbackups⟩⟩
            have hnum := hjob.core.versions_ok.num store.backups.length job.bv (by simp)
            have hretained := hjob.retained
            simp only [hbackups, List.length_append, List.length_singleton]
            omega
          · exact ⟨h, .refl _⟩

theorem systemInv_init (hset : sc.oldest = 0) (hlive : ∀ i : Int, 0 ≤ i → sc.live i) :
    SystemInv cfg sc initSystem := by
  have hnone : ∀ {i : Int} {fp : Fingerprint}, ¬ Stored emptyStore.pool none i fp := by
    rintro i fp (⟨c, hc, -⟩ | ⟨b, hb, -⟩)
    · simp [emptyStore] at hc
    · cases hb
  refine ⟨⟨⟨by simp [initSystem, emptyStore], by simp [initSystem, emptyStore]⟩, by simp, by simp,
    fun i hi => hlive i hi, by simp, ⟨by simp [initSystem, emptyStore],
    by simp [initSystem, emptyStore]⟩, ?_, ?_, ?_, ?_⟩, by simp [hset]⟩
  · intro k value hk
    simp [initSystem, emptyStore] at hk
  · exact fun _ _ _ _ _ _ hi => absurd hi.2 hnone
  · exact fun _ _ _ _ hi => absurd hi.2 hnone
  · exact fun _ _ _ _ hi => absurd hi hnone

end Steps

section Soundness

variable {cfg : Config} {sc : Coverage} {pool : ContainerPool} {storage : Option Container}

theorem VersionsInv.pointers_sound {versions : List BackupVersion} {oldest : Nat}
    {sound : Int → Fingerprint → Prop} (h : VersionsInv cfg oldest sound versions)
    {b : BackupVersion} (hb : b ∈ versions) (hle : oldest ≤ b.bvNum) :
    ∀ cp ∈ b.pointers, sound cp.id cp.fp := by
  intro cp hcp
  obtain ⟨segments, hrecipe, hsound, -⟩ := h.recipe b hb
  simp only [BackupVersion.pointers, List.mem_filter, decide_eq_true_eq] at hcp
  obtain ⟨hmem, hstart, hend⟩ := hcp
  rw [hrecipe] at hmem
  obtain ⟨pointers, hpointers, hmem⟩ := List.mem_flatMap.mp hmem
  simp only [encodeSegment, List.cons_append, List.mem_cons, List.mem_append, List.not_mem_nil,
    or_false] at hmem
  rcases hmem with rfl | hmem | rfl
  · exact absurd rfl hstart
  · exact hsound hle pointers hpointers cp hmem
  · exact absurd rfl hend

/-- Every container counts, no index is required to be exact, no backup is deleted. -/
def backupScope : Scope := { live := fun _ => True, exact := False, oldest := 0 }

/-- What deduplication promises of the recipes of a system: the pointers of a finished backup name
containers of the pool; those of the running one may also name the open container. -/
structure RecipesSound (sys : System) : Prop where
  finished : ∀ b ∈ sys.store.backups, ∀ cp ∈ b.pointers, sys.store.pool.Holds cp.id cp.fp
  running : ∀ job ∈ sys.job, ∀ cp ∈ job.bv.pointers,
    Stored sys.store.pool job.storage.containerBuffer cp.id cp.fp

theorem stored_none {id : Int} {fp : Fingerprint} (h : Stored pool none id fp) :
    pool.Holds id fp := by
  rcases h with h | ⟨b, hb, -⟩
  · exact h
  · cases hb

private theorem recipesSound_step {sys sys' : System}
    (h : ∀ b ∈ sys.store.backups, ∀ cp ∈ b.pointers, sys.store.pool.Holds cp.id cp.fp)
    (hinv : SystemInv cfg backupScope sys') (hgrows : StoreGrows sys sys') :
    RecipesSound sys' := by
  have hold : ∀ b ∈ sys.store.backups, ∀ cp ∈ b.pointers,
      sys'.store.pool.Holds cp.id cp.fp := by
    intro b hb cp hcp
    obtain ⟨c, hc, hfp⟩ := h b hb cp hcp
    exact ⟨c, hgrows.pool _ _ hc, hfp⟩
  refine ⟨fun b hb cp hcp => ?_, fun job hjob cp hcp => ?_⟩
  · rcases hgrows.backups with heq | ⟨hnone, job, -, heq⟩
    · exact hold b (heq ▸ hb) cp hcp
    · obtain ⟨store', job'⟩ := sys'
      cases hnone
      exact stored_none (hinv.1.versions_ok.pointers_sound hb (Nat.zero_le _) cp hcp).2
  · obtain ⟨store', job'⟩ := sys'
    cases hjob
    have hjob' : JobInv cfg backupScope store' job := hinv
    exact (hjob'.core.versions_ok.pointers_sound (by simp) (Nat.zero_le _) cp hcp).2

/-- Soundness of deduplication: in every state that backup runs reach, each chunk pointer of a
recipe names a container with an entry for its fingerprint; and from such a state no step of either
thread fails an assertion on the way of a chunk, a sampler without ratio and the one rewriting case
of `AllowedAbort` apart. -/
theorem recipes_sound (hcfg : cfg.Accepted) {events : List Event} {sys : System}
    (hrun : Run (step cfg) (BackupEvent cfg backupScope) initSystem events sys) :
    RecipesSound sys ∧ ∀ e, BackupEvent cfg backupScope sys e →
      Ensures (AllowedAbort cfg) RecipesSound (step cfg sys e) := by
  have hset := (Config.accepted_iff cfg).mp hcfg
  have hexact : backupScope.exact → ExactIndex cfg := False.elim
  have hstep : ∀ s e, SystemInv cfg backupScope s ∧ RecipesSound s →
      BackupEvent cfg backupScope s e → Ensures (AllowedAbort cfg)
        (fun s' => SystemInv cfg backupScope s' ∧ RecipesSound s') (step cfg s e) := by
    rintro s e ⟨hinv, hsound⟩ hok
    exact (step_ensures hset hexact hinv hok).imp fun s' hs' =>
      ⟨hs'.1, recipesSound_step hsound.finished hs'.1 hs'.2⟩
  have hinv := hrun.invariant _
    ⟨systemInv_init rfl fun _ _ => trivial, ⟨by simp [initSystem, emptyStore], by simp [initSystem]⟩⟩
    hstep
  exact ⟨hinv.2, fun e hok => (hstep sys e hinv hok).imp fun _ h => h.2⟩

end Soundness

section Example

theorem smallConfig_accepted (category : IndexCategory) (locality : Locality) :
    (smallConfig category locality).Accepted :=
  (Config.accepted_iff _).mpr ⟨Nat.succ_pos _, le_rfl, fun _ => rfl, fun _ => rfl,
    fun _ _ => ⟨rfl, rfl⟩⟩

/-- A file whose chunks have fingerprints filled with the given bytes. -/
def smallFile (bytes : List UInt8) : InputFile :=
  { name := [], chunks := bytes.map fun b => { fp := .fill b, size := 8, data := [] } }

def unmarked : Nat → Bool × Bool := fun _ => (false, false)

def admitsBackup (cfg : Config) (sys : System) : Event → Bool
  | .start files => sys.job.isNone &&
      (files.all fun f => f.chunks.all fun c => decide (fitsEmptyContainer c.size)) &&
      (match segmentStream cfg newSegment (files.flatMap InputFile.stream) with
      | .ok segments =>
          decide (RemainingFits (createBackupVersion sys.store.backups.length) segments)
      | .error _ => true)
  | .delete _ => false
  | _ => true

theorem backupEvent_of_admits {cfg : Config} {sys : System} {e : Event}
    (h : admitsBackup cfg sys e = true) : BackupEvent cfg backupScope sys e := by
  cases e with
  | start files =>
      simp only [admitsBackup, Bool.and_eq_true, Option.isNone_iff_eq_none, List.all_eq_true,
        decide_eq_true_eq] at h
      refine ⟨h.1.1, ⟨h.1.2, False.elim⟩, fun _ segments hsegment => ?_⟩
      have hfits := h.2
      rw [hsegment] at hfits
      exact of_decide_eq_true hfits
  | delete jobid => simp [admitsBackup] at h
  | lookup | filter | finish => trivial

/-- A whole backup run in which each of `n` segments is filtered right after its lookup. -/
def backupEvents (files : List InputFile) (n : Nat) : List Event :=
  .start files :: (List.replicate n [Event.lookup 4, .filter unmarked]).flatten ++ [.finish]

/-- A file with two copies of a chunk: both are looked up before the first one is written. -/
theorem recipes_sound_two_copies : ∃ sys : System,
    sys.store.backups.map (fun b => b.pointers.map ChunkPointer.id) = [[0, 0]] ∧
      RecipesSound sys := by
  have h₀ : Run (step (smallConfig .nearExact .physical))
    (BackupEvent (smallConfig .nearExact .physical) backupScope) initSystem [] initSystem := .nil
  have h₁ := h₀.after (.start [smallFile [1, 1]]) ⟨rfl, ⟨by decide, nofun⟩, nofun⟩ rfl
  have h₂ := ((h₁.after (.lookup 4) trivial rfl).after (.lookup 4) trivial rfl).after
    (.lookup 4) trivial rfl
  have h₃ := ((h₂.after (.filter unmarked) trivial rfl).after (.filter unmarked) trivial rfl).after
    (.filter unmarked) trivial rfl
  have h₄ := h₃.after .finish trivial rfl
  exact ⟨_, by decide +kernel, (recipes_sound (smallConfig_accepted _ _) h₄).1⟩

end Example

end Destor
