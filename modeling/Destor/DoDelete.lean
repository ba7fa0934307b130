/- digest: Deleting a backup version that is opened for reading, and the flag it should leave. -/

import Destor.DoBackup
import Destor.Recipe.RecipeWriter

set_option autoImplicit false
set_option relaxedAutoImplicit false

namespace Destor

open Library Library.Outcome Library.Bytes

/-- The working directory as `do_delete` finds it. -/
structure DeleteStore where
  pool : ContainerPool
  recipes : RecipeDir
  htable : KvStore
  manifest : Option (List Char)

namespace DeleteStore

/-- The loop of `do_delete` over the segments of the version. Each segment takes bytes from the
recipe, so fuel beyond their number changes nothing. -/
def deleteSegments (cfg : Config) : Nat → BackupFile → KvStore →
    Except Abort (BackupFile × KvStore)
  | 0, bv, kv => .ok (bv, kv)
  | fuel + 1, bv, kv => do
      match ← BackupFile.readNextSegment bv with
      | (none, bv) => return (bv, kv)
      | (some sr, bv) =>
          let kv ← deleteEntries cfg kv sr.kvpairs.keys sr.id
          deleteSegments cfg fuel bv kv

/-- The entries of the reclaimed containers, or of the segments of the version, are removed. -/
def deleteUnits (cfg : Config) (st : DeleteStore) (bv : BackupFile) (invalid : List Int) :
    Except Abort (BackupFile × KvStore) :=
  match cfg.locality with
  | .physical => do
      let kv ← deleteContainers cfg st.pool st.htable invalid
      return (bv, kv)
  | .logical => deleteSegments cfg bv.recipeFp.content.length bv st.htable

def doDelete (cfg : Config) (st : DeleteStore) (jobid : Int) : Except Abort DeleteStore := do
  let (invalid, manifest, _) ← truncManifest id st.manifest jobid
  let bv ← BackupFile.openBackupVersion st.recipes jobid
  let (bv, kv) ← deleteUnits cfg st bv invalid
  let bv := BackupFile.updateBackupVersion { bv with deleted := 1 }
  return { st with
    recipes := BackupFile.freeBackupVersion st.recipes bv
    htable := kv
    manifest := some manifest }

end DeleteStore

def initRestoreJcr (recipes : RecipeDir) (revision : Int) : Except Abort BackupFile := do
  let bv ← BackupFile.openBackupVersion recipes revision
  require (bv.deleted ≠ 1) .restoreDeleted
  return bv

section ReadOnly

variable {recipes : RecipeDir} {number : Int} {files : VersionFiles} {bv bv' : BackupFile}

structure OpenedRead (files : VersionFiles) (number : Int) (bv : BackupFile) : Prop where
  num_eq : bv.bvNum = number
  metadata : bv.metadataFp.content = files.metadata ∧ bv.metadataFp.writable = false
  recipe : bv.recipeFp.content = files.recipe ∧ bv.recipeFp.writable = false
  record : bv.recordFp.content = files.records ∧ bv.recordFp.writable = false

theorem openBackupVersion_opened (h : BackupFile.openBackupVersion recipes number = .ok bv) :
    ∃ files, recipes number = some files ∧ OpenedRead files number bv := by
  unfold BackupFile.openBackupVersion at h
  cases hfiles : recipes number with
  | none => simp [hfiles] at h
  | some files =>
      simp only [hfiles, bind_ok_iff, require_ok_iff] at h
      obtain ⟨_, hnum, heq⟩ := h
      cases heq
      exact ⟨files, rfl, hnum, ⟨rfl, rfl⟩, ⟨rfl, rfl⟩, ⟨rfl, rfl⟩⟩

/-- Reading moves the position in the recipe. -/
theorem OpenedRead.move (h : OpenedRead files number bv) {fp : Stream}
    (hcontent : fp.content = bv.recipeFp.content) (hmode : fp.writable = bv.recipeFp.writable) :
    OpenedRead files number { bv with recipeFp := fp } :=
  ⟨h.num_eq, h.metadata, ⟨hcontent.trans h.recipe.1, hmode.trans h.recipe.2⟩, h.record⟩

theorem readPointer_same (fp : Stream) :
    (BackupFile.readPointer fp).2.content = fp.content ∧
      (BackupFile.readPointer fp).2.writable = fp.writable :=
  ⟨rfl, rfl⟩

theorem readSegmentPointers_same (n : Nat) (kvpairs : FpMap ChunkPointer) (fp : Stream) :
    Ensures (fun _ => True)
      (fun r => r.2.content = fp.content ∧ r.2.writable = fp.writable)
      (BackupFile.readSegmentPointers n kvpairs fp) := by
  induction n generalizing kvpairs fp with
  | zero => exact ⟨rfl, rfl⟩
  | succ n ih =>
      apply (ensures_require (Or.inr trivial)).bind
      intro _ _
      exact ih _ (BackupFile.readPointer fp).2

theorem readNextSegment_opened (h : OpenedRead files number bv) :
    Ensures (fun _ => True) (fun r => OpenedRead files number r.2)
      (BackupFile.readNextSegment bv) := by
  have hsame := readPointer_same bv.recipeFp
  unfold BackupFile.readNextSegment
  generalize BackupFile.readPointer bv.recipeFp = r at hsame ⊢
  obtain ⟨flag, fp⟩ := r
  simp only
  split
  · exact h.move hsame.1 hsame.2
  · apply (readSegmentPointers_same _ ∅ fp).bind
    intro r hr
    have hlast := readPointer_same r.2
    apply (ensures_require (Or.inr trivial)).bind
    intro _ _
    exact h.move (hlast.1.trans (hr.1.trans hsame.1)) (hlast.2.trans (hr.2.trans hsame.2))

theorem deleteSegments_opened (cfg : Config) (fuel : Nat) (kv : KvStore)
    (h : OpenedRead files number bv) :
    Ensures (fun _ => True) (fun r => OpenedRead files number r.1)
      (DeleteStore.deleteSegments cfg fuel bv kv) := by
  induction fuel generalizing bv kv with
  | zero => exact h
  | succ fuel ih =>
      apply (readNextSegment_opened h).bind
      intro r hr
      obtain ⟨_ | sr, bv'⟩ := r
      · exact hr
      · show Ensures _ _ (deleteEntries cfg kv sr.kvpairs.keys sr.id >>= _)
        cases deleteEntries cfg kv sr.kvpairs.keys sr.id with
        | error e => trivial
        | ok kv' => exact ih kv' hr

theorem deleteUnits_opened (cfg : Config) (st : DeleteStore) (invalid : List Int)
    (h : OpenedRead files number bv) :
    Ensures (fun _ => True) (fun r => OpenedRead files number r.1)
      (st.deleteUnits cfg bv invalid) := by
  unfold DeleteStore.deleteUnits
  split
  · cases deleteContainers cfg st.pool st.htable invalid with
    | error e => trivial
    | ok kv => exact h
  · exact deleteSegments_opened cfg _ _ h

private theorem flush_of_not_writable {fp : Stream} (h : fp.writable = false)
    (buf : Option (List UInt8)) : BackupFile.flush fp buf = fp := by
  unfold BackupFile.flush
  split
  · split
    · exact Stream.fwrite_of_not_writable h _
    · rfl
  · rfl

theorem OpenedRead.update (h : OpenedRead files number bv) :
    OpenedRead files number (BackupFile.updateBackupVersion { bv with deleted := 1 }) := by
  refine ⟨h.num_eq, ?_, h.recipe, ?_⟩
  · unfold BackupFile.updateBackupVersion
    simp only [flush_of_not_writable h.metadata.2]
    rw [Stream.fwrite_of_not_writable (by exact h.metadata.2)]
    exact h.metadata
  · unfold BackupFile.updateBackupVersion
    simp only [flush_of_not_writable h.record.2]
    have hsame : (if bv.accessRecord ≠ temporaryId then
        bv.recordFp.fwrite (leInt 8 bv.accessRecord) else bv.recordFp) = bv.recordFp := by
      split
      · exact Stream.fwrite_of_not_writable h.record.2 _
      · rfl
    rw [hsame, Stream.fwrite_of_not_writable h.record.2]
    exact h.record

theorem OpenedRead.free (h : OpenedRead files number bv) (hfiles : recipes number = some files) :
    BackupFile.freeBackupVersion recipes bv = recipes := by
  have hsame : ({ metadata := bv.metadataFp.content, recipe := bv.recipeFp.content
                  records := bv.recordFp.content } : VersionFiles) = files := by
    rw [h.metadata.1, h.recipe.1, h.record.1]
  rw [BackupFile.freeBackupVersion, hsame, h.num_eq, ← hfiles]
  exact Function.update_eq_self number recipes

/-- `do_delete` leaves the files of every version as they are. -/
theorem doDelete_recipes {cfg : Config} {st st' : DeleteStore} {jobid : Int}
    (h : st.doDelete cfg jobid = .ok st') :
    st'.recipes = st.recipes ∧ ∃ bv, BackupFile.openBackupVersion st.recipes jobid = .ok bv := by
  unfold DeleteStore.doDelete at h
  obtain ⟨⟨invalid, manifest, live⟩, -, h⟩ := bind_ok_iff.mp h
  obtain ⟨bv, hopen, h⟩ := bind_ok_iff.mp h
  obtain ⟨⟨bv', kv⟩, hunits, h⟩ := bind_ok_iff.mp h
  cases h
  obtain ⟨files, hfiles, hread⟩ := openBackupVersion_opened hopen
  have hread' : OpenedRead files jobid bv' :=
    (deleteUnits_opened cfg st invalid hread).of_ok hunits
  exact ⟨hread'.update.free hfiles, bv, hopen⟩

/-- What deleting a version should leave: its flag is set, the restore of it is refused, and the
rest of its header and the other versions are as before. -/
structure StaysDeleted (recipes recipes' : RecipeDir) (jobid : Int) : Prop where
  flagged : ∃ bv, BackupFile.openBackupVersion recipes' jobid = .ok bv ∧ bv.deleted = 1
  refused : initRestoreJcr recipes' jobid = .error .restoreDeleted
  header : ∀ bv, BackupFile.openBackupVersion recipes jobid = .ok bv →
    ∃ bv', BackupFile.openBackupVersion recipes' jobid = .ok bv' ∧ bv'.bvNum = bv.bvNum ∧
      bv'.numberOfFiles = bv.numberOfFiles ∧ bv'.numberOfChunks = bv.numberOfChunks ∧
      bv'.path = bv.path
  others : ∀ number, number ≠ jobid → recipes' number = recipes number

/-- The flag of a version is set after its deletion exactly when it was set before. -/
theorem doDelete_staysDeleted_iff {cfg : Config} {st st' : DeleteStore} {jobid : Int}
    (h : st.doDelete cfg jobid = .ok st') :
    StaysDeleted st.recipes st'.recipes jobid ↔
      ∃ bv, BackupFile.openBackupVersion st.recipes jobid = .ok bv ∧ bv.deleted = 1 := by
  obtain ⟨hsame, -⟩ := doDelete_recipes h
  rw [hsame]
  constructor
  · intro hstays
    exact hstays.flagged
  · rintro ⟨bv, hopen, hdeleted⟩
    refine ⟨⟨bv, hopen, hdeleted⟩, ?_, fun bv' hbv' => ?_, fun _ _ => rfl⟩
    · rw [initRestoreJcr, hopen]
      simp [bind, Except.bind, require, hdeleted]
    · exact ⟨bv', hbv', rfl, rfl, rfl, rfl⟩

end ReadOnly

section Example

private def deletedChunk : Chunk := .normal (.fill 1) 1 [7]

private def chunkContainer : Container :=
  appendChunk (smallConfig .exact .physical) (createContainer (smallConfig .exact .physical)
    ⟨∅, 0⟩).1 deletedChunk

/-- A backup of a file `a` with one chunk, as it leaves the files of its version, the manifest and the
store. -/
private def chunkBackup : DeleteStore where
  pool := { containers := (∅ : IdMap Container).insert 0 chunkContainer, containerCount := 1 }
  recipes := ((BackupFile.writeBackup (fun _ => none) 0 [47] [StoredFile.stream
    { name := [97], pointers := [{ fp := .fill 1, id := 0, size := 1 }] }]).toOption).getD
      fun _ => none
  htable := indexUpdate (smallConfig .exact .physical) ∅
    [(smallConfig .exact .physical).key (.fill 1)] 0
  manifest := some (renderManifest [{ id := 0, time := 0 }])

private theorem chunkBackup_open : ∃ bv,
    BackupFile.openBackupVersion chunkBackup.recipes 0 = .ok bv ∧ bv.deleted = 0 ∧
      bv.numberOfChunks = 1 :=
  ⟨_, rfl, rfl, rfl⟩

private theorem chunkBackup_delete : ∃ st',
    chunkBackup.doDelete (smallConfig .exact .physical) 0 = .ok st' ∧
      st'.htable.lookup ((smallConfig .exact .physical).key (.fill 1)) = none := by
  have hdelete : ((chunkBackup.doDelete (smallConfig .exact .physical) 0).toOption).any (fun st' =>
      (st'.htable.lookup ((smallConfig .exact .physical).key (.fill 1))).isNone) =
        true := by
    decide +kernel
  obtain ⟨st', hst', hnone⟩ := (Option.any_eq_true _ _).mp hdelete
  refine ⟨st', ?_, Option.isNone_iff_eq_none.mp hnone⟩
  cases hresult : chunkBackup.doDelete (smallConfig .exact .physical) 0 with
  | ok st =>
      rw [hresult] at hst'
      exact congrArg Except.ok (Option.some.inj hst')
  | error e =>
      rw [hresult] at hst'
      cases hst'

/-- A version with one chunk that was not marked before. -/
theorem doDelete_staysDeleted_iff_one_chunk : ∃ st',
    chunkBackup.doDelete (smallConfig .exact .physical) 0 = .ok st' ∧
      (StaysDeleted chunkBackup.recipes st'.recipes 0 ↔
        ∃ bv, BackupFile.openBackupVersion chunkBackup.recipes 0 = .ok bv ∧ bv.deleted = 1) := by
  obtain ⟨st', hst', -⟩ := chunkBackup_delete
  exact ⟨st', hst', doDelete_staysDeleted_iff hst'⟩

/-- The deleted backup can still be opened and restored, and its chunk is no longer indexed. -/
theorem doDelete_leaves_flag : ∃ st',
    chunkBackup.doDelete (smallConfig .exact .physical) 0 = .ok st' ∧
      st'.htable.lookup ((smallConfig .exact .physical).key (.fill 1)) = none ∧
      (∃ bv, BackupFile.openBackupVersion st'.recipes 0 = .ok bv ∧ bv.deleted = 0 ∧
        bv.numberOfChunks = 1) ∧
      ¬ StaysDeleted chunkBackup.recipes st'.recipes 0 := by
  obtain ⟨st', hst', hkey⟩ := chunkBackup_delete
  obtain ⟨hsame, -⟩ := doDelete_recipes hst'
  obtain ⟨bv, hopen, hdeleted, hchunks⟩ := chunkBackup_open
  have hopened : BackupFile.openBackupVersion st'.recipes 0 = .ok bv := by rw [hsame, hopen]
  refine ⟨st', hst', hkey, ⟨bv, hopened, hdeleted, hchunks⟩, fun hstays => ?_⟩
  obtain ⟨bv', hopen', hflag⟩ := hstays.flagged
  rw [hsame, hopen] at hopen'
  cases hopen'
  rw [hdeleted] at hflag
  exact absurd hflag (by decide)

end Example

end Destor
