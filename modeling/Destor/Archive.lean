/- digest: Backups and deletions in their order, and what the manifest marks in every state. -/

import Destor.DedupSound
import Destor.IndexedUnits

set_option autoImplicit false
set_option relaxedAutoImplicit false

namespace Destor

open Library.Outcome Library.Transition

/-- The system with its deletions so far: the oldest backup that is not deleted, and the containers
that were reclaimed. -/
structure Archive where
  sys : System
  oldest : Nat
  reclaimed : List Int

def initArchive : Archive := { sys := initSystem, oldest := 0, reclaimed := [] }

/-- A step of the system. A deletion visits the reclaimed containers in the order `order`. -/
def archiveStep (order : List Int → List Int) (cfg : Config) (a : Archive) (e : Event) :
    Except Abort Archive :=
  match e, a.sys.job with
  | .delete jobid, none => do
      let store ← doDeleteIn order cfg a.sys.store jobid
      return {
        sys := { a.sys with store := store }
        oldest := jobid + 1
        reclaimed := a.reclaimed ++ expiredContainers a.sys.store.manifest jobid }
  | e, _ => do
      let sys ← step cfg a.sys e
      return { a with sys := sys }

/-- The containers that are not reclaimed, and the backups that are not deleted. -/
def Archive.scope (exact : Prop) (a : Archive) : Scope :=
  { live := fun i => i ∉ a.reclaimed, exact := exact, oldest := a.oldest }

def ArchiveEvent (cfg : Config) (sc : Scope) (a : Archive) : Event → Prop
  | .delete jobid => a.sys.job = none ∧ jobid = a.oldest ∧ jobid < a.sys.store.backups.length
  | e => BackupEvent cfg sc a.sys e

/-- A container of a backup from `oldest` on, where the `n`-th backup found the ids from `starts[n]` on
free. -/
def Young (starts : List Nat) (oldest : Nat) (c : Int) : Prop :=
  ∃ n s, oldest ≤ n ∧ starts[n]? = some s ∧ (s : Int) ≤ c

theorem Young.older {starts : List Nat} {oldest : Nat} {c : Int}
    (h : Young starts (oldest + 1) c) : Young starts oldest c := by
  obtain ⟨n, s, hle, hrest⟩ := h
  exact ⟨n, s, Nat.le_of_succ_le hle, hrest⟩

/-- The latest segment of what a backup stored is no older than this backup. -/
def YoungHeads (cfg : Config) (starts : List Nat) (oldest : Nat) (pool : ContainerPool)
    (storage : Option Container) (kv : KvStore) : Prop :=
  ∀ n s, oldest ≤ n → starts[n]? = some s → ∀ c fp, (s : Int) ≤ c → Stored pool storage c fp →
    ∃ ids, kv.lookup (cfg.key fp) = some ids ∧ (n : Int) ≤ idToBnum (ids.headD temporaryId)

section Marks

/-- The manifest marks each container with the last backup that refers to it, deleted ones apart. -/
structure ManifestMarks (oldest : Nat) (store : Store) : Prop where
  distinct : DistinctIds (readManifest (store.manifest.getD []))
  sound : ∀ c t, { id := c, time := t } ∈ readManifest (store.manifest.getD []) → 0 ≤ c ∧
    ∃ b ∈ store.backups, (b.bvNum : Int) = t ∧ oldest ≤ b.bvNum ∧ ∃ cp ∈ b.recipe, cp.id = c
  complete : ∀ b ∈ store.backups, oldest ≤ b.bvNum → ∀ cp ∈ b.recipe, 0 ≤ cp.id →
    ∃ t, { id := cp.id, time := t } ∈ readManifest (store.manifest.getD []) ∧ (b.bvNum : Int) ≤ t
  file : store.backups ≠ [] → store.manifest.isSome

variable {cfg : Config} {sc : Coverage} {oldest : Nat} {store store' : Store} {job : Job}

theorem manifestMarks_init : ManifestMarks 0 emptyStore :=
  ⟨List.nodup_nil, fun _ _ h => absurd h List.not_mem_nil, fun _ hb => absurd hb List.not_mem_nil,
    fun h => absurd rfl h⟩

theorem ManifestMarks.congr (h : ManifestMarks oldest store)
    (hmanifest : store'.manifest = store.manifest) (hbackups : store'.backups = store.backups) :
    ManifestMarks oldest store' := by
  obtain ⟨hdistinct, hsound, hcomplete, hfile⟩ := h
  rw [← hmanifest] at hdistinct hsound hcomplete hfile
  rw [← hbackups] at hsound hcomplete hfile
  exact ⟨hdistinct, hsound, hcomplete, hfile⟩

/-- A backup that ends marks its containers. -/
theorem ManifestMarks.finish (h : ManifestMarks oldest store) (hjob : JobInv cfg sc store job)
    (hold : oldest ≤ job.bv.bvNum)
    (hbackups : store'.backups = store.backups ++ [updateBackupVersion job.bv])
    (hmanifest : store'.manifest =
      some (updateManifest id store.manifest job.monitor.keys job.bv.bvNum).1) :
    ManifestMarks oldest store' := by
  obtain ⟨hdistinct, hmem⟩ := mem_readManifest_update id (fun l => List.Perm.refl l)
    h.distinct job.monitor.keys job.bv.bvNum
  have hkeys : ∀ c, c ∈ job.monitor.keys ↔ 0 ≤ c ∧ ∃ cp ∈ job.bv.recipe, cp.id = c := fun c =>
    AList.mem_keys.symm.trans (hjob.monitored c)
  have hnum : ∀ b ∈ store.backups, b.bvNum ≤ job.bv.bvNum := by
    intro b hb
    obtain ⟨i, hi⟩ := List.mem_iff_getElem?.mp hb
    have hlt := (List.getElem?_eq_some_iff.mp hi).1
    have hbnum := hjob.core.versions_ok.num i b (by rw [List.getElem?_append_left hlt, hi])
    have hlast := hjob.core.versions_ok.num store.backups.length job.bv (by simp)
    omega
  have hlast : updateBackupVersion job.bv ∈ store'.backups := by
    rw [hbackups]
    exact List.mem_append_right _ (List.mem_singleton.mpr rfl)
  have hfirst : ∀ b ∈ store.backups, b ∈ store'.backups := by
    intro b hb
    rw [hbackups]
    exact List.mem_append_left _ hb
  rw [← Option.getD_some (a := (updateManifest id store.manifest job.monitor.keys
    job.bv.bvNum).1) (b := []), ← hmanifest] at hdistinct hmem
  refine ⟨hdistinct, fun c t hc => ?_, fun b hb hle cp hcp hid => ?_, fun _ => by
    rw [hmanifest, Option.isSome_some]⟩
  · have hc := (hmem c t).mp hc
    split at hc
    · rename_i hmonitor
      obtain ⟨hnonneg, hcp⟩ := (hkeys c).mp hmonitor
      exact ⟨hnonneg, _, hlast, hc.symm, hold, hcp⟩
    · obtain ⟨hnonneg, b, hb, hrest⟩ := h.sound c t hc
      exact ⟨hnonneg, b, hfirst b hb, hrest⟩
  · by_cases hmonitor : cp.id ∈ job.monitor.keys
    · refine ⟨job.bv.bvNum, (hmem _ _).mpr (by rw [if_pos hmonitor]), ?_⟩
      rw [hbackups] at hb
      rcases List.mem_append.mp hb with hb | hb
      · exact Int.ofNat_le.mpr (hnum b hb)
      · rw [List.mem_singleton.mp hb]
        exact le_refl _
    · rw [hbackups] at hb
      rcases List.mem_append.mp hb with hb | hb
      · obtain ⟨t, ht, hle'⟩ := h.complete b hb hle cp hcp hid
        exact ⟨t, (hmem _ _).mpr (by rwa [if_neg hmonitor]), hle'⟩
      · rw [List.mem_singleton.mp hb] at hcp
        exact absurd ((hkeys cp.id).mpr ⟨hid, cp, hcp, rfl⟩) hmonitor

theorem ManifestMarks.delete (h : ManifestMarks oldest store) {r : List Int × List Char × Nat}
    (hr : truncManifest id store.manifest oldest = .ok r) :
    r.1 = expiredContainers store.manifest oldest ∧
      ManifestMarks (oldest + 1) { store with manifest := some r.2.1 } := by
  cases hfile : store.manifest with
  | none =>
      rw [hfile] at hr
      cases hr
  | some text =>
      rw [hfile] at hr
      obtain ⟨hdistinct, hsound, hcomplete, -⟩ := h
      rw [hfile, Option.getD_some] at hdistinct hsound hcomplete
      obtain ⟨hdistinct', hmem⟩ := mem_readManifest_trunc id
        (fun l => List.Perm.refl l) hdistinct oldest
      obtain rfl := Except.ok.inj hr
      refine ⟨rfl, hdistinct', fun c t hc => ?_, fun b hb hle cp hcp hid => ?_, fun _ => rfl⟩
      · obtain ⟨hmem, hlt⟩ := (hmem c t).mp hc
        obtain ⟨hnonneg, b, hb, rfl, -, hcp⟩ := hsound c t hmem
        exact ⟨hnonneg, b, hb, rfl, by omega, hcp⟩
      · obtain ⟨t, ht, hle'⟩ := hcomplete b hb (by omega) cp hcp hid
        exact ⟨t, (hmem _ _).mpr ⟨ht, by omega⟩, hle'⟩

end Marks

end Destor
