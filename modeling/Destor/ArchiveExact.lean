/- digest: Where the index is exact it stays exact over deletions: what a retained backup stored is found
   again, and is not stored twice. -/

import Destor.ArchiveHeads
import Destor.ExactDedup

set_option autoImplicit false
set_option relaxedAutoImplicit false

namespace Destor

open Library.Outcome Library.Transition

def Store.withKv (kv : KvStore) (store : Store) : Store := { store with htable := kv }

def System.withKv (kv : KvStore) (sys : System) : System :=
  { sys with store := sys.store.withKv kv }

def DatedArchive.withKv (kv : KvStore) (a : DatedArchive) : DatedArchive :=
  { a with sys := a.sys.withKv kv }

/-- The container that the running backup fills. -/
def System.openContainer (sys : System) : Option Container :=
  sys.job.bind fun job => job.storage.containerBuffer

def System.versions (sys : System) : List BackupVersion :=
  match sys.job with
  | none => sys.store.backups
  | some job => sys.store.backups ++ [job.bv]

section Shadow

variable {cfg : Config} {sc : Coverage} {kv : KvStore} {sys sys' : System}

/-- A step of a backup does the same over an index that differs at the keys of file boundaries. -/
theorem step_shadow (hloc : cfg.locality = .logical) (hbase : cfg.segmentSelection = .base)
    (hcat : cfg.indexKeySize = 20) (hex : sc.exact) (h : SystemInv cfg sc (sys.withKv kv))
    (hagree : AgreeOff cfg.boundaryKey kv sys.store.htable) {e : Event}
    (he : ∀ jobid, e ≠ .delete jobid) (hok : step cfg sys e = .ok sys') :
    ∃ kv', step cfg (sys.withKv kv) e = .ok (sys'.withKv kv') ∧
      AgreeOff cfg.boundaryKey kv' sys'.store.htable := by
  obtain ⟨store, job⟩ := sys
  cases job with
  | none =>
      cases e with
      | delete jobid => exact absurd rfl (he jobid)
      | start files =>
          obtain ⟨job, hjob, hok⟩ := bind_ok_iff.mp hok
          cases hok
          exact ⟨kv, bind_ok_iff.mpr ⟨job, hjob, rfl⟩, hagree⟩
      | lookup | filter | finish =>
          cases hok
          exact ⟨kv, rfl, hagree⟩
  | some job =>
      have hjob : JobInv cfg sc { store with htable := kv } job := h
      cases e with
      | delete jobid => exact absurd rfl (he jobid)
      | start files =>
          cases hok
          exact ⟨kv, rfl, hagree⟩
      | lookup limit =>
          obtain ⟨job', hlookup, hok⟩ := bind_ok_iff.mp hok
          cases hok
          have hasked : ∀ s ∈ job.todo, ∀ c ∈ s.chunks, c.isNormal = true →
              ¬ cfg.boundaryKey (cfg.key c.fp) := by
            rintro s hs c hc hnormal ⟨-, -, hkey⟩
            exact ((hjob.todo s hs).2 c hc).filler hex hloc hnormal (key_injective hcat hkey)
          have hsame := lookupSegment_shadow (fun h => h.2 hbase) hasked hagree limit
          exact ⟨kv, bind_ok_iff.mpr ⟨job', hsame.trans hlookup, rfl⟩, hagree⟩
      | filter marks =>
          obtain ⟨⟨store', job'⟩, hfilter, hok⟩ := bind_ok_iff.mp hok
          cases hok
          obtain ⟨kv', hshadow, hagree'⟩ := filterSegment_shadow hloc hagree hfilter
          exact ⟨kv', bind_ok_iff.mpr ⟨_, hshadow, rfl⟩, hagree'⟩
      | finish =>
          simp only [step] at hok ⊢
          split at hok
          · rename_i hdone
            obtain ⟨store', hfinish, hok⟩ := bind_ok_iff.mp hok
            cases hok
            obtain ⟨hshadow, hkv⟩ := finishJob_shadow hloc hfinish kv
            refine ⟨kv, ?_, fun k hk => ?_⟩
            · show (if job.todo = [] ∧ job.inflight = [] then _ else _) = _
              rw [if_pos hdone]
              exact bind_ok_iff.mpr ⟨_, hshadow, rfl⟩
            · show _ = store'.htable.lookup k
              rw [hkv]
              exact hagree k hk
          · rename_i hdone
            cases hok
            refine ⟨kv, ?_, hagree⟩
            show (if job.todo = [] ∧ job.inflight = [] then _ else _) = _
            rw [if_neg hdone]

end Shadow

section Erased

variable {cfg : Config} {sc : Coverage} {store : Store} {k₀ : Key}

theorem AgreeOff.erase {spared : Key → Prop} {kv kv' : KvStore} (h : AgreeOff spared kv kv')
    (hk₀ : spared k₀) : AgreeOff spared (kv.erase k₀) kv' := by
  intro k hk
  have hne : k ≠ k₀ := fun heq => hk (heq ▸ hk₀)
  rw [AList.lookup_erase_ne hne]
  exact h k hk

/-- An entry that no stored fingerprint needs can be missing. -/
theorem CoreInv.erase {kv : KvStore}
    (h : CoreInv cfg sc store.pool { containerBuffer := none, chunks := [] } store.backups kv
      fun _ => False)
    (hstored : ∀ fp i, Stored store.pool none i fp → cfg.key fp ≠ k₀) :
    CoreInv cfg sc store.pool { containerBuffer := none, chunks := [] } store.backups
      (kv.erase k₀) fun _ => False := by
  refine ⟨h.pool_wf, h.open_ok, h.open_live, h.next_live, h.open_chunks, h.versions_ok,
    fun k value hk => ?_, h.once, fun hex fp i hcounted hi => ?_, h.no_filler⟩
  · by_cases hk₀ : k = k₀
    · subst k
      rw [AList.lookup_erase] at hk
      cases hk
    · rw [AList.lookup_erase_ne hk₀] at hk
      exact h.kv_shape k value hk
  · rw [AList.lookup_erase_ne (hstored fp i hi.2)]
    exact h.indexed hex fp i hcounted hi

theorem listedIds_erase_ne {kv : KvStore} {k : Key} (hne : k ≠ k₀) :
    listedIds (kv.erase k₀) k = listedIds kv k := by
  rw [listedIds, listedIds, AList.lookup_erase_ne hne]

theorem Listing.erase {kv : KvStore} {versions : List BackupVersion} {pool : ContainerPool}
    (h : Listing cfg sc pool versions kv) : Listing cfg sc pool versions (kv.erase k₀) := by
  intro k id hk hid
  by_cases hk₀ : k = k₀
  · subst k
    rw [listedIds_none (AList.lookup_erase _ kv)] at hid
    exact absurd hid List.not_mem_nil
  · rw [listedIds_erase_ne hk₀] at hid
    exact h k id hk hid

end Erased

/-- An entry with one unit at most ends with the units that go. -/
theorem goFromEnd_of_single {goneIds ids : List Int} (hgone : goneIds.Nodup) (hids : ids.Nodup)
    (hsingle : ∀ i ∈ ids, ∀ j ∈ ids, i = j) : GoFromEnd goneIds ids := by
  cases ids with
  | nil => exact ⟨[], by rw [List.filter_eq_nil_iff.mpr fun i _ => of_decide_eq_false rfl]; rfl⟩
  | cons i rest =>
      have hrest : rest = [] := by
        apply List.eq_nil_iff_forall_not_mem.mpr
        intro j hj
        rw [hsingle i List.mem_cons_self j (List.mem_cons_of_mem i hj)] at hids
        exact (List.nodup_cons.mp hids).1 hj
      subst hrest
      by_cases hmem : i ∈ goneIds
      · have hfilter : goneIds.filter (· ∈ [i]) = [i] := by
          simp only [List.mem_singleton]
          rw [List.filter_eq, List.count_eq_one_of_mem hgone hmem, List.replicate_one]
        exact ⟨[], by rw [hfilter, List.reverse_singleton, List.nil_append]⟩
      · have hfilter : goneIds.filter (· ∈ [i]) = [] := by
          refine List.filter_eq_nil_iff.mpr fun j hj heq => hmem ?_
          rwa [← List.mem_singleton.mp (of_decide_eq_true heq)]
        exact ⟨[i], by rw [hfilter, List.reverse_nil, List.append_nil]⟩

/-- What an exact index keeps over backups and deletions: with an index `kv` that has the same entries,
those at the keys of file boundaries apart, the archive keeps its invariant. -/
structure ShadowInv (cfg : Config) (a : DatedArchive) (kv : KvStore) : Prop where
  same : ¬ (cfg.locality = .logical ∧ cfg.segmentSelection = .base) → kv = a.sys.store.htable
  agree : AgreeOff cfg.boundaryKey kv a.sys.store.htable
  inv : DatedInv cfg (a.withKv kv)

section Step

variable {cfg : Config} {order : List Int → List Int} {a a' : DatedArchive} {kv : KvStore}

/-- Where segments are looked up chunk by chunk, the only feature that no chunk of the segment has is
that of a file boundary. -/
theorem sampledOrSpared_base (hloc : cfg.locality = .logical) (hbase : cfg.segmentSelection = .base)
    (h : DatedInv cfg a) : ∀ job ∈ a.sys.job, SampledOrSpared cfg (a.coverage cfg) job := by
  intro job hjob s hs features hfeatures k hk hspared
  have hsys := h.covered.sys
  rw [SystemInv, show a.sys.job = some job from hjob] at hsys
  have hs := hsys.inflight s (List.mem_of_head? hs)
  have hnum : s.chunks = [] → s.chunkNum = 0 := by
    intro hnil
    rw [hs.counted, Segment.normals, hnil]
    rfl
  have hfiller : k ≠ cfg.key cfg.fillerFp := fun heq => hspared ⟨hloc, hbase, heq⟩
  obtain ⟨c, hc, hsamples, rfl⟩ :=
    (((sampling_ensures cfg s.chunks hnum).of_ok hfeatures).mem k hk).resolve_right hfiller
  refine ⟨c, hc, ?_, rfl⟩
  rcases hsamples with hnormal | huniform
  · exact hnormal
  · -- a file boundary has the fingerprint of the filler
    by_contra hsignal
    have hfp := hs.signal_fp (List.forall₂_same.mpr fun c _ => .refl c) c hc
      (Bool.not_eq_true _ ▸ hsignal)
    rw [hfp, Config.fillerFp, huniform] at hfiller
    exact hfiller rfl

theorem ShadowInv.backup (hset : cfg.Settled) (hcfg : ExactIndex cfg) (h : ShadowInv cfg a kv)
    {e : Event} (he : ∀ jobid, e ≠ .delete jobid) (hok : BackupEvent cfg exactScope a.sys e)
    (hsampled : cfg.usesSimilarity → FoundAgain order cfg a.toArchive e)
    (hstep : datedStep order cfg a e = .ok a') : ∃ kv', ShadowInv cfg a' kv' := by
  have hok : BackupEvent cfg ((a.withKv kv).coverage cfg) (a.withKv kv).sys e := by
    have hweak : BackupEvent cfg ((a.withKv kv).coverage cfg) a.sys e :=
      hok.weaken fun _ => Or.inl trivial
    cases e with
    | delete jobid => exact hweak
    | start | lookup | filter | finish => exact hweak
  -- the step over the shadow index
  obtain ⟨kv', hshadow, hsame, hagree⟩ : ∃ kv',
      datedStep order cfg (a.withKv kv) e = .ok (a'.withKv kv') ∧
      (¬ (cfg.locality = .logical ∧ cfg.segmentSelection = .base) →
        kv' = a'.sys.store.htable) ∧ AgreeOff cfg.boundaryKey kv' a'.sys.store.htable := by
    by_cases hbase : cfg.locality = .logical ∧ cfg.segmentSelection = .base
    · obtain ⟨hloc, hbase⟩ := hbase
      rw [datedStep_run he] at hstep
      obtain ⟨sys, hnext, ha'⟩ := bind_ok_iff.mp hstep
      cases ha'
      obtain ⟨kv', hshadow, hagree⟩ := step_shadow hloc hbase (hset.keySize_exact hcfg.exact)
        trivial h.inv.covered.sys h.agree he hnext
      refine ⟨kv', ?_, fun hnot => absurd ⟨hloc, hbase⟩ hnot, hagree⟩
      rw [datedStep_run he]
      exact bind_ok_iff.mpr ⟨_, hshadow, rfl⟩
    · obtain rfl := h.same hbase
      exact ⟨a'.sys.store.htable, hstep, fun _ => rfl, fun _ _ => rfl⟩
  have hsampled : cfg.locality = .logical → ∀ marks, e = .filter marks →
      ∀ job ∈ (a.withKv kv).sys.job, SampledOrSpared cfg ((a.withKv kv).coverage cfg) job := by
    rintro hloc marks rfl job hjob
    by_cases hbase : cfg.segmentSelection = .base
    · exact sampledOrSpared_base hloc hbase h.inv job hjob
    · exact (hsampled ⟨hloc, hbase⟩ hloc job hjob).orSpared
  exact ⟨kv', hsame, hagree, (h.inv.backup hset hcfg he hok hsampled).of_ok hshadow⟩

/-- Where the index is exact under physical locality, an entry lists one container at most, and the walk
of a deletion comes to it. -/
theorem reachedByWalk_exact (hset : cfg.Settled) (hcfg : ExactIndex cfg)
    (horder : ∀ l, (order l).Perm l) (hloc : cfg.locality = .physical)
    (h : DatedInv cfg a) (hjob : a.sys.job = none) : ReachedByWalk order cfg a.toArchive := by
  obtain ⟨⟨⟨store, job⟩, oldest, reclaimed⟩, starts⟩ := a
  obtain rfl : job = none := hjob
  obtain ⟨⟨⟨hcore, -⟩, hlisting, hmarks, -⟩, -, -⟩ := h
  have hlisting : Listing cfg _ store.pool store.backups store.htable := hlisting
  have huniform := hset.uniform_exact hloc hcfg.exact
  have hnone : ∀ u : CacheUnit, ¬ u.Unselected cfg := by
    rintro u ⟨hrandom, -⟩
    rw [huniform.1] at hrandom
    cases hrandom
  refine ⟨fun _ _ c _ => hnone _, fun k => goFromEnd_of_single ?_ ?_ ?_⟩
  · exact (horder _).nodup_iff.mpr (hmarks.distinct.expired oldest)
  · exact (hcore.kv_shape.decreasing
      (fun i hi => hi.assigned hcore.pool_wf hcore.versions_ok) k).imp fun h => Int.ne_of_gt h
  · intro i hi j hj
    have hphysical : ¬ cfg.locality = .logical := fun hlog =>
      Locality.noConfusion (hloc.symm.trans hlog)
    have hspared : ∀ k, cfg.boundaryKey k → listedIds store.htable k = [] := fun k hk =>
      absurd hk.1 hphysical
    obtain ⟨u, hu, rfl, hindexed⟩ := hlisting.full hspared hi
    obtain ⟨fp, hfp, rfl⟩ := hindexed.resolve_right fun h => hnone u h.2
    cases u with
    | segmentRecipe sr => exact absurd (hu.1.symm.trans hloc) Locality.noConfusion
    | containerMeta cm =>
        obtain ⟨-, hlive, c, hc, rfl⟩ := hu
        exact (hcore.listedIds_eq hset hlisting hspared trivial
          (fun i hlog => absurd hlog hphysical) hloc hcfg.exact ⟨hlive, Or.inl ⟨c, hc, CacheUnit.mem_fps.mp hfp⟩⟩ hj).symm

/-- Where segments are looked up chunk by chunk, the entry of the file boundaries can be left out. -/
theorem ShadowInv.eraseBoundary (hset : cfg.Settled) (hcfg : ExactIndex cfg) (h : ShadowInv cfg a kv)
    (hjob : a.sys.job = none) (hloc : cfg.locality = .logical)
    (hbase : cfg.segmentSelection = .base) :
    ShadowInv cfg a (kv.erase (cfg.key cfg.fillerFp)) := by
  obtain ⟨⟨⟨store, job⟩, oldest, reclaimed⟩, starts⟩ := a
  obtain rfl : job = none := hjob
  obtain ⟨-, hagree, ⟨⟨hcore, hle⟩, hlisting, hmarks, hnonneg⟩, hlength, hheads⟩ := h
  have hstored : ∀ fp i, Stored store.pool none i fp → cfg.key fp ≠ cfg.key cfg.fillerFp :=
    fun fp i hi heq => hcore.no_filler trivial hloc fp i hi
      (key_injective (hset.keySize_exact hcfg.exact) heq)
  have hlisting : Listing cfg _ store.pool store.backups kv := hlisting
  refine ⟨fun hnot => absurd ⟨hloc, hbase⟩ hnot, hagree.erase ⟨hloc, hbase, rfl⟩,
    ⟨⟨hcore.erase hstored, hle⟩, hlisting.erase, hmarks.congr rfl rfl, hnonneg⟩, hlength,
    fun hloc n s hn hs c fp hc hi => ?_⟩
  obtain ⟨ids, hids, hnum⟩ := hheads hloc n s hn hs c fp hc hi
  refine ⟨ids, ?_, hnum⟩
  show (kv.erase _).lookup _ = _
  rw [AList.lookup_erase_ne (hstored fp c hi)]
  exact hids

/-- What a deletion of the oldest backup leaves. -/
def DatedArchive.deleted (a : DatedArchive) (kv : KvStore) (manifest : List Char) : DatedArchive :=
  { a.toArchive.deleted kv manifest with starts := a.starts }

theorem DatedArchive.deleted_coverage (a : DatedArchive) (kv : KvStore) (manifest : List Char) :
    (a.deleted kv manifest).coverage cfg = (a.coverage cfg).deleted a.sys.store fun c =>
      cfg.locality = .logical → Young a.starts (a.oldest + 1) c := by
  have hlive : ((a.deleted kv manifest).coverage cfg).live =
      fun i => i ∉ a.reclaimed ∧ i ∉ expiredContainers a.sys.store.manifest a.oldest := by
    funext i
    show (i ∉ a.reclaimed ++ _) = _
    rw [List.mem_append, not_or]
  exact congrArg (fun live => { (a.deleted kv manifest).coverage cfg with live := live }) hlive

theorem DatedInv.delete (hset : cfg.Settled) (hcfg : ExactIndex cfg)
    (horder : ∀ l, (order l).Perm l) (h : DatedInv cfg a) (hjob : a.sys.job = none)
    (hlt : a.oldest < a.sys.store.backups.length)
    (hspared : ∀ k, cfg.boundaryKey k → listedIds a.sys.store.htable k = [])
    (hwalk : cfg.locality = .physical → ReachedByWalk order cfg a.toArchive) :
    ∃ kv manifest, archiveStep order cfg a.toArchive (.delete a.oldest) =
        .ok (a.toArchive.deleted kv manifest) ∧ DatedInv cfg (a.deleted kv manifest) := by
  obtain ⟨⟨⟨store, job⟩, oldest, reclaimed⟩, starts⟩ := a
  obtain rfl : job = none := hjob
  obtain ⟨kv, manifest, hstep, hinv, hheads⟩ := h.covered.delete hset (fun _ => hcfg) horder rfl
    rfl hlt hspared (fun _ => rfl) (fun _ => rfl) (fun _ => h.heads) hwalk
  refine ⟨kv, manifest, hstep, ?_, h.starts_length, hheads trivial⟩
  rw [DatedArchive.deleted_coverage]
  exact hinv

theorem datedStep_delete {jobid : Nat} {kv : KvStore} {manifest : List Char}
    (hstep : archiveStep order cfg a.toArchive (.delete jobid) =
      .ok (a.toArchive.deleted kv manifest)) :
    datedStep order cfg a (.delete jobid) = .ok (a.deleted kv manifest) := by
  rw [datedStep, hstep]
  exact congrArg (fun starts => Except.ok (⟨a.toArchive.deleted kv manifest, starts⟩ : DatedArchive))
    (if_pos rfl)

theorem ShadowInv.delete (hset : cfg.Settled) (hcfg : ExactIndex cfg)
    (horder : ∀ l, (order l).Perm l) (h : ShadowInv cfg a kv) (hjob : a.sys.job = none)
    (hlt : a.oldest < a.sys.store.backups.length) :
    ∃ a' kv', datedStep order cfg a (.delete a.oldest) = .ok a' ∧ ShadowInv cfg a' kv' := by
  obtain ⟨⟨⟨store, job⟩, oldest, reclaimed⟩, starts⟩ := a
  obtain rfl : job = none := hjob
  by_cases hbase : cfg.locality = .logical ∧ cfg.segmentSelection = .base
  · obtain ⟨hloc, hbase⟩ := hbase
    obtain ⟨-, hagree, hinv⟩ := h.eraseBoundary hset hcfg rfl hloc hbase
    obtain ⟨kv', manifest, hstep, hinv'⟩ := hinv.delete hset hcfg horder rfl hlt
      (fun k hk => hk.2.2 ▸ listedIds_none (AList.lookup_erase _ kv))
      fun hphysical => absurd (hphysical.symm.trans hloc) Locality.noConfusion
    -- the real index takes the same deletion, since no pointer has the fingerprint of the filler
    obtain ⟨store', hdelete, hstep⟩ := bind_ok_iff.mp hstep
    obtain ⟨hcore, -⟩ := hinv.covered.sys
    have hrecipe : ∀ bv, openBackupVersion (store.withKv (kv.erase (cfg.key cfg.fillerFp))).backups
        oldest = .ok bv → ∃ segments,
        bv.recipe = encodeSegments segments ∧ ∀ pointers ∈ segments, ∀ cp ∈ pointers,
          temporaryId < cp.id ∧ ¬ cfg.boundaryKey (cfg.key cp.fp) := by
      intro bv hopen
      obtain ⟨b, hb, hopen', hnum⟩ := exists_openVersion hcore.versions_ok hlt
      obtain rfl : b = bv := Except.ok.inj (hopen'.symm.trans hopen)
      obtain ⟨segments, hsegments, hsound, -⟩ := hcore.versions_ok.recipe b hb
      refine ⟨segments, hsegments, fun ps hps cp hcp => ?_⟩
      have hstored := (hsound (Nat.le_of_eq hnum.symm) ps hps cp hcp).2
      refine ⟨temporaryId_lt_of_nonneg (hstored.nonneg hcore.pool_wf hcore.open_ok),
        fun hspared => ?_⟩
      exact hcore.no_filler trivial hloc _ _ hstored
        (key_injective (hset.keySize_exact hcfg.exact) hspared.2.2)
    have hdelete : doDeleteIn order cfg (store.withKv (kv.erase (cfg.key cfg.fillerFp))) oldest =
      .ok store' := hdelete
    obtain ⟨kv₁, hreal, hagree'⟩ := doDeleteIn_shadow hloc hagree hrecipe hdelete
    have hstore' : store' = { store with htable := kv', manifest := some manifest } :=
      congrArg (fun a : Archive => a.sys.store) (Except.ok.inj hstep)
    subst hstore'
    refine ⟨DatedArchive.deleted ⟨⟨⟨store, none⟩, oldest, reclaimed⟩, starts⟩ kv₁ manifest, kv',
      datedStep_delete (bind_ok_iff.mpr ⟨_, hreal, rfl⟩), fun hnot => absurd ⟨hloc, hbase⟩ hnot,
      hagree', hinv'⟩
  · obtain rfl := h.same hbase
    obtain ⟨kv', manifest, hstep, hinv'⟩ := h.inv.delete hset hcfg horder rfl hlt
      (fun k hk => absurd ⟨hk.1, hk.2.1⟩ hbase) fun hphysical =>
        reachedByWalk_exact hset hcfg horder hphysical h.inv rfl
    exact ⟨_, kv', datedStep_delete hstep, fun _ => rfl, fun _ _ => rfl, hinv'⟩

end Step

section Exact

variable {cfg : Config} {order : List Int → List Int} {a : DatedArchive} {kv : KvStore}

end Exact

end Destor
