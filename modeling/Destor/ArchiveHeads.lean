/- digest: Under logical locality the entry of a fingerprint leads to a segment no older than the backup
   that stored it. -/

import Destor.ArchiveRuns
import Destor.ShadowIndex

set_option autoImplicit false
set_option relaxedAutoImplicit false

namespace Destor

open Library.Outcome Library.Transition

section Loop

variable {cfg : Config} {sc : Coverage} {versions : List BackupVersion} {st st₀ st' : FilterState}
  {c c' : Chunk}

/-- The loop of the filter phase since `st₀`, where nothing is rewritten. -/
structure StoresNew (st₀ st : FilterState) : Prop where
  stored : ∀ id fp, Stored st.pool st.storage.containerBuffer id fp →
    Stored st₀.pool st₀.storage.containerBuffer id fp ∨ (st.recentlyUnique.lookup fp).isSome
  kv_eq : st.kv = st₀.kv

theorem StoresNew.step (hcfg : ExactIndex cfg) (hloc : cfg.locality = .logical)
    (h : StoresNew st₀ st) (hstep : FilterStep cfg sc versions st c st' c') :
    StoresNew st₀ st' := by
  cases hnormal : c.isNormal with
  | false =>
      obtain ⟨rfl, -⟩ := hstep.signal hnormal
      exact h
  | true =>
      obtain ⟨enable, c₁, st₂, hres, hmark, hok, hwrite, rfl⟩ := hstep.normal hnormal
      refine ⟨fun id fp hstored => ?_, (storeChunk_kv_eq hloc hok).trans h.kv_eq⟩
      rcases hres.state with ⟨hdup, habsent⟩ | ⟨hdup, -⟩
      · rcases hwrite.stored_of id fp hstored with hold | ⟨-, rfl⟩
        · exact (h.stored id fp hold).imp_right (hwrite.unique_mono fp)
        · exact Or.inr (hwrite.unique_new hdup habsent.1)
      · -- a duplicate is not written
        have hmust : mustWrite enable c₁ = false := by
          apply Bool.eq_false_iff.mpr
          intro hmust
          rcases hmark.mustWrite hdup hmust with halg | hhar
          · exact halg hcfg.rewrite
          · exact Bool.false_ne_true (hcfg.har.symm.trans hhar)
        rw [storeChunk, if_neg (by rw [hmust]; exact Bool.false_ne_true)] at hok
        cases hok
        exact h.stored id fp hstored

end Loop

section Segment

variable {cfg : Config} {sc : Coverage} {store store' : Store} {job job' : Job} {starts : List Nat}
  {oldest : Nat}

/-- A segment that passes the filter thread becomes the latest one of what it stored. -/
theorem filterSegment_youngHeads (hset : cfg.Settled) (hcfg : ExactIndex cfg)
    (hloc : cfg.locality = .logical) (h : JobInv cfg sc store job)
    (hheads : YoungHeads cfg starts oldest store.pool job.storage.containerBuffer store.htable)
    (hlength : starts.length = job.bv.bvNum + 1) {marks : Nat → Bool × Bool}
    (hok : filterSegment cfg store job marks = .ok (store', job')) :
    YoungHeads cfg starts oldest store'.pool job'.storage.containerBuffer store'.htable := by
  cases hinflight : job.inflight with
  | nil =>
      rw [filterSegment, hinflight] at hok
      cases hok
      exact hheads
  | cons s inflight =>
      obtain ⟨chunks, done, st, hpassed, hnew⟩ := filterSegment_passed hset (fun _ => hcfg) h
        hinflight hok (fun _ st => StoresNew (job.filterState store) st)
        ⟨fun id fp hstored => Or.inl hstored, rfl⟩ fun done st c c' st' hg hstep =>
          hg.step hcfg hloc hstep
      obtain ⟨segments, sid, happ, rfl, hkv⟩ := hpassed.written
      obtain ⟨features, hnodup, -, hcover, heq⟩ := updateLogicalIndex_features hloc hpassed.count
        (fun _ _ _ _ (hk : ¬ True) => absurd trivial hk)
        (fun fp => hpassed.inv.recent) hkv
      have hkv₀ : st.kv = store.htable := hnew.kv_eq
      have hnum : (idToBnum (makeSegmentId job'.bv.bvNum (segmentOffset segments)
          (recipePointers done).length) : Int) = job.bv.bvNum := by
        have hfits : RecipeFits job'.bv.bvNum (segments ++ recipePointers done :: []) := by
          rw [happ.bvNum_eq]
          exact happ.fits hloc
        rw [idToBnum_makeSegmentId hfits.segmentId, happ.bvNum_eq]
      intro n s hn hs c fp hc hstored
      have hle : n ≤ job.bv.bvNum := by
        have hlt := (List.getElem?_eq_some_iff.mp hs).1
        omega
      rw [hpassed.pool_eq, hpassed.storage_eq] at hstored
      rw [heq, lookup_indexUpdate hnodup, hkv₀]
      split
      · refine ⟨_, rfl, ?_⟩
        rw [headD_kvUpdate, hnum]
        exact Int.ofNat_le.mpr hle
      · rename_i hnot
        rcases hnew.stored c fp hstored with hold | hrecent
        · exact hheads n s hn hs c fp hc hold
        · exact absurd (hcover hcfg.exact fp hrecent) hnot

/-- The end of a backup stores nothing new. -/
theorem finishJob_stored (h : JobInv cfg sc store job)
    (hok : finishJob cfg store job = .ok store') :
    ∀ c fp, Stored store'.pool none c fp → Stored store.pool job.storage.containerBuffer c fp := by
  intro c fp hstored
  obtain ⟨st, hclose, hok⟩ := bind_ok_iff.mp hok
  obtain rfl := Except.ok.inj hok
  rw [closeStorage] at hclose
  cases hb : (job.filterState store).storage.containerBuffer with
  | none =>
      rw [hb] at hclose
      cases hclose
      apply hstored.imp_right
      intro hin
      obtain ⟨b, hnone, -⟩ := hin
      cases hnone
  | some b =>
      have hopen := h.core.open_ok b hb
      rw [hb] at hclose
      dsimp only at hclose
      rw [if_neg (Bool.eq_false_iff.mp hopen.nonempty)] at hclose
      obtain ⟨kv, -, hclose⟩ := bind_ok_iff.mp hclose
      rw [writeContainerAsync_ensures hopen.counted hopen.nonempty] at hclose
      cases hclose
      have hbuffer : job.storage.containerBuffer = some b := hb
      rw [hbuffer]
      exact (stored_push hopen c fp).mp hstored

theorem YoungHeads.append {pool : ContainerPool} {kv : KvStore} {count : Nat}
    (h : YoungHeads cfg starts oldest pool none kv)
    (hlt : ∀ c fp, Stored pool none c fp → c < count) :
    YoungHeads cfg (starts ++ [count]) oldest pool none kv := by
  intro n s hn hs c fp hc hstored
  rw [List.getElem?_append] at hs
  split at hs
  · exact h n s hn hs c fp hc hstored
  · obtain rfl := List.mem_singleton.mp (List.mem_of_getElem? hs)
    exact absurd (hlt c fp hstored) (Int.not_lt.mpr hc)

end Segment

section Step

variable {cfg : Config} {sc : Coverage} {starts : List Nat} {oldest : Nat} {sys sys' : System}

def System.HeadsYoung (cfg : Config) (starts : List Nat) (oldest : Nat) (sys : System) : Prop :=
  YoungHeads cfg starts oldest sys.store.pool
    (sys.job.bind fun job => job.storage.containerBuffer) sys.store.htable

theorem step_headsYoung (hset : cfg.Settled) (hcfg : ExactIndex cfg)
    (hloc : cfg.locality = .logical) (h : SystemInv cfg sc sys)
    (hheads : sys.HeadsYoung cfg starts oldest)
    (hlength : starts.length = sys.store.backups.length + 1) {e : Event}
    (hok : BackupEvent cfg sc sys e) (hstep : step cfg sys e = .ok sys') :
    sys'.HeadsYoung cfg starts oldest := by
  obtain ⟨store, job⟩ := sys
  cases job with
  | none =>
      cases e with
      | start files =>
          obtain ⟨segments, -, rfl⟩ := step_start hstep
          exact hheads
      | delete jobid => exact hok.elim
      | lookup limit =>
          cases hstep
          exact hheads
      | filter marks =>
          cases hstep
          exact hheads
      | finish =>
          cases hstep
          exact hheads
  | some job =>
      have hjob : JobInv cfg sc store job := h
      have hheads : YoungHeads cfg starts oldest store.pool job.storage.containerBuffer
        store.htable := hheads
      cases e with
      | start files => exact absurd hok.1 (Option.some_ne_none job)
      | delete jobid => exact hok.elim
      | lookup limit =>
          obtain ⟨job', hlookup, hstep⟩ := bind_ok_iff.mp hstep
          cases hstep
          have hstorage := (lookupSegment_same hlookup).2
          show YoungHeads cfg starts oldest store.pool job'.storage.containerBuffer store.htable
          rw [hstorage]
          exact hheads
      | filter marks =>
          obtain ⟨⟨store', job'⟩, hfilter, hstep⟩ := bind_ok_iff.mp hstep
          cases hstep
          have hnum := hjob.core.versions_ok.num store.backups.length job.bv (by simp)
          exact filterSegment_youngHeads hset hcfg hloc hjob hheads (hnum ▸ hlength) hfilter
      | finish =>
          simp only [step] at hstep
          split at hstep
          · obtain ⟨store', hfinish, hstep⟩ := bind_ok_iff.mp hstep
            cases hstep
            have hkv := (finishJob_shadow hloc hfinish store.htable).2
            intro n s hn hs c fp hc hstored
            show ∃ ids, store'.htable.lookup _ = _ ∧ _
            rw [hkv]
            exact hheads n s hn hs c fp hc (finishJob_stored hjob hfinish c fp hstored)
          · cases hstep
            exact hheads

end Step

/-- The archive with the first free container id of each backup, the next one included. -/
structure DatedArchive extends Archive where
  starts : List Nat

/-- The first free ids after a step from `sys` to `sys'`: a backup that ends adds one. -/
def nextStarts (starts : List Nat) (sys sys' : System) : List Nat :=
  if sys'.store.backups.length = sys.store.backups.length then starts
  else starts ++ [sys'.store.pool.containerCount]

def datedStep (order : List Int → List Int) (cfg : Config) (a : DatedArchive) (e : Event) :
    Except Abort DatedArchive := do
  let b ← archiveStep order cfg a.toArchive e
  return { b with starts := nextStarts a.starts a.sys b.sys }

/-- Entries that only a file boundary can have put in: nothing asks for them where a segment is looked
up chunk by chunk. -/
def Config.boundaryKey (cfg : Config) (k : Key) : Prop :=
  cfg.locality = .logical ∧ cfg.segmentSelection = .base ∧ k = cfg.key cfg.fillerFp

/-- What an exact index must know of an archive: under logical locality what the backups stored that are
not deleted. -/
def DatedArchive.coverage (cfg : Config) (a : DatedArchive) : Coverage :=
  { a.toArchive.scope True with
    counted := fun c => cfg.locality = .logical → Young a.starts a.oldest c
    spared := cfg.boundaryKey }

/-- What holds of an archive with an exact index between two events. -/
structure DatedInv (cfg : Config) (a : DatedArchive) : Prop where
  covered : CoveredInv cfg (a.coverage cfg) a.toArchive
  starts_length : a.starts.length = a.sys.store.backups.length + 1
  heads : cfg.locality = .logical → a.sys.HeadsYoung cfg a.starts a.oldest

section Dated

variable {cfg : Config} {sc : Coverage} {order : List Int → List Int} {a a' : DatedArchive}

/-- Containers that do not exist yet may count as well. -/
theorem SystemInv.recount {sys : System} {counted : Int → Prop} (h : SystemInv cfg sc sys)
    (hjob : sys.job = none)
    (hcounted : ∀ c, counted c → sc.counted c ∨ sys.store.pool.containerCount ≤ c) :
    SystemInv cfg { sc with counted := counted } sys := by
  obtain ⟨store, job⟩ := sys
  obtain rfl : job = none := hjob
  obtain ⟨hcore, hle⟩ := h
  have hold : ∀ c fp, counted c → sc.Sound store.pool none c fp → sc.counted c := by
    intro c fp hc hsound
    obtain ⟨b, hb, -⟩ := stored_none hsound.2
    exact (hcounted c hc).resolve_right (Int.not_le.mpr (hcore.pool_wf.lt_count c b hb).2)
  exact ⟨⟨hcore.pool_wf, hcore.open_ok, hcore.open_live, hcore.next_live, hcore.open_chunks,
    hcore.versions_ok, hcore.kv_shape,
    fun hex fp i j hci hcj hi hj =>
      hcore.once hex fp i j (hold i fp hci hi) (hold j fp hcj hj) hi hj,
    fun hex fp i hci hi => hcore.indexed hex fp i (hold i fp hci hi) hi, hcore.no_filler⟩, hle⟩

theorem SystemIndexed.recount {sys : System} {counted : Int → Prop}
    (h : SystemIndexed cfg sc sys) (hjob : sys.job = none) :
    SystemIndexed cfg { sc with counted := counted } sys := by
  obtain ⟨store, job⟩ := sys
  obtain rfl : job = none := hjob
  exact h

theorem Young.of_append {starts : List Nat} {oldest n : Nat} {c : Int}
    (h : Young (starts ++ [n]) oldest c) : Young starts oldest c ∨ (n : Int) ≤ c := by
  obtain ⟨m, s, hle, hs, hc⟩ := h
  rw [List.getElem?_append] at hs
  split at hs
  · exact Or.inl ⟨m, s, hle, hs, hc⟩
  · obtain rfl := List.mem_singleton.mp (List.mem_of_getElem? hs)
    exact Or.inr hc

theorem datedStep_run {e : Event} (he : ∀ jobid, e ≠ .delete jobid) :
    datedStep order cfg a e = (step cfg a.sys e >>= fun sys =>
      .ok { a with sys := sys, starts := nextStarts a.starts a.sys sys }) := by
  rw [datedStep, archiveStep_run he]
  cases step cfg a.sys e with
  | error e => rfl
  | ok sys => rfl

/-- A step of a backup keeps the invariant of a dated archive. -/
theorem DatedInv.backup (hset : cfg.Settled) (hcfg : ExactIndex cfg) (h : DatedInv cfg a)
    {e : Event} (he : ∀ jobid, e ≠ .delete jobid) (hok : BackupEvent cfg (a.coverage cfg) a.sys e)
    (hsampled : cfg.locality = .logical → ∀ marks, e = .filter marks →
      ∀ job ∈ a.sys.job, SampledOrSpared cfg (a.coverage cfg) job) :
    Ensures (AllowedAbort cfg) (DatedInv cfg) (datedStep order cfg a e) := by
  rw [datedStep_run he]
  apply (step_covered hset (fun _ => hcfg) h.covered rfl hok hsampled).and_eq.bind
  rintro sys ⟨⟨⟨hsys, hindexed, hmarks, hnonneg⟩, hgrows⟩, hnext⟩
  have hlength := h.starts_length
  have hheads : cfg.locality = .logical → sys.HeadsYoung cfg a.starts a.oldest := fun hloc =>
    step_headsYoung hset hcfg hloc h.covered.sys (h.heads hloc) hlength hok hnext
  rcases hgrows.backups with hsame | ⟨hjob, job, -, hbackups⟩
  · have hstarts : nextStarts a.starts a.sys sys = a.starts := if_pos (congrArg List.length hsame)
    rw [hstarts]
    exact ⟨⟨hsys, hindexed, hmarks, hnonneg⟩, by rw [hsame, hlength], hheads⟩
  · have hgrown : sys.store.backups.length = a.sys.store.backups.length + 1 := by
      rw [hbackups, List.length_append, List.length_singleton]
    have hstarts : nextStarts a.starts a.sys sys =
        a.starts ++ [sys.store.pool.containerCount] := if_neg (by omega)
    rw [hstarts]
    refine ⟨⟨hsys.recount hjob fun c hcounted => ?_, hindexed.recount hjob, hmarks, hnonneg⟩, ?_,
      fun hloc => ?_⟩
    · by_cases hloc : cfg.locality = .logical
      · exact (hcounted hloc).of_append.imp_left fun hyoung _ => hyoung
      · exact Or.inl fun hlog => absurd hlog hloc
    · show (a.starts ++ _).length = _
      rw [List.length_append, List.length_singleton, hlength, hgrown]
    · obtain ⟨store, job⟩ := sys
      obtain rfl : job = none := hjob
      apply (hheads hloc).append
      intro c fp hstored
      obtain ⟨b, hb, -⟩ := stored_none hstored
      exact (hsys.1.pool_wf.lt_count c b hb).2

end Dated

end Destor
