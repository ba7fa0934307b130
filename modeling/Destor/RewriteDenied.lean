/- digest: No copy in the index buffer is stored after its fingerprint was rewritten, as long as the
   queued ids only grow. -/

import Destor.RewriteMemory

set_option autoImplicit false
set_option relaxedAutoImplicit false

namespace Destor

open Library.Outcome Library.RelatedLists Library.Transition

section Queues

variable {cfg : Config} {buffer buffer' : IndexBuffer} {q : Option (List Int)}
  {copies chunks : List Chunk} {fp : Fingerprint} {c m : Chunk}

/-- Queues grow at their end: the head of a queue stays. -/
def IndexBuffer.Extends (buffer buffer' : IndexBuffer) : Prop :=
  ∀ fp id ids, buffer.bufferedFingerprints.lookup fp = some (id :: ids) →
    ∃ ids', buffer'.bufferedFingerprints.lookup fp = some (id :: ids')

theorem IndexBuffer.Extends.refl (buffer : IndexBuffer) : buffer.Extends buffer :=
  fun _ _ ids h => ⟨ids, h⟩

theorem IndexBuffer.Extends.trans {buffer'' : IndexBuffer} (h : buffer.Extends buffer')
    (h' : buffer'.Extends buffer'') : buffer.Extends buffer'' := by
  intro fp id ids hq
  obtain ⟨ids', hq'⟩ := h fp id ids hq
  exact h' fp id ids' hq'

theorem IndexBuffer.Extends.head (h : buffer.Extends buffer')
    (hne : buffer.head fp ≠ temporaryId) : buffer'.head fp = buffer.head fp := by
  unfold IndexBuffer.head at *
  cases hq : buffer.bufferedFingerprints.lookup fp with
  | none => simp [hq] at hne
  | some ids =>
      cases ids with
      | nil => simp [hq] at hne
      | cons id ids =>
          obtain ⟨ids', hq'⟩ := h fp id ids hq
          rw [hq']
          rfl

theorem extends_pushIndexElem (buffer : IndexBuffer) (fp : Fingerprint) (id : Int) :
    buffer.Extends (pushIndexElem buffer fp id) := by
  intro fp' id' ids hq
  rw [lookup_pushIndexElem]
  by_cases heq : fp' = fp
  · subst heq
    exact ⟨ids ++ [id], by rw [if_pos rfl, hq]; rfl⟩
  · exact ⟨ids, by rw [if_neg heq, hq]⟩

theorem lookupChunk_extends (cfg : Config) (ask : Bool) (source : IndexSource)
    (storage : Option Container) (st : IndexState) (c : Chunk) :
    Ensures (fun _ => True) (fun r => st.buffer.Extends r.1.buffer)
      (lookupChunk cfg ask source storage st c) := by
  unfold lookupChunk
  split
  · apply (ensures_true _).bind
    rintro ⟨cache, c₁⟩ -
    have hpush : ∀ r : LruCache CacheUnit × Chunk,
        st.buffer.Extends (pushIndexElem st.buffer r.2.fp r.2.id) :=
      fun r => extends_pushIndexElem st.buffer r.2.fp r.2.id
    simp only
    split
    · exact (ensures_true _).bind fun r _ => hpush r
    · exact hpush (cache, c₁)
  · exact .refl _

theorem lookupChunks_extends (cfg : Config) (ask : Bool) (source : IndexSource)
    (storage : Option Container) (st : IndexState) (chunks : List Chunk) :
    Ensures (fun _ => True) (fun r => st.buffer.Extends r.1.buffer)
      (traverseE (lookupChunk cfg ask source storage) st chunks) := by
  refine traverseE_ensures (fun _ => True)
    (fun _ (st' : IndexState) _ => st.buffer.Extends st'.buffer) ?_ (IndexBuffer.Extends.refl _)
  intro _ st' c _ hext
  exact (lookupChunk_extends cfg ask source storage st' c).imp fun _ h => hext.trans h

/-- A lookup leaves the heads of the queues alone. -/
theorem indexLookup_extends (cfg : Config) (source : IndexSource) (storage : Option Container)
    (st : IndexState) (s : Segment) :
    Ensures (fun _ => True) (fun r => st.buffer.Extends r.1.buffer)
      (indexLookup cfg source storage st s) := by
  unfold indexLookup
  split
  · refine (ensures_true _).bind fun _ _ => (ensures_true _).bind fun cache _ => ?_
    exact lookupChunks_extends cfg _ source storage { st with cache := cache } s.chunks
  · exact lookupChunks_extends cfg true source storage st s.chunks

/-- What `index_check_buffer` does to a normal chunk: a chunk that asks for an id or for a rewrite
takes a newer id from its queue, and if it had one before, the rewrite is denied. -/
inductive CheckOutcome (buffer : IndexBuffer) (m c : Chunk) : Prop
  | taken (hlt : m.id < buffer.head m.fp) (hid : c.id = buffer.head m.fp)
      (hflag : c.flag = { m.flag with
        rewriteDenied := m.flag.rewriteDenied || m.id != temporaryId })
  | asking (hle : buffer.head m.fp ≤ m.id) (heq : c = m)
  | plain (hmarks : m.flag.sparse = false ∧ m.flag.outOfOrder = false)
      (hid : m.flag.duplicate = true → m.id ≠ temporaryId) (heq : c = m)

theorem checkBufferChunk_cases (hnormal : m.isNormal = true)
    (h : checkBufferChunk buffer m = .ok c) : CheckOutcome buffer m c := by
  unfold checkBufferChunk at h
  split at h
  · split at h
    · cases h
    · rename_i bq hbq
      have hhead : buffer.head m.fp = bq.headD temporaryId := by
        unfold IndexBuffer.head
        rw [hbq, Option.getD_some]
      simp only at h
      split at h
      · rename_i hlt
        cases h
        exact .taken (hhead ▸ hlt) hhead.symm rfl
      · rename_i hlt
        cases h
        exact .asking (hhead ▸ not_lt.mp hlt) rfl
  · rename_i hcond
    cases h
    simp only [hnormal, Bool.true_and, Bool.or_eq_true, Bool.and_eq_true, beq_iff_eq, not_or,
      Bool.not_eq_true, not_and] at hcond
    exact .plain ⟨hcond.2, hcond.1.2⟩ hcond.1.1 rfl

/-- The drained queue offers the id of the last copy that left. -/
theorem head_drain (hlast : copies.getLast? = some c) (hlt : copies.length < (q.getD []).length) :
    ((drain q copies).getD []).headD temporaryId = c.id := by
  have hne : copies ≠ [] := by
    rintro rfl
    cases hlast
  obtain ⟨c', hc', hdrain⟩ := drain_eq hne (Nat.le_of_lt hlt)
  obtain rfl : c' = c := Option.some.inj (hc'.symm.trans hlast)
  obtain ⟨n, hn⟩ : ∃ n, (q.getD []).length - copies.length = n + 1 :=
    ⟨(q.getD []).length - copies.length - 1, by omega⟩
  rw [hdrain, if_neg (by omega), hn]
  rfl

end Queues

section Checked

variable {cfg : Config} {sc : Scope} {store store' : Store} {job job' : Job} {s : Segment}
  {later : List Segment} {buffer : IndexBuffer} {chunks marked stored : List Chunk}
  {marks : Nat → Bool × Bool} {fp : Fingerprint} {c m : Chunk}

/-- Marking a chunk leaves its id, and whether it is a duplicate. -/
structure Chunk.MarkedAs (c m : Chunk) : Prop extends c.SamePayload m where
  id_eq : m.id = c.id
  duplicate_eq : m.flag.duplicate = c.flag.duplicate

theorem applyMarks_marked (cfg : Config) (marks : Nat → Bool × Bool) (chunks : List Chunk) :
    List.Forall₂ Chunk.MarkedAs chunks (applyMarks cfg marks chunks) := by
  unfold applyMarks
  induction chunks generalizing marks with
  | nil => exact .nil
  | cons c chunks ih =>
      rw [List.mapIdx_cons]
      refine .cons ?_ (ih fun i => marks (i + 1))
      split
      · exact ⟨⟨rfl, rfl, rfl, rfl, rfl⟩, rfl, rfl⟩
      · exact ⟨.refl c, rfl, rfl⟩

theorem checkBufferChunk_payload (h : checkBufferChunk buffer m = .ok c) : m.SamePayload c := by
  unfold checkBufferChunk at h
  split at h
  · split at h
    · cases h
    · simp only at h
      split at h <;> cases h <;> exact ⟨rfl, rfl, rfl, rfl, rfl⟩
  · cases h
    exact .refl _

theorem indexCheckBuffer_forall₂ (h : indexCheckBuffer buffer marked = .ok chunks) :
    List.Forall₂ (fun m c => checkBufferChunk buffer m = .ok c) marked chunks := by
  unfold indexCheckBuffer at h
  induction marked generalizing chunks with
  | nil =>
      cases h
      exact .nil
  | cons m marked ih =>
      rw [List.mapM_cons] at h
      obtain ⟨c, hc, h⟩ := bind_ok_iff.mp h
      obtain ⟨rest, hrest, h⟩ := bind_ok_iff.mp h
      cases h
      exact .cons hc (ih hrest)

/-- Where a copy is older than the head of its queue, all copies are duplicates, and the head names a
container that has them. -/
theorem PendingState.older {sound : Int → Prop} {absent : Prop} {copies : List Chunk}
    (h : PendingState sound absent (buffer.bufferedFingerprints.lookup fp) copies)
    (hc : c ∈ copies) (hlt : c.id < buffer.head fp) :
    (∀ c ∈ copies, c.flag.duplicate = true) ∧ sound (buffer.head fp) := by
  unfold IndexBuffer.head at *
  generalize buffer.bufferedFingerprints.lookup fp = q at h hlt ⊢
  cases h with
  | empty => cases hc
  | fresh bq c₀ rest hbq hdup hid hcopies habsent =>
      have htemporary : c.id = temporaryId := by
        rcases List.mem_cons.mp hc with rfl | hc
        · exact hid
        · exact (hcopies c hc).2
      rw [hbq, htemporary, Option.getD_some, List.replicate_succ] at hlt
      exact absurd hlt (lt_irrefl _)
  | known bq _ hne hlen hbq hcopies =>
      obtain ⟨id, ids, rfl⟩ := List.exists_cons_of_ne_nil hne
      exact ⟨fun c' hc' => (hcopies c' hc').1, hbq id List.mem_cons_self⟩

/-- The copies of rewritten fingerprints rely on a newer id at the head of their queue. -/
def Reliant (buffer : IndexBuffer) (s : Segment) (rewritten : List Fingerprint) : Prop :=
  ∀ fp ∈ rewritten, ∀ c ∈ copiesOf fp s.chunks, c.id < buffer.head fp

/-- `index_check_buffer` refuses every copy of a rewritten fingerprint. -/
theorem Reliant.refused (hjob : JobInv cfg sc store job) (hinflight : job.inflight = s :: later)
    {recent : List Fingerprint} (h : Reliant job.index.buffer s recent)
    {behind : List (Segment × List Fingerprint)}
    (hremember : Remembers job.index.buffer recent (applyMarks cfg marks s.chunks) behind)
    (hcheck : indexCheckBuffer job.index.buffer (applyMarks cfg marks s.chunks) = .ok chunks) :
    ∀ c ∈ chunks, c.isNormal = true → c.fp ∈ recent → c.Refused := by
  intro c hc hnormal hrecent
  obtain ⟨m, hm, hmc⟩ := mem_forall₂_right (indexCheckBuffer_forall₂ hcheck) hc
  obtain ⟨o, ho, hom⟩ := mem_forall₂_right (applyMarks_marked cfg marks s.chunks) hm
  have hpayload := checkBufferChunk_payload hmc
  have hmnormal : m.isNormal = true := hpayload.normal_eq.symm.trans hnormal
  have hmfp : c.fp = m.fp := hpayload.fp_eq
  have hcopy : o ∈ copiesOf m.fp s.chunks :=
    mem_copiesOf.mpr ⟨ho, hom.normal_eq.symm.trans hmnormal, hom.fp_eq.symm⟩
  have hlt : o.id < job.index.buffer.head m.fp := h m.fp (hmfp ▸ hrecent) o hcopy
  have hmem := List.mem_append_left (pendingCopies m.fp later) hcopy
  have hdup : m.flag.duplicate = true := hom.duplicate_eq.trans
    (((hjob.pending hinflight m.fp).older hmem hlt).1 o hmem)
  rw [← hom.id_eq] at hlt
  cases checkBufferChunk_cases hmnormal hmc with
  | taken _ hid hflag =>
      refine ⟨by rw [hflag]; exact hdup, ?_⟩
      by_cases htemporary : m.id = temporaryId
      · rw [hflag]
        exact Or.inr (hremember.known m hm hmnormal htemporary (hmfp ▸ hrecent))
      · rw [hflag]
        exact Or.inl (by simp [htemporary])
  | asking hle heq => exact absurd hlt (not_lt.mpr hle)
  | plain hmarks hid heq => exact heq ▸ ⟨hdup, Or.inr hmarks⟩

/-- What the filter thread did, in its parts. -/
theorem filterSegment_parts (h : filterSegment cfg store job marks = .ok (store', job'))
    (hstores : job.stores cfg store marks = .ok stored) (hinflight : job.inflight = s :: later) :
    ∃ chunks st done,
      indexCheckBuffer job.index.buffer (applyMarks cfg marks s.chunks) = .ok chunks ∧
      traverseE (filterWatched cfg) (job.filterState store, []) chunks =
        .ok ((st, stored), done) ∧
      indexUpdateBuffer job.index.buffer done = .ok job'.index.buffer ∧
      job'.inflight = later := by
  unfold filterSegment at h
  unfold Job.stores at hstores
  rw [hinflight] at h hstores
  obtain ⟨chunks, hcheck, h⟩ := bind_ok_iff.mp h
  obtain ⟨chunks', hcheck', hstores⟩ := bind_ok_iff.mp hstores
  rw [hcheck] at hcheck'
  cases hcheck'
  obtain ⟨⟨⟨st, stored'⟩, done⟩, hwatched, hstores⟩ := bind_ok_iff.mp hstores
  cases hstores
  obtain ⟨⟨st', done'⟩, hloop, h⟩ := bind_ok_iff.mp h
  have heq := filterWatched_eq cfg (job.filterState store) [] chunks
  rw [hwatched, hloop] at heq
  cases heq
  obtain ⟨buffer, hbuffer, h⟩ := bind_ok_iff.mp h
  obtain ⟨⟨sid, bv, fileMeta⟩, -, h⟩ := bind_ok_iff.mp h
  obtain ⟨kv, -, h⟩ := bind_ok_iff.mp h
  cases h
  exact ⟨chunks, st, done, hcheck, hwatched, hbuffer, rfl⟩

/-- A copy at each stage of the filter thread: in the segment, marked by the rewriting phase, checked
against the index buffer, and behind the loop. -/
structure Stages (buffer : IndexBuffer) (o m c d : Chunk) : Prop where
  marked : o.MarkedAs m
  checked : checkBufferChunk buffer m = .ok c
  done : c.SameContent d

theorem exists_stages {segment marked done : List Chunk} {fp : Fingerprint} {d : Chunk}
    (hmarked : List.Forall₂ Chunk.MarkedAs segment marked)
    (hcheck : indexCheckBuffer buffer marked = .ok chunks) (hcontents : SameContents chunks done)
    (hd : (copiesOf fp done).getLast? = some d) :
    ∃ o m c, (copiesOf fp segment).getLast? = some o ∧ (copiesOf fp marked).getLast? = some m ∧
      (copiesOf fp chunks).getLast? = some c ∧ Stages buffer o m c d := by
  obtain ⟨c, hc, hcd⟩ := getLast?_forall₂
    (forall₂_copiesOf (fun _ _ h => h.toSamePayload) hcontents fp) hd
  obtain ⟨m, hm, hmc⟩ := getLast?_forall₂
    (forall₂_copiesOf (fun _ _ h => checkBufferChunk_payload h) (indexCheckBuffer_forall₂ hcheck)
      fp) hc
  obtain ⟨o, ho, hom⟩ := getLast?_forall₂
    (forall₂_copiesOf (fun _ _ h => h.toSamePayload) hmarked fp) hm
  exact ⟨o, m, c, ho, hm, hc, hom, hmc, hcd⟩

/-- As many copies of a fingerprint leave the filter thread as the segment has. -/
theorem length_copiesOf_stages {segment marked done : List Chunk}
    (hmarked : List.Forall₂ Chunk.MarkedAs segment marked)
    (hcheck : indexCheckBuffer buffer marked = .ok chunks) (hcontents : SameContents chunks done)
    (fp : Fingerprint) : (copiesOf fp done).length = (copiesOf fp segment).length := by
  have h₁ := (forall₂_copiesOf (fun _ _ h => h.toSamePayload) hmarked fp).length_eq
  have h₂ := (forall₂_copiesOf (fun _ _ h => checkBufferChunk_payload h)
    (indexCheckBuffer_forall₂ hcheck) fp).length_eq
  have h₃ := (forall₂_copiesOf (fun _ _ h => h.toSamePayload) hcontents fp).length_eq
  omega

/-- Only a fingerprint with a copy in the segment is rewritten. -/
theorem copiesOf_ne_nil_of_rewritten {recent : List Fingerprint} {versions : List BackupVersion}
    {st₀ st : FilterState} {done : List Chunk} {fp : Fingerprint}
    (hinv : FilterInv cfg sc versions st₀ chunks done st)
    (hpass : PassInv recent st₀ chunks done stored st) (hfp : fp ∈ rewrittenOf stored) :
    copiesOf fp done ≠ [] := by
  intro hnil
  obtain ⟨id, hid⟩ := Option.isSome_iff_exists.mp ((hpass.table fp).mp hfp)
  have hlength := (forall₂_copiesOf (fun _ _ h => h.toSamePayload) hinv.contents fp).length_eq
  rw [hnil, List.length_nil, List.length_eq_zero_iff] at hlength
  exact (hinv.rewritten_sound fp id hid).2 hlength

/-- The copies behind the segment are older than the last copy of a fingerprint rewritten in it. -/
theorem lt_last_of_rewritten (hjob : JobInv cfg sc store job)
    (hinflight : job.inflight = s :: later) {recent : List Fingerprint}
    {versions : List BackupVersion} {st : FilterState} {done : List Chunk} {o c d copy : Chunk}
    (hinv : FilterInv cfg sc versions (job.filterState store) chunks done st)
    (hpass : PassInv recent (job.filterState store) chunks done stored st)
    (ho : o ∈ copiesOf c.fp s.chunks) (hd : d ∈ copiesOf c.fp done)
    (hlast : LastId (job.filterState store) st c d) (hcopy : copy ∈ pendingCopies c.fp later)
    (hnew : c.fp ∈ rewrittenOf stored) : copy.id < d.id := by
  obtain ⟨id, hid⟩ := Option.isSome_iff_exists.mp ((hpass.table c.fp).mp hnew)
  have hdid : st.recentlyRewritten.lookup c.fp = some d.id := by
    cases hlast with
    | rewritten hid' => exact hid'
    | kept hnone _ => exact absurd (hid.symm.trans hnone) (Option.some_ne_none id)
    | newest hnone _ => exact absurd (hid.symm.trans hnone) (Option.some_ne_none id)
  obtain ⟨hdmem, hdnormal, -⟩ := mem_copiesOf.mp hd
  rcases ((hjob.pending hinflight c.fp).behind (List.ne_nil_of_mem ho) copy hcopy).2 with
    htemporary | hsound
  · rw [htemporary]
    exact temporaryId_lt_of_nonneg (hinv.nonneg (hinv.done_sound d hdmem hdnormal))
  · exact hpass.newer c.fp d.id hdid copy.id hsound.2

/-- Where a fingerprint is not rewritten in the segment, the copies behind it stay older than the last
copy in it. -/
theorem lt_last_of_kept (hjob : JobInv cfg sc store job) (hinflight : job.inflight = s :: later)
    {recent : List Fingerprint} {behind : List (Segment × List Fingerprint)}
    (hremember : Remembers job.index.buffer recent (applyMarks cfg marks s.chunks) behind)
    {st : FilterState} {o m c d copy : Chunk} {s' : Segment} {rewritten : List Fingerprint}
    (ho : o ∈ copiesOf m.fp s.chunks)
    (hm : (copiesOf m.fp (applyMarks cfg marks s.chunks)).getLast? = some m)
    (hstages : Stages job.index.buffer o m c d)
    (hlast : LastId (job.filterState store) st c d)
    (hnone : st.recentlyRewritten.lookup c.fp = none) (hbehind : (s', rewritten) ∈ behind)
    (h : Reliant job.index.buffer s' rewritten) (hrewritten : m.fp ∈ rewritten)
    (hcopy : copy ∈ copiesOf m.fp s'.chunks) (hlater : copy ∈ pendingCopies m.fp later) :
    copy.id < d.id := by
  obtain ⟨hmmem, hmnormal, -⟩ := mem_copiesOf.mp (List.mem_of_getLast? hm)
  have hcfp : c.fp = m.fp := (checkBufferChunk_payload hstages.checked).fp_eq
  have hold := h m.fp hrewritten copy hcopy
  obtain ⟨hdup, hsound⟩ :=
    (hjob.pending hinflight m.fp).older (List.mem_append_right _ hlater) hold
  have hassigned := temporaryId_lt_of_nonneg (hjob.filterInv.nonneg hsound)
  cases hlast with
  | rewritten hid =>
      rw [hnone] at hid
      cases hid
  | newest _ hid => exact lt_of_lt_of_le hold (hid _ (hcfp ▸ hsound.2))
  | kept _ hid =>
      cases checkBufferChunk_cases hmnormal hstages.checked with
      | taken _ hcid _ =>
          rw [hid (hcid ▸ ne_of_gt hassigned), hcid]
          exact hold
      | asking hle heq =>
          subst heq
          rw [hid (ne_of_gt (lt_of_lt_of_le hassigned hle))]
          exact lt_of_lt_of_le hold hle
      | plain hmarks hmid heq =>
          subst heq
          have hne := hmid (hstages.marked.duplicate_eq.trans (hdup o (List.mem_append_left _ ho)))
          rw [hid hne]
          by_cases hlt : c.id < job.index.buffer.head c.fp
          · exact hremember.newest c hmmem hm hmarks hne hlt _ hbehind hrewritten copy hcopy
          · exact lt_of_lt_of_le hold (not_lt.mp hlt)

/-- The segments behind the processed one rely on the queues as before, and now also for the
fingerprints that were rewritten. -/
theorem Reliant.after (hjob : JobInv cfg sc store job) (hinflight : job.inflight = s :: later)
    {recent : List Fingerprint} {behind : List (Segment × List Fingerprint)}
    (hremember : Remembers job.index.buffer recent (applyMarks cfg marks s.chunks) behind)
    (hcheck : indexCheckBuffer job.index.buffer (applyMarks cfg marks s.chunks) = .ok chunks)
    {versions : List BackupVersion} {st : FilterState} {done : List Chunk}
    (hinv : FilterInv cfg sc versions (job.filterState store) chunks done st)
    (hpass : PassInv recent (job.filterState store) chunks done stored st)
    (hbuffer : ∀ fp, buffer.bufferedFingerprints.lookup fp =
      drain (job.index.buffer.bufferedFingerprints.lookup fp) (copiesOf fp done))
    {s' : Segment} {rewritten : List Fingerprint} (hs' : s' ∈ later)
    (hbehind : (s', rewritten) ∈ behind) (h : Reliant job.index.buffer s' rewritten) :
    Reliant buffer s' (rewritten ++ rewrittenOf stored) := by
  intro fp hfp copy hcopy
  have hmarked := applyMarks_marked cfg marks s.chunks
  have hlater : copy ∈ pendingCopies fp later := by
    obtain ⟨hmem, hnormal, heq⟩ := mem_copiesOf.mp hcopy
    exact mem_copiesOf.mpr ⟨List.mem_flatMap.mpr ⟨s', hs', hmem⟩, hnormal, heq⟩
  by_cases hnil : copiesOf fp done = []
  · -- no copy leaves
    have hold := h fp ((List.mem_append.mp hfp).resolve_right fun hnew =>
      copiesOf_ne_nil_of_rewritten hinv hpass hnew hnil) copy hcopy
    unfold IndexBuffer.head at *
    rwa [hbuffer, hnil, drain]
  · obtain ⟨d, hd⟩ : ∃ d, (copiesOf fp done).getLast? = some d :=
      ⟨_, List.getLast?_eq_some_getLast hnil⟩
    have hqueue : (copiesOf fp done).length <
        ((job.index.buffer.bufferedFingerprints.lookup fp).getD []).length := by
      rw [(hjob.pending hinflight fp).length_eq, List.length_append,
        length_copiesOf_stages hmarked hcheck hinv.contents]
      have := List.length_pos_of_mem hlater
      omega
    have hhead : buffer.head fp = d.id := by
      unfold IndexBuffer.head
      rw [hbuffer]
      exact head_drain hd hqueue
    rw [hhead]
    obtain ⟨o, m, c, ho, hm, hc, hstages⟩ := exists_stages hmarked hcheck hinv.contents hd
    have ho := List.mem_of_getLast? ho
    have hlast := hpass.last fp c d hc hd
    have hcfp : c.fp = fp := (mem_copiesOf.mp (List.mem_of_getLast? hc)).2.2
    by_cases hnew : fp ∈ rewrittenOf stored
    · -- the fingerprint was rewritten, into a container newer than those of all copies
      subst hcfp
      exact lt_last_of_rewritten hjob hinflight hinv hpass ho (List.mem_of_getLast? hd) hlast
        hlater hnew
    · have hnone : st.recentlyRewritten.lookup c.fp = none := by
        rw [← Option.not_isSome_iff_eq_none, hcfp]
        exact fun hsome => hnew ((hpass.table fp).mpr hsome)
      obtain ⟨-, -, rfl⟩ := mem_copiesOf.mp (List.mem_of_getLast? hm)
      exact lt_last_of_kept hjob hinflight hremember ho hm hstages hlast hnone hbehind h
        ((List.mem_append.mp hfp).resolve_right hnew) hcopy hlater

/-- One segment through the filter thread stores nothing that it must not store, and leaves the
segments behind it with queues to rely on. -/
theorem reliant_filter (hset : cfg.Settled) (hexact : sc.exact → ExactIndex cfg)
    (hjob : JobInv cfg sc store job) (hinflight : job.inflight = s :: later)
    {recent : List Fingerprint} {rewritten : List (List Fingerprint)}
    (hreliant : List.Forall₂ (Reliant job.index.buffer) (s :: later) (recent :: rewritten))
    (hremember : Remembers job.index.buffer recent (applyMarks cfg marks s.chunks)
      (later.zip rewritten))
    (h : filterSegment cfg store job marks = .ok (store', job'))
    (hstores : job.stores cfg store marks = .ok stored) :
    repeats recent stored = [] ∧ List.Forall₂ (Reliant job'.index.buffer) job'.inflight
      (rewritten.map (· ++ rewrittenOf stored)) := by
  obtain ⟨chunks, st, done, hcheck, hloop, hupdate, hlater⟩ :=
    filterSegment_parts h hstores hinflight
  have hs := hjob.inflight s (by rw [hinflight]; exact List.mem_cons_self)
  have hprepared : List.Forall₂ (Chunk.Prepared cfg job.index.buffer) s.chunks chunks := by
    refine (indexCheckBuffer_ensures cfg marks fun c hc hnormal hnone => ?_).of_ok hcheck
    have hnil := (List.append_eq_nil_iff.mp
      ((hjob.pending hinflight c.fp).none_iff.mp hnone)).1
    exact absurd (mem_copiesOf.mpr ⟨hc, hnormal, rfl⟩) (by rw [hnil]; exact List.not_mem_nil)
  obtain ⟨hhead, htail⟩ := List.forall₂_cons.mp hreliant
  obtain ⟨hinv, hpass⟩ := (filterWatched_ensures hset hexact hjob.filterInv rfl
    (hjob.checked hinflight hprepared) (hs.filterable hprepared)
    (hhead.refused hjob hinflight hremember hcheck)).of_ok hloop
  refine ⟨hpass.once, ?_⟩
  have hids : ∀ c ∈ done, c.isNormal = true → c.id ≠ temporaryId := fun c hc hnormal =>
    ne_temporaryId_of_nonneg (hinv.nonneg (hinv.done_sound c hc hnormal))
  have hpayload := forall₂_trans (fun _ _ _ h h' => h.trans h')
    (List.Forall₂.imp (fun _ _ hp => hp.toSamePayload) hprepared) hinv.contents.payload
  have hbuffer := (indexUpdateBuffer_ensures hids fun fp => by
    rw [(hjob.pending hinflight fp).length_eq, List.length_append,
      (forall₂_copiesOf (fun _ _ h => h) hpayload fp).length_eq]
    exact Nat.le_add_right _ _).of_ok hupdate
  rw [hlater, List.forall₂_map_right_iff, List.forall₂_iff_zip]
  refine ⟨htail.length_eq, fun {s' fps} hmem => ?_⟩
  exact Reliant.after hjob hinflight hremember hcheck hinv hpass hbuffer
    (List.of_mem_zip hmem).1 hmem (List.forall₂_zip htail hmem)

end Checked

section Deletion

variable {cfg : Config} {unit : Int → Prop} {kv : KvStore} {store store' : Store}

theorem KvShape.deleteEntries (hassigned : ∀ i, unit i → i ≠ temporaryId)
    (h : KvShape cfg unit kv) (fps : List Fingerprint) (id : Int) :
    Ensures (fun _ => True) (KvShape cfg unit) (deleteEntries cfg kv fps id) :=
  foldE_ensures (fun _ => True) (fun kv _ => KvShape cfg unit kv)
    (fun _ _ _ h => ensures_of_ok fun _ hok => h.indexDelete hassigned hok) h

theorem KvShape.deleteContainers (hassigned : ∀ i, unit i → i ≠ temporaryId)
    (h : KvShape cfg unit kv) (pool : ContainerPool) (ids : List Int) :
    Ensures (fun _ => True) (KvShape cfg unit) (deleteContainers cfg pool kv ids) :=
  foldE_ensures (fun _ => True) (fun kv _ => KvShape cfg unit kv)
    (fun _ id _ h => (ensures_true _).bind fun cm _ => h.deleteEntries hassigned cm.map.keys id) h

theorem KvShape.deleteSegments (hassigned : ∀ i, unit i → i ≠ temporaryId)
    (h : KvShape cfg unit kv) (bvNum fuel off : Nat) (rest : List ChunkPointer) :
    Ensures (fun _ => True) (KvShape cfg unit) (deleteSegments cfg bvNum fuel off rest kv) := by
  induction fuel generalizing kv off rest with
  | zero => exact h
  | succ fuel ih =>
      rw [Destor.deleteSegments]
      apply (ensures_true _).bind
      intro next _
      cases next with
      | none => exact h
      | some r => exact (h.deleteEntries hassigned r.1.kvpairs.keys r.1.id).bind fun _ h' => ih h' _ _

/-- A deletion leaves the index in shape; the containers and recipes of the model stay. -/
theorem doDelete_keeps {jobid : Nat} (h : SystemInv cfg backupScope { store := store, job := none })
    (hok : doDelete cfg store jobid = .ok store') :
    SystemInv cfg backupScope { store := store', job := none } := by
  obtain ⟨hcore, hretained⟩ := h
  have hassigned := fun i (hi : backupScope.UnitId cfg store.pool store.backups i) =>
    hi.assigned hcore.pool_wf hcore.versions_ok
  unfold doDelete at hok
  obtain ⟨⟨invalid, manifest, n⟩, -, hok⟩ := bind_ok_iff.mp hok
  obtain ⟨bv, -, hok⟩ := bind_ok_iff.mp hok
  obtain ⟨kv, hkv, hok⟩ := bind_ok_iff.mp hok
  cases hok
  have hshape : KvShape cfg (backupScope.UnitId cfg store.pool store.backups) kv := by
    unfold deleteUnits at hkv
    split at hkv
    · exact (hcore.kv_shape.deleteContainers hassigned _ _).of_ok hkv
    · exact (hcore.kv_shape.deleteSegments hassigned _ _ _ _).of_ok hkv
  exact ⟨⟨hcore.pool_wf, hcore.open_ok, hcore.open_live, hcore.next_live, hcore.open_chunks,
    hcore.versions_ok, hshape, False.elim, False.elim, False.elim⟩, hretained⟩

end Deletion

section Runs

variable {cfg : Config} {store store' : Store} {job job' : Job} {w w' : Watched}

def System.buffer (sys : System) : IndexBuffer :=
  match sys.job with
  | some job => job.index.buffer
  | none => initIndexBuffer

/-- What holds of the watched system between two events. -/
structure MemoryInv (cfg : Config) (w : Watched) : Prop where
  sys : SystemInv cfg backupScope w.sys
  reliant : List.Forall₂ (Reliant w.sys.buffer) w.sys.inflight w.rewritten
  once : w.repeated = []

theorem memoryInv_init (cfg : Config) : MemoryInv cfg initWatched :=
  ⟨systemInv_init rfl fun _ _ => trivial, .nil, rfl⟩

/-- A lookup appends at most a segment for which nothing was rewritten yet. -/
theorem reliant_lookup {waitThreshold : Int} {rewritten : List (List Fingerprint)}
    (hjob : JobInv cfg backupScope store job)
    (hreliant : List.Forall₂ (Reliant job.index.buffer) job.inflight rewritten)
    (h : lookupSegment cfg store job waitThreshold = .ok job') :
    List.Forall₂ (Reliant job'.index.buffer) job'.inflight
      (rewritten ++ List.replicate (job'.inflight.length - rewritten.length) []) := by
  have hlength := hreliant.length_eq
  have hnew : ∀ s : Segment, Reliant job'.index.buffer s [] := by
    intro s fp hfp
    cases hfp
  unfold lookupSegment at h
  split at h
  · cases h
    simpa [hlength] using hreliant
  · rename_i s todo htodo
    split at h
    · cases h
      simp only [List.length_append, List.length_singleton, hlength, Nat.add_sub_cancel_left,
        List.replicate_one]
      exact List.rel_append hreliant (.cons (hnew s) .nil)
    · split at h
      · cases h
        simpa [hlength] using hreliant
      · obtain ⟨⟨index, chunks⟩, hlookup, h⟩ := bind_ok_iff.mp h
        cases h
        have hext := (indexLookup_extends cfg (job.source store) job.storage.containerBuffer
          job.index s).of_ok hlookup
        simp only at hext hnew
        simp only [List.length_append, List.length_singleton, hlength, Nat.add_sub_cancel_left,
          List.replicate_one]
        refine List.rel_append ?_ (.cons (hnew _) .nil)
        rw [List.forall₂_iff_zip]
        refine ⟨hlength, fun {s' fps} hmem fp hfp c hc => ?_⟩
        have hold := List.forall₂_zip hreliant hmem fp hfp c hc
        have hpending : c ∈ pendingCopies fp job.inflight := by
          obtain ⟨hc, hnormal, heq⟩ := mem_copiesOf.mp hc
          exact mem_copiesOf.mpr
            ⟨List.mem_flatMap.mpr ⟨s', (List.of_mem_zip hmem).1, hc⟩, hnormal, heq⟩
        have hstate : PendingState _ _ (job.index.buffer.bufferedFingerprints.lookup fp)
          (pendingCopies fp job.inflight) := hjob.buffer fp
        have hsound := (hstate.older hpending hold).2
        rwa [hext.head (ne_temporaryId_of_nonneg (hjob.filterInv.nonneg hsound))]

/-- Nothing in flight changes. -/
theorem MemoryInv.still (h : MemoryInv cfg w) {sys : System} (hsys : SystemInv cfg backupScope sys)
    (hinflight : sys.inflight = w.sys.inflight) (hbuffer : sys.inflight = [] ∨ sys = w.sys) :
    MemoryInv cfg { w with
      sys := sys
      rewritten := w.rewritten ++ List.replicate (sys.inflight.length - w.rewritten.length) [] } := by
  have hlength := h.reliant.length_eq
  refine ⟨hsys, ?_, h.once⟩
  have hzero : sys.inflight.length - w.rewritten.length = 0 := by
    rw [hinflight, hlength, Nat.sub_self]
  simp only [hzero, List.replicate_zero, List.append_nil]
  rcases hbuffer with hnil | rfl
  · have hreliant := h.reliant
    rw [← hinflight, hnil, List.forall₂_nil_left_iff] at hreliant
    rw [hnil, hreliant]
    exact .nil
  · exact h.reliant

theorem systemInv_step (hset : cfg.Settled) (h : SystemInv cfg backupScope w.sys) {e : Event}
    (hok : w.Admits cfg e) {sys : System} (hsys : step cfg w.sys e = .ok sys) :
    SystemInv cfg backupScope sys := by
  obtain ⟨⟨store, job⟩, rewritten, repeated⟩ := w
  have hbackup : BackupEvent cfg backupScope { store := store, job := job } e →
      SystemInv cfg backupScope sys := fun hevent =>
    ((step_ensures hset False.elim h hevent).of_ok hsys).1
  cases e with
  | delete jobid =>
      cases job with
      | none =>
          obtain ⟨store', hdelete, hsys⟩ := bind_ok_iff.mp hsys
          cases hsys
          exact doDelete_keeps h hdelete
      | some job =>
          cases hsys
          exact h
  | start files => cases job <;> exact hbackup hok
  | lookup limit | filter marks | finish => exact hbackup trivial

theorem memoryInv_step (hset : cfg.Settled) (h : MemoryInv cfg w) {e : Event}
    (hok : w.Admits cfg e) (hstep : w.step cfg e = .ok w') : MemoryInv cfg w' := by
  unfold Watched.step at hstep
  obtain ⟨sys, hsys, hstep⟩ := bind_ok_iff.mp hstep
  have hinv := systemInv_step hset h.sys hok hsys
  obtain ⟨⟨store, job⟩, rewritten, repeated⟩ := w
  cases job with
  | none =>
      have hidle : sys.inflight = [] := by
        cases e with
        | start files =>
            obtain ⟨segments, -, rfl⟩ := step_start hsys
            rfl
        | delete jobid =>
            obtain ⟨store', -, hsys⟩ := bind_ok_iff.mp hsys
            cases hsys
            rfl
        | lookup limit | filter marks | finish =>
            cases hsys
            rfl
      have hstill := h.still hinv hidle (Or.inl hidle)
      cases e <;> (cases hstep; exact hstill)
  | some job =>
      have hjob : JobInv cfg backupScope store job := h.sys
      have hreliant : List.Forall₂ (Reliant job.index.buffer) job.inflight rewritten := h.reliant
      cases e with
      | start files => exact absurd hok.1 (Option.some_ne_none job)
      | delete jobid =>
          cases hsys
          cases hstep
          exact h.still hinv rfl (Or.inr rfl)
      | lookup limit =>
          obtain ⟨job', hlookup, hsys⟩ := bind_ok_iff.mp hsys
          cases hsys
          cases hstep
          exact ⟨hinv, reliant_lookup hjob hreliant hlookup, h.once⟩
      | finish =>
          cases hstep
          simp only [step] at hsys
          split at hsys
          · rename_i hempty
            obtain ⟨store', -, hsys⟩ := bind_ok_iff.mp hsys
            cases hsys
            exact h.still hinv hempty.2.symm (Or.inl rfl)
          · cases hsys
            exact h.still hinv rfl (Or.inr rfl)
      | filter marks =>
          obtain ⟨⟨store', job'⟩, hfilter, hsys⟩ := bind_ok_iff.mp hsys
          cases hsys
          obtain ⟨stored, hstores, hstep⟩ := bind_ok_iff.mp hstep
          cases hstep
          cases hinflight : job.inflight with
          | nil =>
              rw [hinflight, List.forall₂_nil_left_iff] at hreliant
              subst hreliant
              simp only [filterSegment, hinflight] at hfilter
              simp only [Job.stores, hinflight] at hstores
              cases hfilter
              cases hstores
              refine ⟨hinv, ?_, by simpa [repeats] using h.once⟩
              simp only [System.inflight, hinflight]
              exact .nil
          | cons s later =>
              rw [hinflight] at hreliant
              obtain ⟨recent, rest, hhead, htail, rfl⟩ := List.forall₂_cons_left_iff.mp hreliant
              have hremember : Remembers job.index.buffer recent (applyMarks cfg marks s.chunks)
                  (later.zip rest) := by
                simpa only [Watched.Admits, hinflight, List.headD_cons, List.tail_cons] using hok
              obtain ⟨honce, hafter⟩ := reliant_filter hset False.elim hjob hinflight
                (.cons hhead htail) hremember hfilter hstores
              refine ⟨hinv, hafter, ?_⟩
              have hold : repeated = [] := h.once
              simp only [List.headD_cons, honce, hold, List.append_nil]

/-- Whenever the filter thread can process a segment, what it stores is known. -/
theorem Job.stores_ok {marks : Nat → Bool × Bool} {r : Store × Job}
    (h : filterSegment cfg store job marks = .ok r) :
    ∃ stored, job.stores cfg store marks = .ok stored := by
  unfold Job.stores
  unfold filterSegment at h
  cases hinflight : job.inflight with
  | nil => exact ⟨[], rfl⟩
  | cons s later =>
      rw [hinflight] at h
      obtain ⟨chunks, hcheck, h⟩ := bind_ok_iff.mp h
      obtain ⟨r, hloop, -⟩ := bind_ok_iff.mp h
      rw [← filterWatched_eq cfg _ []] at hloop
      cases hwatched : traverseE (filterWatched cfg) (job.filterState store, []) chunks with
      | error a =>
          rw [hwatched] at hloop
          cases hloop
      | ok r' => exact ⟨r'.1.2, bind_ok_iff.mpr ⟨chunks, hcheck, bind_ok_iff.mpr ⟨r', hwatched, rfl⟩⟩⟩

theorem Watched.follows {e : Event} {sys : System} (hsys : Destor.step cfg w.sys e = .ok sys) :
    ∃ w', w.step cfg e = .ok w' ∧ w'.sys = sys := by
  unfold Watched.step
  rw [hsys]
  obtain ⟨⟨store, job⟩, rewritten, repeated⟩ := w
  cases e with
  | filter marks =>
      cases job with
      | none => exact ⟨_, rfl, rfl⟩
      | some job =>
          obtain ⟨r, hfilter, -⟩ := bind_ok_iff.mp hsys
          obtain ⟨stored, hstores⟩ := Job.stores_ok hfilter
          simp only [hstores]
          exact ⟨_, rfl, rfl⟩
  | start files | lookup limit | finish | delete jobid => exact ⟨_, rfl, rfl⟩

end Runs

section Claim

def cappingConfig : Config :=
  { smallConfig .nearExact .physical with rewriteAlgorithm := .capping }

theorem cappingConfig_accepted : cappingConfig.Accepted :=
  (Config.accepted_iff _).mpr ⟨Nat.succ_pos _, le_rfl, fun _ => rfl, fun _ => rfl,
    fun _ _ => ⟨rfl, rfl⟩⟩

/-- A file whose chunks fill a container each. -/
def wideFile (bytes : List UInt8) : InputFile :=
  { name := [], chunks := bytes.map fun b => { fp := .fill b, size := 4000000, data := [] } }

/-- A backup all of whose segments are looked up before the first one is filtered; `marks` says
which of them are out of order. -/
def aheadEvents (bytes : List UInt8) (marks : List Bool) : List Event :=
  .start [wideFile bytes] :: marks.map (fun _ => .lookup 9) ++
    marks.map (fun out => .filter fun _ => (false, out)) ++ [.finish]

def Watched.admits (cfg : Config) (w : Watched) (e : Event) : Bool :=
  match e, w.sys.job with
  | .delete _, _ => true
  | .filter marks, some job =>
      match job.inflight with
      | [] => true
      | s :: later => decide (Remembers job.index.buffer (w.rewritten.headD [])
          (applyMarks cfg marks s.chunks) (later.zip w.rewritten.tail))
  | e, _ => admitsBackup cfg w.sys e

theorem Watched.admits_of {cfg : Config} {w : Watched} {e : Event}
    (h : w.admits cfg e = true) : w.Admits cfg e := by
  obtain ⟨⟨store, job⟩, rewritten, repeated⟩ := w
  cases e with
  | delete jobid => trivial
  | start files =>
      have hadmits : admitsBackup cfg { store := store, job := job } (.start files) = true := by
        cases job <;> exact h
      have hevent := backupEvent_of_admits hadmits
      cases job <;> exact hevent
  | lookup limit | finish => trivial
  | filter marks =>
      cases job with
      | none => trivial
      | some job =>
          simp only [Watched.admits, Watched.Admits] at h ⊢
          split
          · trivial
          · rename_i hinflight
            rw [hinflight] at h
            exact of_decide_eq_true h

/-- Backup of a chunk, then of three copies of it, all of them marked, around another chunk. -/
private def deniedEvents : List Event :=
  aheadEvents [1] [false, false] ++ aheadEvents [1, 1, 2, 1] [true, true, false, true, false]

private def deniedRun : Option Watched :=
  exec (Watched.step cappingConfig) (Watched.admits cappingConfig) initWatched deniedEvents

private theorem deniedRun_isSome : deniedRun.isSome = true := by decide +kernel

/-- No repeated rewriting: in every run of backups and deletions, whatever the interleaving of the
threads and the marks, in which each processed segment leaves the index buffer with its memory, no
copy is stored again that was looked up before a copy of it was rewritten. -/
theorem rewritten_once {cfg : Config} (hcfg : cfg.Accepted) {events : List Event} {w : Watched}
    (hrun : Run (Watched.step cfg) (Watched.Admits cfg) initWatched events w) :
    w.repeated = [] ∧ ∀ e sys, step cfg w.sys e = .ok sys →
      ∃ w', w.step cfg e = .ok w' ∧ w'.sys = sys := by
  have hset := (Config.accepted_iff cfg).mp hcfg
  have hstep : ∀ w e, MemoryInv cfg w → w.Admits cfg e →
      Ensures (fun _ => True) (MemoryInv cfg) (w.step cfg e) :=
    fun w e h hok => ensures_of_ok fun w' hw' => memoryInv_step hset h hok hw'
  have hinv := hrun.invariant (MemoryInv cfg) (memoryInv_init cfg) hstep
  exact ⟨hinv.once, fun _ _ hsys => Watched.follows hsys⟩

/-- The first copy moves to container 1, and the others follow it there. -/
theorem rewritten_once_three_copies :
    ∃ w : Watched, w.sys.store.backups.map (fun b => b.pointers.map ChunkPointer.id) =
      [[0], [1, 1, 2, 1]] ∧ w.repeated = [] := by
  have hrun : Run (Watched.step cappingConfig) (Watched.Admits cappingConfig) initWatched
      deniedEvents (deniedRun.get deniedRun_isSome) :=
    Run.of_exec (fun _ _ h => Watched.admits_of h) (Option.some_get deniedRun_isSome).symm
  exact ⟨_, by decide +kernel, (rewritten_once cappingConfig_accepted hrun).1⟩

/-- The same backup where the second copy is not marked: it puts its old id in front of the third. -/
def olderIdEvents : List Event :=
  aheadEvents [1] [false, false] ++ aheadEvents [1, 1, 2, 1] [true, false, false, true, false]

/-- Three copies of a new chunk: the second and the third wait for its id, and both are marked. -/
def waitingEvents : List Event :=
  aheadEvents [1, 2, 1, 3, 1] [false, false, true, false, true, false]

/-- In both of these runs a copy is stored once more after another copy was rewritten. -/
theorem copy_rewritten_again :
    cappingConfig.Accepted ∧ ∀ events ∈ [olderIdEvents, waitingEvents], ∃ w : Watched,
      Run (Watched.step cappingConfig)
          (fun w : Watched => BackupEvent cappingConfig backupScope w.sys) initWatched events w ∧
        w.repeated ≠ [] := by
  refine ⟨cappingConfig_accepted, fun events hevents => ?_⟩
  have hrun : (exec (Watched.step cappingConfig)
      (fun w : Watched => admitsBackup cappingConfig w.sys) initWatched events).any
        (fun w => decide (w.repeated ≠ [])) = true := by
    rcases List.mem_pair.mp hevents with rfl | rfl
    · decide +kernel
    · decide +kernel
  obtain ⟨w, hw, hrepeated⟩ := (Option.any_eq_true _ _).mp hrun
  exact ⟨w, Run.of_exec (fun _ _ => backupEvent_of_admits) hw, of_decide_eq_true hrepeated⟩

end Claim

end Destor
