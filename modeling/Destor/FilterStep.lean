/- digest: One segment through the filter phase: ids are resolved, written chunks stay sound. -/

import Destor.Library.RelatedLists
import Destor.StorageStep

set_option autoImplicit false
set_option relaxedAutoImplicit false

namespace Destor

open Library.Outcome Library.RelatedLists

section Check

variable {cfg : Config} {buffer : IndexBuffer} {c c' : Chunk} {chunks : List Chunk}

/-- A chunk of a segment between the dedup phase and the loop of the filter phase. -/
structure Chunk.Prepared (cfg : Config) (buffer : IndexBuffer) (c c' : Chunk) : Prop
    extends c.SamePayload c' where
  duplicate_eq : c'.flag.duplicate = c.flag.duplicate
  sparse_eq : cfg.rewriteEnableHar = false → c'.flag.sparse = c.flag.sparse
  outOfOrder_eq : cfg.rewriteAlgorithm = .no → c'.flag.outOfOrder = c.flag.outOfOrder
  id_cases : c.isNormal = true → c'.id = c.id ∨ ∃ bq,
    buffer.bufferedFingerprints.lookup c.fp = some bq ∧ c'.id = bq.headD temporaryId ∧
      c.id < c'.id
  id_known : c.isNormal = true → c.flag.duplicate = true → c.id = temporaryId →
    ∀ bq, buffer.bufferedFingerprints.lookup c.fp = some bq →
      temporaryId < bq.headD temporaryId → c'.id = bq.headD temporaryId

variable (cfg c) in
private theorem checkBufferChunk_marked (m : Chunk)
    (hpayload : c.SamePayload m) (hid : m.id = c.id)
    (hdup : m.flag.duplicate = c.flag.duplicate)
    (hsparse : cfg.rewriteEnableHar = false → m.flag.sparse = c.flag.sparse)
    (hout : cfg.rewriteAlgorithm = .no → m.flag.outOfOrder = c.flag.outOfOrder)
    (hfound : c.isNormal = true → buffer.bufferedFingerprints.lookup c.fp ≠ none) :
    Ensures (fun _ => False) (c.Prepared cfg buffer) (checkBufferChunk buffer m) := by
  have hnormal := hpayload.normal_eq
  unfold checkBufferChunk
  split
  · rename_i hcheck
    have hm : c.isNormal = true := by
      rw [← hnormal]
      simp only [Bool.and_eq_true] at hcheck
      exact hcheck.1
    obtain ⟨bq, hbq⟩ := Option.ne_none_iff_exists'.mp (hfound hm)
    rw [hpayload.fp_eq, hbq]
    simp only
    split
    · rename_i hlt
      rw [hid] at hlt
      exact ⟨⟨rfl, hpayload.size_eq, hpayload.data_eq, hpayload.signals_eq⟩, hdup,
        hsparse, hout, fun _ => Or.inr ⟨bq, hbq, rfl, hlt⟩, fun _ _ _ bq' hbq' _ => by
          rw [hbq] at hbq'
          cases hbq'
          rfl⟩
    · rename_i hlt
      refine ⟨hpayload, hdup, hsparse, hout, fun _ => Or.inl hid, fun _ _ hc bq' hbq' hpos => ?_⟩
      rw [hbq] at hbq'
      cases hbq'
      rw [hid, hc] at hlt
      exact absurd hpos hlt
  · rename_i hcheck
    refine ⟨hpayload, hdup, hsparse, hout, fun _ => Or.inl hid, fun hn hd hc => ?_⟩
    exact absurd (by simp [hnormal, hn, hdup, hd, hid, hc]) hcheck

variable (cfg) in
/-- `index_check_buffer` on a marked segment finds the queue of each chunk. -/
theorem indexCheckBuffer_ensures (marks : Nat → Bool × Bool)
    (hfound : ∀ c ∈ chunks, c.isNormal = true →
      buffer.bufferedFingerprints.lookup c.fp ≠ none) :
    Ensures (fun _ => False) (List.Forall₂ (Chunk.Prepared cfg buffer) chunks)
      (indexCheckBuffer buffer (applyMarks cfg marks chunks)) := by
  unfold applyMarks indexCheckBuffer
  induction chunks generalizing marks with
  | nil => exact List.Forall₂.nil
  | cons c chunks ih =>
      rw [List.mapIdx_cons, List.mapM_cons]
      refine (checkBufferChunk_marked cfg c _ ?_ ?_ ?_ ?_ ?_
        (hfound c List.mem_cons_self)).bind fun c' hc' => ?_
      · split
        · exact ⟨rfl, rfl, rfl, rfl, rfl⟩
        · exact .refl c
      · split <;> rfl
      · split <;> rfl
      · intro hhar
        split
        · simp [hhar]
        · rfl
      · intro halg
        split
        · simp [halg]
        · rfl
      · have hrest := ih (fun i => marks (i + 1)) fun c' hc' =>
          hfound c' (List.mem_cons_of_mem c hc')
        exact hrest.bind fun chunks' hchunks' => List.Forall₂.cons hc' hchunks'

/-- The copies of one fingerprint in a segment after `index_check_buffer`: either the first one
is new and the others wait for its id, or all are duplicates with known ids. -/
inductive CheckedState (sound : Int → Prop) (absent : Prop) : List Chunk → Prop
  | fresh (c : Chunk) (copies : List Chunk) (hdup : c.flag.duplicate = false)
      (hcopies : ∀ c' ∈ copies, c'.flag.duplicate = true ∧ c'.id = temporaryId)
      (habsent : absent) : CheckedState sound absent (c :: copies)
  | known (copies : List Chunk)
      (hcopies : ∀ c ∈ copies, c.flag.duplicate = true ∧ sound c.id) :
      CheckedState sound absent copies

theorem CheckedState.of_pending {sound : Int → Prop} {absent : Prop} {fp : Fingerprint}
    {copies later copies' : List Chunk} (hnonneg : ∀ id, sound id → 0 ≤ id)
    (h : PendingState sound absent (buffer.bufferedFingerprints.lookup fp) (copies ++ later))
    (hfp : ∀ c ∈ copies, c.isNormal = true ∧ c.fp = fp)
    (hprepared : List.Forall₂ (Chunk.Prepared cfg buffer) copies copies') :
    CheckedState sound absent copies' := by
  generalize hbq : buffer.bufferedFingerprints.lookup fp = q at h
  generalize hall : copies ++ later = all at h
  cases h with
  | empty =>
      obtain ⟨rfl, -⟩ := List.append_eq_nil_iff.mp hall
      cases hprepared
      exact .known [] (by simp)
  | fresh bq c₀ rest hreplicate hdup hid hcopies habsent =>
      -- the queue of a new fingerprint offers no id
      have hhead : bq.headD temporaryId = temporaryId := by
        rw [hreplicate, List.replicate_succ]
        rfl
      have hkept : ∀ c ∈ copies, ∀ c', c.Prepared cfg buffer c' → c'.id = c.id ∨
          c.id ≠ temporaryId := by
        intro c hc c' hp
        obtain ⟨hnormal, hcfp⟩ := hfp c hc
        rcases hp.id_cases hnormal with heq | ⟨bq', hbq', heq, hlt⟩
        · exact Or.inl heq
        · rw [hcfp, hbq] at hbq'
          cases hbq'
          exact Or.inr fun hc => by
            rw [heq, hhead, hc] at hlt
            exact lt_irrefl _ hlt
      cases hprepared with
      | nil => exact .known [] (by simp)
      | cons hhead' htail =>
          cases hall
          refine .fresh _ _ (hhead'.duplicate_eq.trans hdup) ?_ habsent
          intro c' hc'
          obtain ⟨c, hc, hp⟩ := mem_forall₂_right htail hc'
          obtain ⟨hcdup, hcid⟩ := hcopies c (List.mem_append_left _ hc)
          refine ⟨hp.duplicate_eq.trans hcdup, ?_⟩
          rcases hkept c (List.mem_cons_of_mem _ hc) c' hp with heq | hne
          · rw [heq, hcid]
          · exact absurd hcid hne
  | known bq _ hne hlen hsound hcopies =>
      subst hall
      obtain ⟨head, tail, rfl⟩ := List.exists_cons_of_ne_nil hne
      have hhead := hsound head List.mem_cons_self
      refine .known copies' fun c' hc' => ?_
      obtain ⟨c, hc, hp⟩ := mem_forall₂_right hprepared hc'
      obtain ⟨hnormal, hcfp⟩ := hfp c hc
      obtain ⟨hcdup, hcid⟩ := hcopies c (List.mem_append_left _ hc)
      refine ⟨hp.duplicate_eq.trans hcdup, ?_⟩
      rw [← hcfp] at hbq
      rcases hcid with hcid | hcid
      · rw [hp.id_known hnormal hcdup hcid _ hbq
          (temporaryId_lt_of_nonneg (hnonneg head hhead))]
        exact hhead
      · rcases hp.id_cases hnormal with heq | ⟨bq', hbq', heq, -⟩
        · rwa [heq]
        · rw [hbq] at hbq'
          cases hbq'
          rwa [heq]

/-- A chunk in the middle of a checked segment is the first of its kind, or its id is known, or
the first of its kind comes before it. -/
theorem CheckedState.split {sound : Int → Prop} {absent : Prop} {before after : List Chunk}
    (h : CheckedState sound absent (before ++ c :: after)) :
    (c.flag.duplicate = false ∧ before = [] ∧ absent) ∨
      (c.flag.duplicate = true ∧ (sound c.id ∨
        (c.id = temporaryId ∧ ∃ c₁ ∈ before, c₁.flag.duplicate = false))) := by
  generalize hall : before ++ c :: after = all at h
  cases h with
  | fresh c₁ copies hdup hcopies habsent =>
      cases before with
      | nil =>
          cases hall
          exact Or.inl ⟨hdup, rfl, habsent⟩
      | cons c₂ before =>
          cases hall
          obtain ⟨hcdup, hcid⟩ := hcopies c (by simp)
          exact Or.inr ⟨hcdup, Or.inr ⟨hcid, c₁, List.mem_cons_self, hdup⟩⟩
  | known _ hcopies =>
      subst hall
      obtain ⟨hcdup, hcid⟩ := hcopies c (by simp)
      exact Or.inr ⟨hcdup, Or.inl hcid⟩

/-- Relations that keep the payload pass to the copies of a fingerprint. -/
theorem forall₂_copiesOf {R : Chunk → Chunk → Prop} (hR : ∀ c c', R c c' → c.SamePayload c')
    {chunks chunks' : List Chunk} (h : List.Forall₂ R chunks chunks') (fp : Fingerprint) :
    List.Forall₂ R (copiesOf fp chunks) (copiesOf fp chunks') := by
  induction h with
  | nil => exact List.Forall₂.nil
  | @cons c c' l l' hc _ ih =>
      have hsame := hR c c' hc
      rw [copiesOf_cons, copiesOf_cons, hsame.normal_eq, hsame.fp_eq]
      split
      · exact List.Forall₂.cons hc ih
      · exact ih

end Check

section Loop

variable {cfg : Config} {sc : Coverage} {versions : List BackupVersion} {st₀ st : FilterState}
  {chunks before done : List Chunk} {c c' : Chunk}

/-- The loop of the filter phase over a segment: `before` is what it has seen of the segment,
`done` what it made of that. -/
structure FilterInv (cfg : Config) (sc : Coverage) (versions : List BackupVersion)
    (st₀ : FilterState) (before done : List Chunk) (st : FilterState) : Prop where
  core : CoreInv cfg sc st.pool st.storage versions st.kv
    fun fp => (st.recentlyUnique.lookup fp).isSome
  stored_mono : ∀ id fp, Stored st₀.pool st₀.storage.containerBuffer id fp →
    Stored st.pool st.storage.containerBuffer id fp
  pool_mono : ∀ i b, st₀.pool.containers.lookup i = some b →
    st.pool.containers.lookup i = some b
  absent : ∀ fp, copiesOf fp before = [] →
    sc.Absent st₀.pool st₀.storage.containerBuffer fp →
    sc.Absent st.pool st.storage.containerBuffer fp
  unique_sound : ∀ fp id, st.recentlyUnique.lookup fp = some id →
    sc.Sound st.pool st.storage.containerBuffer id fp ∧
      ∃ c ∈ copiesOf fp before, c.flag.duplicate = false
  rewritten_sound : ∀ fp id, st.recentlyRewritten.lookup fp = some id →
    sc.Sound st.pool st.storage.containerBuffer id fp ∧ copiesOf fp before ≠ []
  unique_complete : ∀ c ∈ before, c.isNormal = true → c.flag.duplicate = false →
    (st.recentlyUnique.lookup c.fp).isSome
  cache_assigned : ∀ i ∈ st.restoreAware.cache.elemQueue, i ≠ temporaryId
  contents : SameContents before done
  done_sound : ∀ c ∈ done, c.isNormal = true →
    sc.Sound st.pool st.storage.containerBuffer c.id c.fp
  monitored : ∀ i, i ∈ st.monitor ↔ i ∈ st₀.monitor ∨ ∃ c ∈ done, c.isNormal = true ∧ c.id = i

structure Resolved (sc : Coverage) (st : FilterState) (c c' : Chunk) : Prop
    extends c.SameContent c' where
  duplicate_eq : c'.flag.duplicate = c.flag.duplicate
  state : (c'.flag.duplicate = false ∧
      sc.Absent st.pool st.storage.containerBuffer c'.fp) ∨
    (c'.flag.duplicate = true ∧ sc.Sound st.pool st.storage.containerBuffer c'.id c'.fp)

theorem FilterInv.nonneg (h : FilterInv cfg sc versions st₀ before done st) {id : Int}
    {fp : Fingerprint} (hs : sc.Sound st.pool st.storage.containerBuffer id fp) : 0 ≤ id :=
  hs.2.nonneg h.core.pool_wf h.core.open_ok

/-- What the loop finds at a normal chunk of a checked segment. -/
theorem FilterInv.state {after : List Chunk}
    (h : FilterInv cfg sc versions st₀ before done st)
    (hchecked : CheckedState (fun id => sc.Sound st₀.pool st₀.storage.containerBuffer id c.fp)
      (sc.Absent st₀.pool st₀.storage.containerBuffer c.fp)
      (copiesOf c.fp (before ++ c :: after))) (hnormal : c.isNormal = true) :
    (c.flag.duplicate = false ∧ copiesOf c.fp before = [] ∧
        sc.Absent st.pool st.storage.containerBuffer c.fp) ∨
      (c.flag.duplicate = true ∧
        (sc.Sound st.pool st.storage.containerBuffer c.id c.fp ∨
          (c.id = temporaryId ∧ ∃ id, st.recentlyUnique.lookup c.fp = some id))) := by
  rw [copiesOf_append, copiesOf_cons, if_pos ⟨hnormal, rfl⟩] at hchecked
  rcases hchecked.split with ⟨hdup, hnil, habsent⟩ | ⟨hdup, hsound | ⟨hid, c₁, hc₁, hdup₁⟩⟩
  · exact Or.inl ⟨hdup, hnil, h.absent c.fp hnil habsent⟩
  · exact Or.inr ⟨hdup, Or.inl (hsound.mono h.stored_mono)⟩
  · obtain ⟨hmem, hnormal₁, hfp₁⟩ := mem_copiesOf.mp hc₁
    have hsome := h.unique_complete c₁ hmem hnormal₁ hdup₁
    rw [hfp₁] at hsome
    exact Or.inr ⟨hdup, Or.inr ⟨hid, Option.isSome_iff_exists.mp hsome⟩⟩

theorem markInCache_ensures (h : FilterInv cfg sc versions st₀ before done st) (c : Chunk) :
    Ensures (fun _ => False)
      (fun c' => c' = { c with flag := { c.flag with inCache := c'.flag.inCache } })
      (markInCache cfg st c) := by
  unfold markInCache
  split
  · rename_i hcontains
    rw [Bool.and_eq_true] at hcontains
    have hne := h.cache_assigned c.id (mem_of_restoreAwareContains hcontains.2)
    exact (ensures_require (Or.inl hne)).bind fun _ _ => rfl
  · exact rfl

/-- The two tables of the segment resolve the id of every duplicate. -/
theorem resolve_ensures (h : FilterInv cfg sc versions st₀ before done st)
    (hstate : (c.flag.duplicate = false ∧ copiesOf c.fp before = [] ∧
        sc.Absent st.pool st.storage.containerBuffer c.fp) ∨
      (c.flag.duplicate = true ∧
        (sc.Sound st.pool st.storage.containerBuffer c.id c.fp ∨
          (c.id = temporaryId ∧ ∃ id, st.recentlyUnique.lookup c.fp = some id)))) :
    Ensures (fun _ => False) (fun c' => Resolved sc st c (resolveRewritten st c'))
      (resolveUnique st c) := by
  have hfinal : ∀ c₁ : Chunk, c.SameContent c₁ → c₁.flag.duplicate = c.flag.duplicate →
      sc.Sound st.pool st.storage.containerBuffer c₁.id c₁.fp → c.flag.duplicate = true →
      Resolved sc st c (resolveRewritten st c₁) := by
    intro c₁ hsame hdup hsound hc
    unfold resolveRewritten
    split
    · rename_i id hid
      exact ⟨⟨⟨hsame.fp_eq, hsame.size_eq, hsame.data_eq, hsame.signals_eq⟩, hsame.marks_eq⟩,
        hdup, Or.inr ⟨hdup.trans hc, (h.rewritten_sound _ _ hid).1⟩⟩
    · exact ⟨hsame, hdup, Or.inr ⟨hdup.trans hc, hsound⟩⟩
  unfold resolveUnique
  rcases hstate with ⟨hdup, hnil, habsent⟩ | ⟨hdup, hsound | ⟨hid, id, hru⟩⟩
  · rw [if_neg (by simp [hdup]), ensures_ok]
    -- a new chunk has no rewritten copy before it
    have hnone : st.recentlyRewritten.lookup c.fp = none := by
      cases hrr : st.recentlyRewritten.lookup c.fp with
      | none => rfl
      | some id => exact absurd hnil (h.rewritten_sound _ _ hrr).2
    rw [resolveRewritten, hnone]
    exact ⟨.refl c, rfl, Or.inl ⟨hdup, habsent⟩⟩
  · have hne := ne_temporaryId_of_nonneg (h.nonneg hsound)
    rw [if_neg (by simp [hne]), ensures_ok]
    exact hfinal c (.refl c) rfl hsound hdup
  · rw [if_pos (by simp [hdup, hid]), hru, ensures_ok]
    exact hfinal { c with id := id } ⟨⟨rfl, rfl, rfl, rfl, rfl⟩, rfl, rfl⟩ rfl
      (h.unique_sound _ _ hru).1 hdup

structure Markable (cfg : Config) (c : Chunk) : Prop where
  sparse : c.flag.sparse = true → cfg.rewriteEnableHar = true
  outOfOrder : c.flag.outOfOrder = true → cfg.rewriteAlgorithm ≠ .no

theorem Markable.mustWrite (h : Markable cfg c) {enableRewrite : Bool}
    (hdup : c.flag.duplicate = true) (hwrite : mustWrite enableRewrite c = true) :
    cfg.rewriteAlgorithm ≠ .no ∨ cfg.rewriteEnableHar = true := by
  simp only [Destor.mustWrite, hdup, Bool.not_true, Bool.false_or, Bool.and_eq_true,
    Bool.or_eq_true] at hwrite
  rcases hwrite.2 with hsparse | ⟨⟨-, hout⟩, -⟩
  · exact Or.inr (h.sparse hsparse)
  · exact Or.inl (h.outOfOrder hout)

/-- A resolved chunk is stored once `storeChunk` returns, whether it was written or not. -/
theorem storeChunk_ensures (hset : cfg.Settled) (hexact : sc.exact → ExactIndex cfg)
    (hcore : CoreInv cfg sc st.pool st.storage versions st.kv
      fun fp => (st.recentlyUnique.lookup fp).isSome)
    (hres : Resolved sc st c c') (hmark : Markable cfg c') (hfits : fitsEmptyContainer c'.size)
    (hfiller : sc.exact → cfg.locality = .logical → c'.fp ≠ cfg.fillerFp) :
    Ensures (AllowedAbort cfg) (fun r => WriteResult cfg sc versions st c' r.1 r.2)
      (storeChunk cfg st c') := by
  unfold storeChunk
  split
  · rename_i hwrite
    refine writeChunk_ensures hset hexact hcore ⟨hfits, ?_, hfiller, fun hdup =>
      hmark.mustWrite hdup hwrite⟩
    rcases hres.state with hnew | ⟨hdup, -⟩
    · exact fun _ => hnew
    · rintro (hdup' | hex)
      · rw [hdup] at hdup'
        cases hdup'
      · have hcfg := hexact hex
        rcases hmark.mustWrite hdup hwrite with halg | hhar
        · exact absurd hcfg.rewrite halg
        · rw [hcfg.har] at hhar
          cases hhar
  · rename_i hwrite
    rcases hres.state with ⟨hdup, -⟩ | ⟨hdup, hsound⟩
    · exact absurd (by simp [mustWrite, hdup]) hwrite
    · exact ⟨hcore, rfl, hsound, fun _ _ h => h, fun _ _ h => Or.inl h, fun _ _ h => h,
        fun _ _ h => h, fun _ _ h => Or.inl h,
        fun _ h => h, fun h => absurd (h.symm.trans hdup) Bool.false_ne_true,
        fun _ _ h => Or.inl h, rfl, rfl, rfl⟩

/-- The loop invariant over a normal chunk, from what storing it did. -/
theorem FilterInv.extend {st' : FilterState} {c₁ : Chunk}
    (h : FilterInv cfg sc versions st₀ before done st) (hnormal : c.isNormal = true)
    (hsame : c.SameContent c₁) (hdup : c₁.flag.duplicate = c.flag.duplicate)
    (habsent : c.flag.duplicate = false → sc.Absent st.pool st.storage.containerBuffer c.fp)
    (hwrite : WriteResult cfg sc versions st c₁ st' c') :
    FilterInv cfg sc versions st₀ (before ++ [c]) (done ++ [c']) (monitorChunk st' c') := by
  obtain ⟨hmon, hra, hen⟩ := hwrite.monitors
  have hfp : c₁.fp = c.fp := hsame.fp_eq
  have hfp' : c'.fp = c.fp := by rw [hwrite.chunk_eq, hfp]
  have hnormal' : c'.isNormal = true := by
    rw [hwrite.chunk_eq]
    exact hsame.normal_eq.trans hnormal
  have hsound : sc.Sound st'.pool st'.storage.containerBuffer c'.id c.fp := hfp ▸ hwrite.sound
  have hself : c ∈ copiesOf c.fp (before ++ [c]) := mem_copiesOf.mpr ⟨by simp, hnormal, rfl⟩
  have hold : ∀ {fp d}, d ∈ copiesOf fp before → d ∈ copiesOf fp (before ++ [c]) := by
    intro fp d hd
    rw [copiesOf_append]
    exact List.mem_append_left _ hd
  refine ⟨hwrite.core, fun id fp hs => hwrite.stored_mono id fp (h.stored_mono id fp hs),
    fun i b hb => hwrite.pool_mono i b (h.pool_mono i b hb), ?_, ?_, ?_, ?_, ?_, ?_, ?_, ?_⟩
  · intro fp hnil habs
    rw [copiesOf_append, List.append_eq_nil_iff, copiesOf_cons] at hnil
    refine hwrite.absent fp ?_ (h.absent fp hnil.1 habs)
    rintro rfl
    rw [if_pos ⟨hnormal, hfp.symm⟩] at hnil
    exact absurd hnil.2 (List.cons_ne_nil _ _)
  · intro fp id hru
    rcases hwrite.unique_of_mem fp id hru with hru | ⟨rfl, rfl, hnew⟩
    · obtain ⟨hs, d, hd, hddup⟩ := h.unique_sound fp id hru
      exact ⟨hs.mono hwrite.stored_mono, d, hold hd, hddup⟩
    · exact ⟨hwrite.sound, c, hfp ▸ hself, hdup.symm.trans hnew⟩
  · intro fp id hrr
    rcases hwrite.rewritten_of_mem fp id hrr with hrr | ⟨rfl, rfl⟩
    · obtain ⟨hs, hne⟩ := h.rewritten_sound fp id hrr
      obtain ⟨d, hd⟩ := List.exists_mem_of_ne_nil _ hne
      exact ⟨hs.mono hwrite.stored_mono, List.ne_nil_of_mem (hold hd)⟩
    · exact ⟨hwrite.sound, hfp ▸ List.ne_nil_of_mem hself⟩
  · intro d hd hdn hdd
    rcases List.mem_append.mp hd with hd | hd
    · exact hwrite.unique_mono d.fp (h.unique_complete d hd hdn hdd)
    · rw [List.mem_singleton.mp hd] at hdd ⊢
      rw [← hfp]
      apply hwrite.unique_new (hdup.trans hdd)
      rw [hfp]
      exact (habsent hdd).1
  · intro i hi
    simp only [monitorChunk, hra] at hi
    rcases mem_restoreAwareUpdate hi with rfl | hi
    · exact ne_temporaryId_of_nonneg (hsound.2.nonneg hwrite.core.pool_wf hwrite.core.open_ok)
    · exact h.cache_assigned i hi
  · refine List.rel_append h.contents (List.Forall₂.cons ?_ .nil)
    apply hsame.trans
    rw [hwrite.chunk_eq]
    exact ⟨⟨rfl, rfl, rfl, rfl, rfl⟩, rfl, rfl⟩
  · intro d hd hdn
    rcases List.mem_append.mp hd with hd | hd
    · exact (h.done_sound d hd hdn).mono hwrite.stored_mono
    · rw [List.mem_singleton.mp hd, hfp']
      exact hsound
  · intro i
    simp only [monitorChunk, mem_harMonitorUpdate, hmon, h.monitored, List.mem_append,
      List.mem_singleton]
    constructor
    · rintro (rfl | hi | ⟨d, hd, hdn⟩)
      · exact Or.inr ⟨c', Or.inr rfl, hnormal', rfl⟩
      · exact Or.inl hi
      · exact Or.inr ⟨d, Or.inl hd, hdn⟩
    · rintro (hi | ⟨d, hd | rfl, hdn, hid⟩)
      · exact Or.inr (Or.inl hi)
      · exact Or.inr (Or.inr ⟨d, hd, hdn, hid⟩)
      · exact Or.inl hid.symm

/-- A file boundary passes through the loop. -/
theorem FilterInv.signal (h : FilterInv cfg sc versions st₀ before done st)
    (hsignal : c.isNormal = false) :
    FilterInv cfg sc versions st₀ (before ++ [c]) (done ++ [c]) st := by
  have hcopies : ∀ fp, copiesOf fp (before ++ [c]) = copiesOf fp before := by
    intro fp
    simp [copiesOf_cons, hsignal]
  have hmem : ∀ {d : Chunk} {l : List Chunk}, d ∈ l ++ [c] → d.isNormal = true → d ∈ l := by
    intro d l hd hdn
    rcases List.mem_append.mp hd with hd | hd
    · exact hd
    · rw [List.mem_singleton.mp hd, hsignal] at hdn
      cases hdn
  refine ⟨h.core, h.stored_mono, h.pool_mono, ?_, ?_, ?_,
    fun d hd hdn => h.unique_complete d (hmem hd hdn) hdn,
    h.cache_assigned, List.rel_append h.contents (List.Forall₂.cons (.refl c) .nil),
    fun d hd hdn => h.done_sound d (hmem hd hdn) hdn, ?_⟩
  · intro fp hnil
    exact h.absent fp (hcopies fp ▸ hnil)
  · intro fp id hru
    rw [hcopies]
    exact h.unique_sound fp id hru
  · intro fp id hrr
    rw [hcopies]
    exact h.rewritten_sound fp id hrr
  · intro i
    rw [h.monitored]
    refine or_congr_right ⟨fun ⟨d, hd, hdn, hid⟩ => ⟨d, List.mem_append_left _ hd, hdn, hid⟩, ?_⟩
    rintro ⟨d, hd, hdn, hid⟩
    exact ⟨d, hmem hd hdn, hdn, hid⟩

/-- What the loop needs to know of a chunk of the segment. -/
structure Filterable (cfg : Config) (sc : Coverage) (c : Chunk) : Prop where
  markable : Markable cfg c
  fits : fitsEmptyContainer c.size
  filler : sc.exact → cfg.locality = .logical → c.isNormal = true → c.fp ≠ cfg.fillerFp

/-- What one iteration does: the id of a normal chunk is resolved, then it is stored if need be. -/
structure FilterStep (cfg : Config) (sc : Coverage) (versions : List BackupVersion)
    (st : FilterState) (c : Chunk) (st' : FilterState) (c' : Chunk) : Prop where
  signal : c.isNormal = false → st' = st ∧ c' = c
  normal : c.isNormal = true → ∃ enable c₁ st₂,
    Resolved sc { st with enableRewrite := enable } c c₁ ∧ Markable cfg c₁ ∧
      storeChunk cfg { st with enableRewrite := enable } c₁ = .ok (st₂, c') ∧
      WriteResult cfg sc versions { st with enableRewrite := enable } c₁ st₂ c' ∧
      st' = monitorChunk st₂ c'

/-- One iteration of the filter loop. -/
theorem filterChunk_ensures (hset : cfg.Settled) (hexact : sc.exact → ExactIndex cfg)
    (after : List Chunk) (h : FilterInv cfg sc versions st₀ before done st)
    (hchecked : CheckedState (fun id => sc.Sound st₀.pool st₀.storage.containerBuffer id c.fp)
      (sc.Absent st₀.pool st₀.storage.containerBuffer c.fp)
      (copiesOf c.fp (before ++ c :: after))) (hc : Filterable cfg sc c) :
    Ensures (AllowedAbort cfg)
      (fun r => FilterInv cfg sc versions st₀ (before ++ [c]) (done ++ [r.2]) r.1 ∧
        FilterStep cfg sc versions st c r.1 r.2)
      (filterChunk cfg st c) := by
  unfold filterChunk
  split
  · rename_i hnormal
    refine ((markInCache_ensures h c).mono (fun _ h => h.elim) fun _ h => h).bind fun c₁ hc₁ => ?_
    have hsame₁ : c.SameContent c₁ := by
      rw [hc₁]
      exact ⟨⟨rfl, rfl, rfl, rfl, rfl⟩, rfl, rfl⟩
    have hdup₁ : c₁.flag.duplicate = c.flag.duplicate := by rw [hc₁]
    have hstate := h.state hchecked hnormal
    have hstate₁ : (c₁.flag.duplicate = false ∧ copiesOf c₁.fp before = [] ∧
        sc.Absent st.pool st.storage.containerBuffer c₁.fp) ∨
      (c₁.flag.duplicate = true ∧
        (sc.Sound st.pool st.storage.containerBuffer c₁.id c₁.fp ∨
          (c₁.id = temporaryId ∧ ∃ id, st.recentlyUnique.lookup c₁.fp = some id))) := by
      rw [hc₁]
      exact hstate
    have h' : FilterInv cfg sc versions st₀ before done
        { st with enableRewrite := switchRewrite cfg st } :=
      ⟨h.core, h.stored_mono, h.pool_mono, h.absent, h.unique_sound, h.rewritten_sound, h.unique_complete,
        h.cache_assigned, h.contents, h.done_sound, h.monitored⟩
    refine ((resolve_ensures h' hstate₁).mono (fun _ h => h.elim) fun _ h => h).bind
      fun c₂ hres => ?_
    have hsame₂ := hsame₁.trans hres.toSameContent
    have hmark : Markable cfg (resolveRewritten
        { st with enableRewrite := switchRewrite cfg st } c₂) := by
      constructor
      · rw [hsame₂.marks_eq.1]
        exact hc.markable.sparse
      · rw [hsame₂.marks_eq.2]
        exact hc.markable.outOfOrder
    refine (storeChunk_ensures hset hexact h'.core hres hmark ?_ ?_).and_eq.bind ?_
    · rw [hsame₂.size_eq]
      exact hc.fits
    · rw [hsame₂.fp_eq]
      exact fun hex hloc => hc.filler hex hloc hnormal
    · rintro ⟨st', c'⟩ ⟨hwrite, hok⟩
      have hext := h'.extend hnormal hsame₂ (hres.duplicate_eq.trans hdup₁) (fun hdup => by
        rcases hstate with ⟨-, -, habs⟩ | ⟨hdup', -⟩
        · exact habs
        · exact absurd (hdup.symm.trans hdup') Bool.false_ne_true) hwrite
      have hne := ne_temporaryId_of_nonneg
        (hwrite.sound.2.nonneg hwrite.core.pool_wf hwrite.core.open_ok)
      refine (ensures_require (Or.inl hne)).bind fun _ _ => ⟨hext, fun hsignal => ?_, fun _ => ?_⟩
      · rw [hnormal] at hsignal
        cases hsignal
      · exact ⟨_, _, _, ⟨hsame₂, hres.duplicate_eq.trans hdup₁, hres.state⟩, hmark, hok, hwrite, rfl⟩
  · rename_i hsignal
    exact ⟨h.signal (by simpa using hsignal), fun _ => ⟨rfl, rfl⟩, fun h => absurd h hsignal⟩

/-- The filter loop over a checked segment; `Ghost` is whatever else its steps preserve. -/
theorem filterLoop_ensures (hset : cfg.Settled) (hexact : sc.exact → ExactIndex cfg)
    (h : FilterInv cfg sc versions st₀ [] [] st₀)
    (hchecked : ∀ fp, CheckedState
      (fun id => sc.Sound st₀.pool st₀.storage.containerBuffer id fp)
      (sc.Absent st₀.pool st₀.storage.containerBuffer fp) (copiesOf fp chunks))
    (hchunks : ∀ c ∈ chunks, Filterable cfg sc c) {Ghost : List Chunk → FilterState → Prop}
    (hghost₀ : Ghost [] st₀)
    (hghost : ∀ done st c c' st', Ghost done st → FilterStep cfg sc versions st c st' c' →
      Ghost (done ++ [c']) st') :
    Ensures (AllowedAbort cfg)
      (fun r => FilterInv cfg sc versions st₀ chunks r.2 r.1 ∧ Ghost r.2 r.1)
      (traverseE (filterChunk cfg) st₀ chunks) := by
  have hloop := traverseE_ensures (AllowedAbort cfg) (f := filterChunk cfg)
    (fun done st rest => ∃ before, before ++ rest = chunks ∧
      FilterInv cfg sc versions st₀ before done st ∧ Ghost done st)
    (by
      rintro done st c rest ⟨before, hsplit, hinv, hg⟩
      refine (filterChunk_ensures hset hexact rest hinv ?_ ?_).imp
        fun r hr => ⟨before ++ [c], by simpa using hsplit, hr.1, hghost _ _ _ _ _ hg hr.2⟩
      · rw [hsplit]
        exact hchecked c.fp
      · exact hchunks c (hsplit ▸ List.mem_append_right _ List.mem_cons_self))
    (s := st₀) (l := chunks) ⟨[], rfl, h, hghost₀⟩
  apply hloop.imp
  rintro r ⟨before, hsplit, hinv, hg⟩
  rw [List.append_nil] at hsplit
  exact ⟨hsplit ▸ hinv, hg⟩

end Loop

end Destor
