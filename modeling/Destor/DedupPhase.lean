/- digest: The pending copies of a fingerprint, and that a lookup keeps them consistent with the
   index buffer. -/

import Destor.StoreInvariant

set_option autoImplicit false
set_option relaxedAutoImplicit false

namespace Destor

open Library.Outcome

def copiesOf (fp : Fingerprint) (chunks : List Chunk) : List Chunk :=
  chunks.filter fun c => c.isNormal && c.fp == fp

/-- The chunks with content `fp` between the dedup and the filter thread, in stream order. -/
def pendingCopies (fp : Fingerprint) (inflight : List Segment) : List Chunk :=
  copiesOf fp (inflight.flatMap Segment.chunks)

/-- The queue of the index buffer against the pending copies of one fingerprint. Either nothing is
pending; or the first copy is new to the store, and its copies wait for the id it will get; or all
ids are known and every copy is a duplicate of a stored chunk. -/
inductive PendingState (sound : Int → Prop) (absent : Prop) :
    Option (List Int) → List Chunk → Prop
  | empty : PendingState sound absent none []
  | fresh (bq : List Int) (c : Chunk) (copies : List Chunk)
      (hbq : bq = List.replicate (copies.length + 1) temporaryId)
      (hdup : c.flag.duplicate = false) (hid : c.id = temporaryId)
      (hcopies : ∀ c' ∈ copies, c'.flag.duplicate = true ∧ c'.id = temporaryId)
      (habsent : absent) : PendingState sound absent (some bq) (c :: copies)
  | known (bq : List Int) (copies : List Chunk) (hne : bq ≠ [])
      (hlen : bq.length = copies.length) (hbq : ∀ id ∈ bq, sound id)
      (hcopies : ∀ c ∈ copies, c.flag.duplicate = true ∧ (c.id = temporaryId ∨ sound c.id)) :
      PendingState sound absent (some bq) copies

section Pending

variable {sound sound' : Int → Prop} {absent absent' : Prop} {bq : Option (List Int)}
  {copies : List Chunk}

theorem PendingState.mono (h : PendingState sound absent bq copies)
    (hsound : ∀ id, sound id → sound' id) (habsent : absent → absent') :
    PendingState sound' absent' bq copies := by
  cases h with
  | empty => exact .empty
  | fresh bq c copies hbq hdup hid hcopies habs =>
      exact .fresh bq c copies hbq hdup hid hcopies (habsent habs)
  | known bq copies hne hlen hbq hcopies =>
      exact .known bq copies hne hlen (fun id hid => hsound id (hbq id hid)) fun c hc =>
        ⟨(hcopies c hc).1, (hcopies c hc).2.imp_right (hsound c.id)⟩

theorem PendingState.none_iff (h : PendingState sound absent bq copies) :
    bq = none ↔ copies = [] := by
  cases h with
  | empty => simp
  | fresh bq c copies hbq hdup hid hcopies habs => simp
  | known bq copies hne hlen hbq hcopies =>
      apply iff_of_false (by simp)
      rintro rfl
      exact hne (List.length_eq_zero_iff.mp hlen)

private theorem PendingState.push_sound (h : PendingState sound absent bq copies)
    (habsent : ¬ absent) {c : Chunk} (hdup : c.flag.duplicate = true) (hid : sound c.id) :
    PendingState sound absent (some (bq.getD [] ++ [c.id])) (copies ++ [c]) := by
  cases h with
  | empty => exact .known [c.id] [c] (by simp) rfl (by simpa using hid) (by simp [hdup, hid])
  | fresh bq c copies hbq hdup hid hcopies habs => exact absurd habs habsent
  | known bq copies hne hlen hbq hcopies =>
      refine .known (bq ++ [c.id]) (copies ++ [c]) (by simp) (by simp [hlen]) ?_ ?_
      · intro id hmem
        rcases List.mem_append.mp hmem with hmem | hmem
        · exact hbq id hmem
        · rwa [List.mem_singleton.mp hmem]
      · intro c' hmem
        rcases List.mem_append.mp hmem with hmem | hmem
        · exact hcopies c' hmem
        · rw [List.mem_singleton.mp hmem]
          exact ⟨hdup, Or.inr hid⟩

private theorem PendingState.push_buffered {q : List Int}
    (h : PendingState sound absent (some q) copies) {c : Chunk}
    (hdup : c.flag.duplicate = true) (hid : c.id = q.headD temporaryId) :
    PendingState sound absent (some (q ++ [c.id])) (copies ++ [c]) := by
  cases h with
  | fresh bq c₀ copies hbq hdup₀ hid₀ hcopies habs =>
      subst hbq
      have hc : c.id = temporaryId := by simpa [List.replicate_succ] using hid
      refine .fresh _ c₀ (copies ++ [c]) ?_ hdup₀ hid₀ ?_ habs
      · rw [hc, List.length_append, List.length_singleton, ← List.replicate_succ']
      · intro c' hmem
        rcases List.mem_append.mp hmem with hmem | hmem
        · exact hcopies c' hmem
        · rw [List.mem_singleton.mp hmem]
          exact ⟨hdup, hc⟩
  | known bq copies hne hlen hbq hcopies =>
      have hsound : sound c.id := by
        obtain ⟨id, rest, rfl⟩ := List.exists_cons_of_ne_nil hne
        rw [hid]
        exact hbq id List.mem_cons_self
      refine .known (q ++ [c.id]) (copies ++ [c]) (by simp) (by simp [hlen]) ?_ ?_
      · intro id hmem
        rcases List.mem_append.mp hmem with hmem | hmem
        · exact hbq id hmem
        · rwa [List.mem_singleton.mp hmem]
      · intro c' hmem
        rcases List.mem_append.mp hmem with hmem | hmem
        · exact hcopies c' hmem
        · rw [List.mem_singleton.mp hmem]
          exact ⟨hdup, Or.inr hsound⟩

end Pending

def BufferInv (sc : Coverage) (pool : ContainerPool) (storage : Option Container)
    (buffer : IndexBuffer) (pending : Fingerprint → List Chunk) : Prop :=
  ∀ fp, PendingState (fun id => sc.Sound pool storage id fp) (sc.Absent pool storage fp)
    (buffer.bufferedFingerprints.lookup fp) (pending fp)

section Copies

variable {fp : Fingerprint}

@[simp] theorem copiesOf_append (l l' : List Chunk) :
    copiesOf fp (l ++ l') = copiesOf fp l ++ copiesOf fp l' := List.filter_append l l'

@[simp] theorem copiesOf_nil : copiesOf fp [] = [] := rfl

theorem copiesOf_cons (c : Chunk) (l : List Chunk) :
    copiesOf fp (c :: l) =
      if c.isNormal = true ∧ c.fp = fp then c :: copiesOf fp l else copiesOf fp l := by
  simp [copiesOf, List.filter_cons]

theorem mem_copiesOf {c : Chunk} {l : List Chunk} :
    c ∈ copiesOf fp l ↔ c ∈ l ∧ c.isNormal = true ∧ c.fp = fp := by
  simp [copiesOf]

@[simp] theorem pendingCopies_append (l l' : List Segment) :
    pendingCopies fp (l ++ l') = pendingCopies fp l ++ pendingCopies fp l' := by
  simp [pendingCopies, copiesOf]

@[simp] theorem pendingCopies_cons (s : Segment) (l : List Segment) :
    pendingCopies fp (s :: l) = copiesOf fp s.chunks ++ pendingCopies fp l := by
  simp [pendingCopies, copiesOf]

@[simp] theorem pendingCopies_nil : pendingCopies fp [] = [] := rfl

end Copies

section LookupStep

variable {cfg : Config} {sc : Coverage} {pool : ContainerPool} {storage : StorageBuffer}
  {versions : List BackupVersion} {kv : KvStore} {source : IndexSource}

theorem lookup_pushIndexElem (buffer : IndexBuffer) (fp fp' : Fingerprint) (id : Int) :
    (pushIndexElem buffer fp id).bufferedFingerprints.lookup fp' =
      if fp' = fp then some ((buffer.bufferedFingerprints.lookup fp).getD [] ++ [id])
      else buffer.bufferedFingerprints.lookup fp' := by
  unfold pushIndexElem
  split
  · subst fp'
    exact AList.lookup_insert _
  · exact AList.lookup_insert_ne (by assumption)

/-- Every kind of lookup result keeps the index buffer consistent. -/
theorem BufferInv.push (hcore : CoreInv cfg sc pool storage versions kv fun _ => False)
    (hexact : sc.exact → ExactIndex cfg) (hsource : SourceOf source pool versions kv) {ask : Bool}
    (hask : cfg.indexCategory = .exact → ask = true) {buffer : IndexBuffer}
    {pending : Fingerprint → List Chunk}
    (hbuffer : BufferInv sc pool storage.containerBuffer buffer pending) {c c' : Chunk}
    (hout : LookupOutcome cfg ask source storage.containerBuffer
      (sc.StoreUnit cfg pool versions) buffer c c') :
    BufferInv sc pool storage.containerBuffer (pushIndexElem buffer c.fp c'.id)
      fun fp => if fp = c.fp then pending fp ++ [c'] else pending fp := by
  intro fp
  rw [lookup_pushIndexElem]
  by_cases hfp : fp = c.fp
  · subst hfp
    simp only [if_true]
    have hstate := hbuffer c.fp
    cases hout with
    | stored b hopen hhas hid hdup =>
        apply hstate.push_sound (fun habs => habs.1 ⟨b, hopen, hhas⟩) hdup
        rw [hid]
        exact ⟨hcore.open_live b hopen, Or.inr ⟨b, hopen, rfl, hhas⟩⟩
    | buffered bq hbq hopen hid hdup =>
        rw [hbq] at hstate ⊢
        exact hstate.push_buffered hdup hid
    | indexed u hbq hopen hunit hpointer hid hdup =>
        have hempty := hstate.none_iff.mp hbq
        rw [hbq, hempty]
        have hsound := hunit.pointer_sound hcore.versions_ok hpointer
        exact .known [c'.id] [c'] (by simp) rfl (by simpa using hsound) (by simp [hdup, hsound])
    | unique hbq hopen hid hdup hindex =>
        have hempty := hstate.none_iff.mp hbq
        rw [hbq, hempty]
        refine .fresh [c'.id] c' [] (by simp [hid]) hdup hid (by simp) ?_
        exact hcore.absent_of_unique hexact hsource hopen hask hindex
  · simp only [if_neg hfp]
    exact hbuffer fp

/-- What a segment keeps through its lookup. -/
def SameContents (chunks chunks' : List Chunk) : Prop :=
  List.Forall₂ Chunk.SameContent chunks chunks'

/-- Looking a segment up never fails: the index buffer follows, and only ids and marks change. -/
theorem lookupChunks_ensures (hcore : CoreInv cfg sc pool storage versions kv fun _ => False)
    (hexact : sc.exact → ExactIndex cfg) (hsource : SourceOf source pool versions kv) {ask : Bool}
    (hask : cfg.indexCategory = .exact → ask = true) (st : IndexState)
    {pending : Fingerprint → List Chunk}
    (hcache : CacheOf (sc.StoreUnit cfg pool versions) st.cache)
    (hbuffer : BufferInv sc pool storage.containerBuffer st.buffer pending)
    {chunks : List Chunk} (hfresh : ∀ c ∈ chunks, c.Fresh) :
    Ensures (fun _ => False)
      (fun r => CacheOf (sc.StoreUnit cfg pool versions) r.1.cache ∧
        SameContents chunks r.2 ∧
        BufferInv sc pool storage.containerBuffer r.1.buffer
          fun fp => pending fp ++ copiesOf fp r.2)
      (traverseE (lookupChunk cfg ask source storage.containerBuffer) st chunks) := by
  have hloop := traverseE_ensures (fun _ => False)
    (f := lookupChunk cfg ask source storage.containerBuffer)
    (fun done st rest => CacheOf (sc.StoreUnit cfg pool versions) st.cache ∧
      (∃ before, before ++ rest = chunks ∧ SameContents before done) ∧
      BufferInv sc pool storage.containerBuffer st.buffer
        fun fp => pending fp ++ copiesOf fp done)
    (by
      rintro done st c rest ⟨hcache, ⟨before, hsplit, hcontents⟩, hbuffer⟩
      have hmem : c ∈ chunks := hsplit ▸ List.mem_append_right _ List.mem_cons_self
      have happend : ∀ c', c.SameContent c' →
          ∃ before, before ++ rest = chunks ∧ SameContents before (done ++ [c']) := fun c' hc' =>
        ⟨before ++ [c], by simpa using hsplit,
          List.rel_append hcontents (List.Forall₂.cons hc' .nil)⟩
      cases hnormal : c.isNormal with
      | false =>
          rw [lookupChunk_signal hnormal]
          refine ⟨hcache, happend c (.refl c), ?_⟩
          simpa [copiesOf_cons, hnormal] using hbuffer
      | true =>
          obtain ⟨cache', c', hok, hcache', hcontent, hout⟩ := lookupChunk_spec hcache
            hcore.pointersAssigned (hcore.kvLoadable hsource).heads (hfresh c hmem) hnormal
          rw [hok]
          refine ⟨hcache', happend c' hcontent, ?_⟩
          have hpush := hbuffer.push hcore hexact hsource hask hout
          intro fp
          have hstate := hpush fp
          have hnormal' : c'.isNormal = true := hcontent.normal_eq.trans hnormal
          by_cases hfp : fp = c.fp
          · subst hfp
            simpa [copiesOf_cons, hnormal', hcontent.fp_eq, List.append_assoc] using hstate
          · have hne : ¬ c'.fp = fp := fun h => hfp (h.symm.trans hcontent.fp_eq)
            simpa [copiesOf_cons, hne, hfp] using hstate)
    (s := st) (l := chunks)
    ⟨hcache, ⟨[], rfl, .nil⟩, by simpa using hbuffer⟩
  refine hloop.imp fun r ⟨hcache, ⟨before, hsplit, hcontents⟩, hbuffer⟩ => ⟨hcache, ?_, hbuffer⟩
  rw [List.append_nil] at hsplit
  exact hsplit ▸ hcontents

/-- `index_lookup` on a segment: it can only fail where the sampler has no ratio. -/
theorem indexLookup_ensures (hcore : CoreInv cfg sc pool storage versions kv fun _ => False)
    (hexact : sc.exact → ExactIndex cfg) (hsource : SourceOf source pool versions kv) {st : IndexState}
    {pending : Fingerprint → List Chunk}
    (hcache : CacheOf (sc.StoreUnit cfg pool versions) st.cache)
    (hbuffer : BufferInv sc pool storage.containerBuffer st.buffer pending) {s : Segment}
    (hfresh : ∀ c ∈ s.chunks, c.Fresh) (hcounted : s.Counted) :
    Ensures (fun a => a = .samplingRatioZero ∧ cfg.samplingRatio = 0)
      (fun r => CacheOf (sc.StoreUnit cfg pool versions) r.1.cache ∧
        SameContents s.chunks r.2 ∧
        BufferInv sc pool storage.containerBuffer r.1.buffer
          fun fp => pending fp ++ copiesOf fp r.2)
      (indexLookup cfg source storage.containerBuffer st s) := by
  unfold indexLookup
  split
  · refine (sampling_ensures cfg s.chunks ?_).bind fun features hsampled => ?_
    · intro hnil
      rw [hcounted, Segment.normals, hnil]
      rfl
    · unfold indexLookupSimilarityDetection
      obtain ⟨cache', hok, hcache'⟩ := topSegmentSelect_spec (hcore.kvLoadable hsource)
        hsampled.nodup hcache
      rw [hok]
      refine (lookupChunks_ensures hcore hexact hsource ?_ { st with cache := cache' }
        hcache' hbuffer hfresh).mono (fun _ h => h.elim) fun _ h => h
      intro hcat
      simp [hcat]
  · exact (lookupChunks_ensures hcore hexact hsource (fun _ => rfl) st hcache hbuffer hfresh).mono
      (fun _ h => h.elim) fun _ h => h

end LookupStep

end Destor
