/- digest: One segment after the filter loop: the index buffer, the recipe and the logical index. -/

import Destor.FilterStep

set_option autoImplicit false
set_option relaxedAutoImplicit false

namespace Destor

open Library.Outcome

section Drain

variable {buffer : IndexBuffer} {q : Option (List Int)} {copies chunks : List Chunk}

/-- The queue of a fingerprint after copies of it left the filter phase. -/
def drain : Option (List Int) → List Chunk → Option (List Int)
  | q, [] => q
  | q, c :: copies =>
      drain (if (q.getD []).tail = [] then none else some ((q.getD []).tail.map fun _ => c.id)) copies

/-- Once a copy left, the remaining elements all have the id of the last one that did. -/
theorem drain_eq (hne : copies ≠ []) (hlen : copies.length ≤ (q.getD []).length) :
    ∃ c, copies.getLast? = some c ∧ drain q copies =
      if (q.getD []).length = copies.length then none
      else some (List.replicate ((q.getD []).length - copies.length) c.id) := by
  induction copies generalizing q with
  | nil => exact absurd rfl hne
  | cons c copies ih =>
      rw [List.length_cons] at hlen
      rw [drain]
      have hmap : (q.getD []).tail.map (fun _ => c.id) =
          List.replicate ((q.getD []).length - 1) c.id := by
        rw [List.map_const', List.length_tail]
      by_cases hcopies : copies = []
      · subst hcopies
        refine ⟨c, rfl, ?_⟩
        rw [drain, hmap]
        have htail : (q.getD []).tail = [] ↔ (q.getD []).length = 1 := by
          rw [← List.length_eq_zero_iff, List.length_tail]
          simp only [List.length_nil] at hlen
          omega
        simp only [htail, List.length_cons, List.length_nil, Nat.zero_add]
      · have hpos := List.length_pos_iff.mpr hcopies
        have htail : (q.getD []).tail ≠ [] := by
          rw [← List.length_pos_iff, List.length_tail]
          omega
        rw [if_neg htail, hmap]
        obtain ⟨c', hc', heq⟩ := ih (q := some (List.replicate ((q.getD []).length - 1) c.id))
          hcopies (by simp; omega)
        refine ⟨c', by rw [List.getLast?_cons, hc', Option.getD_some], ?_⟩
        rw [heq]
        simp only [Option.getD_some, List.length_replicate, List.length_cons]
        split
        · rw [if_pos (by omega)]
        · rw [if_neg (by omega)]
          congr 2
          omega

private theorem lookup_updateBuffer (buffer : IndexBuffer) (c : Chunk) (bq : List Int) (n : Nat)
    (hbq : buffer.bufferedFingerprints.lookup c.fp = some bq) (fp : Fingerprint) :
    (IndexBuffer.mk (if bq.tail = [] then buffer.bufferedFingerprints.erase c.fp
        else buffer.bufferedFingerprints.insert c.fp (bq.tail.map fun _ => c.id))
        n).bufferedFingerprints.lookup fp =
      if c.fp = fp then drain (buffer.bufferedFingerprints.lookup fp) [c]
      else buffer.bufferedFingerprints.lookup fp := by
  by_cases hfp : c.fp = fp
  · subst hfp
    rw [if_pos rfl, hbq, drain, drain, Option.getD_some]
    dsimp only
    split
    · exact AList.lookup_erase _ _
    · exact AList.lookup_insert _
  · rw [if_neg hfp]
    have hne : fp ≠ c.fp := fun h => hfp h.symm
    dsimp only
    split
    · exact AList.lookup_erase_ne hne
    · exact AList.lookup_insert_ne hne

/-- `index_update_buffer` takes the copies of a segment off their queues. -/
theorem indexUpdateBuffer_ensures (hids : ∀ c ∈ chunks, c.isNormal = true → c.id ≠ temporaryId)
    (hlen : ∀ fp, (copiesOf fp chunks).length ≤
      ((buffer.bufferedFingerprints.lookup fp).getD []).length) :
    Ensures (fun _ => False)
      (fun buffer' => ∀ fp, buffer'.bufferedFingerprints.lookup fp =
        drain (buffer.bufferedFingerprints.lookup fp) (copiesOf fp chunks))
      (indexUpdateBuffer buffer chunks) := by
  unfold indexUpdateBuffer
  induction chunks generalizing buffer with
  | nil => exact fun fp => rfl
  | cons c chunks ih =>
      obtain ⟨hc, hrest⟩ := List.forall_mem_cons.mp hids
      rw [foldE]
      cases hnormal : c.isNormal with
      | false =>
          have hstep : updateBufferChunk buffer c = .ok buffer := by
            simp [updateBufferChunk, hnormal]
          rw [hstep]
          simp only [copiesOf_cons, hnormal, Bool.false_eq_true, false_and, if_false] at hlen ⊢
          exact ih hrest hlen
      | true =>
          have hpos := hlen c.fp
          rw [copiesOf_cons, if_pos ⟨hnormal, rfl⟩, List.length_cons] at hpos
          cases hbq : buffer.bufferedFingerprints.lookup c.fp with
          | none =>
              rw [hbq] at hpos
              simp at hpos
          | some bq =>
              have hstep : Ensures (fun _ => False)
                  (fun buffer' => ∀ fp, buffer'.bufferedFingerprints.lookup fp =
                    if c.fp = fp then drain (buffer.bufferedFingerprints.lookup fp) [c]
                    else buffer.bufferedFingerprints.lookup fp)
                  (updateBufferChunk buffer c) := by
                unfold updateBufferChunk
                rw [if_pos hnormal]
                apply (ensures_require (Or.inl (hc hnormal))).bind
                intro _ _
                rw [hbq]
                exact lookup_updateBuffer buffer c bq _ hbq
              apply hstep.bind
              intro buffer' hbuffer'
              refine (ih hrest fun fp => ?_).imp fun buffer'' h fp => ?_
              · have hfp := hlen fp
                rw [hbuffer']
                rw [copiesOf_cons] at hfp
                by_cases heq : c.fp = fp
                · rw [if_pos ⟨hnormal, heq⟩, List.length_cons] at hfp
                  rw [if_pos heq, drain, drain]
                  split
                  · rename_i htail
                    rw [← List.length_eq_zero_iff, List.length_tail] at htail
                    simp only [Option.getD_none, List.length_nil]
                    omega
                  · simp only [Option.getD_some, List.length_map, List.length_tail]
                    omega
                · rw [if_neg fun h => heq h.2] at hfp
                  rwa [if_neg heq]
              · rw [h fp, hbuffer', copiesOf_cons]
                by_cases heq : c.fp = fp
                · rw [if_pos heq, if_pos ⟨hnormal, heq⟩]
                  rfl
                · rw [if_neg heq, if_neg fun h => heq h.2]

end Drain

section Buffer

variable {cfg : Config} {sc : Coverage} {versions : List BackupVersion} {st₀ st : FilterState}
  {buffer : IndexBuffer} {original chunks done : List Chunk} {inflight : List Segment}

/-- The length of the queue is the number of copies it stands for. -/
theorem PendingState.length_eq {sound : Int → Prop} {absent : Prop} {bq : Option (List Int)}
    {copies : List Chunk} (h : PendingState sound absent bq copies) :
    (bq.getD []).length = copies.length := by
  cases h with
  | empty => rfl
  | fresh bq c copies hbq hdup hid hcopies habsent => simp [hbq]
  | known bq copies hne hlen hbq hcopies => simpa using hlen

/-- Behind a copy in the segment no copy is new to the store. -/
theorem PendingState.behind {sound : Int → Prop} {absent : Prop} {q : Option (List Int)}
    {copies copies' : List Chunk} (h : PendingState sound absent q (copies ++ copies'))
    (hne : copies ≠ []) :
    ∀ c ∈ copies', c.flag.duplicate = true ∧ (c.id = temporaryId ∨ sound c.id) := by
  generalize hall : copies ++ copies' = all at h
  intro c hc
  cases h with
  | empty => simp [(List.append_eq_nil_iff.mp hall).1] at hne
  | fresh bq c₀ rest hbq hdup hid hcopies habsent =>
      obtain ⟨c₁, copies, rfl⟩ := List.exists_cons_of_ne_nil hne
      rw [List.cons_append] at hall
      cases hall
      obtain ⟨hd, hi⟩ := hcopies c (List.mem_append_right _ hc)
      exact ⟨hd, Or.inl hi⟩
  | known bq _ hne' hlen hbq hcopies =>
      subst hall
      exact hcopies c (List.mem_append_right _ hc)

/-- The queue of a fingerprint when its copies in a segment have left, with the ids they got. -/
theorem PendingState.left {sound sound' : Int → Prop} {absent absent' : Prop}
    {q : Option (List Int)} {copies pending left : List Chunk}
    (h : PendingState sound absent q (copies ++ pending))
    (hlen : left.length = copies.length) (hsound : ∀ id, sound id → sound' id)
    (habsent : left = [] → absent → absent') (hleft : ∀ c ∈ left, sound' c.id) :
    PendingState sound' absent' (drain q left) pending := by
  have hqueue : left.length + pending.length = (q.getD []).length := by
    rw [h.length_eq, List.length_append, hlen]
  by_cases hnil : left = []
  · -- no copy in the segment: the queue and the copies behind it are untouched
    subst hnil
    obtain rfl : copies = [] := List.length_eq_zero_iff.mp hlen.symm
    rw [drain]
    exact h.mono hsound (habsent rfl)
  · obtain ⟨c, hc, heq⟩ := drain_eq (q := q) hnil (by omega)
    have hsub : (q.getD []).length - left.length = pending.length := by omega
    rw [heq, hsub]
    have hdup : ∀ c ∈ pending, c.flag.duplicate = true ∧ (c.id = temporaryId ∨ sound' c.id) := by
      have hne : copies ≠ [] := by
        rw [← List.length_pos_iff, ← hlen]
        exact List.length_pos_iff.mpr hnil
      exact fun c' hc' => (h.behind hne c' hc').imp_right fun h' => h'.imp_right (hsound _)
    cases pending with
    | nil =>
        rw [List.length_nil, Nat.add_zero] at hqueue
        rw [if_pos hqueue.symm]
        exact .empty
    | cons c₁ rest =>
        rw [List.length_cons] at hqueue
        rw [if_neg (by omega)]
        refine .known _ _ (by simp) (by simp) ?_ hdup
        intro id hid
        rw [List.eq_of_mem_replicate hid]
        exact hleft c (List.mem_of_getLast? hc)

variable (st₀ buffer original) in
/-- After a segment left the filter phase, the index buffer is consistent with what follows it. -/
theorem bufferInv_update
    (hbuffer : BufferInv sc st₀.pool st₀.storage.containerBuffer buffer
      fun fp => copiesOf fp original ++ pendingCopies fp inflight)
    (hpayload : List.Forall₂ Chunk.SamePayload original chunks)
    (h : FilterInv cfg sc versions st₀ chunks done st) :
    Ensures (fun _ => False)
      (fun buffer' => BufferInv sc st.pool st.storage.containerBuffer buffer'
        fun fp => pendingCopies fp inflight)
      (indexUpdateBuffer buffer done) := by
  have hstart : ∀ fp, PendingState
      (fun id => sc.Sound st₀.pool st₀.storage.containerBuffer id fp)
      (sc.Absent st₀.pool st₀.storage.containerBuffer fp)
      (buffer.bufferedFingerprints.lookup fp)
      (copiesOf fp original ++ pendingCopies fp inflight) := hbuffer
  have hchecked : ∀ fp, (copiesOf fp chunks).length = (copiesOf fp original).length := fun fp =>
    (forall₂_copiesOf (fun _ _ h => h) hpayload fp).length_eq.symm
  have hleft : ∀ fp, (copiesOf fp done).length = (copiesOf fp chunks).length := fun fp =>
    (forall₂_copiesOf (fun _ _ h => h.toSamePayload) h.contents fp).length_eq.symm
  refine (indexUpdateBuffer_ensures (fun c hc hnormal =>
    ne_temporaryId_of_nonneg (h.nonneg (h.done_sound c hc hnormal))) fun fp => ?_).imp
      fun buffer' hbuffer' fp => ?_
  · rw [(hstart fp).length_eq, List.length_append, hleft, hchecked]
    omega
  · rw [hbuffer' fp]
    refine (hstart fp).left ((hleft fp).trans (hchecked fp)) (fun id hs => hs.mono h.stored_mono)
      (fun hnil => h.absent fp ?_) fun c hc => ?_
    · rw [← List.length_eq_zero_iff, ← hleft, hnil]
      rfl
    · obtain ⟨hmem, hnormal, rfl⟩ := mem_copiesOf.mp hc
      exact h.done_sound c hmem hnormal

end Buffer

section Recipe

variable {bv : BackupVersion} {r : Option FileRecipeMeta} {chunks : List Chunk}

def Chunk.pointer (c : Chunk) : ChunkPointer := { fp := c.fp, id := c.id, size := c.size }

def recipePointers (chunks : List Chunk) : List ChunkPointer :=
  (chunks.filter Chunk.isNormal).map Chunk.pointer

/-- Whether the stream is inside a file after one more chunk; a signal out of place has none. -/
def fileStep : Bool → Chunk → Option Bool
  | false, c => if c.flag.fileStart then some true else none
  | true, c => if c.flag.fileEnd then some false else if c.flag.fileStart then none else some true

theorem mem_recipePointers {cp : ChunkPointer} :
    cp ∈ recipePointers chunks ↔ ∃ c ∈ chunks, c.isNormal = true ∧ c.pointer = cp := by
  simp [recipePointers, and_assoc]

theorem recipePointers_cons (c : Chunk) (chunks : List Chunk) :
    recipePointers (c :: chunks) =
      if c.isNormal then c.pointer :: recipePointers chunks else recipePointers chunks := by
  unfold recipePointers
  rw [List.filter_cons]
  split <;> simp

/-- Writing a segment to the recipe: its normal chunks are appended to the segment buffer. -/
theorem writeRecipeChunks_ensures {inFile : Bool}
    (hstate : chunks.foldlM fileStep r.isSome = some inFile)
    (hids : ∀ c ∈ chunks, c.isNormal = true → 0 ≤ c.id) :
    Ensures (fun _ => False)
      (fun s => s.1.bvNum = bv.bvNum ∧ s.1.recipe = bv.recipe ∧
        s.1.segmentbuf = bv.segmentbuf ++ recipePointers chunks ∧ s.2.isSome = inFile)
      (foldE writeRecipeChunk (bv, r) chunks) := by
  induction chunks generalizing bv r with
  | nil =>
      cases hstate
      exact ⟨rfl, rfl, (List.append_nil _).symm, rfl⟩
  | cons c chunks ih =>
      obtain ⟨hc, hrest⟩ := List.forall_mem_cons.mp hids
      rw [List.foldlM_cons, Option.bind_eq_bind, Option.bind_eq_some_iff] at hstate
      obtain ⟨b, hb, hstate⟩ := hstate
      rw [foldE]
      cases r with
      | none =>
          have hstart : c.flag.fileStart = true := by
            simp only [Option.isSome_none, fileStep] at hb
            split at hb
            · assumption
            · cases hb
          have hsignal : c.isNormal = false := by simp [Chunk.isNormal, hstart]
          simp only [Option.isSome_none, fileStep, hstart, if_true] at hb
          cases hb
          refine Ensures.bind (P := fun s => s = (bv, some (newFileRecipeMeta c.data)))
            ((ensures_require (Or.inl hstart)).bind fun _ _ => rfl) ?_
          rintro _ rfl
          rw [recipePointers_cons, hsignal]
          exact ih hstate hrest
      | some r =>
          simp only [Option.isSome_some, fileStep] at hb
          cases hend : c.flag.fileEnd with
          | true =>
              simp only [hend, if_true] at hb
              cases hb
              have hsignal : c.isNormal = false := by simp [Chunk.isNormal, hend]
              have hstep : writeRecipeChunk (bv, some r) c =
                  .ok (appendFileRecipeMeta bv r, none) := by
                simp [writeRecipeChunk, hend]
              rw [hstep, recipePointers_cons, hsignal]
              exact ih hstate hrest
          | false =>
              simp only [hend, Bool.false_eq_true, if_false] at hb
              split at hb
              · cases hb
              · rename_i hstart
                cases hb
                have hnormal : c.isNormal = true := by
                  simp [Chunk.isNormal, hend, hstart]
                have hid := hc hnormal
                refine Ensures.bind (P := fun s => s.1.bvNum = bv.bvNum ∧
                  s.1.recipe = bv.recipe ∧ s.1.segmentbuf = bv.segmentbuf ++ [c.pointer] ∧
                  s.2.isSome = true) ?_ ?_
                · rw [writeRecipeChunk, if_neg (by simp [hend])]
                  apply (ensures_require (Or.inl hid)).bind
                  intro _ _
                  refine Ensures.bind (P := fun b => b.bvNum = bv.bvNum ∧
                    b.recipe = bv.recipe ∧ b.segmentbuf = bv.segmentbuf ++ [c.pointer]) ?_
                    fun b hb => ⟨hb.1, hb.2.1, hb.2.2, rfl⟩
                  exact (ensures_require (Or.inl (ne_temporaryId_of_nonneg hid))).bind
                    fun _ _ => ⟨rfl, rfl, rfl⟩
                · rintro ⟨bv', r'⟩ ⟨hnum, hrecipe, hbuf, hr⟩
                  simp only at hnum hrecipe hbuf hr
                  apply (ih (hr ▸ hstate) hrest).imp
                  rintro s ⟨h₁, h₂, h₃, h₄⟩
                  refine ⟨h₁.trans hnum, h₂.trans hrecipe, ?_, h₄⟩
                  rw [h₃, hbuf, recipePointers_cons, hnormal, List.append_assoc]
                  rfl

theorem length_recipePointers (chunks : List Chunk) :
    (recipePointers chunks).length = (chunks.filter Chunk.isNormal).length :=
  List.length_map _

/-- A segment is appended to the recipe as a whole. -/
theorem writeRecipe_ensures {inFile : Bool} {chunkNum : Nat}
    (hnum : chunkNum = (recipePointers chunks).length)
    (hstate : chunks.foldlM fileStep r.isSome = some inFile)
    (hids : ∀ c ∈ chunks, c.isNormal = true → 0 ≤ c.id) :
    Ensures (fun _ => False)
      (fun s => s.1 = makeSegmentId bv.bvNum (chunkPointerSize * bv.recipe.length : Nat) chunkNum ∧
        s.2.1.bvNum = bv.bvNum ∧
        s.2.1.recipe = bv.recipe ++ encodeSegment (recipePointers chunks) ∧
        s.2.2.isSome = inFile)
      (writeRecipe bv r chunkNum chunks) := by
  unfold writeRecipe
  apply (writeRecipeChunks_ensures hstate hids).bind
  rintro ⟨bv', r'⟩ ⟨hbv, hrecipe, hbuf, hr⟩
  refine ⟨rfl, hbv, ?_, hr⟩
  simp only [appendSegmentEnd] at hrecipe hbuf ⊢
  rw [hrecipe, hbuf, encodeSegment, hnum]
  simp

end Recipe

section LogicalIndex

variable {cfg : Config} {sc : Coverage} {st : FilterState} {backups : List BackupVersion}
  {bv bv' : BackupVersion} {segments : List (List ChunkPointer)} {pointers : List ChunkPointer}
  {pending : Fingerprint → Prop}

structure Appended (cfg : Config) (bv bv' : BackupVersion) (segments : List (List ChunkPointer))
    (pointers : List ChunkPointer) : Prop where
  bvNum_eq : bv'.bvNum = bv.bvNum
  before : bv.recipe = encodeSegments segments
  after : bv'.recipe = bv.recipe ++ encodeSegment pointers
  fits : cfg.locality = .logical → RecipeFits bv.bvNum (segments ++ [pointers])

theorem Appended.recipe_eq (h : Appended cfg bv bv' segments pointers) :
    bv'.recipe = encodeSegments (segments ++ [pointers]) := by
  rw [h.after, h.before, encodeSegments_append, encodeSegments_cons, encodeSegments_nil,
    List.append_nil]

theorem Appended.id_eq (h : Appended cfg bv bv' segments pointers) :
    makeSegmentId bv.bvNum (chunkPointerSize * bv.recipe.length : Nat) pointers.length =
      makeSegmentId bv'.bvNum (segmentOffset segments) pointers.length := by
  rw [h.bvNum_eq, h.before, segmentOffset]

theorem VersionsInv.append {sound : Int → Fingerprint → Prop} {oldest : Nat}
    (h : VersionsInv cfg oldest sound (backups ++ [bv]))
    (happ : Appended cfg bv bv' segments pointers)
    (hsound : ∀ cp ∈ pointers, sound cp.id cp.fp) :
    VersionsInv cfg oldest sound (backups ++ [bv']) := by
  refine ⟨fun i b hb => ?_, fun b hb => ?_⟩
  · rw [List.getElem?_append] at hb
    split at hb
    · rename_i hlt
      exact h.num i b (by rw [List.getElem?_append, if_pos hlt, hb])
    · rename_i hge
      have hnum : i - backups.length = 0 := by
        have := (List.getElem?_eq_some_iff.mp hb).1
        simp only [List.length_singleton] at this
        omega
      rw [hnum] at hb
      cases hb
      rw [happ.bvNum_eq]
      exact h.num i bv (by rw [List.getElem?_append, if_neg hge, hnum]; rfl)
  · rcases List.mem_append.mp hb with hb | hb
    · exact h.recipe b (List.mem_append_left _ hb)
    · rw [List.mem_singleton.mp hb]
      obtain ⟨segments', hsegments', hold, -⟩ := h.recipe bv (by simp)
      have := encodeSegments_injective (hsegments'.symm.trans happ.before)
      subst this
      refine ⟨segments' ++ [pointers], happ.recipe_eq, fun hle ps hps => ?_, fun hloc => ?_⟩
      · rcases List.mem_append.mp hps with hps | hps
        · exact hold (happ.bvNum_eq ▸ hle) ps hps
        · rw [List.mem_singleton.mp hps]
          exact hsound
      · rw [happ.bvNum_eq]
        exact happ.fits hloc

/-- The units after an append: the old ones and the new segment. -/
theorem storeUnit_append {pool : ContainerPool} {u : CacheUnit}
    (happ : Appended cfg bv bv' segments pointers) :
    sc.StoreUnit cfg pool (backups ++ [bv']) u ↔ sc.StoreUnit cfg pool (backups ++ [bv]) u ∨
      (cfg.locality = .logical ∧ sc.oldest ≤ bv.bvNum ∧ ∃ sr, u = .segmentRecipe sr ∧
        SegmentOf bv'.bvNum (segmentOffset segments) pointers sr) := by
  cases u with
  | containerMeta cm =>
      simp only [Scope.StoreUnit, reduceCtorEq, false_and, exists_false, and_false, or_false]
  | segmentRecipe sr =>
      constructor
      · rintro ⟨hloc, b, hb, hle, segments', hrecipe, hsr⟩
        rcases List.mem_append.mp hb with hb | hb
        · exact Or.inl ⟨hloc, b, List.mem_append_left _ hb, hle, segments', hrecipe, hsr⟩
        · rw [List.mem_singleton] at hb
          subst hb
          have heq := encodeSegments_injective (hrecipe.symm.trans happ.recipe_eq)
          subst heq
          obtain ⟨before, ps, after, hsplit, hof⟩ := mem_segmentRecipes.mp hsr
          rw [Nat.zero_add] at hof
          rcases List.eq_nil_or_concat after with rfl | ⟨after, last, rfl⟩
          · obtain ⟨rfl, hps⟩ := List.append_inj' hsplit rfl
            cases hps
            exact Or.inr ⟨hloc, happ.bvNum_eq ▸ hle, sr, rfl, hof⟩
          · refine Or.inl ⟨hloc, bv, by simp, happ.bvNum_eq ▸ hle, segments, happ.before, ?_⟩
            rw [List.concat_eq_append, ← List.cons_append, ← List.append_assoc] at hsplit
            obtain ⟨rfl, -⟩ := List.append_inj' hsplit rfl
            refine mem_segmentRecipes.mpr ⟨before, ps, after, rfl, ?_⟩
            rw [Nat.zero_add, ← happ.bvNum_eq]
            exact hof
      · rintro (⟨hloc, b, hb, hle, segments', hrecipe, hsr⟩ | ⟨hloc, hle, sr', hsr', hof⟩)
        · rcases List.mem_append.mp hb with hb | hb
          · exact ⟨hloc, b, List.mem_append_left _ hb, hle, segments', hrecipe, hsr⟩
          · rw [List.mem_singleton] at hb
            subst hb
            have heq := encodeSegments_injective (hrecipe.symm.trans happ.before)
            subst heq
            refine ⟨hloc, bv', by simp, happ.bvNum_eq ▸ hle, _, happ.recipe_eq, ?_⟩
            obtain ⟨before, ps, after, rfl, hof⟩ := mem_segmentRecipes.mp hsr
            refine mem_segmentRecipes.mpr ⟨before, ps, after ++ [pointers], by simp, ?_⟩
            rw [happ.bvNum_eq]
            exact hof
        · cases hsr'
          refine ⟨hloc, bv', by simp, happ.bvNum_eq ▸ hle, _, happ.recipe_eq, ?_⟩
          refine mem_segmentRecipes.mpr ⟨segments, pointers, [], rfl, ?_⟩
          rwa [Nat.zero_add]

/-- The units of a running backup are older than its next segment. -/
theorem unit_lt_append {pool : ContainerPool} {sound : Int → Fingerprint → Prop} {oldest : Nat}
    (hversions : VersionsInv cfg oldest sound (backups ++ [bv]))
    (happ : Appended cfg bv bv' segments pointers) {u : CacheUnit}
    (hloc : cfg.locality = .logical) (hu : sc.StoreUnit cfg pool (backups ++ [bv]) u) :
    u.id < makeSegmentId bv'.bvNum (segmentOffset segments) pointers.length := by
  have hfits := (happ.fits hloc).segmentId
  cases u with
  | containerMeta cm =>
      have hphys := hu.1
      rw [hloc] at hphys
      cases hphys
  | segmentRecipe sr =>
      obtain ⟨b, hb, -, before, ps, after, hrecipe, hof⟩ := hu.segment
      obtain ⟨segments', hsegments', -, hfits'⟩ := hversions.recipe b hb
      have heq := encodeSegments_injective (hsegments'.symm.trans hrecipe)
      subst heq
      have hnum := hversions.num backups.length bv (by simp)
      simp only [CacheUnit.id]
      rw [hof.id_eq, happ.bvNum_eq]
      apply makeSegmentId_lt (hfits' hloc).segmentId hfits
      obtain ⟨i, hi⟩ := List.mem_iff_getElem?.mp hb
      have hbnum := hversions.num i b hi
      have hle : i < backups.length + 1 := by
        simpa using (List.getElem?_eq_some_iff.mp hi).1
      by_cases hlast : i = backups.length
      · subst hlast
        have hbv : b = bv := by simpa using hi.symm
        subst hbv
        have hsplit := encodeSegments_injective (hrecipe.symm.trans happ.before)
        exact Or.inr ⟨rfl, segmentOffset_lt hsplit.symm⟩
      · exact Or.inl (by omega)

/-- The features under which a segment is indexed: keys of its fingerprints, and the sampler's
filler; where the index must be exact, those of all chunks new to the store. -/
structure SegmentFeatures (cfg : Config) (pending : Fingerprint → Prop)
    (pointers : List ChunkPointer) (features : List Key) : Prop where
  nodup : features.Nodup
  mem : ∀ k ∈ features, (∃ cp ∈ pointers, k = cfg.key cp.fp) ∨ k = cfg.key cfg.fillerFp
  cover : cfg.indexCategory = .exact → ∀ fp, pending fp → cfg.key fp ∈ features

/-- The index update for logical locality indexes the segment under its features. -/
theorem updateLogicalIndex_ensures {chunks : List Chunk} {chunkNum : Nat} {sid : Int}
    (hnum : chunkNum = (chunks.filter Chunk.isNormal).length)
    (hsignals : ∀ c ∈ chunks, c.isNormal = false → c.fp = Fingerprint.fill 0)
    (hrecent : ∀ fp, (st.recentlyUnique.lookup fp).isSome ∨ (st.recentlyRewritten.lookup fp).isSome →
      ∃ c ∈ chunks, c.isNormal = true ∧ c.fp = fp) :
    Ensures (fun a => a = .samplingRatioZero ∧ cfg.samplingRatio = 0)
      (fun kv => match cfg.locality with
        | .physical => kv = st.kv
        | .logical => ∃ features,
            SegmentFeatures cfg (fun fp => (st.recentlyUnique.lookup fp).isSome)
              (recipePointers chunks) features ∧ kv = indexUpdate cfg st.kv features sid)
      (updateLogicalIndex cfg st sid chunkNum chunks) := by
  unfold updateLogicalIndex
  cases cfg.locality with
  | physical => exact rfl
  | logical =>
      refine (sampling_ensures cfg chunks (fun h => by rw [hnum, h]; rfl)).bind
        fun features hsampled => ?_
      rw [ensures_pure]
      have hkeys : ∀ fp, fp ∈ st.recentlyUnique.keys ++ st.recentlyRewritten.keys ↔
          (st.recentlyUnique.lookup fp).isSome ∨ (st.recentlyRewritten.lookup fp).isSome := by
        intro fp
        rw [List.mem_append, AList.lookup_isSome, AList.lookup_isSome, AList.mem_keys,
          AList.mem_keys]
      have hpointer : ∀ c ∈ chunks, c.isNormal = true →
          ∃ cp ∈ recipePointers chunks, cfg.key c.fp = cfg.key cp.fp := fun c hc hnormal =>
        ⟨c.pointer, mem_recipePointers.mpr ⟨c, hc, hnormal, rfl⟩, rfl⟩
      have hmem : ∀ k ∈ features,
          (∃ cp ∈ recipePointers chunks, k = cfg.key cp.fp) ∨ k = cfg.key cfg.fillerFp := by
        intro k hk
        rcases hsampled.mem k hk with ⟨c, hc, hsamples, rfl⟩ | hfiller
        · rcases hsamples with hnormal | huniform
          · exact Or.inl (hpointer c hc hnormal)
          · cases hnormal : c.isNormal with
            | true => exact Or.inl (hpointer c hc hnormal)
            | false =>
                apply Or.inr
                rw [hsignals c hc hnormal, Config.fillerFp, huniform]
        · exact Or.inr hfiller
      refine ⟨_, ⟨?_, ?_, ?_⟩, rfl⟩
      · split
        · exact nodup_foldl_addFeature _ _ hsampled.nodup
        · exact hsampled.nodup
      · intro k hk
        split at hk
        · rcases (mem_foldl_addFeature _ _).mp hk with hk | ⟨fp, hfp, rfl⟩
          · exact hmem k hk
          · obtain ⟨c, hc, hnormal, rfl⟩ := hrecent fp ((hkeys fp).mp hfp)
            exact Or.inl (hpointer c hc hnormal)
        · exact hmem k hk
      · intro hexact fp hfp
        rw [if_pos hexact]
        exact (mem_foldl_addFeature _ _).mpr (Or.inr ⟨fp, (hkeys fp).mpr (Or.inl hfp), rfl⟩)

/-- With physical locality the recipe alone grows. -/
theorem CoreInv.appendSegment_physical {pool : ContainerPool} {storage : StorageBuffer}
    {kv : KvStore} (hcore : CoreInv cfg sc pool storage (backups ++ [bv]) kv pending)
    (hloc : cfg.locality = .physical) (happ : Appended cfg bv bv' segments pointers)
    (hsound : ∀ cp ∈ pointers, sc.Sound pool storage.containerBuffer cp.id cp.fp) :
    CoreInv cfg sc pool storage (backups ++ [bv']) kv fun _ => False := by
  have hsame : ∀ u, sc.StoreUnit cfg pool (backups ++ [bv']) u ↔
      sc.StoreUnit cfg pool (backups ++ [bv]) u := by
    intro u
    refine (storeUnit_append happ).trans (or_iff_left fun h => ?_)
    rw [hloc] at h
    cases h.1
  refine ⟨hcore.pool_wf, hcore.open_ok, hcore.open_live, hcore.next_live, hcore.open_chunks,
    hcore.versions_ok.append happ hsound, hcore.kv_shape.mono ?_, hcore.once, ?_,
    hcore.no_filler⟩
  · rintro id ⟨u, hu, hid⟩
    exact ⟨u, (hsame u).mpr hu, hid⟩
  · intro hex fp i hcounted hi
    rcases hcore.indexed hex fp i hcounted hi with hopen | ⟨hlog, -⟩ | ⟨ids, hids, hall⟩
    · exact Or.inl hopen
    · rw [hloc] at hlog
      cases hlog
    · exact Or.inr (Or.inr ⟨ids, hids, fun u hu => hall u ((hsame u).mp hu)⟩)

theorem storeUnit_new_segment {pool : ContainerPool} {u : CacheUnit}
    {sound : Int → Fingerprint → Prop} {oldest : Nat}
    (hversions : VersionsInv cfg oldest sound (backups ++ [bv])) (hloc : cfg.locality = .logical)
    (happ : Appended cfg bv bv' segments pointers)
    (hu : sc.StoreUnit cfg pool (backups ++ [bv']) u)
    (hid : u.id = makeSegmentId bv'.bvNum (segmentOffset segments) pointers.length) :
    ∃ sr, u = .segmentRecipe sr ∧ SegmentOf bv'.bvNum (segmentOffset segments) pointers sr := by
  rcases (storeUnit_append happ).mp hu with hold | ⟨-, -, sr, hsr, hof⟩
  · exact absurd hid (ne_of_lt (unit_lt_append hversions happ hloc hold))
  · exact ⟨sr, hsr, hof⟩

/-- A key that was indexed before the segment does not lead to it. -/
theorem headD_ne_new_segment {pool : ContainerPool} {storage : StorageBuffer} {kv : KvStore}
    {k : Key} {ids : List Int} {sr : SegmentRecipe}
    (hcore : CoreInv cfg sc pool storage (backups ++ [bv]) kv pending)
    (hloc : cfg.locality = .logical) (happ : Appended cfg bv bv' segments pointers)
    (hids : kv.lookup k = some ids)
    (hof : SegmentOf bv'.bvNum (segmentOffset segments) pointers sr) :
    ids.headD temporaryId ≠ (CacheUnit.segmentRecipe sr).id := by
  intro huid
  obtain ⟨ids', hids'⟩ := hcore.kv_shape _ _ hids
  obtain ⟨head, rest, -, hhead, hunit⟩ := hids'.head
  obtain ⟨u', hu', hid'⟩ := hunit
  have hlt := unit_lt_append hcore.versions_ok happ hloc hu'
  simp only [CacheUnit.id] at huid
  rw [List.headD_eq_head?_getD, hhead, Option.getD_some] at huid
  rw [hid', huid, hof.id_eq] at hlt
  exact lt_irrefl _ hlt

theorem CoreInv.appendSegment_logical {pool : ContainerPool} {storage : StorageBuffer}
    {kv : KvStore} {features : List Key} (hset : cfg.Settled) (hexact : sc.exact → ExactIndex cfg)
    (hcore : CoreInv cfg sc pool storage (backups ++ [bv]) kv pending)
    (hloc : cfg.locality = .logical) (happ : Appended cfg bv bv' segments pointers)
    (hle : sc.oldest ≤ bv.bvNum)
    (hsound : ∀ cp ∈ pointers, sc.Sound pool storage.containerBuffer cp.id cp.fp)
    (hfeatures : SegmentFeatures cfg pending pointers features) :
    CoreInv cfg sc pool storage (backups ++ [bv'])
      (indexUpdate cfg kv features
        (makeSegmentId bv'.bvNum (segmentOffset segments) pointers.length)) fun _ => False := by
  have hunits : ∀ u, sc.StoreUnit cfg pool (backups ++ [bv']) u ↔ _ := fun u =>
    storeUnit_append happ
  have hunitId : ∀ id, sc.UnitId cfg pool (backups ++ [bv]) id →
      sc.UnitId cfg pool (backups ++ [bv']) id := by
    rintro id ⟨u, hu, hid⟩
    exact ⟨u, (hunits u).mpr (Or.inl hu), hid⟩
  refine ⟨hcore.pool_wf, hcore.open_ok, hcore.open_live, hcore.next_live, hcore.open_chunks,
    hcore.versions_ok.append happ hsound, ?_, hcore.once, ?_, hcore.no_filler⟩
  · refine hcore.kv_shape.indexUpdate hfeatures.nodup hunitId ?_ ?_
    · obtain ⟨sr, hof⟩ := exists_segmentOf bv'.bvNum (segmentOffset segments) pointers
      exact ⟨.segmentRecipe sr, (hunits _).mpr (Or.inr ⟨hloc, hle, sr, rfl, hof⟩), hof.id_eq⟩
    · rintro i ⟨u, hu, rfl⟩
      exact unit_lt_append hcore.versions_ok happ hloc hu
  · intro hex fp i hcounted hi
    have hcat := (hexact hex).exact
    refine Or.inr (Or.inr ?_)
    rw [lookup_indexUpdate hfeatures.nodup]
    by_cases hmem : cfg.key fp ∈ features
    · rw [if_pos hmem]
      refine ⟨_, rfl, fun u hu huid => ?_⟩
      rw [headD_kvUpdate] at huid
      obtain ⟨sr, rfl, hof⟩ := storeUnit_new_segment hcore.versions_ok hloc happ hu huid
      rcases hfeatures.mem _ hmem with ⟨cp, hcp, heq⟩ | heq
      · rw [key_injective (hset.keySize_exact hcat) heq]
        obtain ⟨cp', hcp'⟩ := lookup_segmentTable_of_mem hcp
        simp [CacheUnit.holds, lookupFingerprintInSegmentRecipe, hof.kvpairs_eq, hcp']
      · exact absurd (key_injective (hset.keySize_exact hcat) heq)
          (hcore.no_filler hex hloc fp i hi.2)
    · rw [if_neg hmem]
      rcases hcore.indexed hex fp i hcounted hi with ⟨hphys, -⟩ | ⟨-, hpend⟩ | ⟨ids, hids, hall⟩
      · rw [hloc] at hphys
        cases hphys
      · exact absurd (hfeatures.cover hcat fp hpend) hmem
      · refine ⟨ids, hids, fun u hu huid => ?_⟩
        rcases (hunits u).mp hu with hold | ⟨-, -, sr, rfl, hof⟩
        · exact hall u hold huid
        · exact absurd huid.symm (headD_ne_new_segment hcore hloc happ hids hof)

/-- The store after a segment joined the recipe and the index. -/
theorem CoreInv.appendSegment {pool : ContainerPool} {storage : StorageBuffer} {kv kv' : KvStore}
    (hset : cfg.Settled) (hexact : sc.exact → ExactIndex cfg)
    (hcore : CoreInv cfg sc pool storage (backups ++ [bv]) kv pending)
    (happ : Appended cfg bv bv' segments pointers) (hle : sc.oldest ≤ bv.bvNum)
    (hsound : ∀ cp ∈ pointers, sc.Sound pool storage.containerBuffer cp.id cp.fp)
    (hkv : match cfg.locality with
      | .physical => kv' = kv
      | .logical => ∃ features, SegmentFeatures cfg pending pointers features ∧
          kv' = indexUpdate cfg kv features
            (makeSegmentId bv.bvNum (chunkPointerSize * bv.recipe.length : Nat) pointers.length)) :
    CoreInv cfg sc pool storage (backups ++ [bv']) kv' fun _ => False := by
  cases hloc : cfg.locality with
  | physical =>
      rw [hloc] at hkv
      cases hkv
      exact hcore.appendSegment_physical hloc happ hsound
  | logical =>
      rw [hloc] at hkv
      obtain ⟨features, hfeatures, rfl⟩ := hkv
      rw [happ.id_eq]
      exact hcore.appendSegment_logical hset hexact hloc happ hle hsound hfeatures

end LogicalIndex

end Destor
