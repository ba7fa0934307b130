/- digest: The container records of the rewrite buffer over any sequence of its operations, with the
   sorts of capping in between. -/

import Destor.Library.SearchTree
import Destor.Library.Transition
import Destor.RewriteSteps

set_option autoImplicit false
set_option relaxedAutoImplicit false

namespace Destor

open Library Library.Outcome Library.SortedSeq Library.Transition

inductive BufferCall where
  | push (c : Chunk)
  | pop
  | capSegmentGetTop

/-- Makes the call; `n` is `rewrite_algorithm[1]`, `level` the capping level. -/
def bufferCall (n : Nat) (level : Int) (har : Option (IdMap Int))
    (t : RewriteThread (IdMap ContainerRecord)) :
    BufferCall → Except Abort (RewriteThread (IdMap ContainerRecord))
  | .push c => do
      let r ← rewriteBufferPush n t.buffer c
      return { t with buffer := r.2 }
  | .pop => do
      let r ← rewriteBufferPop har t.buffer
      return { t with buffer := r.2, rewriteQueue := t.rewriteQueue ++ r.1.toList }
  | .capSegmentGetTop => .ok (capSegmentGetTop level t)

/-- The chunks pushed are such as the rewrite phase receives, and all that is buffered fits in an
`int`. -/
def FittingCall (t : RewriteThread (IdMap ContainerRecord)) : BufferCall → Prop
  | .push c => c.Judgeable ∧ bufferedBytes (t.buffer.chunkQueue ++ [c]) < 2 ^ 31
  | _ => True

theorem Chunk.judgeable_iff {c : Chunk} : c.Judgeable ↔ c.isSignal = true ∨ (c.isSignal = false ∧
    0 < c.size ∧ (c.id = temporaryId ∨ (c.flag.duplicate = true ∧ 0 ≤ c.id ∧ c.id < 2 ^ 31))) := by
  constructor
  · rintro (hsignal | ⟨hsignal, hsize, hid⟩ | ⟨hsignal, hsize, hdup, hnonneg, hlt⟩)
    · exact .inl hsignal
    · exact .inr ⟨hsignal, hsize, .inl hid⟩
    · exact .inr ⟨hsignal, hsize, .inr ⟨hdup, hnonneg, hlt⟩⟩
  · rintro (hsignal | ⟨hsignal, hsize, hid | ⟨hdup, hnonneg, hlt⟩⟩)
    · exact .signal hsignal
    · exact .pending hsignal hsize hid
    · exact .stored hsignal hsize hdup hnonneg hlt

instance (c : Chunk) : Decidable c.Judgeable := decidable_of_iff _ Chunk.judgeable_iff.symm

instance (t : RewriteThread (IdMap ContainerRecord)) :
    (call : BufferCall) → Decidable (FittingCall t call)
  | .push _ => inferInstanceAs (Decidable (_ ∧ _))
  | .pop => isTrue trivial
  | .capSegmentGetTop => isTrue trivial

/-- `record` and `tmp_record` as `g_sequence_lookup` compares them. -/
def compareRecord (cid : Int) (r : ContainerRecord) : Int :=
  gRecordCmpById r { cid := cid, size := 0, outOfOrder := false }

/-- The records are one for each container of the buffered chunks, with their bytes, in the order in
which a search through any tree finds them; the counters are those of the chunks. -/
structure RewriteBuffer.Represents (b : RewriteBuffer) : Prop where
  sorted : b.containerRecordSeq.Pairwise fun r r' => r.cid < r'.cid
  own : ∀ c ∈ b.chunkQueue, c.Known → ∃! r, r ∈ b.containerRecordSeq ∧ r.cid = c.id
  held : ∀ r ∈ b.containerRecordSeq, ∃ c ∈ b.chunkQueue, c.Known ∧ c.id = r.cid
  bytes : ∀ r ∈ b.containerRecordSeq, r.size = bytesIn r.cid b.chunkQueue
  num : b.num = bufferedNum b.chunkQueue
  size : b.size = bufferedBytes b.chunkQueue
  search : ∀ tree : SearchTree ContainerRecord, tree.toList = b.containerRecordSeq →
    ∀ cid, InRange cid → tree.search (compareRecord cid) = lookupRecord b.containerRecordSeq cid

section Calls

variable {n : Nat} {level : Int} {har : Option (IdMap Int)} {b : RewriteBuffer} {c : Chunk}
  {t : RewriteThread (IdMap ContainerRecord)} {call : BufferCall} {seq : List ContainerRecord}
  {cid : Int}

theorem RecordsSorted.ascending (h : RecordsSorted seq) (hcid : InRange cid) :
    SearchTree.Ascending (compareRecord cid) seq := by
  have hvalue : ∀ r ∈ seq, compareRecord cid r = r.cid - cid := fun r hr =>
    gRecordCmpById_eq (h.inRange r hr) hcid
  apply h.sorted.imp_of_mem
  intro r r' hr hr' hlt
  rw [hvalue r hr, hvalue r' hr']
  omega

theorem RewriteBuffer.Consistent.represents (hb : b.Consistent) : b.Represents where
  sorted := hb.records.sorted
  own := by
    intro c hc hknown
    have hpos : 0 < bytesIn c.id b.chunkQueue := by
      obtain ⟨before, behind, hsplit⟩ := List.append_of_mem hc
      have hsize : 0 < c.size := by
        cases hb.chunks c hc with
        | signal hsignal => exact absurd (hsignal.symm.trans hknown.1) (by decide)
        | pending _ hsize _ => exact hsize
        | stored _ hsize _ _ _ => exact hsize
      rw [hsplit, bytesIn_append, bytesIn_cons, if_pos ⟨hknown.1, hknown.2, rfl⟩]
      omega
    obtain ⟨r, hr, hcid⟩ := (hb.records.covered c.id).mpr hpos
    refine ⟨r, ⟨hr, hcid⟩, ?_⟩
    rintro r' ⟨hr', hcid'⟩
    exact hb.records.eq_of_cid hr' hr (hcid'.trans hcid.symm)
  held := by
    intro r hr
    obtain ⟨c, hc, hsignal, hid, hcid⟩ :=
      exists_of_bytesIn_pos ((hb.records.covered r.cid).mp ⟨r, hr, rfl⟩)
    exact ⟨c, hc, ⟨hsignal, hid⟩, hcid⟩
  bytes := hb.records.exact
  num := hb.num
  size := hb.size
  search := by
    intro tree htree cid hcid
    have hasc := hb.records.toRecordsSorted.ascending hcid
    rw [← htree] at hasc ⊢
    exact SearchTree.search_eq_find? hasc

private theorem push_ensures (hb : b.Consistent) (hc : c.Judgeable)
    (hfits : bufferedBytes (b.chunkQueue ++ [c]) < 2 ^ 31) :
    Ensures (· = Abort.rewriteBufferOverfull) (fun r => r.2.Consistent)
      (rewriteBufferPush n b c) := by
  cases hpush : rewriteBufferPush n b c with
  | ok r =>
      obtain ⟨full, b'⟩ := r
      exact rewriteBufferPush_consistent hb hc hfits hpush
  | error e =>
      show e = _
      cases hsignal : c.isSignal with
      | true =>
          rw [rewriteBufferPush, if_pos hsignal] at hpush
          cases hpush
      | false =>
          obtain ⟨seq, hseq, -⟩ := pushRecord_spec hb hc hsignal hfits
          rw [rewriteBufferPush, if_neg (by simp [hsignal]), hseq] at hpush
          by_cases hover : decide ((n : Int) ≤ b.num + 1) = true → b.num + 1 = n
          · simp only [bind, Except.bind, require_of hover] at hpush
            cases hpush
          · simp only [bind, Except.bind, require, if_neg hover] at hpush
            exact (Except.error.inj hpush).symm

private theorem pop_ensures (hb : b.Consistent) :
    Ensures (· = Abort.rewriteBufferOverfull) (fun r => r.2.Consistent)
      (rewriteBufferPop har b) := by
  cases hqueue : b.chunkQueue with
  | nil =>
      rw [rewriteBufferPop_nil hqueue]
      exact hb
  | cons c queue =>
      obtain ⟨c', b', hpop, hb', -⟩ := rewriteBufferPop_spec har hb hqueue
      rw [hpop]
      exact hb'

private theorem getTop_consistent (hb : t.buffer.Consistent) :
    (capSegmentGetTop level t).buffer.Consistent := by
  have hsorted := hb.records.toRecordsSorted.sort_eq
    (sort_perm (fun a b => decide (0 < gRecordDescmpByLength a b)) t.buffer.containerRecordSeq)
  have hsame : (capSegmentGetTop level t).buffer = t.buffer := by
    show ({ t.buffer with containerRecordSeq := sort recordAfter _ } : RewriteBuffer) = _
    rw [hsorted]
  rw [hsame]
  exact hb

private theorem bufferCall_ensures (hb : t.buffer.Consistent) (hcall : FittingCall t call) :
    Ensures (· = Abort.rewriteBufferOverfull) (fun t' => t'.buffer.Consistent)
      (bufferCall n level har t call) := by
  cases call with
  | push c => exact (push_ensures hb hcall.1 hcall.2).bind fun r hr => hr
  | pop => exact (pop_ensures hb).bind fun r hr => hr
  | capSegmentGetTop => exact getTop_consistent hb

/-- Whatever the calls, the buffer represents its chunks, and the next call either leaves such a
buffer or stops at the check that the buffer is not overfull. -/
theorem rewrite_buffer_representation {calls : List BufferCall}
    (h : Run (bufferCall n level har) FittingCall
      { buffer := initRewriteBuffer, rewriteQueue := [], locals := ∅ } calls t) :
    t.buffer.Represents ∧ ∀ call, FittingCall t call →
      Ensures (· = Abort.rewriteBufferOverfull) (fun t' => t'.buffer.Represents)
        (bufferCall n level har t call) := by
  have hb : t.buffer.Consistent :=
    h.invariant (fun t => t.buffer.Consistent) initRewriteBuffer_consistent
      fun t call hb hcall => bufferCall_ensures hb hcall
  refine ⟨hb.represents, fun call hcall => ?_⟩
  exact (bufferCall_ensures hb hcall).imp fun t' hb' => hb'.represents

/-- Two chunks of a container around a duplicate that is still pending, and the sorts in between. -/
def threeChunkCalls : List BufferCall :=
  [.push (storedChunk 3 10), .push (storedChunk temporaryId 5), .push (storedChunk 3 7),
    .capSegmentGetTop, .pop]

private def afterThreeChunks : Option (RewriteThread (IdMap ContainerRecord)) :=
  exec (bufferCall 4 1 none) (fun t call => decide (FittingCall t call))
    { buffer := initRewriteBuffer, rewriteQueue := [], locals := ∅ } threeChunkCalls

private theorem afterThreeChunks_isSome : afterThreeChunks.isSome = true := by decide +kernel

/-- The record of the container keeps the bytes of the chunk that is left. -/
theorem rewrite_buffer_representation_three_chunks : ∃ t : RewriteThread (IdMap ContainerRecord),
    t.buffer.containerRecordSeq = [{ cid := 3, size := 7, outOfOrder := true }] ∧
      t.buffer.size = 12 ∧ t.buffer.Represents := by
  have hrun := Run.of_exec (fun _ _ h => of_decide_eq_true h)
    (Option.some_get afterThreeChunks_isSome).symm
  exact ⟨_, by decide +kernel, by decide +kernel, (rewrite_buffer_representation hrun).1⟩

end Calls

end Destor
