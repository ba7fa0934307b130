/- digest: Which chunks the rewriting algorithms mark as out of order: only duplicates of stored
   chunks, except where capping meets chunks that are still being written. -/

import Destor.Library.RelatedLists
import Destor.RewriteSteps
import Mathlib.Data.List.AList

set_option autoImplicit false
set_option relaxedAutoImplicit false

namespace Destor

open Library.Outcome Library.RelatedLists Library.SortedSeq

def Chunk.MarkedKnown (c : Chunk) : Prop :=
  c.flag.outOfOrder = true → c.flag.duplicate = true ∧ c.id ≠ temporaryId

section Chunks

variable {har : Option (IdMap Int)} {c c' : Chunk}

theorem markedKnown_of_clean (h : c.flag.outOfOrder = false) : c.MarkedKnown := fun hmark =>
  absurd (h.symm.trans hmark) Bool.false_ne_true

theorem markedKnown_popped : (popped har c).MarkedKnown ↔ c.MarkedKnown := by
  have honly := popped_onlyMarked har c
  unfold Chunk.MarkedKnown
  rw [popped_outOfOrder, honly.duplicate_eq, honly.id_eq]

private theorem markedKnown_applyHar (h : c.flag.outOfOrder = false) :
    (applyHar har c).flag.outOfOrder = false := by
  unfold applyHar harCheck
  repeat' split
  all_goals exact h

private theorem cflMark_markedKnown {outOfOrder : Bool} (hc : c.MarkedKnown)
    (h : cflMark outOfOrder c = .ok c') : c'.MarkedKnown := by
  unfold cflMark at h
  split at h
  · cases h
    exact hc
  · split at h
    · rename_i hmark
      obtain ⟨_, hdup, h⟩ := bind_ok_iff.mp h
      cases h
      exact fun _ => ⟨require_ok_iff.mp hdup, hmark.2⟩
    · cases h
      exact hc

end Chunks

section Keeping

variable {σ υ : Type} {cfg : Config} {s : RewriteSettings υ} {loop : RewriteLoop σ} {n : Nat}

def RewriteThread.MarksKnown (t : RewriteThread σ) : Prop := ∀ c ∈ t.held, c.MarkedKnown

/-- The parts of a rewriting algorithm only set such marks. -/
structure RewriteLoop.KeepsKnown (loop : RewriteLoop σ) : Prop where
  beforePush : ∀ t c t', t.MarksKnown → loop.beforePush t c = .ok t' → t'.MarksKnown
  afterPush : ∀ full t t', t.MarksKnown → loop.afterPush full t = .ok t' → t'.MarksKnown
  finish : ∀ t t', t.MarksKnown → loop.finish t = .ok t' → t'.MarksKnown

private theorem marksKnown_push {t : RewriteThread σ} {c : Chunk} {full : Bool} {b : RewriteBuffer}
    (ht : t.MarksKnown) (hc : c.MarkedKnown) (h : rewriteBufferPush n t.buffer c = .ok (full, b)) :
    RewriteThread.MarksKnown { t with buffer := b } := by
  intro c' hc'
  have hheld : RewriteThread.held { t with buffer := b } = t.held ++ [c] := by
    show t.rewriteQueue ++ b.chunkQueue = _
    rw [rewriteBufferPush_queue h, ← List.append_assoc]
    rfl
  rw [hheld] at hc'
  rcases List.mem_append.mp hc' with hc' | hc'
  · exact ht c' hc'
  · rw [List.mem_singleton.mp hc']
    exact hc

theorem RewriteLoop.KeepsKnown.run (h : loop.KeepsKnown) {stream : List Chunk}
    (hstream : ∀ c ∈ stream, c.MarkedKnown) {t : RewriteThread σ}
    (hrun : loop.run n stream = .ok t) : ∀ c ∈ t.rewriteQueue, c.MarkedKnown := by
  obtain ⟨t₁, hfold, hfinish⟩ := bind_ok_iff.mp hrun
  have hinit : loop.init.MarksKnown := fun c hc => absurd hc List.not_mem_nil
  have ht₁ : t₁.MarksKnown := by
    refine foldE_done (fun _ t => t.MarksKnown) ?_ hinit hfold
    intro done c t t' hfirst ht hstep
    have hmem : c ∈ stream := hfirst.subset (List.mem_append_right done (List.mem_singleton.mpr rfl))
    obtain ⟨t₂, hbefore, hstep⟩ := bind_ok_iff.mp hstep
    obtain ⟨⟨full, b⟩, hpush, hafter⟩ := bind_ok_iff.mp hstep
    have hpushed := marksKnown_push (h.beforePush t c t₂ ht hbefore) (hstream c hmem) hpush
    exact h.afterPush full _ t' hpushed hafter
  exact fun c hc => h.finish t₁ t ht₁ hfinish c (List.mem_append_left _ hc)

private theorem marksKnown_flush {har : Option (IdMap Int)} {mark : Chunk → Except Abort Chunk}
    (hmark : ∀ c c', c.MarkedKnown → mark c = .ok c' → c'.MarkedKnown) {t t' : RewriteThread σ}
    (ht : t.MarksKnown) (h : flush har mark t = .ok t') : t'.MarksKnown := by
  obtain ⟨emitted, hflushed⟩ := flush_ok h
  intro c hc
  unfold RewriteThread.held at hc
  rw [hflushed.rewriteQueue, hflushed.empty, List.append_nil] at hc
  rcases List.mem_append.mp hc with hc | hc
  · exact ht c (List.mem_append_left _ hc)
  · obtain ⟨c', hc', hok⟩ := mem_forall₂_right hflushed.marked hc
    exact hmark _ c (markedKnown_popped.mpr (ht c' (List.mem_append_right _ hc'))) hok

private theorem cflJudge_marksKnown {t t' : RewriteThread CflLocals} (ht : t.MarksKnown)
    (h : cflJudge cfg s t = .ok t') : t'.MarksKnown := by
  obtain ⟨t₁, hflush, h⟩ := bind_ok_iff.mp h
  cases h
  have hflushed : t₁.MarksKnown := marksKnown_flush (fun _ _ => cflMark_markedKnown) ht hflush
  exact hflushed

theorem cflRewrite_keepsKnown : (cflRewrite cfg s).KeepsKnown where
  beforePush := by
    intro t c t' ht h
    obtain ⟨t₁, hboundary, h⟩ := bind_ok_iff.mp h
    cases h
    unfold cflBoundary at hboundary
    split at hboundary
    · have hjudged : t₁.MarksKnown := cflJudge_marksKnown ht hboundary
      exact hjudged
    · cases hboundary
      exact ht
  afterPush := by
    intro full t t' ht h
    cases full with
    | true =>
        cases h
        exact ht
    | false =>
        cases h
        exact ht
  finish := fun t t' ht h => cflJudge_marksKnown ht h

private theorem marksKnown_pop {har : Option (IdMap Int)} {t : RewriteThread σ} {c : Chunk}
    {queue : List Chunk} {c' : Option Chunk} {b : RewriteBuffer} {x : σ} (ht : t.MarksKnown)
    (hqueue : t.buffer.chunkQueue = c :: queue) (h : rewriteBufferPop har t.buffer = .ok (c', b)) :
    c' = some (popped har c) ∧ RewriteThread.MarksKnown
      { buffer := b, rewriteQueue := t.rewriteQueue ++ [popped har c], locals := x } := by
  obtain ⟨hc', hqueue', _⟩ := rewriteBufferPop_ok hqueue h
  have hhead : c.MarkedKnown := ht c (by unfold RewriteThread.held; rw [hqueue]; simp)
  refine ⟨hc', fun d hd => ?_⟩
  have hd : d ∈ t.rewriteQueue ++ [popped har c] ++ b.chunkQueue := hd
  rw [hqueue'] at hd
  rcases List.mem_append.mp hd with hd | hd
  · rcases List.mem_append.mp hd with hd | hd
    · exact ht d (List.mem_append_left _ hd)
    · rw [List.mem_singleton.mp hd]
      exact markedKnown_popped.mpr hhead
  · exact ht d (by unfold RewriteThread.held; rw [hqueue]; simp [hd])

private theorem popped_signal {har : Option (IdMap Int)} {c : Chunk} (h : c.isSignal = true) :
    popped har c = c := by
  unfold popped
  rw [if_neg fun hc => Bool.false_ne_true (hc.1.symm.trans h)]

private theorem passSignals_marksKnown {har : Option (IdMap Int)} :
    ∀ fuel (t : RewriteThread (UtilityBuckets υ)) {c : Chunk} {t' : RewriteThread (UtilityBuckets υ)},
      t.MarksKnown → passSignals har fuel t = .ok (c, t') →
        t'.MarksKnown ∧ ∃ queue, t'.buffer.chunkQueue = c :: queue := by
  intro fuel
  induction fuel with
  | zero =>
      intro t c t' _ h
      cases h
  | succ fuel ih =>
      intro t c t' ht h
      unfold passSignals rewriteBufferTop at h
      cases hqueue : t.buffer.chunkQueue with
      | nil =>
          rw [hqueue] at h
          cases h
      | cons d queue =>
          rw [hqueue, List.head?_cons] at h
          simp only at h
          split at h
          · rename_i hsignal
            obtain ⟨⟨d', b⟩, hpop, h⟩ := bind_ok_iff.mp h
            obtain ⟨_, hpopped⟩ := marksKnown_pop (x := t.locals) ht hqueue hpop
            rw [popped_signal hsignal] at hpopped
            exact ih _ hpopped h
          · cases h
            exact ⟨ht, queue, hqueue⟩

private theorem cbrJudge_marksKnown {arith : UtilityArith υ} {ub : UtilityBuckets υ}
    {t : RewriteThread (UtilityBuckets υ)} {c : Chunk} {queue : List Chunk} {utility : υ}
    {b : RewriteBuffer} (ht : t.MarksKnown) (hqueue : t.buffer.chunkQueue = c :: queue)
    (h : cbrJudge arith ub t.buffer c = .ok (utility, b)) :
    RewriteThread.MarksKnown { t with buffer := b } ∧
      ∃ c', b.chunkQueue = c' :: queue := by
  unfold cbrJudge at h
  split at h
  · cases h
    exact ⟨ht, c, hqueue⟩
  · rename_i hid
    obtain ⟨_, hdup, h⟩ := bind_ok_iff.mp h
    have hdup := require_ok_iff.mp hdup
    split at h
    · cases h
    · split at h
      · obtain ⟨u, _, h⟩ := bind_ok_iff.mp h
        split at h
        · cases h
          exact ⟨ht, c, hqueue⟩
        · cases h
          have htop : (markTop t.buffer).chunkQueue = markOutOfOrder c :: queue := by
            unfold markTop
            rw [hqueue]
          refine ⟨fun d hd => ?_, _, htop⟩
          have hd : d ∈ t.rewriteQueue ++ (markTop t.buffer).chunkQueue := hd
          rw [htop] at hd
          rcases List.mem_append.mp hd with hd | hd
          · exact ht d (List.mem_append_left _ hd)
          · rcases List.mem_cons.mp hd with rfl | hd
            · exact fun _ => ⟨hdup, hid⟩
            · exact ht d (by unfold RewriteThread.held; rw [hqueue]; simp [hd])
      · cases h
        exact ⟨ht, c, hqueue⟩

theorem cbrRewrite_keepsKnown : (cbrRewrite cfg s).KeepsKnown where
  beforePush := by
    intro t c t' ht h
    cases h
    exact ht
  afterPush := by
    intro full t t' ht h
    cases full with
    | false =>
        cases h
        exact ht
    | true =>
        have h : cbrDecide cfg s t = .ok t' := h
        obtain ⟨⟨decision, t₁⟩, hpass, h⟩ := bind_ok_iff.mp h
        obtain ⟨⟨utility, b⟩, hjudge, h⟩ := bind_ok_iff.mp h
        obtain ⟨⟨c', b'⟩, hpop, h⟩ := bind_ok_iff.mp h
        obtain ⟨ht₁, queue, hqueue⟩ := passSignals_marksKnown _ t ht hpass
        obtain ⟨hjudged, c, hqueue'⟩ := cbrJudge_marksKnown ht₁ hqueue hjudge
        obtain ⟨rfl, hpopped⟩ := marksKnown_pop (x := utilityBucketsUpdate s.cbr t₁.locals utility)
          hjudged hqueue' hpop
        cases h
        exact hpopped
  finish := by
    intro t t' ht h
    refine marksKnown_flush (fun c c' hc hok => ?_) ht h
    cases hok
    exact hc

end Keeping

section Capping

variable {υ : Type} {cfg : Config} {s : RewriteSettings υ} {n : Nat}
  {t t' : RewriteThread (IdMap ContainerRecord)} {top : IdMap ContainerRecord} {c c' : Chunk}

def Chunk.PendingDuplicate (c : Chunk) : Prop :=
  c.isSignal = false ∧ c.flag.duplicate = true ∧ c.id = temporaryId

/-- The table of the top containers holds nothing but containers with a record. -/
theorem lookup_top_iff {records : List ContainerRecord} {top : IdMap ContainerRecord} {cid : Int} :
    ((records.foldl (fun top r => top.insert r.cid { r with outOfOrder := false }) top).lookup
      cid).isSome ↔ (∃ r ∈ records, r.cid = cid) ∨ (top.lookup cid).isSome := by
  induction records generalizing top with
  | nil => simp
  | cons r records ih =>
      rw [List.foldl_cons, ih]
      by_cases hcid : cid = r.cid
      · rw [hcid, AList.lookup_insert]
        simp
      · rw [AList.lookup_insert_ne hcid]
        have hne : r.cid ≠ cid := fun h => hcid h.symm
        simp [hne]

/-- No record stands for chunks that are still being written. -/
def NoTemporary (seq : List ContainerRecord) : Prop := ∀ r ∈ seq, r.cid ≠ temporaryId

private theorem capFlush_ok {mark : IdMap ContainerRecord → Chunk → Except Abort Chunk}
    (hlocals : t.locals = ∅) (hseq : NoTemporary t.buffer.containerRecordSeq)
    (h : capFlush cfg s mark t = .ok t') :
    ∃ top emitted, top.lookup temporaryId = none ∧
      List.Forall₂ (fun c c' => mark top (popped (s.har cfg) c) = .ok c') t.buffer.chunkQueue
        emitted ∧
      t'.rewriteQueue = t.rewriteQueue ++ emitted ∧ t'.buffer.chunkQueue = [] ∧
      t'.buffer.num = t.buffer.num - bufferedNum t.buffer.chunkQueue ∧ t'.locals = ∅ ∧
      NoTemporary t'.buffer.containerRecordSeq := by
  obtain ⟨t₁, hflush, h⟩ := bind_ok_iff.mp h
  cases h
  obtain ⟨emitted, hflushed⟩ := flush_ok hflush
  refine ⟨_, emitted, ?_, hflushed.marked, hflushed.rewriteQueue, hflushed.empty, hflushed.num, rfl,
    fun r hr => ?_⟩
  · apply Option.not_isSome_iff_eq_none.mp
    intro hsome
    unfold capSegmentGetTop at hsome
    simp only [hlocals] at hsome
    rw [lookup_top_iff] at hsome
    rcases hsome with ⟨r, hr, hcid⟩ | hsome
    · exact hseq r ((mem_sort _).mp (List.mem_of_mem_take hr)) hcid
    · cases hsome
  · obtain ⟨r', hr', hcid⟩ := hflushed.records r hr
    rw [← hcid]
    exact hseq r' ((mem_sort _).mp ((mem_sort recordAfter).mp hr'))

private theorem capMark_markedKnown_iff {har : Option (IdMap Int)} (htop : top.lookup temporaryId = none)
    (hclean : c.flag.outOfOrder = false) (h : capMark top (popped har c) = .ok c') :
    c'.MarkedKnown ↔ ¬ c.PendingDuplicate := by
  have honly := popped_onlyMarked har c
  unfold capMark at h
  rw [honly.signal_eq, honly.duplicate_eq, honly.id_eq] at h
  unfold Chunk.PendingDuplicate
  split at h
  · rename_i hmark
    cases h
    constructor
    · intro hknown hpending
      have hid := (hknown rfl).2
      rw [(markOutOfOrder_onlyMarked _).id_eq, honly.id_eq] at hid
      exact hid hpending.2.2
    · intro hpending _
      rw [(markOutOfOrder_onlyMarked _).duplicate_eq, (markOutOfOrder_onlyMarked _).id_eq,
        honly.duplicate_eq, honly.id_eq]
      exact ⟨hmark.2.1, fun hid => hpending ⟨hmark.1, hmark.2.1, hid⟩⟩
  · rename_i hkeep
    cases h
    apply iff_of_true (markedKnown_popped.mpr (markedKnown_of_clean hclean))
    rintro ⟨hsignal, hdup, hid⟩
    exact hkeep ⟨hsignal, hdup, hid ▸ htop⟩

private theorem capMarkRemaining_markedKnown_iff {har : Option (IdMap Int)}
    (htop : top.lookup temporaryId = none) (hclean : c.flag.outOfOrder = false)
    (hdup : c.isSignal = false → c.id ≠ temporaryId → c.flag.duplicate = true)
    (h : capMarkRemaining top (popped har c) = .ok c') :
    c'.MarkedKnown ↔ ¬ (c.isSignal = false ∧ c.id = temporaryId) := by
  have honly := popped_onlyMarked har c
  unfold capMarkRemaining at h
  rw [honly.signal_eq, honly.id_eq] at h
  split at h
  · rename_i hmark
    cases h
    constructor
    · intro hknown hpending
      have hid := (hknown rfl).2
      rw [(markOutOfOrder_onlyMarked _).id_eq, honly.id_eq] at hid
      exact hid hpending.2
    · intro hpending _
      have hid : c.id ≠ temporaryId := fun hid => hpending ⟨hmark.1, hid⟩
      rw [(markOutOfOrder_onlyMarked _).duplicate_eq, (markOutOfOrder_onlyMarked _).id_eq,
        honly.duplicate_eq, honly.id_eq]
      exact ⟨hdup hmark.1 hid, hid⟩
  · rename_i hkeep
    cases h
    apply iff_of_true (markedKnown_popped.mpr (markedKnown_of_clean hclean))
    rintro ⟨hsignal, hid⟩
    exact hkeep ⟨hsignal, hid ▸ htop⟩

/-- A thread of capping that has taken in `stream`: of it, `flushed` went through full buffers. -/
private structure CapInv (n : Nat) (stream : List Chunk) (t : RewriteThread (IdMap ContainerRecord))
    (flushed : List Chunk) : Prop where
  stream : stream = flushed ++ t.buffer.chunkQueue
  whole : n ∣ bufferedNum flushed
  num : t.buffer.num = bufferedNum t.buffer.chunkQueue
  room : t.buffer.num < n
  locals : t.locals = ∅
  records : NoTemporary t.buffer.containerRecordSeq
  known : ∀ c ∈ t.buffer.chunkQueue, c.isSignal = false → c.id ≠ temporaryId →
    c.flag.duplicate = true
  marks : (∀ c ∈ t.rewriteQueue, c.MarkedKnown) ↔ ∀ c ∈ flushed, ¬ c.PendingDuplicate

private theorem capInv_init (hn : 1 ≤ cfg.rewriteBufferSize) :
    CapInv cfg.rewriteBufferSize [] (capRewrite cfg s).init [] where
  stream := rfl
  whole := Nat.dvd_zero _
  num := rfl
  room := by
    show (0 : Int) < cfg.rewriteBufferSize
    omega
  locals := rfl
  records := fun r hr => absurd hr List.not_mem_nil
  known := fun c hc => absurd hc List.not_mem_nil
  marks := iff_of_true (fun c hc => absurd hc List.not_mem_nil) fun c hc => absurd hc List.not_mem_nil

private theorem capInv_push {stream flushed : List Chunk} {full : Bool} {b : RewriteBuffer}
    (ht : CapInv n stream t flushed) (hpush : rewriteBufferPush n t.buffer c = .ok (full, b)) :
    b.chunkQueue = t.buffer.chunkQueue ++ [c] ∧ b.num = bufferedNum b.chunkQueue ∧
      (full = true → b.num = n) ∧ (full = false → b.num < n) ∧
      NoTemporary b.containerRecordSeq ∧
      ∀ c ∈ b.chunkQueue, c.isSignal = false → c.id ≠ temporaryId → c.flag.duplicate = true := by
  have hqueue := rewriteBufferPush_queue hpush
  refine ⟨hqueue, ?_⟩
  rw [hqueue, bufferedNum_append, bufferedNum_cons, bufferedNum_nil]
  cases hsignal : c.isSignal with
  | true =>
      obtain ⟨rfl, rfl⟩ := rewriteBufferPush_signal hsignal hpush
      refine ⟨by simp [ht.num], fun h => absurd h Bool.false_ne_true, fun _ => ht.room, ht.records,
        fun d hd hcontent => ?_⟩
      rcases List.mem_append.mp hd with hd | hd
      · exact ht.known d hd hcontent
      · rw [List.mem_singleton.mp hd, hsignal] at hcontent
        cases hcontent
  | false =>
      obtain ⟨seq, hseq, rfl, hfull, hnot⟩ := rewriteBufferPush_ok hsignal hpush
      obtain ⟨hdup, hcids⟩ := pushRecord_ok hseq
      refine ⟨by simp [ht.num], hfull, hnot, fun r hr => ?_, fun d hd hcontent => ?_⟩
      · rcases hcids r hr with ⟨r', hr', hcid⟩ | ⟨hcid, hid⟩
        · rw [← hcid]
          exact ht.records r' hr'
        · rw [hcid]
          exact hid
      · rcases List.mem_append.mp hd with hd | hd
        · exact ht.known d hd hcontent
        · rw [List.mem_singleton.mp hd]
          exact hdup

private theorem capInv_body {stream flushed : List Chunk}
    (ht : CapInv cfg.rewriteBufferSize stream t flushed)
    (hn : 1 ≤ cfg.rewriteBufferSize)
    (hclean : ∀ d ∈ t.buffer.chunkQueue ++ [c], d.flag.outOfOrder = false)
    (h : (capRewrite cfg s).body cfg.rewriteBufferSize t c = .ok t') :
    ∃ flushed, CapInv cfg.rewriteBufferSize (stream ++ [c]) t' flushed := by
  obtain ⟨t₁, hbefore, h⟩ := bind_ok_iff.mp h
  cases hbefore
  obtain ⟨⟨full, b⟩, hpush, h⟩ := bind_ok_iff.mp h
  obtain ⟨hqueue, hnum, hfull, hnot, hrecords, hknown⟩ := capInv_push ht hpush
  have hstream : stream ++ [c] = flushed ++ b.chunkQueue := by
    rw [hqueue, ← List.append_assoc, ← ht.stream]
  cases full with
  | false =>
      cases h
      exact ⟨flushed,
        { stream := hstream
          whole := ht.whole
          num := hnum
          room := hnot rfl
          locals := ht.locals
          records := hrecords
          known := hknown
          marks := ht.marks }⟩
  | true =>
      have h : capFlush cfg s capMark { t with buffer := b } = .ok t' := h
      obtain ⟨top, emitted, htop, hmarked, hout, hempty, hcount, hlocals, hrecords'⟩ :=
        capFlush_ok (t := { t with buffer := b }) ht.locals hrecords h
      have hzero : t'.buffer.num = 0 := by
        rw [hcount]
        show b.num - bufferedNum b.chunkQueue = 0
        omega
      refine ⟨stream ++ [c],
        { stream := by rw [hempty, List.append_nil]
          whole := ?_
          num := by rw [hempty, hzero]; rfl
          room := by omega
          locals := hlocals
          records := hrecords'
          known := fun d hd => absurd (hempty ▸ hd) List.not_mem_nil
          marks := ?_ }⟩
      · have hsize := hfull rfl
        have hall : bufferedNum b.chunkQueue = cfg.rewriteBufferSize := by omega
        rw [hstream, bufferedNum_append, hall]
        exact Nat.dvd_add ht.whole (Nat.dvd_refl _)
      · have hnew := forall_iff_of_forall₂ (P := Chunk.MarkedKnown) hmarked fun d hd d' hok =>
          capMark_markedKnown_iff htop (hclean d (hqueue ▸ hd)) hok
        rw [hout, hstream, List.forall_mem_append, List.forall_mem_append, hnew]
        exact and_congr_left fun _ => ht.marks

/-- Where capping sets only the right marks: of the chunks with content, those that went through full
buffers hold no duplicate of a chunk that is still being written, and those that are left at the end
hold no chunk at all that is. -/
def CappingMarksKnown (n : Nat) (stream : List Chunk) : Prop :=
  let content := stream.filter fun c => !c.isSignal
  let flushed := content.length - content.length % n
  (∀ c ∈ content.take flushed, c.flag.duplicate = true → c.id ≠ temporaryId) ∧
    ∀ c ∈ content.drop flushed, c.id ≠ temporaryId

private theorem cappingMarksKnown_split {flushed rest : List Chunk} (hwhole : n ∣ bufferedNum flushed)
    (hrest : bufferedNum rest < n) :
    CappingMarksKnown n (flushed ++ rest) ↔ (∀ c ∈ flushed, ¬ c.PendingDuplicate) ∧
      ∀ c ∈ rest, ¬ (c.isSignal = false ∧ c.id = temporaryId) := by
  have hlength : ∀ l : List Chunk, (l.filter fun c => !c.isSignal).length = bufferedNum l := fun l =>
    List.countP_eq_length_filter.symm
  have hcount : bufferedNum flushed + bufferedNum rest -
      (bufferedNum flushed + bufferedNum rest) % n = bufferedNum flushed := by
    obtain ⟨k, hk⟩ := hwhole
    rw [hk, Nat.mul_add_mod, Nat.mod_eq_of_lt hrest]
    omega
  unfold CappingMarksKnown
  simp only [List.filter_append, List.length_append, hlength, hcount]
  rw [List.take_left' (hlength flushed), List.drop_left' (hlength flushed)]
  refine and_congr ⟨fun h c hc hpending => ?_, fun h c hc hdup hid => ?_⟩
    ⟨fun h c hc hpending => ?_, fun h c hc hid => ?_⟩
  · exact h c (List.mem_filter.mpr ⟨hc, by simp [hpending.1]⟩) hpending.2.1 hpending.2.2
  · obtain ⟨hc, hsignal⟩ := List.mem_filter.mp hc
    exact h c hc ⟨by simpa using hsignal, hdup, hid⟩
  · exact h c (List.mem_filter.mpr ⟨hc, by simp [hpending.1]⟩) hpending.2
  · obtain ⟨hc, hsignal⟩ := List.mem_filter.mp hc
    exact h c hc ⟨by simpa using hsignal, hid⟩

private theorem capRewrite_marks {stream : List Chunk} (hn : 1 ≤ cfg.rewriteBufferSize)
    (hclean : ∀ c ∈ stream, c.flag.outOfOrder = false)
    (hrun : (capRewrite cfg s).run cfg.rewriteBufferSize stream = .ok t) :
    (∀ c ∈ t.rewriteQueue, c.MarkedKnown) ↔ CappingMarksKnown cfg.rewriteBufferSize stream := by
  obtain ⟨t₁, hfold, hfinish⟩ := bind_ok_iff.mp hrun
  obtain ⟨flushed, ht₁⟩ : ∃ flushed, CapInv cfg.rewriteBufferSize stream t₁ flushed := by
    refine foldE_done (fun done t => ∃ flushed, CapInv cfg.rewriteBufferSize done t flushed) ?_
      ⟨[], capInv_init hn⟩ hfold
    intro done c t t' hfirst ⟨flushed, ht⟩ hstep
    refine capInv_body ht hn (fun d hd => hclean d (hfirst.subset ?_)) hstep
    rw [ht.stream, List.append_assoc]
    exact List.mem_append_right _ hd
  have hroom := ht₁.room
  rw [ht₁.num] at hroom
  obtain ⟨top, emitted, htop, hmarked, hout, _⟩ := capFlush_ok ht₁.locals ht₁.records hfinish
  have hnew := forall_iff_of_forall₂ (P := Chunk.MarkedKnown) hmarked fun d hd d' hok =>
    capMarkRemaining_markedKnown_iff htop
      (hclean d (ht₁.stream ▸ List.mem_append_right _ hd)) (ht₁.known d hd) hok
  rw [ht₁.stream, cappingMarksKnown_split ht₁.whole (by omega), hout, List.forall_mem_append, hnew]
  exact and_congr_left fun _ => ht₁.marks

end Capping

section Claim

variable {υ : Type}

/-- In every run of the rewrite phase, all chunks that leave it with the mark are duplicates in known
containers, exactly unless capping meets chunks that are still being written. -/
theorem out_of_order_only_known_iff (cfg : Config) (s : RewriteSettings υ)
    (hn : 1 ≤ cfg.rewriteBufferSize) (stream : List Chunk)
    (hclean : ∀ c ∈ stream, c.flag.outOfOrder = false) (out : List Chunk) (b : RewriteBuffer)
    (hrun : startRewritePhase cfg s stream = .ok (out, b)) :
    (∀ c ∈ out, c.flag.outOfOrder = true → c.flag.duplicate = true ∧ c.id ≠ temporaryId) ↔
      (cfg.rewriteAlgorithm = .capping → CappingMarksKnown cfg.rewriteBufferSize stream) := by
  have hmarked : ∀ c ∈ stream, c.MarkedKnown := fun c hc => markedKnown_of_clean (hclean c hc)
  unfold startRewritePhase at hrun
  cases halgorithm : cfg.rewriteAlgorithm with
  | no =>
      rw [halgorithm] at hrun
      cases hrun
      refine iff_of_true (fun c hc hmark => ?_) nofun
      obtain ⟨d, hd, rfl⟩ := List.mem_map.mp hc
      rw [markedKnown_applyHar (hclean d hd)] at hmark
      cases hmark
  | cflSelectiveDeduplication =>
      rw [halgorithm] at hrun
      obtain ⟨t, hloop, h⟩ := bind_ok_iff.mp hrun
      cases h
      exact iff_of_true (cflRewrite_keepsKnown.run hmarked hloop) nofun
  | contextBased =>
      rw [halgorithm] at hrun
      obtain ⟨t, hloop, h⟩ := bind_ok_iff.mp hrun
      cases h
      exact iff_of_true (cbrRewrite_keepsKnown.run hmarked hloop) nofun
  | capping =>
      rw [halgorithm] at hrun
      obtain ⟨t, hloop, h⟩ := bind_ok_iff.mp hrun
      cases h
      rw [forall_prop_of_true rfl]
      exact capRewrite_marks hn hclean hloop

/-- A stored chunk and a new one, through a buffer of two chunks. -/
theorem out_of_order_only_known_iff_capping :
    ∃ out b, startRewritePhase (rewriteConfig .capping 2) smallSettings
        [storedChunk 3 10, newChunk 7] = .ok (out, b) ∧
      ((∀ c ∈ out, c.flag.outOfOrder = true → c.flag.duplicate = true ∧ c.id ≠ temporaryId) ↔
        (RewriteAlgorithm.capping = .capping →
          CappingMarksKnown 2 [storedChunk 3 10, newChunk 7])) := by
  refine ⟨[storedChunk 3 10, newChunk 7], initRewriteBuffer, by decide +kernel, ?_⟩
  exact out_of_order_only_known_iff (rewriteConfig .capping 2) smallSettings (by decide) _
    (by decide) _ initRewriteBuffer (by decide +kernel)

/-- The chunk is written for the first time, and capping asks for it to be rewritten. -/
theorem unique_chunk_marked :
    ∃ out, startRewritePhase (rewriteConfig .capping 2) smallSettings [newChunk 7] =
        .ok (out, initRewriteBuffer) ∧
      ¬ ∀ c ∈ out, c.flag.outOfOrder = true → c.flag.duplicate = true ∧ c.id ≠ temporaryId := by
  refine ⟨[markOutOfOrder (newChunk 7)], by decide +kernel, fun h => ?_⟩
  exact absurd (h _ (List.mem_singleton.mpr rfl) rfl).1 (by decide)

end Claim

end Destor
