/- digest: How long context-based rewriting remembers a decision: the physical neighbours of a chunk
   that is not fragmented are not marked. -/

import Destor.Library.RelatedLists
import Destor.RewriteSteps

set_option autoImplicit false
set_option relaxedAutoImplicit false

namespace Destor

open Library.Outcome Library.RelatedLists Library.SortedSeq

def InOrder (cid : Int) (seq : List ContainerRecord) : Prop :=
  ∀ r ∈ seq, r.cid = cid → r.outOfOrder = false

section Steps

variable {υ : Type} {n : Nat} {b b' : RewriteBuffer} {c : Chunk} {full : Bool} {cid : Int}
  {seq seq' : List ContainerRecord} {har : Option (IdMap Int)}

private theorem inOrder_updateRecord {i : Int} {f : ContainerRecord → Option ContainerRecord}
    (hf : ∀ r r', f r = some r' → r'.cid = r.cid ∧ (r.outOfOrder = false → r'.outOfOrder = false))
    (h : InOrder cid seq) : InOrder cid (updateRecord i f seq) := by
  induction seq with
  | nil => exact h
  | cons a seq ih =>
      have hrest : InOrder cid seq := fun r hr => h r (List.mem_cons_of_mem a hr)
      unfold updateRecord
      split
      · intro r hr hcid
        rcases List.mem_append.mp hr with hr | hr
        · obtain ⟨hsame, hclear⟩ := hf a r (Option.mem_toList.mp hr)
          exact hclear (h a List.mem_cons_self (hsame.symm.trans hcid))
        · exact hrest r hr hcid
      · intro r hr hcid
        rcases List.mem_cons.mp hr with rfl | hr
        · exact h r List.mem_cons_self hcid
        · exact ih hrest r hr hcid

private theorem inOrder_push (hb : b.Consistent) (hc : c.Judgeable)
    (hfound : c.Known → c.id = cid → 0 < bytesIn cid b.chunkQueue)
    (h : rewriteBufferPush n b c = .ok (full, b')) (hsafe : InOrder cid b.containerRecordSeq) :
    InOrder cid b'.containerRecordSeq := by
  cases hsignal : c.isSignal with
  | true =>
      rw [(rewriteBufferPush_signal hsignal h).2]
      exact hsafe
  | false =>
      obtain ⟨seq, hseq, rfl, _⟩ := rewriteBufferPush_ok hsignal h
      show InOrder cid seq
      unfold pushRecord at hseq
      split at hseq
      · cases hseq
        exact hsafe
      · rename_i hid
        obtain ⟨_, _, hseq⟩ := bind_ok_iff.mp hseq
        split at hseq
        · rename_i hlookup
          cases hseq
          have hrange : InRange c.id := by
            cases hc with
            | signal h => exact absurd h (by simp [hsignal])
            | pending _ _ h => exact absurd h hid
            | stored _ _ _ hnonneg hlt => exact ⟨hnonneg, hlt⟩
          have hnone := (lookupRecord_none_iff hb.records.toRecordsSorted hrange).mp hlookup
          intro r hr hcid
          rcases (mem_insertSorted recordAfter).mp hr with rfl | hr
          · obtain ⟨r, hr, hown⟩ := (hb.records.covered cid).mpr (hfound ⟨hsignal, hid⟩ hcid)
            exact absurd (hown.trans hcid.symm) (hnone r hr)
          · exact hsafe r hr hcid
        · obtain ⟨_, _, hseq⟩ := bind_ok_iff.mp hseq
          cases hseq
          refine inOrder_updateRecord ?_ hsafe
          intro r r' heq
          cases heq
          exact ⟨rfl, id⟩

private theorem inOrder_pop {c' : Option Chunk} (h : rewriteBufferPop har b = .ok (c', b'))
    (hsafe : InOrder cid b.containerRecordSeq) : InOrder cid b'.containerRecordSeq := by
  unfold rewriteBufferPop at h
  split at h
  · cases h
    exact hsafe
  · split at h
    · cases h
      exact hsafe
    · split at h
      · obtain ⟨seq, hpop, h⟩ := bind_ok_iff.mp h
        cases h
        unfold popRecord at hpop
        split at hpop
        · cases hpop
        · cases hpop
          refine inOrder_updateRecord ?_ hsafe
          intro r r' heq
          split at heq
          · cases heq
          · cases heq
            exact ⟨rfl, id⟩
      · cases h
        exact hsafe

variable {t t' : RewriteThread (UtilityBuckets υ)} {d : Chunk}

private theorem passSignals_ok : ∀ fuel (t : RewriteThread (UtilityBuckets υ)),
    passSignals har fuel t = .ok (d, t') →
      ∃ signals queue, t.buffer.chunkQueue = signals ++ d :: queue ∧
        (∀ c ∈ signals, c.isSignal = true) ∧ d.isSignal = false ∧
        t'.buffer = { t.buffer with chunkQueue := d :: queue } ∧
        t'.rewriteQueue = t.rewriteQueue ++ signals := by
  intro fuel
  induction fuel with
  | zero =>
      intro t h
      cases h
  | succ fuel ih =>
      intro t h
      unfold passSignals rewriteBufferTop at h
      cases hqueue : t.buffer.chunkQueue with
      | nil =>
          rw [hqueue] at h
          cases h
      | cons c queue =>
          rw [hqueue, List.head?_cons] at h
          simp only at h
          split at h
          · rename_i hsignal
            obtain ⟨⟨c', b⟩, hpop, h⟩ := bind_ok_iff.mp h
            rw [rewriteBufferPop, hqueue] at hpop
            simp only [hsignal, if_true] at hpop
            cases hpop
            obtain ⟨signals, queue', hrest, hsignals, hd, hbuffer, hout⟩ := ih _ h
            have hrest : queue = signals ++ d :: queue' := hrest
            refine ⟨c :: signals, queue', by rw [hrest]; rfl, ?_, hd, hbuffer, ?_⟩
            · exact List.forall_mem_cons.mpr ⟨hsignal, hsignals⟩
            · rw [hout, List.append_assoc]
              rfl
          · rename_i hsignal
            cases h
            refine ⟨[], queue, rfl, fun c hc => absurd hc List.not_mem_nil,
              Bool.eq_false_of_not_eq_true hsignal, ?_, (List.append_nil _).symm⟩
            rw [← hqueue]

/-- A decision chunk is marked only where its record calls for it; where it is not, the record no
longer does. -/
private theorem cbrJudge_ok {arith : UtilityArith υ} {ub : UtilityBuckets υ} {queue : List Chunk}
    {utility : υ} (hb : b.Consistent) (hqueue : b.chunkQueue = d :: queue) (hsignal : d.isSignal = false)
    (h : cbrJudge arith ub b d = .ok (utility, b')) :
    ((b'.chunkQueue = d :: queue ∧ (d.id ≠ temporaryId → InOrder d.id b'.containerRecordSeq)) ∨
      (b'.chunkQueue = markOutOfOrder d :: queue ∧ ¬ InOrder d.id b.containerRecordSeq)) ∧
      ∀ cid, InOrder cid b.containerRecordSeq → InOrder cid b'.containerRecordSeq := by
  unfold cbrJudge at h
  split at h
  · rename_i hid
    cases h
    exact ⟨.inl ⟨hqueue, fun hne => absurd hid hne⟩, fun _ h => h⟩
  · rename_i hid
    obtain ⟨_, _, h⟩ := bind_ok_iff.mp h
    have hrange : InRange d.id := by
      cases hb.chunks d (hqueue ▸ List.mem_cons_self) with
      | signal h => exact absurd h (by simp [hsignal])
      | pending _ _ h => exact absurd h hid
      | stored _ _ _ hnonneg hlt => exact ⟨hnonneg, hlt⟩
    split at h
    · cases h
    · rename_i r hlookup
      obtain ⟨hr, hcid⟩ := lookupRecord_some hb.records.toRecordsSorted hrange hlookup
      -- The record that was found is the only one of the container.
      have hunique : ∀ r' ∈ b.containerRecordSeq, r'.cid = d.id → r' = r := fun r' hr' hcid' =>
        hb.records.toRecordsSorted.eq_of_cid hr' hr (hcid'.trans hcid.symm)
      split at h
      · rename_i hflag
        obtain ⟨u, _, h⟩ := bind_ok_iff.mp h
        split at h
        · cases h
          have hmem := fun r' => mem_updateRecord (r := r')
            (f := fun r => some { r with outOfOrder := false }) hb.records.toRecordsSorted hrange
          refine ⟨.inl ⟨hqueue, fun _ r' hr' hcid' => ?_⟩, fun cid hsafe => ?_⟩
          · rcases (hmem r').mp hr' with ⟨_, hne⟩ | ⟨r₀, _, _, heq⟩
            · exact absurd hcid' hne
            · cases heq
              rfl
          · refine inOrder_updateRecord ?_ hsafe
            intro r r' heq
            cases heq
            exact ⟨rfl, fun _ => rfl⟩
        · cases h
          have htop : markTop b = { b with chunkQueue := markOutOfOrder d :: queue } := by
            unfold markTop
            rw [hqueue]
          rw [htop]
          refine ⟨.inr ⟨rfl, fun hsafe => ?_⟩, fun _ h => h⟩
          exact Bool.false_ne_true ((hsafe r hr hcid).symm.trans hflag)
      · rename_i hflag
        cases h
        refine ⟨.inl ⟨hqueue, fun _ r' hr' hcid' => ?_⟩, fun _ h => h⟩
        rw [hunique r' hr' hcid']
        exact Bool.eq_false_of_not_eq_true hflag

end Steps

section Rounds

variable {υ : Type} {cfg : Config} {s : RewriteSettings υ} {t t' last : RewriteThread (UtilityBuckets υ)}
  {b : RewriteBuffer} {c : Chunk} {full : Bool} {cid : Int}
  {gone emitted done rest stream queue out : List Chunk}

/-- A round of `cbr_rewrite` that took in `c`: `b` is the buffer after the push, `gone` what left it. -/
private structure CbrRound (t : RewriteThread (UtilityBuckets υ)) (c : Chunk) (b : RewriteBuffer)
    (full : Bool) (t' : RewriteThread (UtilityBuckets υ)) (gone emitted : List Chunk) : Prop where
  queue : t.buffer.chunkQueue ++ [c] = gone ++ t'.buffer.chunkQueue
  out : t'.rewriteQueue = t.rewriteQueue ++ emitted
  consistent : t'.buffer.Consistent
  keeps : ∀ cid, InOrder cid b.containerRecordSeq → InOrder cid t'.buffer.containerRecordSeq
  marks : List.Forall₂ (fun a a' => a'.flag.outOfOrder = a.flag.outOfOrder ∨
    ¬ InOrder a.id b.containerRecordSeq) gone emitted
  decides : full = true → ∃ front d front' d', gone = front ++ [d] ∧ emitted = front' ++ [d'] ∧
    (d.Known → d'.flag.outOfOrder = false → InOrder d.id t'.buffer.containerRecordSeq)

private theorem cbrDecide_round (hb : t.buffer.Consistent) (hpos : 0 < t.buffer.num)
    (h : cbrDecide cfg s t = .ok t') :
    ∃ signals d d', t.buffer.chunkQueue = (signals ++ [d]) ++ t'.buffer.chunkQueue ∧
      t'.rewriteQueue = t.rewriteQueue ++ (signals ++ [d']) ∧ t'.buffer.Consistent ∧
      (∀ cid, InOrder cid t.buffer.containerRecordSeq → InOrder cid t'.buffer.containerRecordSeq) ∧
      (d'.flag.outOfOrder = d.flag.outOfOrder ∨ ¬ InOrder d.id t.buffer.containerRecordSeq) ∧
      (d.Known → d'.flag.outOfOrder = false → InOrder d.id t'.buffer.containerRecordSeq) := by
  obtain ⟨t₀, hok, _, hconsistent, _⟩ := cbrDecide_spec cfg s hb hpos
  rw [h] at hok
  cases hok
  obtain ⟨⟨d, t₁⟩, hpass, h⟩ := bind_ok_iff.mp h
  obtain ⟨⟨utility, b⟩, hjudge, h⟩ := bind_ok_iff.mp h
  obtain ⟨⟨d', b'⟩, hpop, h⟩ := bind_ok_iff.mp h
  obtain ⟨signals, queue, hqueue, _, hcontent, hbuffer, hout⟩ := passSignals_ok _ t hpass
  obtain ⟨d₁, _, t₁', hpass', _, hb₁, _⟩ := passSignals_spec (s.har cfg) _ t hb rfl hpos
  rw [hpass] at hpass'
  cases hpass'
  have hqueue₁ : t₁.buffer.chunkQueue = d :: queue := by rw [hbuffer]
  have hseq₁ : t₁.buffer.containerRecordSeq = t.buffer.containerRecordSeq := by rw [hbuffer]
  obtain ⟨hcases, hkeeps⟩ := cbrJudge_ok hb₁ hqueue₁ hcontent hjudge
  rw [hseq₁] at hcases hkeeps
  have hkeeps' : ∀ cid, InOrder cid t.buffer.containerRecordSeq → InOrder cid b'.containerRecordSeq :=
    fun cid hsafe => inOrder_pop hpop (hkeeps cid hsafe)
  rcases hcases with ⟨hqueue₂, hsafe⟩ | ⟨hqueue₂, hmarked⟩
  · obtain ⟨rfl, hqueue', _⟩ := rewriteBufferPop_ok hqueue₂ hpop
    cases h
    refine ⟨signals, d, popped (s.har cfg) d, ?_, ?_, hconsistent, hkeeps', .inl popped_outOfOrder,
      fun hknown _ => inOrder_pop hpop (hsafe hknown.2)⟩
    · show _ = signals ++ [d] ++ b'.chunkQueue
      rw [hqueue, hqueue', List.append_assoc]
      rfl
    · show t₁.rewriteQueue ++ _ = _
      rw [hout, List.append_assoc]
  · obtain ⟨rfl, hqueue', _⟩ := rewriteBufferPop_ok hqueue₂ hpop
    cases h
    refine ⟨signals, d, popped (s.har cfg) (markOutOfOrder d), ?_, ?_, hconsistent, hkeeps',
      .inr hmarked, fun _ hfalse => ?_⟩
    · show _ = signals ++ [d] ++ b'.chunkQueue
      rw [hqueue, hqueue', List.append_assoc]
      rfl
    · show t₁.rewriteQueue ++ _ = _
      rw [hout, List.append_assoc]
    · rw [popped_outOfOrder] at hfalse
      exact absurd hfalse (by simp [markOutOfOrder])

private theorem cbrBody_round (hb : t.buffer.Consistent) (hc : c.Judgeable)
    (hfits : bufferedBytes (t.buffer.chunkQueue ++ [c]) < 2 ^ 31)
    (h : (cbrRewrite cfg s).body cfg.rewriteBufferSize t c = .ok t') :
    ∃ full b gone emitted, rewriteBufferPush cfg.rewriteBufferSize t.buffer c = .ok (full, b) ∧
      (full = true → cbrDecide cfg s { t with buffer := b } = .ok t') ∧
      CbrRound t c b full t' gone emitted := by
  obtain ⟨t₁, hbefore, h⟩ := bind_ok_iff.mp h
  cases hbefore
  obtain ⟨⟨full, b⟩, hpush, hafter⟩ := bind_ok_iff.mp h
  have hconsistent := rewriteBufferPush_consistent hb hc hfits hpush
  have hqueue := rewriteBufferPush_queue hpush
  cases full with
  | false =>
      cases hafter
      exact ⟨false, b, [], [], hpush, nofun,
        { queue := hqueue.symm
          out := (List.append_nil _).symm
          consistent := hconsistent
          keeps := fun _ h => h
          marks := .nil
          decides := nofun }⟩
  | true =>
      have hdecide : cbrDecide cfg s { t with buffer := b } = .ok t' := hafter
      have hpos : 0 < b.num := by
        cases hsignal : c.isSignal with
        | true =>
            have hfull := (rewriteBufferPush_signal hsignal hpush).1
            cases hfull
        | false =>
            have hcount := hconsistent.num
            rw [hqueue, bufferedNum_append, bufferedNum_cons, hsignal] at hcount
            simp only [Bool.false_eq_true, if_false, bufferedNum_nil] at hcount
            omega
      obtain ⟨signals, d, d', hsplit, hout, hconsistent', hkeeps, hmark, hsafe⟩ :=
        cbrDecide_round (t := { t with buffer := b }) hconsistent hpos hdecide
      refine ⟨true, b, signals ++ [d], signals ++ [d'], hpush, fun _ => hdecide,
        { queue := by rw [← hqueue]; exact hsplit
          out := hout
          consistent := hconsistent'
          keeps := hkeeps
          marks := ?_
          decides := fun _ => ⟨signals, d, signals, d', rfl, rfl, hsafe⟩ }⟩
      refine List.rel_append (List.forall₂_same.mpr fun a _ => .inl rfl) (.cons hmark .nil)

def CbrReaches (cfg : Config) (s : RewriteSettings υ) (stream : List Chunk)
    (t : RewriteThread (UtilityBuckets υ)) : Prop :=
  foldE ((cbrRewrite cfg s).body cfg.rewriteBufferSize) (cbrRewrite cfg s).init stream = .ok t

/-- A thread between two rounds, with the stream that is left. -/
private structure CbrState (cfg : Config) (s : RewriteSettings υ) (done rest : List Chunk)
    (t : RewriteThread (UtilityBuckets υ)) : Prop where
  consistent : t.buffer.Consistent
  fits : (cbrRewrite cfg s).totalsFit cfg.rewriteBufferSize t rest = true
  stream : ∀ c ∈ rest, c.Judgeable
  queue : t.buffer.chunkQueue = done.drop t.rewriteQueue.length
  length : t.rewriteQueue.length ≤ done.length

private theorem CbrState.body (ht : CbrState cfg s done (c :: rest) t)
    (h : (cbrRewrite cfg s).body cfg.rewriteBufferSize t c = .ok t') :
    ∃ full b gone emitted, rewriteBufferPush cfg.rewriteBufferSize t.buffer c = .ok (full, b) ∧
      (full = true → cbrDecide cfg s { t with buffer := b } = .ok t') ∧
      CbrRound t c b full t' gone emitted ∧ CbrState cfg s (done ++ [c]) rest t' := by
  have hfits := ht.fits
  unfold RewriteLoop.totalsFit at hfits
  rw [h, Bool.and_eq_true] at hfits
  have hbytes : bufferedBytes (t.buffer.chunkQueue ++ [c]) < 2 ^ 31 := of_decide_eq_true hfits.1
  obtain ⟨full, b, gone, emitted, hpush, hdecide, hround⟩ :=
    cbrBody_round ht.consistent (ht.stream c List.mem_cons_self) hbytes h
  have hlength := hround.marks.length_eq
  have hsplit := congrArg List.length hround.queue
  have hold := congrArg List.length ht.queue
  have hle := ht.length
  rw [List.length_append, List.length_append, List.length_singleton] at hsplit
  rw [List.length_drop] at hold
  refine ⟨full, b, gone, emitted, hpush, hdecide, hround,
    { consistent := hround.consistent
      fits := hfits.2
      stream := fun c' hc' => ht.stream c' (List.mem_cons_of_mem c hc')
      queue := ?_
      length := ?_ }⟩
  · have hdrop : (done ++ [c]).drop t.rewriteQueue.length = gone ++ t'.buffer.chunkQueue := by
      rw [List.drop_append_of_le_length hle, ← ht.queue]
      exact hround.queue
    rw [hround.out, List.length_append, ← hlength, ← List.drop_drop, hdrop, List.drop_left]
  · rw [hround.out, List.length_append, List.length_append, List.length_singleton]
    omega

/-- The chunks of a container that are in a buffer leave it as they came. `start` is the position of
the first chunk of the buffer. -/
private def LeaveUnmarked (cid : Int) (queue : List Chunk) (start : Nat) (out : List Chunk) : Prop :=
  ∀ (j : Nat) (y y' : Chunk), queue[j]? = some y → y.Known → y.id = cid →
    y.flag.outOfOrder = false → out[start + j]? = some y' → y'.flag.outOfOrder = false

private theorem CbrRound.leaveUnmarked (hround : CbrRound t c b full t' gone emitted)
    (hsafe : InOrder cid b.containerRecordSeq)
    (hrest : LeaveUnmarked cid t'.buffer.chunkQueue t'.rewriteQueue.length out)
    (hextends : t'.rewriteQueue <+: out) :
    LeaveUnmarked cid (t.buffer.chunkQueue ++ [c]) t.rewriteQueue.length out := by
  intro j y y' hy hknown hid hclean hy'
  have hlength := hround.marks.length_eq
  rw [hround.queue] at hy
  by_cases hgone : j < gone.length
  · rw [List.getElem?_append_left hgone] at hy
    obtain ⟨behind, rfl⟩ := hextends
    have hemitted : emitted[j]? = some y' := by
      rw [hround.out, List.append_assoc, List.getElem?_append_right (Nat.le_add_right _ _),
        Nat.add_sub_cancel_left, List.getElem?_append_left (hlength ▸ hgone)] at hy'
      exact hy'
    obtain ⟨hj, rfl⟩ := List.getElem?_eq_some_iff.mp hy
    obtain ⟨hj', rfl⟩ := List.getElem?_eq_some_iff.mp hemitted
    rcases hround.marks.get hj hj' with hsame | hmarked
    · exact hsame.trans hclean
    · exact absurd (hid ▸ hsafe) hmarked
  · have hge := Nat.not_lt.mp hgone
    rw [List.getElem?_append_right hge] at hy
    apply hrest (j - gone.length) y y' hy hknown hid hclean
    have hindex : t'.rewriteQueue.length + (j - gone.length) = t.rewriteQueue.length + j := by
      rw [hround.out, List.length_append]
      omega
    rw [hindex]
    exact hy'

private theorem CbrState.bytesIn_pos (ht : CbrState cfg s done rest t) {y : Chunk}
    (hy : y ∈ t.buffer.chunkQueue) (hknown : y.Known) : 0 < bytesIn y.id t.buffer.chunkQueue := by
  have hsize : 0 < y.size := by
    cases ht.consistent.chunks y hy with
    | signal h => exact absurd h (by simp [hknown.1])
    | pending _ hsize _ => exact hsize
    | stored _ hsize _ _ _ => exact hsize
  obtain ⟨front, behind, hsplit⟩ := List.append_of_mem hy
  rw [hsplit, bytesIn_append, bytesIn_cons, if_pos ⟨hknown.1, hknown.2, rfl⟩]
  omega

/-- From a state in which the record of a container does not call for marks, none of its chunks in
the buffer is marked until the end. -/
private theorem leaveUnmarked_of_inOrder : ∀ (rest done : List Chunk)
    (t t' : RewriteThread (UtilityBuckets υ)),
    CbrState cfg s done rest t →
      foldE ((cbrRewrite cfg s).body cfg.rewriteBufferSize) t rest = .ok t' →
      (cbrRewrite cfg s).finish t' = .ok last →
      t.rewriteQueue <+: last.rewriteQueue ∧
        ∀ cid, InOrder cid t.buffer.containerRecordSeq →
          LeaveUnmarked cid t.buffer.chunkQueue t.rewriteQueue.length last.rewriteQueue := by
  intro rest
  induction rest with
  | nil =>
      intro done t t' ht hfold hfinish
      cases hfold
      obtain ⟨emitted, hflushed⟩ := flush_ok hfinish
      refine ⟨hflushed.rewriteQueue ▸ List.prefix_append _ _, fun cid _ j y y' hy _ _ hclean hy' => ?_⟩
      rw [hflushed.rewriteQueue, List.getElem?_append_right (Nat.le_add_right _ _),
        Nat.add_sub_cancel_left] at hy'
      obtain ⟨hj, rfl⟩ := List.getElem?_eq_some_iff.mp hy
      obtain ⟨hj', rfl⟩ := List.getElem?_eq_some_iff.mp hy'
      have hpassed := Except.ok.inj (hflushed.marked.get hj hj')
      rw [List.get_eq_getElem, List.get_eq_getElem] at hpassed
      rw [← hpassed, popped_outOfOrder]
      exact hclean
  | cons c rest ih =>
      intro done t t' ht hfold hfinish
      obtain ⟨t₁, hstep, hfold⟩ := bind_ok_iff.mp hfold
      obtain ⟨full, b, gone, emitted, hpush, _, hround, ht₁⟩ := ht.body hstep
      obtain ⟨hextends, hleave⟩ := ih (done ++ [c]) t₁ t' ht₁ hfold hfinish
      refine ⟨?_, fun cid hsafe j y y' hy hknown hid hclean hy' => ?_⟩
      · exact List.IsPrefix.trans (hround.out ▸ List.prefix_append _ _) hextends
      · have hpos := ht.bytesIn_pos (List.mem_of_getElem? hy) hknown
        rw [hid] at hpos
        have hpushed := inOrder_push ht.consistent (ht.stream c List.mem_cons_self) (fun _ _ => hpos)
          hpush hsafe
        obtain ⟨hj, _⟩ := List.getElem?_eq_some_iff.mp hy
        refine hround.leaveUnmarked hpushed (hleave cid (hround.keeps cid hpushed)) hextends j y y' ?_
          hknown hid hclean hy'
        rw [List.getElem?_append_left hj]
        exact hy

end Rounds

section Claim

variable {υ : Type} {cfg : Config} {s : RewriteSettings υ}
  {t t' last : RewriteThread (UtilityBuckets υ)} {c : Chunk} {cid : Int}
  {done rest stream : List Chunk}

/-- The round that takes in the chunk at position `i` of the stream judges the one at position `d`. -/
def CbrDecides (cfg : Config) (s : RewriteSettings υ) (stream : List Chunk) (i d : Nat) : Prop :=
  ∃ done c rest t b t', stream = done ++ c :: rest ∧ done.length = i ∧ CbrReaches cfg s done t ∧
    rewriteBufferPush cfg.rewriteBufferSize t.buffer c = .ok (true, b) ∧
    cbrDecide cfg s { t with buffer := b } = .ok t' ∧ t'.rewriteQueue.length = d + 1

/-- The chunk at position `m` is still in the buffer when the one at position `k` is pushed. -/
def CbrHolds (cfg : Config) (s : RewriteSettings υ) (stream : List Chunk) (k m : Nat) : Prop :=
  m < k ∧ ∃ t, CbrReaches cfg s (stream.take k) t ∧ t.rewriteQueue.length ≤ m

private theorem cbrState_init (hstream : ∀ c ∈ stream, c.Judgeable)
    (hfits : (cbrRewrite cfg s).totalsFit cfg.rewriteBufferSize (cbrRewrite cfg s).init stream = true) :
    CbrState cfg s [] stream (cbrRewrite cfg s).init :=
  { consistent := initRewriteBuffer_consistent
    fits := hfits
    stream := hstream
    queue := rfl
    length := Nat.le_refl 0 }

private theorem cbrState_fold : ∀ (mid done : List Chunk) (t : RewriteThread (UtilityBuckets υ)),
    CbrState cfg s done (mid ++ rest) t →
      foldE ((cbrRewrite cfg s).body cfg.rewriteBufferSize) t mid = .ok t' →
        CbrState cfg s (done ++ mid) rest t' ∧ t.rewriteQueue <+: t'.rewriteQueue := by
  intro mid
  induction mid with
  | nil =>
      intro done t ht hfold
      cases hfold
      rw [List.append_nil]
      exact ⟨ht, List.prefix_refl _⟩
  | cons c mid ih =>
      intro done t ht hfold
      obtain ⟨t₁, hstep, hfold⟩ := bind_ok_iff.mp hfold
      obtain ⟨_, _, _, _, _, _, hround, ht₁⟩ := ht.body hstep
      obtain ⟨ht', hextends⟩ := ih (done ++ [c]) t₁ ht₁ hfold
      rw [List.append_assoc] at ht'
      exact ⟨ht', List.IsPrefix.trans (hround.out ▸ List.prefix_append _ _) hextends⟩

private theorem inOrder_fold {m : Nat} {z : Chunk} (hknown : z.Known) :
    ∀ (mid done : List Chunk) (t : RewriteThread (UtilityBuckets υ)),
      CbrState cfg s done (mid ++ rest) t →
        foldE ((cbrRewrite cfg s).body cfg.rewriteBufferSize) t mid = .ok t' →
          done[m]? = some z → t'.rewriteQueue.length ≤ m →
            InOrder z.id t.buffer.containerRecordSeq → InOrder z.id t'.buffer.containerRecordSeq := by
  intro mid
  induction mid with
  | nil =>
      intro done t _ hfold _ _ hsafe
      cases hfold
      exact hsafe
  | cons c mid ih =>
      intro done t ht hfold hz hm hsafe
      have hextends := (cbrState_fold (c :: mid) done t ht hfold).2
      obtain ⟨t₁, hstep, hfold⟩ := bind_ok_iff.mp hfold
      obtain ⟨_, b, _, _, hpush, _, hround, ht₁⟩ := ht.body hstep
      have hle : t.rewriteQueue.length ≤ m := Nat.le_trans hextends.length_le hm
      have hmem : z ∈ t.buffer.chunkQueue := by
        refine List.mem_of_getElem? (i := m - t.rewriteQueue.length) ?_
        rw [ht.queue, List.getElem?_drop, Nat.add_sub_cancel' hle]
        exact hz
      have hpushed := inOrder_push ht.consistent (ht.stream c List.mem_cons_self)
        (fun _ _ => ht.bytesIn_pos hmem hknown) hpush hsafe
      refine ih (done ++ [c]) t₁ ht₁ hfold ?_ hm (hround.keeps z.id hpushed)
      rw [List.getElem?_append_left (List.getElem?_eq_some_iff.mp hz).1]
      exact hz

private theorem foldE_split {σ : Type} {f : σ → Chunk → Except Abort σ} {x y : σ}
    {front behind : List Chunk} (h : foldE f x (front ++ behind) = .ok y) :
    ∃ z, foldE f x front = .ok z ∧ foldE f z behind = .ok y := by
  rw [foldE_append] at h
  exact bind_ok_iff.mp h

private theorem split_at {front behind : List Chunk} {k : Nat} {y : Chunk}
    (hy : (front ++ behind)[k]? = some y) (hk : front.length ≤ k) :
    ∃ mid rest, behind = mid ++ y :: rest ∧ (front ++ behind).take k = front ++ mid ∧
      (front ++ mid).length = k := by
  rw [List.getElem?_append_right hk] at hy
  obtain ⟨hlt, rfl⟩ := List.getElem?_eq_some_iff.mp hy
  refine ⟨behind.take (k - front.length), behind.drop (k - front.length + 1), ?_, ?_, ?_⟩
  · rw [List.cons_getElem_drop_succ, List.take_append_drop]
  · rw [List.take_append, List.take_of_length_le hk]
  · rw [List.length_append, List.length_take]
    omega

/-- After a decision that a chunk is not fragmented, the record of its container does not call for
marks. -/
private theorem inOrder_of_decided {b : RewriteBuffer} (ht : CbrState cfg s done (c :: rest) t)
    (hpush : rewriteBufferPush cfg.rewriteBufferSize t.buffer c = .ok (true, b))
    (hdecide : cbrDecide cfg s { t with buffer := b } = .ok t') {d : Nat}
    (hlength : t'.rewriteQueue.length = d + 1) (hextends : t'.rewriteQueue <+: last.rewriteQueue)
    {x x' : Chunk} (hx : (done ++ c :: rest)[d]? = some x) (hknown : x.Known)
    (hx' : last.rewriteQueue[d]? = some x') (hkept : x'.flag.outOfOrder = false) :
    InOrder x.id t'.buffer.containerRecordSeq := by
  have hstep : (cbrRewrite cfg s).body cfg.rewriteBufferSize t c = .ok t' :=
    bind_ok_iff.mpr ⟨t, rfl, bind_ok_iff.mpr ⟨(true, b), hpush, hdecide⟩⟩
  obtain ⟨full, b', gone, emitted, hpush', _, hround, _⟩ := ht.body hstep
  rw [hpush] at hpush'
  cases hpush'
  obtain ⟨front, e, front', e', rfl, rfl, hsafe⟩ := hround.decides rfl
  have hsame : front.length = front'.length := by
    have heq := hround.marks.length_eq
    rw [List.length_append, List.length_append] at heq
    exact Nat.add_right_cancel heq
  have hd : d = t.rewriteQueue.length + front.length := by
    rw [hround.out, List.length_append, List.length_append, List.length_singleton] at hlength
    omega
  have hx₁ : x = e := by
    have hdrop : (done ++ [c]).drop t.rewriteQueue.length =
        (front ++ [e]) ++ t'.buffer.chunkQueue := by
      rw [List.drop_append_of_le_length ht.length, ← ht.queue]
      exact hround.queue
    have hget : (done ++ [c])[d]? = some e := by
      rw [hd, ← List.getElem?_drop, hdrop, List.append_assoc,
        List.getElem?_append_right (Nat.le_refl _), Nat.sub_self]
      rfl
    have hstream : done ++ c :: rest = (done ++ [c]) ++ rest := by rw [List.append_assoc]; rfl
    rw [hstream, List.getElem?_append_left (List.getElem?_eq_some_iff.mp hget).1, hget] at hx
    exact (Option.some.inj hx).symm
  have hx₂ : x' = e' := by
    obtain ⟨behind, hlast⟩ := hextends
    have hget : t'.rewriteQueue[d]? = some e' := by
      rw [hround.out, ← List.append_assoc, hd, hsame, ← List.length_append,
        List.getElem?_append_right (Nat.le_refl _), Nat.sub_self]
      rfl
    rw [← hlast, List.getElem?_append_left (List.getElem?_eq_some_iff.mp hget).1, hget] at hx'
    exact (Option.some.inj hx').symm
  rw [hx₁] at hknown ⊢
  exact hsafe hknown (hx₂ ▸ hkept)

private theorem pushed_unmarked {front mid behind : List Chunk}
    {t₁ tk tEnd : RewriteThread (UtilityBuckets υ)}
    {m : Nat} {y y' z : Chunk} (ht₁ : CbrState cfg s front (mid ++ y :: behind) t₁)
    (hfold : foldE ((cbrRewrite cfg s).body cfg.rewriteBufferSize) t₁ (mid ++ y :: behind) = .ok tEnd)
    (hfinish : (cbrRewrite cfg s).finish tEnd = .ok last)
    (hmid : foldE ((cbrRewrite cfg s).body cfg.rewriteBufferSize) t₁ mid = .ok tk)
    (hz : front[m]? = some z) (hzknown : z.Known) (hm : tk.rewriteQueue.length ≤ m)
    (hsafe : InOrder z.id t₁.buffer.containerRecordSeq) (hyknown : y.Known) (hid : y.id = z.id)
    (hclean : y.flag.outOfOrder = false) (hy' : last.rewriteQueue[(front ++ mid).length]? = some y') :
    y'.flag.outOfOrder = false := by
  have hsafek := inOrder_fold hzknown mid front t₁ ht₁ hmid hz hm hsafe
  obtain ⟨htk, _⟩ := cbrState_fold mid front t₁ ht₁ hmid
  have hzqueue : z ∈ tk.buffer.chunkQueue := by
    refine List.mem_of_getElem? (i := m - tk.rewriteQueue.length) ?_
    rw [htk.queue, List.getElem?_drop, Nat.add_sub_cancel' hm,
      List.getElem?_append_left (List.getElem?_eq_some_iff.mp hz).1]
    exact hz
  obtain ⟨tk', hmid', hfoldk⟩ := foldE_split hfold
  have hsame : tk' = tk := Except.ok.inj (hmid'.symm.trans hmid)
  rw [hsame] at hfoldk
  obtain ⟨tn, hstep, hfoldn⟩ := bind_ok_iff.mp hfoldk
  obtain ⟨_, b, _, _, hpush, _, hround, htn⟩ := htk.body hstep
  obtain ⟨hextends, hleave⟩ := leaveUnmarked_of_inOrder behind _ tn tEnd htn hfoldn hfinish
  have hpushed := inOrder_push htk.consistent (htk.stream y List.mem_cons_self)
    (fun _ _ => htk.bytesIn_pos hzqueue hzknown) hpush hsafek
  have hlength : tk.rewriteQueue.length + tk.buffer.chunkQueue.length = (front ++ mid).length := by
    rw [htk.queue, List.length_drop, Nat.add_sub_cancel' htk.length]
  refine hround.leaveUnmarked hpushed (hleave z.id (hround.keeps z.id hpushed)) hextends
    tk.buffer.chunkQueue.length y y' ?_ hyknown hid hclean ?_
  · rw [List.getElem?_append_right (Nat.le_refl _), Nat.sub_self]
    rfl
  · rw [hlength]
    exact hy'

/-- Once `cbr_rewrite` has judged a chunk of a container as not fragmented, letting it pass unmarked,
no chunk of the container that is in the buffer, and none that is pushed while one of these is still
there, leaves marked; nor does a chunk that is passed on at the end. -/
theorem cbr_protects_neighbours (cfg : Config) (s : RewriteSettings υ) (stream : List Chunk)
    (hstream : ∀ c ∈ stream, c.Judgeable) (hclean : ∀ c ∈ stream, c.flag.outOfOrder = false)
    (hfits : (cbrRewrite cfg s).totalsFit cfg.rewriteBufferSize (cbrRewrite cfg s).init stream = true)
    (last : RewriteThread (UtilityBuckets υ))
    (hrun : (cbrRewrite cfg s).run cfg.rewriteBufferSize stream = .ok last) :
    (∀ i d x x', CbrDecides cfg s stream i d → stream[d]? = some x → x.Known →
      last.rewriteQueue[d]? = some x' → x'.flag.outOfOrder = false →
        ∀ k y y', stream[k]? = some y → y.Known → y.id = x.id → last.rewriteQueue[k]? = some y' →
          ((d ≤ k ∧ k ≤ i) ∨ (i < k ∧ ∃ m z, d ≤ m ∧ m ≤ i ∧ stream[m]? = some z ∧ z.Known ∧
            z.id = x.id ∧ CbrHolds cfg s stream k m)) →
            y'.flag.outOfOrder = false) ∧
      ∀ t, CbrReaches cfg s stream t → ∀ k y', t.rewriteQueue.length ≤ k →
        last.rewriteQueue[k]? = some y' → y'.flag.outOfOrder = false := by
  obtain ⟨tEnd, hfold, hfinish⟩ := bind_ok_iff.mp hrun
  have hinit := cbrState_init hstream hfits
  constructor
  · rintro i d x x' ⟨done, c, rest, t, b, t₁, rfl, rfl, hreach, hpush, hdecide, hlength⟩ hx hxknown hx'
      hkept k y y' hy hyknown hid hy' hwhere
    have hstep : (cbrRewrite cfg s).body cfg.rewriteBufferSize t c = .ok t₁ :=
      bind_ok_iff.mpr ⟨t, rfl, bind_ok_iff.mpr ⟨(true, b), hpush, hdecide⟩⟩
    have hdone₁ : CbrReaches cfg s (done ++ [c]) t₁ := by
      unfold CbrReaches
      rw [foldE_append]
      exact bind_ok_iff.mpr ⟨t, hreach, bind_ok_iff.mpr ⟨t₁, hstep, rfl⟩⟩
    have hassoc : done ++ c :: rest = (done ++ [c]) ++ rest := by rw [List.append_assoc]; rfl
    have hsize : (done ++ [c]).length = done.length + 1 := by rw [List.length_append]; rfl
    rw [hassoc] at hfold hy hclean
    obtain ⟨t₁', hdone₁', hfold⟩ := foldE_split hfold
    have hsame : t₁' = t₁ := Except.ok.inj (hdone₁'.symm.trans hdone₁)
    rw [hsame] at hfold
    have ht : CbrState cfg s done (c :: rest) t := (cbrState_fold done [] _ hinit hreach).1
    obtain ⟨_, _, _, _, _, _, _, ht₁⟩ := ht.body hstep
    obtain ⟨hextends, hleave⟩ := leaveUnmarked_of_inOrder rest (done ++ [c]) t₁ tEnd ht₁ hfold hfinish
    have hsafe := inOrder_of_decided ht hpush hdecide hlength hextends hx hxknown hx' hkept
    have hyclean := hclean y (List.mem_of_getElem? hy)
    rcases hwhere with ⟨hdk, hki⟩ | ⟨hik, m, z, hdm, hmi, hz, hzknown, hzid, _, tk, hreach', hm⟩
    · rcases Nat.eq_or_lt_of_le hdk with rfl | hlt
      · rw [hx'] at hy'
        exact Option.some.inj hy' ▸ hkept
      · -- In the buffer, behind the decision chunk.
        refine hleave x.id hsafe (k - (d + 1)) y y' ?_ hyknown hid hyclean ?_
        · rw [ht₁.queue, hlength, List.getElem?_drop, Nat.add_sub_cancel' hlt]
          rw [List.getElem?_append_left (by omega)] at hy
          exact hy
        · rw [hlength, Nat.add_sub_cancel' hlt]
          exact hy'
    · -- Pushed later, while the record has never been gone.
      obtain ⟨mid, behind, rfl, htake, hpos⟩ := split_at hy (by omega)
      unfold CbrReaches at hreach'
      rw [hassoc, htake] at hreach'
      obtain ⟨t₂, hdone₂, hmid⟩ := foldE_split hreach'
      have hsame₂ : t₂ = t₁ := Except.ok.inj (hdone₂.symm.trans hdone₁)
      rw [hsame₂] at hmid
      rw [hassoc, List.getElem?_append_left (by omega)] at hz
      exact pushed_unmarked ht₁ hfold hfinish hmid hz hzknown hm (hzid ▸ hsafe) hyknown
        (hid.trans hzid.symm) hyclean (hpos ▸ hy')
  · intro t hreach k y' hk hy'
    have hsame : tEnd = t := Except.ok.inj (hfold.symm.trans hreach)
    rw [hsame] at hfinish
    have ht : CbrState cfg s stream [] t :=
      (cbrState_fold stream [] _ ((List.append_nil stream).symm ▸ hinit) hreach).1
    obtain ⟨emitted, hflushed⟩ := flush_ok hfinish
    rw [hflushed.rewriteQueue, List.getElem?_append_right hk] at hy'
    obtain ⟨y, hy, hpassed⟩ := mem_forall₂_right hflushed.marked (List.mem_of_getElem? hy')
    rw [← Except.ok.inj hpassed, popped_outOfOrder]
    exact hclean y (List.mem_of_mem_drop (ht.queue ▸ hy))

set_option maxRecDepth 4000 in
private theorem two_chunks_run : ∃ last,
    (cbrRewrite (rewriteConfig .contextBased 2) smallSettings).run 2
        [storedChunk 3 3000000, storedChunk 3 3000000] = .ok last ∧
      last.rewriteQueue = [storedChunk 3 3000000, storedChunk 3 3000000] ∧
      CbrDecides (rewriteConfig .contextBased 2) smallSettings
        [storedChunk 3 3000000, storedChunk 3 3000000] 1 0 :=
  ⟨_, rfl, rfl, [storedChunk 3 3000000], _, [], _, _, _, rfl, rfl, rfl, rfl, rfl, rfl⟩

/-- Two chunks that fill their container. -/
theorem cbr_protects_neighbours_two_chunks : ∃ last,
    (cbrRewrite (rewriteConfig .contextBased 2) smallSettings).run 2
        [storedChunk 3 3000000, storedChunk 3 3000000] = .ok last ∧
      ∀ y', last.rewriteQueue[1]? = some y' → y'.flag.outOfOrder = false := by
  obtain ⟨last, hrun, hout, hdecides⟩ := two_chunks_run
  have hjudgeable : ∀ c ∈ [storedChunk 3 3000000, storedChunk 3 3000000], c.Judgeable := by
    intro c hc
    have heq : c = storedChunk 3 3000000 := by simpa using hc
    rw [heq]
    exact .stored rfl (by decide) rfl (by decide) (by decide)
  have hfirst : last.rewriteQueue[0]? = some (storedChunk 3 3000000) := by rw [hout]; rfl
  refine ⟨last, hrun, fun y' hy' => ?_⟩
  exact (cbr_protects_neighbours (rewriteConfig .contextBased 2) smallSettings _ hjudgeable (by decide)
    (by decide +kernel) last hrun).1 1 0 _ _ hdecides rfl ⟨rfl, by decide⟩ hfirst rfl 1 _ y' rfl
      ⟨rfl, by decide⟩ rfl hy' (.inl ⟨by decide, by decide⟩)

end Claim

end Destor
