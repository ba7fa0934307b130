/- digest: The buffers that CFL judges: runs of one container, unless chunks whose container is not
   known yet are in front of them. -/

import Destor.Library.RelatedLists
import Destor.RewriteSteps
import Mathlib.Data.List.DropRight

set_option autoImplicit false
set_option relaxedAutoImplicit false

namespace Destor

open Library.Outcome Library.RelatedLists

section Runs

variable {n : Nat} {cid : Int} {c : Chunk} {run stream : List Chunk}

def tailOf (cid : Int) (stream : List Chunk) : List Chunk := stream.rtakeWhile fun c => c.id == cid

/-- What is left of a run after whole buffers of `n`, at least the last item. -/
def lastPiece (n : Nat) (run : List Chunk) : List Chunk := run.drop ((run.length - 1) / n * n)

def ownRun (cid : Int) (queue : List Chunk) : List Chunk :=
  (queue.dropWhile fun c => c.id != cid).takeWhile fun c => c.id == cid

theorem tailOf_snoc (h : c.id = cid) : tailOf cid (stream ++ [c]) = tailOf cid stream ++ [c] :=
  List.rtakeWhile_concat_pos _ _ _ (beq_iff_eq.mpr h)

theorem id_of_mem_tailOf (h : c ∈ tailOf cid stream) : c.id = cid :=
  beq_iff_eq.mp (List.mem_rtakeWhile_imp (p := fun c : Chunk => c.id == cid) h)

theorem tailOf_eq_nil (h : ∀ c ∈ stream.getLast?, c.id ≠ cid) : tailOf cid stream = [] := by
  apply List.rtakeWhile_eq_nil_iff.mpr
  intro hne heq
  exact h _ (List.getLast?_eq_getLast_of_ne_nil hne) (beq_iff_eq.mp heq)

theorem tailOf_ne_nil (h : c ∈ stream.getLast?) (hc : c.id = cid) : tailOf cid stream ≠ [] := by
  obtain ⟨front, rfl⟩ := List.getLast?_eq_some_iff.mp h
  rw [tailOf_snoc hc]
  exact List.append_ne_nil_of_right_ne_nil _ (List.cons_ne_nil c [])

/-- A run that grows starts a new piece after each whole buffer. -/
theorem lastPiece_snoc (hn : 1 ≤ n) : lastPiece n (run ++ [c]) =
    if n ∣ run.length then [c] else lastPiece n run ++ [c] := by
  have hlength : (run ++ [c]).length - 1 = run.length := by simp
  unfold lastPiece
  rw [hlength]
  split
  · rename_i hdvd
    rw [Nat.div_mul_cancel hdvd, List.drop_left]
  · rename_i hdvd
    have hmod : 0 < run.length % n := Nat.pos_of_ne_zero fun h => hdvd (Nat.dvd_of_mod_eq_zero h)
    have hlt : run.length % n < n := Nat.mod_lt _ hn
    have hsplit := Nat.div_add_mod run.length n
    have hquot : (run.length - 1) / n = run.length / n := by
      have hpred : run.length - 1 = n * (run.length / n) + (run.length % n - 1) := by omega
      have hzero : (run.length % n - 1) / n = 0 := Nat.div_eq_of_lt (by omega)
      rw [hpred, Nat.mul_add_div hn, hzero, Nat.add_zero]
    rw [hquot, List.drop_append_of_le_length (Nat.div_mul_le_self _ _)]

/-- A piece is full exactly when the run fills whole buffers. -/
theorem length_lastPiece (hn : 1 ≤ n) (hrun : run ≠ []) :
    (lastPiece n run).length = n ↔ n ∣ run.length := by
  have hpos : 0 < run.length := List.length_pos_iff.mpr hrun
  have hsplit := Nat.div_add_mod (run.length - 1) n
  have hlt : (run.length - 1) % n < n := Nat.mod_lt _ hn
  have hlength : (lastPiece n run).length = (run.length - 1) % n + 1 := by
    unfold lastPiece
    rw [List.length_drop, Nat.mul_comm]
    omega
  have hwhole : run.length = n * ((run.length - 1) / n) + ((run.length - 1) % n + 1) := by omega
  rw [hlength]
  constructor
  · intro h
    rw [hwhole, h]
    exact Nat.dvd_add (Nat.dvd_mul_right n _) (Nat.dvd_refl n)
  · intro h
    rw [hwhole] at h
    have hdvd := (Nat.dvd_add_right (Nat.dvd_mul_right n _)).mp h
    have hle := Nat.le_of_dvd (Nat.succ_pos _) hdvd
    omega

theorem lastPiece_subset : lastPiece n run ⊆ run := List.drop_subset _ _

theorem ownRun_append {front piece : List Chunk} (hfront : ∀ c ∈ front, c.id ≠ cid)
    (hpiece : ∀ c ∈ piece, c.id = cid) : ownRun cid (front ++ piece) = piece := by
  have hkeep : piece.dropWhile (fun c => c.id != cid) = piece := by
    cases piece with
    | nil => rfl
    | cons c piece =>
        have hc := hpiece c List.mem_cons_self
        exact List.dropWhile_cons_of_neg (by simp [hc])
  have hdrop : (front ++ piece).dropWhile (fun c => c.id != cid) = piece := by
    rw [List.dropWhile_append_of_pos fun c hc => by simp [hfront c hc], hkeep]
  have htake : piece.takeWhile (fun c => c.id == cid) = piece :=
    List.takeWhile_eq_self_iff.mpr fun c hc => by simp [hpiece c hc]
  unfold ownRun
  rw [hdrop, htake]

end Runs

section Judgements

variable {υ : Type}

/-- The test of `cfl_rewrite` before it takes in a chunk. -/
def CflBoundary (t : RewriteThread CflLocals) (c : Chunk) : Prop :=
  (t.locals.lastId ≠ temporaryId ∧ t.locals.lastId ≠ c.id) ∨ t.locals.bufferFull = true

def CflReaches (cfg : Config) (s : RewriteSettings υ) (stream : List Chunk)
    (t : RewriteThread CflLocals) : Prop :=
  foldE ((cflRewrite cfg s).body cfg.rewriteBufferSize) (cflRewrite cfg s).init stream = .ok t

def CflJudges (cfg : Config) (s : RewriteSettings υ) (stream : List Chunk)
    (t : RewriteThread CflLocals) : Prop :=
  (∃ done c rest, stream = done ++ c :: rest ∧ CflReaches cfg s done t ∧ CflBoundary t c) ∨
    CflReaches cfg s stream t

/-- The chunks with content that are judged together have one id, and a duplicate is marked exactly
if the bytes of its own run are below the threshold. -/
structure JudgesRun (cfg : Config) (s : RewriteSettings υ) (t : RewriteThread CflLocals) : Prop where
  oneContainer : ∃ cid, ∀ c ∈ t.buffer.chunkQueue, c.isSignal = false → c.id = cid
  marks : ∃ t' emitted, cflJudge cfg s t = .ok t' ∧ t'.rewriteQueue = t.rewriteQueue ++ emitted ∧
    List.Forall₂ (fun c c' => c.flag.duplicate = true → c.id ≠ temporaryId →
      (c'.flag.outOfOrder = true ↔
        s.belowCflUsage (bufferedBytes (ownRun c.id t.buffer.chunkQueue)) = true))
      t.buffer.chunkQueue emitted

/-- Before each chunk of a known container, the chunks without one fill whole buffers. -/
def UnknownBlocksFit (n : Nat) (stream : List Chunk) : Prop :=
  ∀ done c rest, stream = done ++ c :: rest → c.id ≠ temporaryId →
    n ∣ bufferedNum (tailOf temporaryId done)

/-- Where a piece of a run ends, because of another id, of a full buffer or of the end, the test of
its bytes is that of their sum in 32 bits. -/
def PiecesFit (n : Nat) (below : Int → Bool) (stream : List Chunk) : Prop :=
  ∀ done c rest, stream = done ++ c :: rest → c.id ≠ temporaryId →
    (∀ d ∈ rest.head?, d.id = c.id → n ∣ (tailOf c.id (done ++ [c])).length) →
      below (toInt32 (bufferedBytes (lastPiece n (tailOf c.id (done ++ [c]))))) =
        below (bufferedBytes (lastPiece n (tailOf c.id (done ++ [c]))))

end Judgements

section Steps

variable {υ : Type} {cfg : Config} {s : RewriteSettings υ} {t t' : RewriteThread CflLocals}
  {c : Chunk} {done : List Chunk} {n : Nat}

private structure CflCounted (n : Nat) (t : RewriteThread CflLocals) : Prop where
  num : t.buffer.num = bufferedNum t.buffer.chunkQueue
  full : t.locals.bufferFull = true ↔ t.buffer.num = n
  room : t.buffer.num ≤ n
  size : t.buffer.size = toInt32 (bufferedBytes t.buffer.chunkQueue)
  known : ∀ c ∈ t.buffer.chunkQueue, c.isSignal = false → c.id ≠ temporaryId →
    c.flag.duplicate = true

private theorem cflJudge_ok (h : cflJudge cfg s t = .ok t') :
    ∃ emitted, t'.rewriteQueue = t.rewriteQueue ++ emitted ∧
      List.Forall₂ (fun c c' => cflMark (s.belowCflUsage t.buffer.size) (popped (s.har cfg) c) = .ok c')
        t.buffer.chunkQueue emitted := by
  obtain ⟨t₁, hflush, h⟩ := bind_ok_iff.mp h
  cases h
  obtain ⟨emitted, hflushed⟩ := flush_ok hflush
  exact ⟨emitted, hflushed.rewriteQueue, hflushed.marked⟩

private theorem cflJudge_counted (hn : 1 ≤ n) (ht : CflCounted n t) (h : cflJudge cfg s t = .ok t') :
    CflCounted n t' ∧ t'.buffer.chunkQueue = [] ∧ t'.locals.bufferFull = false := by
  obtain ⟨t₁, hflush, h⟩ := bind_ok_iff.mp h
  cases h
  obtain ⟨emitted, hflushed⟩ := flush_ok hflush
  have hnum : t₁.buffer.num = 0 := by
    rw [hflushed.num, ht.num]
    omega
  refine ⟨{ num := ?_, full := ?_, room := ?_, size := ?_, known := ?_ }, hflushed.empty, rfl⟩
  · show t₁.buffer.num = bufferedNum t₁.buffer.chunkQueue
    rw [hnum, hflushed.empty]
    rfl
  · show false = true ↔ t₁.buffer.num = n
    rw [hnum]
    apply iff_of_false Bool.false_ne_true
    omega
  · show t₁.buffer.num ≤ n
    omega
  · show t₁.buffer.size = toInt32 (bufferedBytes t₁.buffer.chunkQueue)
    have hzero : toInt32 (0 : Nat) = 0 := by decide
    rw [hflushed.size ht.size, hflushed.empty]
    exact hzero.symm
  · intro c hc
    have hc : c ∈ t₁.buffer.chunkQueue := hc
    rw [hflushed.empty] at hc
    cases hc

private theorem cflInit_counted (hn : 1 ≤ n) : CflCounted n (cflRewrite cfg s).init where
  num := rfl
  full := by
    show false = true ↔ (0 : Int) = n
    apply iff_of_false Bool.false_ne_true
    omega
  room := by
    show (0 : Int) ≤ n
    omega
  size := by
    have hzero : toInt32 (0 : Nat) = 0 := by decide
    exact hzero.symm
  known := fun c hc => absurd hc List.not_mem_nil

private theorem cflBoundary_counted (hn : 1 ≤ n) (ht : CflCounted n t)
    (h : cflBoundary cfg s t c = .ok t') :
    CflCounted n t' ∧ t'.locals.bufferFull = false ∧
      ((CflBoundary t c ∧ t'.buffer.chunkQueue = [] ∧ ∃ t₁, cflJudge cfg s t = .ok t₁) ∨
        (¬ CflBoundary t c ∧ t'.buffer.chunkQueue = t.buffer.chunkQueue)) := by
  unfold cflBoundary at h
  split at h
  · rename_i hjudge
    obtain ⟨hcounted, hempty, hfull⟩ := cflJudge_counted hn ht h
    exact ⟨hcounted, hfull, .inl ⟨hjudge, hempty, t', h⟩⟩
  · rename_i hjudge
    cases h
    exact ⟨ht, Bool.eq_false_of_not_eq_true fun h => hjudge (.inr h), .inr ⟨hjudge, rfl⟩⟩

private theorem CflCounted.push_signal (ht : CflCounted n t) (hnot : t.locals.bufferFull = false)
    (hsignal : c.isSignal = true)
    (hpush : rewriteBufferPush n t.buffer c = .ok (t'.locals.bufferFull, t'.buffer)) :
    CflCounted n t' := by
  have happend := rewriteBufferPush_queue hpush
  obtain ⟨hfull, hbuffer⟩ := rewriteBufferPush_signal hsignal hpush
  have hlt : t.buffer.num ≠ n := fun h =>
    Bool.false_ne_true (hnot.symm.trans (ht.full.mpr h))
  refine { num := ?_, full := ?_, room := ?_, size := ?_, known := ?_ }
  · rw [happend, bufferedNum_append, bufferedNum_cons, hsignal, hbuffer]
    simp [ht.num]
  · rw [hfull, hbuffer]
    exact iff_of_false Bool.false_ne_true hlt
  · rw [hbuffer]
    exact ht.room
  · rw [happend, bufferedBytes_append, bufferedBytes_cons, hsignal, hbuffer]
    simp [ht.size]
  · intro d hd hcontent
    rw [happend] at hd
    rcases List.mem_append.mp hd with hd | hd
    · exact ht.known d hd hcontent
    · rw [List.mem_singleton.mp hd, hsignal] at hcontent
      cases hcontent

private theorem CflCounted.push_chunk (ht : CflCounted n t) (hsignal : c.isSignal = false)
    (hpush : rewriteBufferPush n t.buffer c = .ok (t'.locals.bufferFull, t'.buffer)) :
    CflCounted n t' := by
  have happend := rewriteBufferPush_queue hpush
  obtain ⟨seq, hseq, hbuffer, hfull, hless⟩ := rewriteBufferPush_ok hsignal hpush
  have hnum : t'.buffer.num = t.buffer.num + 1 := by rw [hbuffer]
  refine { num := ?_, full := ?_, room := ?_, size := ?_, known := ?_ }
  · rw [happend, bufferedNum_append, bufferedNum_cons, hsignal, hnum, ht.num]
    simp
  · rw [hnum]
    cases hflag : t'.locals.bufferFull with
    | true => exact iff_of_true rfl (hfull hflag)
    | false =>
        have hlt := hless hflag
        exact iff_of_false Bool.false_ne_true (by omega)
  · rw [hnum]
    cases hflag : t'.locals.bufferFull with
    | true => exact Int.le_of_eq (hfull hflag)
    | false => exact Int.le_of_lt (hless hflag)
  · rw [happend, bufferedBytes_append, bufferedBytes_cons, hsignal, hbuffer]
    show toInt32 (t.buffer.size + c.size) = _
    rw [ht.size]
    simp only [Bool.false_eq_true, if_false, bufferedBytes_nil]
    unfold toInt32
    rw [Int.bmod_add_bmod]
    push_cast
    rfl
  · intro d hd hcontent
    rw [happend] at hd
    rcases List.mem_append.mp hd with hd | hd
    · exact ht.known d hd hcontent
    · rw [List.mem_singleton.mp hd]
      exact (pushRecord_ok hseq).1

private theorem cflBody_ok (hn : 1 ≤ cfg.rewriteBufferSize) (ht : CflCounted cfg.rewriteBufferSize t)
    (h : (cflRewrite cfg s).body cfg.rewriteBufferSize t c = .ok t') :
    CflCounted cfg.rewriteBufferSize t' ∧ t'.locals.lastId = c.id ∧
      ((CflBoundary t c ∧ t'.buffer.chunkQueue = [c] ∧ ∃ t₁, cflJudge cfg s t = .ok t₁) ∨
        (¬ CflBoundary t c ∧ t'.buffer.chunkQueue = t.buffer.chunkQueue ++ [c])) := by
  obtain ⟨t₂, hbefore, h⟩ := bind_ok_iff.mp h
  obtain ⟨⟨full, b⟩, hpush, hafter⟩ := bind_ok_iff.mp h
  obtain ⟨t₁, hboundary, h⟩ := bind_ok_iff.mp hbefore
  cases h
  have hpush : rewriteBufferPush cfg.rewriteBufferSize t₁.buffer c = .ok (full, b) := hpush
  obtain ⟨hcounted, hnot, hqueue⟩ := cflBoundary_counted hn ht hboundary
  have hbuffer : t'.buffer = b ∧ t'.locals.lastId = c.id ∧
      t'.locals.bufferFull = full := by
    cases full with
    | true =>
        cases hafter
        exact ⟨rfl, rfl, rfl⟩
    | false =>
        cases hafter
        exact ⟨rfl, rfl, hnot⟩
  obtain ⟨rfl, hlast, rfl⟩ := hbuffer
  refine ⟨?_, hlast, ?_⟩
  · cases hsignal : c.isSignal with
    | true => exact hcounted.push_signal hnot hsignal hpush
    | false => exact hcounted.push_chunk hsignal hpush
  · rw [rewriteBufferPush_queue hpush]
    rcases hqueue with ⟨hjudge, hempty, hok⟩ | ⟨hjudge, hsame⟩
    · exact .inl ⟨hjudge, by rw [hempty]; rfl, hok⟩
    · exact .inr ⟨hjudge, by rw [hsame]⟩

theorem bufferedNum_signals {queue : List Chunk} (h : ∀ c ∈ queue, c.isSignal = true) :
    bufferedNum queue = 0 := by
  apply List.countP_eq_zero.mpr
  intro c hc
  rw [h c hc]
  decide

theorem bufferedNum_content {queue : List Chunk} (h : ∀ c ∈ queue, c.isSignal = false) :
    bufferedNum queue = queue.length := by
  apply List.countP_eq_length.mpr
  intro c hc
  rw [h c hc]
  rfl

theorem bufferedBytes_signals {queue : List Chunk} (h : ∀ c ∈ queue, c.isSignal = true) :
    bufferedBytes queue = 0 := by
  have hnil : queue.filter (fun c => !c.isSignal) = [] := by
    apply List.filter_eq_nil_iff.mpr
    intro c hc
    rw [h c hc]
    decide
  rw [bufferedBytes, hnil]
  rfl

/-- What the buffer holds of a stream that was taken in. -/
private structure CflShape (n : Nat) (done : List Chunk) (t : RewriteThread CflLocals) : Prop where
  lastId : t.locals.lastId = (done.getLast?.map Chunk.id).getD temporaryId
  queue : t.buffer.chunkQueue <:+ done
  unknown : t.locals.lastId = temporaryId → (∀ c ∈ t.buffer.chunkQueue, c.id = temporaryId) ∧
    ∃ k, bufferedNum (tailOf temporaryId done) = k * n + bufferedNum t.buffer.chunkQueue
  known : t.locals.lastId ≠ temporaryId → UnknownBlocksFit n done →
    ∃ signals, t.buffer.chunkQueue = signals ++ lastPiece n (tailOf t.locals.lastId done) ∧
      ∀ c ∈ signals, c.isSignal = true

private theorem CflShape.getLast (ht : CflShape n done t) (hid : t.locals.lastId ≠ temporaryId) :
    ∃ d ∈ done.getLast?, d.id = t.locals.lastId := by
  have hlast := ht.lastId
  cases hdone : done.getLast? with
  | none =>
      rw [hdone] at hlast
      exact absurd hlast hid
  | some d =>
      rw [hdone] at hlast
      exact ⟨d, rfl, hlast.symm⟩

private theorem CflShape.tail_eq_nil (ht : CflShape n done t) {cid : Int}
    (hid : t.locals.lastId ≠ cid) : tailOf cid done = [] := by
  refine tailOf_eq_nil fun d hd heq => hid ?_
  rw [ht.lastId, hd, ← heq]
  rfl

private theorem piece_content (hsignals : ∀ d ∈ done, d.isSignal = true → d.id = temporaryId)
    {cid : Int} (hid : cid ≠ temporaryId) :
    ∀ d ∈ lastPiece n (tailOf cid done), d.isSignal = false := by
  intro d hd
  have hrun := lastPiece_subset hd
  have hmem := (List.rtakeWhile_suffix (fun c : Chunk => c.id == cid) done).subset hrun
  cases hsignal : d.isSignal with
  | false => rfl
  | true => exact absurd ((id_of_mem_tailOf hrun).symm.trans (hsignals d hmem hsignal)) hid

private theorem CflShape.full_iff (hn : 1 ≤ n) (hcounted : CflCounted n t) (ht : CflShape n done t)
    (hsignals : ∀ d ∈ done, d.isSignal = true → d.id = temporaryId)
    (hid : t.locals.lastId ≠ temporaryId) (hfit : UnknownBlocksFit n done) :
    t.locals.bufferFull = true ↔ n ∣ (tailOf t.locals.lastId done).length := by
  obtain ⟨signals, hqueue, hfront⟩ := ht.known hid hfit
  obtain ⟨d, hd, hlast⟩ := ht.getLast hid
  have hnum := hcounted.num
  rw [hqueue, bufferedNum_append, bufferedNum_signals hfront, Nat.zero_add,
    bufferedNum_content (piece_content hsignals hid)] at hnum
  rw [hcounted.full, hnum, ← length_lastPiece hn (tailOf_ne_nil hd hlast)]
  exact Int.ofNat_inj

private theorem UnknownBlocksFit.before {rest : List Chunk} (h : UnknownBlocksFit n (done ++ rest)) :
    UnknownBlocksFit n done := by
  intro front c behind hsplit hid
  refine h front c (behind ++ rest) ?_ hid
  rw [hsplit, List.append_assoc, List.cons_append]

private theorem cflShape_unknown (ht : CflShape n done t) (hcounted : CflCounted n t)
    (hid : c.id = temporaryId)
    (hqueue : (CflBoundary t c ∧ t'.buffer.chunkQueue = [c]) ∨
      (¬ CflBoundary t c ∧ t'.buffer.chunkQueue = t.buffer.chunkQueue ++ [c])) :
    (∀ d ∈ t'.buffer.chunkQueue, d.id = temporaryId) ∧
      ∃ k, bufferedNum (tailOf temporaryId (done ++ [c])) = k * n + bufferedNum t'.buffer.chunkQueue := by
  rw [tailOf_snoc hid, bufferedNum_append]
  rcases hqueue with ⟨hboundary, hqueue⟩ | ⟨hboundary, hqueue⟩ <;> rw [hqueue]
  · refine ⟨fun d hd => List.mem_singleton.mp hd ▸ hid, ?_⟩
    by_cases hlast : t.locals.lastId = temporaryId
    · obtain ⟨_, k, hcount⟩ := ht.unknown hlast
      have hfull := hcounted.full.mp (hboundary.resolve_left fun h => h.1 hlast)
      rw [hcounted.num] at hfull
      refine ⟨k + 1, ?_⟩
      rw [hcount, Int.ofNat_inj.mp hfull, Nat.succ_mul]
    · rw [ht.tail_eq_nil hlast]
      exact ⟨0, by rw [bufferedNum_nil, Nat.zero_mul]⟩
  · have hlast : t.locals.lastId = temporaryId := by
      by_contra hlast
      exact hboundary (.inl ⟨hlast, fun h => hlast (h.trans hid)⟩)
    obtain ⟨hunknown, k, hcount⟩ := ht.unknown hlast
    refine ⟨fun d hd => ?_, k, ?_⟩
    · rcases List.mem_append.mp hd with hd | hd
      · exact hunknown d hd
      · exact List.mem_singleton.mp hd ▸ hid
    · rw [hcount, bufferedNum_append, Nat.add_assoc]

private theorem cflShape_known (hn : 1 ≤ n) (ht : CflShape n done t) (hcounted : CflCounted n t)
    (hsignals : ∀ d ∈ done, d.isSignal = true → d.id = temporaryId)
    (hid : c.id ≠ temporaryId) (hfit : UnknownBlocksFit n (done ++ [c]))
    (hqueue : (CflBoundary t c ∧ t'.buffer.chunkQueue = [c]) ∨
      (¬ CflBoundary t c ∧ t'.buffer.chunkQueue = t.buffer.chunkQueue ++ [c])) :
    ∃ signals, t'.buffer.chunkQueue = signals ++ lastPiece n (tailOf c.id (done ++ [c])) ∧
      ∀ d ∈ signals, d.isSignal = true := by
  rw [tailOf_snoc rfl, lastPiece_snoc hn]
  by_cases hlast : t.locals.lastId = c.id
  · have hlast' : t.locals.lastId ≠ temporaryId := fun h => hid (hlast.symm.trans h)
    obtain ⟨signals, hold, hfront⟩ := ht.known hlast' hfit.before
    have hfull := ht.full_iff hn hcounted hsignals hlast' hfit.before
    rw [hlast] at hold hfull
    rcases hqueue with ⟨hboundary, hqueue⟩ | ⟨hboundary, hqueue⟩
    · have hdvd := hfull.mp (hboundary.resolve_left fun h => h.2 hlast)
      rw [if_pos hdvd]
      exact ⟨[], hqueue, fun d hd => absurd hd List.not_mem_nil⟩
    · have hdvd : ¬ n ∣ (tailOf c.id done).length := fun h => hboundary (.inr (hfull.mpr h))
      rw [if_neg hdvd]
      refine ⟨signals, ?_, hfront⟩
      rw [hqueue, hold, List.append_assoc]
  · have hzero : n ∣ ([] : List Chunk).length := Nat.dvd_zero n
    rw [ht.tail_eq_nil hlast, if_pos hzero]
    rcases hqueue with ⟨hboundary, hqueue⟩ | ⟨hboundary, hqueue⟩
    · exact ⟨[], hqueue, fun d hd => absurd hd List.not_mem_nil⟩
    · -- No boundary between two ids: what is in front of the chunk has no content.
      have hunknown : t.locals.lastId = temporaryId := by
        by_contra h
        exact hboundary (.inl ⟨h, hlast⟩)
      obtain ⟨_, k, hcount⟩ := ht.unknown hunknown
      have hdvd : n ∣ k * n + bufferedNum t.buffer.chunkQueue :=
        hcount ▸ hfit done c [] rfl hid
      have hdvd' := (Nat.dvd_add_right (Nat.dvd_mul_left n k)).mp hdvd
      have hless : bufferedNum t.buffer.chunkQueue < n := by
        have hroom := hcounted.room
        have hne : t.buffer.num ≠ n := fun h => hboundary (.inr (hcounted.full.mpr h))
        rw [hcounted.num] at hroom hne
        omega
      have hzero := Nat.eq_zero_of_dvd_of_lt hdvd' hless
      refine ⟨t.buffer.chunkQueue, hqueue, fun d hd => ?_⟩
      have hnot := List.countP_eq_zero.mp hzero d hd
      simpa using hnot

private theorem cflShape_body (hn : 1 ≤ cfg.rewriteBufferSize)
    (hcounted : CflCounted cfg.rewriteBufferSize t) (ht : CflShape cfg.rewriteBufferSize done t)
    (hsignals : ∀ d ∈ done, d.isSignal = true → d.id = temporaryId)
    (h : (cflRewrite cfg s).body cfg.rewriteBufferSize t c = .ok t') :
    CflCounted cfg.rewriteBufferSize t' ∧ CflShape cfg.rewriteBufferSize (done ++ [c]) t' := by
  obtain ⟨hcounted', hlast, hcases⟩ := cflBody_ok hn hcounted h
  have hqueue : (CflBoundary t c ∧ t'.buffer.chunkQueue = [c]) ∨
      (¬ CflBoundary t c ∧ t'.buffer.chunkQueue = t.buffer.chunkQueue ++ [c]) :=
    hcases.imp_left fun h => ⟨h.1, h.2.1⟩
  refine ⟨hcounted',
    { lastId := by rw [hlast, List.getLast?_append_of_ne_nil _ (List.cons_ne_nil c [])]; rfl
      queue := ?_
      unknown := fun hid => cflShape_unknown ht hcounted (hlast.symm.trans hid) hqueue
      known := fun hid hfit => ?_ }⟩
  · rcases hqueue with ⟨_, hqueue⟩ | ⟨_, hqueue⟩ <;> rw [hqueue]
    · exact List.suffix_append done [c]
    · obtain ⟨front, hfront⟩ := ht.queue
      exact ⟨front, by rw [← List.append_assoc, hfront]⟩
  · rw [hlast] at hid ⊢
    exact cflShape_known hn ht hcounted hsignals hid hfit hqueue

private theorem cflReaches_shape (hn : 1 ≤ cfg.rewriteBufferSize)
    (hsignals : ∀ d ∈ done, d.isSignal = true → d.id = temporaryId)
    (h : CflReaches cfg s done t) :
    CflCounted cfg.rewriteBufferSize t ∧ CflShape cfg.rewriteBufferSize done t := by
  have hinit : CflShape cfg.rewriteBufferSize [] (cflRewrite cfg s).init :=
    { lastId := rfl
      queue := List.suffix_refl []
      unknown := fun _ => ⟨fun c hc => absurd hc List.not_mem_nil, 0, by
        rw [Nat.zero_mul]
        rfl⟩
      known := fun hid _ => absurd rfl hid }
  refine foldE_done (fun front t =>
      CflCounted cfg.rewriteBufferSize t ∧ CflShape cfg.rewriteBufferSize front t)
    ?_ ⟨cflInit_counted hn, hinit⟩ h
  intro front c t t' hfirst ⟨hcounted, hshape⟩ hstep
  exact cflShape_body hn hcounted hshape
    (fun d hd => hsignals d (hfirst.subset (List.mem_append_left [c] hd))) hstep

end Steps

section Claim

variable {υ : Type} {cfg : Config} {s : RewriteSettings υ} {t t' : RewriteThread CflLocals}
  {c : Chunk} {stream done rest : List Chunk} {n : Nat}

private theorem cflReaches_split (h : CflReaches cfg s (done ++ rest) t) :
    ∃ t₁, CflReaches cfg s done t₁ ∧
      foldE ((cflRewrite cfg s).body cfg.rewriteBufferSize) t₁ rest = .ok t := by
  unfold CflReaches at h
  rw [foldE_append] at h
  exact bind_ok_iff.mp h

/-- A buffer with chunks of a container behind chunks without one. -/
private def CflMixed (t : RewriteThread CflLocals) : Prop :=
  (∃ c ∈ t.buffer.chunkQueue, c.isSignal = false ∧ c.id = temporaryId) ∧
    ∃ c ∈ t.buffer.chunkQueue, c.isSignal = false ∧ c.id ≠ temporaryId

private theorem cflMixed_not_one (h : CflMixed t) : ¬ JudgesRun cfg s t := by
  intro hjudges
  obtain ⟨⟨c, hc, hsignal, hid⟩, d, hd, hsignal', hid'⟩ := h
  obtain ⟨cid, hone⟩ := hjudges.oneContainer
  exact hid' ((hone d hd hsignal').trans ((hone c hc hsignal).symm.trans hid))

private theorem cflMixed_judged (hn : 1 ≤ cfg.rewriteBufferSize)
    (hsignals : ∀ d ∈ stream, d.isSignal = true → d.id = temporaryId) :
    ∀ (rest done : List Chunk) (t : RewriteThread CflLocals), stream = done ++ rest →
      CflReaches cfg s done t → CflMixed t → (∃ t', CflReaches cfg s stream t') →
        ∃ t', CflJudges cfg s stream t' ∧ CflMixed t' := by
  intro rest
  induction rest with
  | nil =>
      intro done t hstream ht hmixed _
      rw [List.append_nil] at hstream
      exact ⟨t, .inr (hstream ▸ ht), hmixed⟩
  | cons c rest ih =>
      intro done t hstream ht hmixed hrun
      by_cases hboundary : CflBoundary t c
      · exact ⟨t, .inl ⟨done, c, rest, hstream, ht, hboundary⟩, hmixed⟩
      · have hsplit : stream = (done ++ [c]) ++ rest := by rw [hstream, List.append_assoc]; rfl
        obtain ⟨t₂, ht₂⟩ := hrun
        rw [hsplit] at ht₂
        obtain ⟨t₁, ht₁, _⟩ := cflReaches_split ht₂
        obtain ⟨t₀, ht₀, hbody⟩ := cflReaches_split ht₁
        have hsame : t₀ = t := Except.ok.inj (ht₀.symm.trans ht)
        obtain ⟨t₁', hstep, hlast⟩ := bind_ok_iff.mp hbody
        cases hlast
        rw [hsame] at hstep
        have hcounted := (cflReaches_shape hn
          (fun d hd => hsignals d (hstream ▸ List.mem_append_left _ hd)) ht).1
        obtain ⟨_, _, hcases⟩ := cflBody_ok hn hcounted hstep
        have hqueue := (hcases.resolve_left fun h => hboundary h.1).2
        refine ih (done ++ [c]) t₁ hsplit ht₁ ?_ ⟨t₂, hsplit ▸ ht₂⟩
        obtain ⟨⟨d, hd, hpending⟩, d', hd', hknown⟩ := hmixed
        refine ⟨⟨d, ?_, hpending⟩, d', ?_, hknown⟩ <;> rw [hqueue]
        · exact List.mem_append_left _ hd
        · exact List.mem_append_left _ hd'

private theorem cflJudges_ok (hn : 1 ≤ cfg.rewriteBufferSize)
    (hsignals : ∀ d ∈ stream, d.isSignal = true → d.id = temporaryId) {last : RewriteThread CflLocals}
    (hrun : (cflRewrite cfg s).run cfg.rewriteBufferSize stream = .ok last)
    (ht : CflJudges cfg s stream t) : ∃ t', cflJudge cfg s t = .ok t' := by
  obtain ⟨t₁, hfold, hfinish⟩ := bind_ok_iff.mp hrun
  rcases ht with ⟨done, c, rest, hstream, ht, hboundary⟩ | ht
  · have hreach : CflReaches cfg s (done ++ c :: rest) t₁ := hstream ▸ hfold
    obtain ⟨t₀, ht₀, hrest⟩ := cflReaches_split hreach
    have hsame : t₀ = t := Except.ok.inj (ht₀.symm.trans ht)
    obtain ⟨t₂, hstep, _⟩ := bind_ok_iff.mp hrest
    rw [hsame] at hstep
    have hcounted := (cflReaches_shape hn
      (fun d hd => hsignals d (hstream ▸ List.mem_append_left _ hd)) ht).1
    obtain ⟨_, _, hcases⟩ := cflBody_ok hn hcounted hstep
    rcases hcases with ⟨_, _, hok⟩ | ⟨hnot, _⟩
    · exact hok
    · exact absurd hboundary hnot
  · have hsame : t₁ = t := Except.ok.inj (hfold.symm.trans ht)
    exact ⟨last, hsame ▸ hfinish⟩

private theorem cflMark_outOfOrder {outOfOrder : Bool} {har : Option (IdMap Int)} {c' : Chunk}
    (hclean : c.flag.outOfOrder = false) (hsignal : c.isSignal = false) (hid : c.id ≠ temporaryId)
    (h : cflMark outOfOrder (popped har c) = .ok c') :
    c'.flag.outOfOrder = true ↔ outOfOrder = true := by
  have honly := popped_onlyMarked har c
  unfold cflMark at h
  rw [honly.signal_eq, honly.id_eq, hsignal, if_neg Bool.false_ne_true] at h
  split at h
  · rename_i hmark
    obtain ⟨_, _, h⟩ := bind_ok_iff.mp h
    cases h
    exact iff_of_true rfl hmark.1
  · rename_i hkeep
    cases h
    rw [popped_outOfOrder, hclean]
    exact iff_of_false Bool.false_ne_true fun h => hkeep ⟨h, hid⟩

private theorem cflJudges_piece (hn : 1 ≤ cfg.rewriteBufferSize)
    (hsignals : ∀ d ∈ stream, d.isSignal = true → d.id = temporaryId)
    (hfit : UnknownBlocksFit cfg.rewriteBufferSize stream) (ht : CflJudges cfg s stream t)
    (hid : t.locals.lastId ≠ temporaryId) :
    ∃ done c rest signals, stream = done ++ c :: rest ∧ c.id = t.locals.lastId ∧
      (∀ d ∈ rest.head?, d.id = c.id →
        cfg.rewriteBufferSize ∣ (tailOf c.id (done ++ [c])).length) ∧
      t.buffer.chunkQueue =
        signals ++ lastPiece cfg.rewriteBufferSize (tailOf c.id (done ++ [c])) ∧
      (∀ d ∈ signals, d.isSignal = true) ∧ t.buffer.chunkQueue ⊆ stream ∧
      t.buffer.size = toInt32 (bufferedBytes t.buffer.chunkQueue) := by
  obtain ⟨front, rest, hstream, hreach, hend⟩ : ∃ front rest, stream = front ++ rest ∧
      CflReaches cfg s front t ∧ ∀ d ∈ rest.head?, CflBoundary t d := by
    rcases ht with ⟨front, c, rest, hstream, ht, hboundary⟩ | ht
    · refine ⟨front, c :: rest, hstream, ht, fun d hd => ?_⟩
      cases hd
      exact hboundary
    · exact ⟨stream, [], (List.append_nil _).symm, ht, fun d hd => nomatch hd⟩
  have hsignals' : ∀ d ∈ front, d.isSignal = true → d.id = temporaryId := fun d hd =>
    hsignals d (hstream ▸ List.mem_append_left _ hd)
  obtain ⟨hcounted, hshape⟩ := cflReaches_shape hn hsignals' hreach
  obtain ⟨c, hc, hlast⟩ := hshape.getLast hid
  obtain ⟨done, rfl⟩ := List.getLast?_eq_some_iff.mp hc
  have hfit' : UnknownBlocksFit cfg.rewriteBufferSize (done ++ [c]) :=
    UnknownBlocksFit.before (hstream ▸ hfit)
  obtain ⟨signals, hqueue, hfront⟩ := hshape.known hid hfit'
  refine ⟨done, c, rest, signals, ?_, hlast, fun d hd heq => ?_, ?_, hfront, ?_, ?_⟩
  · rw [hstream, List.append_assoc]
    rfl
  · have hfull := (hend d hd).resolve_left fun h => h.2 (hlast.symm.trans heq.symm)
    have hdvd := (hshape.full_iff hn hcounted hsignals' hid hfit').mp hfull
    rw [← hlast] at hdvd
    exact hdvd
  · rw [hqueue, hlast]
  · exact List.Subset.trans hshape.queue.subset (hstream ▸ List.subset_append_left _ _)
  · exact hcounted.size

private theorem piece_bytes {queue signals : List Chunk} {cid : Int}
    (hsignals : ∀ d ∈ queue, d.isSignal = true → d.id = temporaryId)
    (hqueue : queue = signals ++ lastPiece n (tailOf cid done))
    (hfront : ∀ d ∈ signals, d.isSignal = true)
    (hid : cid ≠ temporaryId) :
    bufferedBytes queue = bufferedBytes (lastPiece n (tailOf cid done)) ∧
      ownRun cid queue = lastPiece n (tailOf cid done) := by
  constructor
  · rw [hqueue, bufferedBytes_append, bufferedBytes_signals hfront, Nat.zero_add]
  · rw [hqueue]
    refine ownRun_append (fun d hd heq => hid ?_) fun d hd => id_of_mem_tailOf (lastPiece_subset hd)
    exact heq.symm.trans (hsignals d (hqueue ▸ List.mem_append_left _ hd) (hfront d hd))

private theorem unknownBlocksFit_of_judges (hn : 1 ≤ cfg.rewriteBufferSize)
    (hsignals : ∀ d ∈ stream, d.isSignal = true → d.id = temporaryId)
    (hreach : ∃ t, CflReaches cfg s stream t)
    (h : ∀ t, CflJudges cfg s stream t → JudgesRun cfg s t) :
    UnknownBlocksFit cfg.rewriteBufferSize stream := by
  intro done c rest hstream hid
  have hsplit : stream = (done ++ [c]) ++ rest := by rw [hstream, List.append_assoc]; rfl
  obtain ⟨t₂, ht₂⟩ := hreach
  rw [hsplit] at ht₂
  obtain ⟨t₁, ht₁, _⟩ := cflReaches_split ht₂
  obtain ⟨t, ht, hbody⟩ := cflReaches_split ht₁
  obtain ⟨t₁', hstep, hlast⟩ := bind_ok_iff.mp hbody
  cases hlast
  obtain ⟨hcounted, hshape⟩ := cflReaches_shape hn
    (fun d hd => hsignals d (hstream ▸ List.mem_append_left _ hd)) ht
  by_cases hunknown : t.locals.lastId = temporaryId
  · obtain ⟨hall, k, hcount⟩ := hshape.unknown hunknown
    rw [hcount]
    apply (Nat.dvd_add_right (Nat.dvd_mul_left _ k)).mpr
    by_cases hfull : t.locals.bufferFull = true
    · have hnum := hcounted.full.mp hfull
      rw [hcounted.num] at hnum
      exact dvd_of_eq (Int.ofNat_inj.mp hnum).symm
    · -- Not full, so the chunk joins what is in the buffer.
      have hboundary : ¬ CflBoundary t c := fun hb => hb.elim (fun h => h.1 hunknown) hfull
      obtain ⟨_, _, hcases⟩ := cflBody_ok hn hcounted hstep
      have hqueue := (hcases.resolve_left fun h => hboundary h.1).2
      by_contra hdvd
      have hpos : 0 < bufferedNum t.buffer.chunkQueue :=
        Nat.pos_of_ne_zero fun hzero => hdvd (hzero ▸ Nat.dvd_zero _)
      obtain ⟨d, hd, hcontent⟩ := List.countP_pos_iff.mp hpos
      have hmixed : CflMixed t₁ := by
        refine ⟨⟨d, ?_, by simpa using hcontent, hall d hd⟩, c, ?_, ?_, hid⟩
        · rw [hqueue]
          exact List.mem_append_left _ hd
        · rw [hqueue]
          exact List.mem_append_right _ (List.mem_singleton.mpr rfl)
        · cases hsignal : c.isSignal with
          | false => rfl
          | true => exact absurd (hsignals c (hstream ▸ by simp) hsignal) hid
      obtain ⟨t', ht', hmixed'⟩ := cflMixed_judged hn hsignals rest (done ++ [c]) t₁ hsplit ht₁ hmixed
        ⟨t₂, hsplit ▸ ht₂⟩
      exact cflMixed_not_one hmixed' (h t' ht')
  · rw [hshape.tail_eq_nil hunknown]
    exact Nat.dvd_zero _

private theorem mem_lastPiece_snoc (hn : 1 ≤ n) {run : List Chunk} : c ∈ lastPiece n (run ++ [c]) := by
  rw [lastPiece_snoc hn]
  split <;> simp

private theorem piecesFit_of_judges (hn : 1 ≤ cfg.rewriteBufferSize)
    (hclean : ∀ c ∈ stream, c.flag.outOfOrder = false)
    (hsignals : ∀ d ∈ stream, d.isSignal = true → d.id = temporaryId)
    (hreach : ∃ t, CflReaches cfg s stream t) (hfit : UnknownBlocksFit cfg.rewriteBufferSize stream)
    (h : ∀ t, CflJudges cfg s stream t → JudgesRun cfg s t) :
    PiecesFit cfg.rewriteBufferSize s.belowCflUsage stream := by
  intro done c rest hstream hid hend
  have hsplit : stream = (done ++ [c]) ++ rest := by rw [hstream, List.append_assoc]; rfl
  have hmem : ∀ d ∈ done ++ [c], d ∈ stream := fun d hd => hsplit ▸ List.mem_append_left _ hd
  have hsignals' := fun d hd => hsignals d (hmem d hd)
  obtain ⟨t₂, ht₂⟩ := hreach
  have ht₂' : CflReaches cfg s ((done ++ [c]) ++ rest) t₂ := hsplit ▸ ht₂
  obtain ⟨t, ht, _⟩ := cflReaches_split ht₂'
  obtain ⟨hcounted, hshape⟩ := cflReaches_shape hn hsignals' ht
  have hlast : t.locals.lastId = c.id := by
    rw [hshape.lastId, List.getLast?_append_of_ne_nil _ (List.cons_ne_nil c [])]
    rfl
  have hid' : t.locals.lastId ≠ temporaryId := fun h => hid (hlast.symm.trans h)
  have hfit' : UnknownBlocksFit cfg.rewriteBufferSize (done ++ [c]) :=
    UnknownBlocksFit.before (hsplit ▸ hfit)
  have hjudged : CflJudges cfg s stream t := by
    cases rest with
    | nil =>
        rw [List.append_nil] at hsplit
        exact .inr (hsplit ▸ ht)
    | cons d rest =>
        refine .inl ⟨done ++ [c], d, rest, hsplit, ht, ?_⟩
        by_cases hsame : d.id = c.id
        · have hdvd := hend d rfl hsame
          rw [← hlast] at hdvd
          exact .inr ((hshape.full_iff hn hcounted hsignals' hid' hfit').mpr hdvd)
        · exact .inl ⟨hid', fun heq => hsame (heq.symm.trans hlast)⟩
  obtain ⟨signals, hqueue, hfront⟩ := hshape.known hid' hfit'
  rw [hlast] at hqueue
  have hqueueSignals : ∀ d ∈ t.buffer.chunkQueue, d.isSignal = true → d.id = temporaryId :=
    fun d hd => hsignals' d (hshape.queue.subset hd)
  obtain ⟨hbytes, hown⟩ := piece_bytes hqueueSignals hqueue hfront hid
  have hc : c ∈ t.buffer.chunkQueue := by
    rw [hqueue, tailOf_snoc rfl]
    exact List.mem_append_right _ (mem_lastPiece_snoc hn)
  have hcontent : c.isSignal = false := by
    cases hsignal : c.isSignal with
    | false => rfl
    | true => exact absurd (hqueueSignals c hc hsignal) hid
  obtain ⟨t', emitted, hok, hout, hmarks⟩ := (h t hjudged).marks
  obtain ⟨emitted', hout', hcode⟩ := cflJudge_ok hok
  have hsame : emitted' = emitted := List.append_cancel_left (hout'.symm.trans hout)
  obtain ⟨c', hcode, hmark⟩ := exists_partner (hsame ▸ hcode) hmarks hc
  have hcode := cflMark_outOfOrder (hclean c (hmem c (by simp))) hcontent hid hcode
  have hmark := hmark (hcounted.known c hc hcontent hid) hid
  rw [hown] at hmark
  rw [hcounted.size, hbytes] at hcode
  exact Bool.eq_iff_iff.mpr (hcode.symm.trans hmark)

private theorem judgesRun_of_fit (hn : 1 ≤ cfg.rewriteBufferSize)
    (hclean : ∀ c ∈ stream, c.flag.outOfOrder = false)
    (hsignals : ∀ d ∈ stream, d.isSignal = true → d.id = temporaryId)
    {last : RewriteThread CflLocals}
    (hrun : (cflRewrite cfg s).run cfg.rewriteBufferSize stream = .ok last)
    (hfit : UnknownBlocksFit cfg.rewriteBufferSize stream)
    (hpieces : PiecesFit cfg.rewriteBufferSize s.belowCflUsage stream)
    (ht : CflJudges cfg s stream t) : JudgesRun cfg s t := by
  obtain ⟨t', hok⟩ := cflJudges_ok hn hsignals hrun ht
  obtain ⟨emitted, hout, hcode⟩ := cflJudge_ok hok
  by_cases hid : t.locals.lastId = temporaryId
  · have hunknown : ∀ c ∈ t.buffer.chunkQueue, c.id = temporaryId := by
      rcases ht with ⟨front, c, rest, hstream, ht, _⟩ | ht
      · exact ((cflReaches_shape hn
          (fun d hd => hsignals d (hstream ▸ List.mem_append_left _ hd)) ht).2.unknown hid).1
      · exact ((cflReaches_shape hn hsignals ht).2.unknown hid).1
    refine ⟨⟨temporaryId, fun c hc _ => hunknown c hc⟩, t', emitted, hok, hout, ?_⟩
    exact forall₂_imp_of_mem hcode fun c hc c' _ _ hne => absurd (hunknown c hc) hne
  · obtain ⟨done, c, rest, signals, hstream, hlast, hend, hqueue, hfront, hsubset, hsize⟩ :=
      cflJudges_piece hn hsignals hfit ht hid
    have hcid : c.id ≠ temporaryId := fun h => hid (hlast.symm.trans h)
    have hqueueSignals : ∀ d ∈ t.buffer.chunkQueue, d.isSignal = true → d.id = temporaryId :=
      fun d hd => hsignals d (hsubset hd)
    obtain ⟨hbytes, hown⟩ := piece_bytes hqueueSignals hqueue hfront hcid
    have hids : ∀ d ∈ t.buffer.chunkQueue, d.isSignal = false → d.id = c.id := by
      intro d hd hcontent
      rw [hqueue] at hd
      rcases List.mem_append.mp hd with hd | hd
      · rw [hfront d hd] at hcontent
        cases hcontent
      · exact id_of_mem_tailOf (lastPiece_subset hd)
    refine ⟨⟨c.id, hids⟩, t', emitted, hok, hout, forall₂_imp_of_mem hcode fun d hd d' hmark _ hne => ?_⟩
    have hcontent : d.isSignal = false := by
      cases hsignal : d.isSignal with
      | false => rfl
      | true => exact absurd (hqueueSignals d hd hsignal) hne
    have hcode := cflMark_outOfOrder (hclean d (hsubset hd)) hcontent hne hmark
    have hpiece := hpieces done c rest hstream hcid hend
    rw [hids d hd hcontent, hown, hcode, hsize, hbytes, hpiece]

/-- In a run of `cfl_rewrite`, every judgement is about one container and goes by the bytes of the
chunk's own run, exactly where the chunks without a container that precede one of a container fill
whole buffers, and 32 bits are enough for the bytes of every piece that is judged. -/
theorem cfl_judges_runs_iff (cfg : Config) (s : RewriteSettings υ) (hn : 1 ≤ cfg.rewriteBufferSize)
    (stream : List Chunk) (hclean : ∀ c ∈ stream, c.flag.outOfOrder = false)
    (hsignals : ∀ c ∈ stream, c.isSignal = true → c.id = temporaryId)
    (last : RewriteThread CflLocals)
    (hrun : (cflRewrite cfg s).run cfg.rewriteBufferSize stream = .ok last) :
    (∀ t, CflJudges cfg s stream t → JudgesRun cfg s t) ↔
      UnknownBlocksFit cfg.rewriteBufferSize stream ∧
        PiecesFit cfg.rewriteBufferSize s.belowCflUsage stream := by
  obtain ⟨t, hreach, _⟩ := bind_ok_iff.mp hrun
  constructor
  · intro h
    have hfit := unknownBlocksFit_of_judges hn hsignals ⟨t, hreach⟩ h
    exact ⟨hfit, piecesFit_of_judges hn hclean hsignals ⟨t, hreach⟩ hfit h⟩
  · rintro ⟨hfit, hpieces⟩ t ht
    exact judgesRun_of_fit hn hclean hsignals hrun hfit hpieces ht

/-- Two chunks of one container, and one of another. -/
theorem cfl_judges_runs_iff_stored :
    ∃ last, (cflRewrite (rewriteConfig .cflSelectiveDeduplication 2) smallSettings).run 2
        [storedChunk 3 10, storedChunk 3 10, storedChunk 5 10] = .ok last ∧
      ((∀ t, CflJudges (rewriteConfig .cflSelectiveDeduplication 2) smallSettings
          [storedChunk 3 10, storedChunk 3 10, storedChunk 5 10] t →
            JudgesRun (rewriteConfig .cflSelectiveDeduplication 2) smallSettings t) ↔
        UnknownBlocksFit 2 [storedChunk 3 10, storedChunk 3 10, storedChunk 5 10] ∧
          PiecesFit 2 smallSettings.belowCflUsage
            [storedChunk 3 10, storedChunk 3 10, storedChunk 5 10]) := by
  obtain ⟨last, hrun⟩ : ∃ last,
      (cflRewrite (rewriteConfig .cflSelectiveDeduplication 2) smallSettings).run 2
        [storedChunk 3 10, storedChunk 3 10, storedChunk 5 10] = .ok last := ⟨_, rfl⟩
  exact ⟨last, hrun, cfl_judges_runs_iff (rewriteConfig .cflSelectiveDeduplication 2) smallSettings
    (by decide) _ (by decide) (by decide) last hrun⟩

/-- A unique chunk of four million bytes hides that the run of the duplicate behind it has ten. -/
theorem unique_chunk_joins_run :
    ¬ ∀ t, CflJudges (rewriteConfig .cflSelectiveDeduplication 8) smallSettings
        [newChunk 4000000, storedChunk 3 10] t →
      JudgesRun (rewriteConfig .cflSelectiveDeduplication 8) smallSettings t := by
  intro h
  have hlast : CflReaches (rewriteConfig .cflSelectiveDeduplication 8) smallSettings
      [newChunk 4000000, storedChunk 3 10]
      { buffer :=
          { chunkQueue := [newChunk 4000000, storedChunk 3 10],
            containerRecordSeq := [{ cid := 3, size := 10, outOfOrder := true }], num := 2,
            size := 4000010 },
        rewriteQueue := [], locals := { lastId := 3, bufferFull := false } } := by
    unfold CflReaches
    decide +kernel
  obtain ⟨cid, hone⟩ := (h _ (.inr hlast)).oneContainer
  have hnew := hone (newChunk 4000000) (by simp) rfl
  have hstored := hone (storedChunk 3 10) (by simp) rfl
  exact absurd (hnew.trans hstored.symm) (by decide)

end Claim

end Destor
