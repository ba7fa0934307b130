/- digest: The rewrite phase: three algorithms that drive one buffer, and that all of them only
   mark the chunks they pass on. -/

import Destor.RewriteBuffer

set_option autoImplicit false
set_option relaxedAutoImplicit false

namespace Destor

open Library.Outcome Library.SortedSeq

/-- The floating-point operations of `cbr_rewrite`, on utilities of type `υ`. -/
structure UtilityArith (υ : Type) where
  /-- `0`, the utility of a chunk that is not judged. -/
  zero : υ
  /-- `coverage >= 1 ? 0 : 1 - coverage`, the coverage being these bytes over a container's. -/
  ofCoverage : Int → υ
  lt : υ → υ → Bool
  /-- `destor.rewrite_cbr_minimal_utility`. -/
  minimalUtility : υ
  /-- `rewrite_utility >= 1 ? 9999 : rewrite_utility * 10000`. -/
  bucket : υ → Nat
  /-- `utility_buckets.min_index`. -/
  minIndex : Int
  /-- `chunk_num * destor.rewrite_cbr_limit`. -/
  bestNum : Int → Int
  /-- `(current_index + 1) / 10000.0`. -/
  threshold : Int → υ

/-- What else the rewrite phase reads of the configuration and of the last backup. -/
structure RewriteSettings (υ : Type) where
  inheritedSparseContainers : IdMap Int
  /-- `size < destor.rewrite_cfl_usage_threshold * (CONTAINER_SIZE - CONTAINER_META_SIZE)`. -/
  belowCflUsage : Int → Bool
  /-- `destor.rewrite_capping_level`. -/
  cappingLevel : Int
  cbr : UtilityArith υ

/-- The inherited sparse containers, where history-aware rewriting is enabled. -/
def RewriteSettings.har {υ : Type} (s : RewriteSettings υ) (cfg : Config) : Option (IdMap Int) :=
  if cfg.rewriteEnableHar then some s.inheritedSparseContainers else none

/-- A rewriting thread: the buffer, what it has pushed to `rewrite_queue`, its own variables. -/
structure RewriteThread (σ : Type) where
  buffer : RewriteBuffer
  rewriteQueue : List Chunk
  locals : σ
deriving DecidableEq

/-- The loop that the rewriting algorithms share. Each pops a chunk from `dedup_queue`, may flush
the buffer, pushes the chunk into it, and acts on what the push returned; at the end of the stream
the buffer is emptied. -/
structure RewriteLoop (σ : Type) where
  start : σ
  beforePush : RewriteThread σ → Chunk → Except Abort (RewriteThread σ)
  afterPush : Bool → RewriteThread σ → Except Abort (RewriteThread σ)
  finish : RewriteThread σ → Except Abort (RewriteThread σ)

namespace RewriteLoop

variable {σ : Type}

def init (loop : RewriteLoop σ) : RewriteThread σ :=
  { buffer := initRewriteBuffer, rewriteQueue := [], locals := loop.start }

/-- One round for a chunk popped from `dedup_queue`. -/
def body (loop : RewriteLoop σ) (n : Nat) (t : RewriteThread σ) (c : Chunk) :
    Except Abort (RewriteThread σ) := do
  let t ← loop.beforePush t c
  let (full, buffer) ← rewriteBufferPush n t.buffer c
  loop.afterPush full { t with buffer := buffer }

def run (loop : RewriteLoop σ) (n : Nat) (stream : List Chunk) :
    Except Abort (RewriteThread σ) := do
  let t ← foldE (loop.body n) loop.init stream
  loop.finish t

/-- After every push of a run, the buffered bytes fit in the `int` that counts them. -/
def totalsFit (loop : RewriteLoop σ) (n : Nat) : RewriteThread σ → List Chunk → Bool
  | _, [] => true
  | t, c :: stream =>
      (match loop.beforePush t c with
        | .ok t' => decide (bufferedBytes (t'.buffer.chunkQueue ++ [c]) < 2 ^ 31)
        | .error _ => true) &&
      match loop.body n t c with
        | .ok t' => loop.totalsFit n t' stream
        | .error _ => true

end RewriteLoop

section Flush

variable {σ : Type}

/-- `while ((c = rewrite_buffer_pop()))`, each chunk being passed on as `mark` leaves it. The fuel
counts the passes that are left. -/
def popAll (har : Option (IdMap Int)) (mark : Chunk → Except Abort Chunk) :
    Nat → RewriteThread σ → Except Abort (RewriteThread σ)
  | 0, t => .ok t
  | fuel + 1, t => do
      let (popped, buffer) ← rewriteBufferPop har t.buffer
      match popped with
      | none => return { t with buffer := buffer }
      | some c =>
          let c ← mark c
          popAll har mark fuel { t with buffer := buffer, rewriteQueue := t.rewriteQueue ++ [c] }

/-- The whole loop: a pass for each chunk, and one that finds the queue empty. -/
def flush (har : Option (IdMap Int)) (mark : Chunk → Except Abort Chunk) (t : RewriteThread σ) :
    Except Abort (RewriteThread σ) :=
  popAll har mark (t.buffer.chunkQueue.length + 1) t

end Flush

section Cfl

variable {υ : Type}

/-- The variables of `cfl_rewrite`. -/
structure CflLocals where
  lastId : Int
  bufferFull : Bool
deriving DecidableEq

/-- The judgement of `cfl_rewrite` on one chunk of the buffer. -/
def cflMark (outOfOrder : Bool) (c : Chunk) : Except Abort Chunk :=
  if c.isSignal then .ok c
  else if outOfOrder = true ∧ c.id ≠ temporaryId then do
    require (c.flag.duplicate = true) .rewriteNotDuplicate
    return markOutOfOrder c
  else .ok c

def cflJudge (cfg : Config) (s : RewriteSettings υ) (t : RewriteThread CflLocals) :
    Except Abort (RewriteThread CflLocals) := do
  let t ← flush (s.har cfg) (cflMark (s.belowCflUsage t.buffer.size)) t
  return { t with locals := { t.locals with bufferFull := false } }

/-- A chunk with another container than the last one ends a run, as does a full buffer. -/
def cflBoundary (cfg : Config) (s : RewriteSettings υ) (t : RewriteThread CflLocals) (c : Chunk) :
    Except Abort (RewriteThread CflLocals) :=
  if (t.locals.lastId ≠ temporaryId ∧ t.locals.lastId ≠ c.id) ∨ t.locals.bufferFull = true then
    cflJudge cfg s t
  else .ok t

def cflRewrite (cfg : Config) (s : RewriteSettings υ) : RewriteLoop CflLocals where
  start := { lastId := temporaryId, bufferFull := false }
  beforePush t c := do
    let t ← cflBoundary cfg s t c
    return { t with locals := { t.locals with lastId := c.id } }
  afterPush full t :=
    if full then .ok { t with locals := { t.locals with bufferFull := true } } else .ok t
  finish := cflJudge cfg s

end Cfl

section Cbr

variable {υ : Type}

structure UtilityBuckets (υ : Type) where
  chunkNum : Int
  currentUtilityThreshold : υ
  buckets : Nat → Int

def initUtilityBuckets (arith : UtilityArith υ) : UtilityBuckets υ :=
  { chunkNum := 0, currentUtilityThreshold := arith.minimalUtility, buckets := fun _ => 0 }

/-- The scan of `utility_buckets_update`, down from the bucket before `i`: the index at which it
stops. -/
def scanBuckets (buckets : Nat → Int) (minIndex bestNum : Int) : Nat → Int → Int
  | 0, _ => -1
  | i + 1, count =>
      if (i : Int) < minIndex then i
      else if bestNum ≤ toInt32 (count + buckets i) then i
      else scanBuckets buckets minIndex bestNum i (toInt32 (count + buckets i))

def utilityBucketsUpdate (arith : UtilityArith υ) (ub : UtilityBuckets υ) (utility : υ) :
    UtilityBuckets υ :=
  let chunkNum := toInt32 (ub.chunkNum + 1)
  let buckets := fun i =>
    if i = arith.bucket utility then toInt32 (ub.buckets i + 1) else ub.buckets i
  { chunkNum := chunkNum
    buckets := buckets
    currentUtilityThreshold :=
      if 100 ≤ chunkNum then
        arith.threshold (scanBuckets buckets arith.minIndex (arith.bestNum chunkNum) 10000 0 + 1)
      else ub.currentUtilityThreshold }

def getRewriteUtility (arith : UtilityArith υ) (b : RewriteBuffer) (c : Chunk) : Except Abort υ :=
  match lookupRecord b.containerRecordSeq c.id with
  | none => .error .recordMissing
  | some r => .ok (arith.ofCoverage (toInt32 (r.size + c.size)))

def passSignals (har : Option (IdMap Int)) :
    Nat → RewriteThread (UtilityBuckets υ) →
      Except Abort (Chunk × RewriteThread (UtilityBuckets υ))
  | 0, _ => .error .decisionChunkMissing
  | fuel + 1, t =>
      match rewriteBufferTop t.buffer with
      | none => .error .decisionChunkMissing
      | some decision =>
          if decision.isSignal then do
            let (_, buffer) ← rewriteBufferPop har t.buffer
            passSignals har fuel
              { t with buffer := buffer, rewriteQueue := t.rewriteQueue ++ [decision] }
          else .ok (decision, t)

/-- The head of the queue is marked in place. -/
def markTop (b : RewriteBuffer) : RewriteBuffer :=
  match b.chunkQueue with
  | [] => b
  | c :: queue => { b with chunkQueue := markOutOfOrder c :: queue }

def cbrJudge (arith : UtilityArith υ) (ub : UtilityBuckets υ) (b : RewriteBuffer)
    (decision : Chunk) : Except Abort (υ × RewriteBuffer) :=
  if decision.id = temporaryId then .ok (arith.zero, b)
  else do
    require (decision.flag.duplicate = true) .rewriteNotDuplicate
    match lookupRecord b.containerRecordSeq decision.id with
    | none => .error .recordMissing
    | some r =>
        if r.outOfOrder then do
          let utility ← getRewriteUtility arith b decision
          if arith.lt utility arith.minimalUtility || arith.lt utility ub.currentUtilityThreshold
          then
            return (utility,
              { b with
                containerRecordSeq :=
                  updateRecord decision.id (fun r => some { r with outOfOrder := false })
                    b.containerRecordSeq })
          else return (utility, markTop b)
        else return (arith.zero, b)

/-- `cbr_rewrite` with a full buffer: the first chunk that is not a signal is judged in the context
of the others. -/
def cbrDecide (cfg : Config) (s : RewriteSettings υ) (t : RewriteThread (UtilityBuckets υ)) :
    Except Abort (RewriteThread (UtilityBuckets υ)) := do
  let (decision, t) ← passSignals (s.har cfg) t.buffer.chunkQueue.length t
  let (utility, buffer) ← cbrJudge s.cbr t.locals t.buffer decision
  let (popped, buffer) ← rewriteBufferPop (s.har cfg) buffer
  match popped with
  | none => .error .decisionChunkMissing
  | some c =>
      return { buffer := buffer, rewriteQueue := t.rewriteQueue ++ [c],
               locals := utilityBucketsUpdate s.cbr t.locals utility }

/-- `cbr_rewrite`; the chunks left at the end are not judged. -/
def cbrRewrite (cfg : Config) (s : RewriteSettings υ) : RewriteLoop (UtilityBuckets υ) where
  start := initUtilityBuckets s.cbr
  beforePush t _ := .ok t
  afterPush full t := if full then cbrDecide cfg s t else .ok t
  finish := flush (s.har cfg) .ok

end Cbr

section Cap

variable {υ : Type}

/-- `cap_segment_get_top`: the records with the most bytes enter `top`; the sequence is left in the
order of the ids. -/
def capSegmentGetTop (level : Int) (t : RewriteThread (IdMap ContainerRecord)) :
    RewriteThread (IdMap ContainerRecord) :=
  let byLength := sort (fun a b => decide (0 < gRecordDescmpByLength a b))
    t.buffer.containerRecordSeq
  let num := if level < byLength.length then level else (byLength.length : Int)
  { t with
    buffer := { t.buffer with containerRecordSeq := sort recordAfter byLength }
    locals := (byLength.take num.toNat).foldl
      (fun top r => top.insert r.cid { r with outOfOrder := false }) t.locals }

/-- The judgement of `cap_rewrite` on a chunk of a full buffer. -/
def capMark (top : IdMap ContainerRecord) (c : Chunk) : Except Abort Chunk :=
  if c.isSignal = false ∧ c.flag.duplicate = true ∧ top.lookup c.id = none then
    .ok (markOutOfOrder c)
  else .ok c

/-- The judgement on a chunk left at the end, which does not ask for duplicates. -/
def capMarkRemaining (top : IdMap ContainerRecord) (c : Chunk) : Except Abort Chunk :=
  if c.isSignal = false ∧ top.lookup c.id = none then .ok (markOutOfOrder c) else .ok c

/-- Judges the buffer against its own top containers and empties it. -/
def capFlush (cfg : Config) (s : RewriteSettings υ)
    (mark : IdMap ContainerRecord → Chunk → Except Abort Chunk)
    (t : RewriteThread (IdMap ContainerRecord)) :
    Except Abort (RewriteThread (IdMap ContainerRecord)) := do
  let t := capSegmentGetTop s.cappingLevel t
  let t ← flush (s.har cfg) (mark t.locals) t
  return { t with locals := ∅ }

/-- `cap_rewrite`; its variable is the table `top`. -/
def capRewrite (cfg : Config) (s : RewriteSettings υ) : RewriteLoop (IdMap ContainerRecord) where
  start := ∅
  beforePush t _ := .ok t
  afterPush full t := if full then capFlush cfg s capMark t else .ok t
  finish := capFlush cfg s capMarkRemaining

end Cap

section Phase

variable {υ : Type}

/-- `no_rewrite`. A chunk is checked after it was pushed, so its mark may come while the filter
thread already holds it. -/
def noRewrite (har : Option (IdMap Int)) (stream : List Chunk) : List Chunk :=
  stream.map (applyHar har)

/-- `start_rewrite_phase` for a stream on `dedup_queue`: what goes to `rewrite_queue`, and the
buffer at the end. -/
def startRewritePhase (cfg : Config) (s : RewriteSettings υ) (stream : List Chunk) :
    Except Abort (List Chunk × RewriteBuffer) :=
  match cfg.rewriteAlgorithm with
  | .no => .ok (noRewrite (s.har cfg) stream, initRewriteBuffer)
  | .cflSelectiveDeduplication => do
      let t ← (cflRewrite cfg s).run cfg.rewriteBufferSize stream
      return (t.rewriteQueue, t.buffer)
  | .contextBased => do
      let t ← (cbrRewrite cfg s).run cfg.rewriteBufferSize stream
      return (t.rewriteQueue, t.buffer)
  | .capping => do
      let t ← (capRewrite cfg s).run cfg.rewriteBufferSize stream
      return (t.rewriteQueue, t.buffer)

def totalsFit (cfg : Config) (s : RewriteSettings υ) (stream : List Chunk) : Bool :=
  match cfg.rewriteAlgorithm with
  | .no => true
  | .cflSelectiveDeduplication =>
      (cflRewrite cfg s).totalsFit cfg.rewriteBufferSize (cflRewrite cfg s).init stream
  | .contextBased => (cbrRewrite cfg s).totalsFit cfg.rewriteBufferSize (cbrRewrite cfg s).init stream
  | .capping => (capRewrite cfg s).totalsFit cfg.rewriteBufferSize (capRewrite cfg s).init stream

end Phase

section Emission

variable {σ : Type} {t t' t'' : RewriteThread σ} {har : Option (IdMap Int)}

/-- What a thread holds, passed on or still buffered, in the order of the stream. -/
def RewriteThread.held (t : RewriteThread σ) : List Chunk := t.rewriteQueue ++ t.buffer.chunkQueue

def Emits (t t' : RewriteThread σ) : Prop := List.Forall₂ Chunk.OnlyMarked t.held t'.held

theorem forall₂_onlyMarked_refl (l : List Chunk) : List.Forall₂ Chunk.OnlyMarked l l :=
  List.forall₂_same.mpr fun c _ => .refl c

theorem forall₂_onlyMarked_trans {l l' l'' : List Chunk}
    (h : List.Forall₂ Chunk.OnlyMarked l l') (h' : List.Forall₂ Chunk.OnlyMarked l' l'') :
    List.Forall₂ Chunk.OnlyMarked l l'' := by
  induction h generalizing l'' with
  | nil => exact h'
  | cons hc _ ih =>
      cases h' with
      | cons hc' h' => exact .cons (hc.trans hc') (ih h')

theorem Emits.trans (h : Emits t t') (h' : Emits t' t'') : Emits t t'' :=
  forall₂_onlyMarked_trans h h'

/-- Passing on the first chunk of the buffer. -/
theorem Emits.pop {c c' : Chunk} {queue : List Chunk} (hqueue : t.buffer.chunkQueue = c :: queue)
    (hmark : c.OnlyMarked c') (hqueue' : t'.buffer.chunkQueue = queue)
    (hout : t'.rewriteQueue = t.rewriteQueue ++ [c']) : Emits t t' := by
  unfold Emits RewriteThread.held
  rw [hqueue, hqueue', hout, List.append_assoc]
  exact List.rel_append (forall₂_onlyMarked_refl _) (.cons hmark (forall₂_onlyMarked_refl queue))

/-- Emptying a consistent buffer, whatever the marks are. -/
theorem popAll_spec (har : Option (IdMap Int)) {mark : Chunk → Except Abort Chunk}
    (hmark : ∀ c, c.Judgeable → ∃ c', mark c = .ok c' ∧ c.OnlyMarked c') :
    ∀ fuel (t : RewriteThread σ), t.buffer.Consistent → t.buffer.chunkQueue.length < fuel →
      ∃ t', popAll har mark fuel t = .ok t' ∧ Emits t t' ∧ t'.buffer = initRewriteBuffer ∧
        t'.locals = t.locals := by
  intro fuel
  induction fuel with
  | zero => exact fun t _ h => absurd h (Nat.not_lt_zero _)
  | succ fuel ih =>
      intro t hb hfuel
      unfold popAll
      cases hqueue : t.buffer.chunkQueue with
      | nil =>
          rw [rewriteBufferPop_nil hqueue]
          exact ⟨t, rfl, forall₂_onlyMarked_refl _, hb.eq_init hqueue, rfl⟩
      | cons c queue =>
          obtain ⟨c', b', hpop, hb', hqueue', hsparse⟩ := rewriteBufferPop_spec har hb hqueue
          have hc : c.Judgeable := hb.chunks c (hqueue ▸ List.mem_cons_self)
          obtain ⟨c'', hok, hmarked⟩ := hmark c' (hc.onlyMarked hsparse)
          rw [hqueue, List.length_cons] at hfuel
          obtain ⟨t', hok', hemits, hnil, hlocals⟩ :=
            ih { t with buffer := b', rewriteQueue := t.rewriteQueue ++ [c''] } hb'
              (hqueue'.symm ▸ Nat.lt_of_succ_lt_succ hfuel)
          refine ⟨t', ?_, ?_, hnil, hlocals⟩
          · rw [hpop]
            simp only [hok, hok', bind, Except.bind]
          · exact (Emits.pop hqueue (hsparse.trans hmarked) hqueue' rfl).trans hemits

theorem flush_spec (har : Option (IdMap Int)) {mark : Chunk → Except Abort Chunk}
    (hmark : ∀ c, c.Judgeable → ∃ c', mark c = .ok c' ∧ c.OnlyMarked c')
    (hb : t.buffer.Consistent) :
    ∃ t', flush har mark t = .ok t' ∧ Emits t t' ∧ t'.buffer = initRewriteBuffer ∧
      t'.locals = t.locals :=
  popAll_spec har hmark _ t hb (Nat.lt_succ_self _)

end Emission

section Loop

variable {σ : Type} {loop : RewriteLoop σ} {n : Nat} {Inv : RewriteThread σ → Prop}

/-- What a rewriting algorithm owes to the loop: before a push it makes room in a consistent buffer,
after the push it restores its invariant, at the end it empties the buffer; and it only marks. -/
structure RewriteLoop.OnlyMarks (loop : RewriteLoop σ) (n : Nat) (Inv : RewriteThread σ → Prop) :
    Prop where
  start : Inv loop.init
  beforePush : ∀ t c, Inv t → ∃ t', loop.beforePush t c = .ok t' ∧ Emits t t' ∧
    t'.buffer.Consistent ∧ t'.buffer.num < n
  afterPush : ∀ full (t : RewriteThread σ), t.buffer.Consistent → (full = true → t.buffer.num = n) →
    (full = false → t.buffer.num < n) → ∃ t', loop.afterPush full t = .ok t' ∧ Emits t t' ∧ Inv t'
  finish : ∀ t, Inv t → ∃ t', loop.finish t = .ok t' ∧ Emits t t' ∧ t'.buffer = initRewriteBuffer

/-- One round takes one chunk in and keeps the order. -/
theorem RewriteLoop.OnlyMarks.body (h : loop.OnlyMarks n Inv) {t : RewriteThread σ} (ht : Inv t)
    {c : Chunk} (hc : c.Judgeable) {stream : List Chunk}
    (hfits : loop.totalsFit n t (c :: stream) = true) :
    ∃ t', loop.body n t c = .ok t' ∧ Inv t' ∧ loop.totalsFit n t' stream = true ∧
      List.Forall₂ Chunk.OnlyMarked (t.held ++ [c]) t'.held := by
  obtain ⟨t₁, hok₁, hemits₁, hb₁, hroom⟩ := h.beforePush t c ht
  unfold RewriteLoop.totalsFit at hfits
  rw [hok₁, Bool.and_eq_true] at hfits
  obtain ⟨full, b₂, hpush, hb₂, hqueue, hfull, hnot⟩ :=
    rewriteBufferPush_spec hb₁ hc (of_decide_eq_true hfits.1) hroom
  obtain ⟨t₃, hok₃, hemits₃, hinv⟩ := h.afterPush full { t₁ with buffer := b₂ } hb₂ hfull hnot
  have hbody : loop.body n t c = .ok t₃ := by
    unfold RewriteLoop.body
    rw [hok₁]
    simp only [hpush, bind, Except.bind]
    exact hok₃
  refine ⟨t₃, hbody, hinv, ?_, ?_⟩
  · have hrest := hfits.2
    rw [hbody] at hrest
    exact hrest
  · apply forall₂_onlyMarked_trans (List.rel_append hemits₁ (forall₂_onlyMarked_refl [c]))
    have hheld : t₁.held ++ [c] = ({ t₁ with buffer := b₂ } : RewriteThread σ).held := by
      unfold RewriteThread.held
      rw [hqueue, List.append_assoc]
    show List.Forall₂ Chunk.OnlyMarked (t₁.held ++ [c]) t₃.held
    rw [hheld]
    exact hemits₃

/-- A run passes on the whole stream in order and leaves the buffer empty. -/
theorem RewriteLoop.OnlyMarks.run (h : loop.OnlyMarks n Inv) {stream : List Chunk}
    (hstream : ∀ c ∈ stream, c.Judgeable)
    (hfits : loop.totalsFit n loop.init stream = true) :
    ∃ t, loop.run n stream = .ok t ∧ List.Forall₂ Chunk.OnlyMarked stream t.rewriteQueue ∧
      t.buffer = initRewriteBuffer := by
  have main : ∀ (rest : List Chunk) (t : RewriteThread σ), Inv t → (∀ c ∈ rest, c.Judgeable) →
      loop.totalsFit n t rest = true →
      ∃ t', foldE (loop.body n) t rest = .ok t' ∧ Inv t' ∧
        List.Forall₂ Chunk.OnlyMarked (t.held ++ rest) t'.held := by
    intro rest
    induction rest with
    | nil =>
        intro t ht _ _
        refine ⟨t, rfl, ht, ?_⟩
        rw [List.append_nil]
        exact forall₂_onlyMarked_refl _
    | cons c rest ih =>
        intro t ht hrest hfits
        obtain ⟨t₁, hok₁, ht₁, hfits₁, hheld⟩ :=
          h.body ht (hrest c List.mem_cons_self) hfits
        obtain ⟨t₂, hok₂, ht₂, hheld₂⟩ :=
          ih t₁ ht₁ (fun c' hc' => hrest c' (List.mem_cons_of_mem c hc')) hfits₁
        refine ⟨t₂, ?_, ht₂, ?_⟩
        · simp only [foldE, hok₁, bind, Except.bind]
          exact hok₂
        · rw [List.append_cons]
          exact forall₂_onlyMarked_trans
            (List.rel_append hheld (forall₂_onlyMarked_refl rest)) hheld₂
  obtain ⟨t₁, hok₁, ht₁, hheld⟩ := main stream loop.init h.start hstream hfits
  obtain ⟨t₂, hok₂, hemits, hnil⟩ := h.finish t₁ ht₁
  refine ⟨t₂, ?_, ?_, hnil⟩
  · unfold RewriteLoop.run
    simp only [hok₁, bind, Except.bind]
    exact hok₂
  · have hall := forall₂_onlyMarked_trans hheld hemits
    simpa [RewriteThread.held, RewriteLoop.init, hnil, initRewriteBuffer] using hall

end Loop

section Algorithms

variable {υ : Type} {cfg : Config} {s : RewriteSettings υ}

private theorem init_num_lt (hn : 0 < cfg.rewriteBufferSize) :
    initRewriteBuffer.num < cfg.rewriteBufferSize := by
  show (0 : Int) < cfg.rewriteBufferSize
  omega

theorem cflMark_spec (outOfOrder : Bool) {c : Chunk} (hc : c.Judgeable) :
    ∃ c', cflMark outOfOrder c = .ok c' ∧ c.OnlyMarked c' := by
  unfold cflMark
  cases hc with
  | signal hsignal => exact ⟨c, if_pos hsignal, .refl c⟩
  | pending hsignal _ hid =>
      refine ⟨c, ?_, .refl c⟩
      rw [if_neg (by simp [hsignal]), if_neg (fun h => h.2 hid)]
  | stored hsignal _ hdup _ _ =>
      rw [if_neg (by simp [hsignal]), require_of hdup]
      split
      · exact ⟨_, rfl, markOutOfOrder_onlyMarked c⟩
      · exact ⟨c, rfl, .refl c⟩

theorem cflJudge_spec (cfg : Config) (s : RewriteSettings υ) {t : RewriteThread CflLocals}
    (hb : t.buffer.Consistent) :
    ∃ t', cflJudge cfg s t = .ok t' ∧ Emits t t' ∧ t'.buffer = initRewriteBuffer := by
  obtain ⟨t', hok, hemits, hnil, -⟩ := flush_spec (s.har cfg)
    (fun c hc => cflMark_spec (s.belowCflUsage t.buffer.size) hc) hb
  refine ⟨{ t' with locals := { t'.locals with bufferFull := false } }, ?_, hemits, hnil⟩
  unfold cflJudge
  rw [hok]
  rfl

/-- Between two rounds of `cfl_rewrite` a full buffer is flagged. -/
theorem cflRewrite_onlyMarks (hn : 0 < cfg.rewriteBufferSize) :
    (cflRewrite cfg s).OnlyMarks cfg.rewriteBufferSize fun t =>
      t.buffer.Consistent ∧ (t.locals.bufferFull = false → t.buffer.num < cfg.rewriteBufferSize) where
  start := ⟨initRewriteBuffer_consistent, fun _ => init_num_lt hn⟩
  beforePush := by
    intro t c ht
    show ∃ t', (cflBoundary cfg s t c >>= fun t =>
      .ok { t with locals := { t.locals with lastId := c.id } }) = .ok t' ∧ _
    unfold cflBoundary
    by_cases hflush : (t.locals.lastId ≠ temporaryId ∧ t.locals.lastId ≠ c.id) ∨
        t.locals.bufferFull = true
    · obtain ⟨t', hok, hemits, hnil⟩ := cflJudge_spec cfg s ht.1
      rw [if_pos hflush, hok]
      refine ⟨_, rfl, hemits, ?_, ?_⟩
      · exact hnil ▸ initRewriteBuffer_consistent
      · exact hnil ▸ init_num_lt hn
    · rw [if_neg hflush]
      have hroom : t.locals.bufferFull = false := by
        cases hfull : t.locals.bufferFull with
        | false => rfl
        | true => exact absurd (Or.inr hfull) hflush
      exact ⟨_, rfl, forall₂_onlyMarked_refl _, ht.1, ht.2 hroom⟩
  afterPush := by
    intro full t hb hfull hnot
    cases full with
    | true => exact ⟨_, rfl, forall₂_onlyMarked_refl _, hb, fun h => absurd h (by simp)⟩
    | false => exact ⟨t, rfl, forall₂_onlyMarked_refl _, hb, fun _ => hnot rfl⟩
  finish := fun t ht => cflJudge_spec cfg s ht.1

theorem capSegmentGetTop_buffer (level : Int) {t : RewriteThread (IdMap ContainerRecord)}
    (h : RecordsSorted t.buffer.containerRecordSeq) :
    (capSegmentGetTop level t).buffer = t.buffer := by
  have hsort := h.sort_eq
    (sort_perm (fun a b => decide (0 < gRecordDescmpByLength a b)) t.buffer.containerRecordSeq)
  unfold capSegmentGetTop
  simp only [hsort]

theorem capFlush_spec (cfg : Config) (s : RewriteSettings υ)
    {mark : IdMap ContainerRecord → Chunk → Except Abort Chunk}
    (hmark : ∀ top c, ∃ c', mark top c = .ok c' ∧ c.OnlyMarked c')
    {t : RewriteThread (IdMap ContainerRecord)} (hb : t.buffer.Consistent) :
    ∃ t', capFlush cfg s mark t = .ok t' ∧ Emits t t' ∧ t'.buffer = initRewriteBuffer := by
  have htop := capSegmentGetTop_buffer s.cappingLevel hb.records.toRecordsSorted
  have hemits : Emits t (capSegmentGetTop s.cappingLevel t) := by
    unfold Emits RewriteThread.held
    rw [htop]
    exact forall₂_onlyMarked_refl _
  obtain ⟨t', hok, hemits', hnil, -⟩ := flush_spec (s.har cfg)
    (fun c _ => hmark (capSegmentGetTop s.cappingLevel t).locals c) (htop.symm ▸ hb)
  refine ⟨{ t' with locals := ∅ }, ?_, hemits.trans hemits', hnil⟩
  unfold capFlush
  simp only [hok, bind, Except.bind]
  rfl

theorem capMark_spec (top : IdMap ContainerRecord) (c : Chunk) :
    ∃ c', capMark top c = .ok c' ∧ c.OnlyMarked c' := by
  unfold capMark
  split
  · exact ⟨_, rfl, markOutOfOrder_onlyMarked c⟩
  · exact ⟨c, rfl, .refl c⟩

theorem capMarkRemaining_spec (top : IdMap ContainerRecord) (c : Chunk) :
    ∃ c', capMarkRemaining top c = .ok c' ∧ c.OnlyMarked c' := by
  unfold capMarkRemaining
  split
  · exact ⟨_, rfl, markOutOfOrder_onlyMarked c⟩
  · exact ⟨c, rfl, .refl c⟩

theorem capRewrite_onlyMarks (hn : 0 < cfg.rewriteBufferSize) :
    (capRewrite cfg s).OnlyMarks cfg.rewriteBufferSize fun t =>
      t.buffer.Consistent ∧ t.buffer.num < cfg.rewriteBufferSize where
  start := ⟨initRewriteBuffer_consistent, init_num_lt hn⟩
  beforePush := fun t _ ht => ⟨t, rfl, forall₂_onlyMarked_refl _, ht.1, ht.2⟩
  afterPush := by
    intro full t hb _ hnot
    cases full with
    | true =>
        obtain ⟨t', hok, hemits, hnil⟩ := capFlush_spec cfg s capMark_spec hb
        refine ⟨t', hok, hemits, ?_, ?_⟩
        · exact hnil ▸ initRewriteBuffer_consistent
        · exact hnil ▸ init_num_lt hn
    | false => exact ⟨t, rfl, forall₂_onlyMarked_refl _, hb, hnot rfl⟩
  finish := fun t ht => capFlush_spec cfg s capMarkRemaining_spec ht.1

theorem passSignals_spec (har : Option (IdMap Int)) :
    ∀ fuel (t : RewriteThread (UtilityBuckets υ)), t.buffer.Consistent →
    t.buffer.chunkQueue.length = fuel → 0 < t.buffer.num →
      ∃ c queue t', passSignals har fuel t = .ok (c, t') ∧ Emits t t' ∧ t'.buffer.Consistent ∧
        t'.buffer.chunkQueue = c :: queue ∧ c.isSignal = false ∧ t'.buffer.num = t.buffer.num ∧
        t'.locals = t.locals := by
  intro fuel
  induction fuel with
  | zero =>
      intro t hb hlength hpos
      have hnil := List.length_eq_zero_iff.mp hlength
      rw [hb.num, hnil] at hpos
      exact absurd hpos (Int.lt_irrefl 0)
  | succ fuel ih =>
      intro t hb hlength hpos
      obtain ⟨c, queue, hqueue⟩ := List.exists_cons_of_length_eq_add_one hlength
      have htop : rewriteBufferTop t.buffer = some c := by
        unfold rewriteBufferTop
        rw [hqueue, List.head?_cons]
      unfold passSignals
      rw [htop]
      simp only
      cases hsignal : c.isSignal with
      | false =>
          exact ⟨c, queue, t, rfl, forall₂_onlyMarked_refl _, hb, hqueue, hsignal, rfl, rfl⟩
      | true =>
          obtain ⟨c', b', hpop, hb', hqueue', hsparse⟩ :=
            rewriteBufferPop_spec har hb hqueue
          have hnum : b'.num = t.buffer.num := by
            rw [hb'.num, hb.num, hqueue', hqueue, bufferedNum_cons, hsignal]
            simp
          rw [hqueue, List.length_cons] at hlength
          obtain ⟨d, rest, t', hok, hemits, hcons, hq, hd, hnum', hlocals⟩ :=
            ih { t with buffer := b', rewriteQueue := t.rewriteQueue ++ [c] } hb'
              (hqueue'.symm ▸ Nat.succ.inj hlength) (hnum.symm ▸ hpos)
          refine ⟨d, rest, t', ?_, ?_, hcons, hq, hd, hnum'.trans hnum, hlocals⟩
          · rw [if_pos rfl, hpop]
            exact hok
          · exact (Emits.pop hqueue (.refl c) hqueue' rfl).trans hemits

/-- Marking the head of the queue leaves every counter right. -/
theorem markTop_consistent {b : RewriteBuffer} (hb : b.Consistent) : (markTop b).Consistent := by
  cases hqueue : b.chunkQueue with
  | nil =>
      have htop : markTop b = b := by
        unfold markTop
        rw [hqueue]
      rw [htop]
      exact hb
  | cons c queue =>
      have htop : markTop b = { b with chunkQueue := markOutOfOrder c :: queue } := by
        unfold markTop
        rw [hqueue]
      rw [htop]
      have hmark := markOutOfOrder_onlyMarked c
      obtain ⟨hnum, hbytes, hin⟩ := hmark.cons_eq queue
      exact
        { chunks := by
            intro c' hc'
            rcases List.mem_cons.mp hc' with rfl | hc'
            · exact (hb.chunks c (hqueue ▸ List.mem_cons_self)).onlyMarked hmark
            · exact hb.chunks c' (hqueue ▸ List.mem_cons_of_mem c hc')
          fits := by rw [hbytes, ← hqueue]; exact hb.fits
          num := by rw [hnum, ← hqueue]; exact hb.num
          size := by rw [hbytes, ← hqueue]; exact hb.size
          records := by
            have hsame : (fun cid => bytesIn cid (markOutOfOrder c :: queue)) =
                fun cid => bytesIn cid b.chunkQueue := by
              ext cid
              rw [hin, hqueue]
            rw [hsame]
            exact hb.records }

theorem cbrJudge_spec (s : RewriteSettings υ) (ub : UtilityBuckets υ) {b : RewriteBuffer}
    (hb : b.Consistent) {c : Chunk}
    {queue : List Chunk} (hqueue : b.chunkQueue = c :: queue) (hsignal : c.isSignal = false) :
    ∃ utility b' c', cbrJudge s.cbr ub b c = .ok (utility, b') ∧ b'.Consistent ∧
      b'.chunkQueue = c' :: queue ∧ c.OnlyMarked c' ∧ b'.num = b.num := by
  unfold cbrJudge
  by_cases hid : c.id = temporaryId
  · exact ⟨_, b, c, if_pos hid, hb, hqueue, .refl c, rfl⟩
  · have hc : c.Judgeable := hb.chunks c (hqueue ▸ List.mem_cons_self)
    obtain ⟨hdup, hrange, hpos⟩ :
        c.flag.duplicate = true ∧ InRange c.id ∧ 0 < bytesIn c.id b.chunkQueue := by
      cases hc with
      | signal h => exact absurd h (by simp [hsignal])
      | pending _ _ h => exact absurd h hid
      | stored _ hsize hdup hnonneg hlt =>
          refine ⟨hdup, ⟨hnonneg, hlt⟩, ?_⟩
          rw [hqueue, bytesIn_cons, if_pos ⟨hsignal, hid, rfl⟩]
          omega
    have hfound := (hb.records.covered c.id).mpr hpos
    obtain ⟨r, hr, hcid⟩ := hfound
    have hlookup : lookupRecord b.containerRecordSeq c.id = some r :=
      hcid ▸ lookupRecord_eq_some hb.records.toRecordsSorted hr
    rw [if_neg hid, require_of hdup]
    simp only [hlookup, getRewriteUtility, bind, Except.bind, pure, Except.pure]
    split
    · split
      · refine ⟨_, _, c, rfl, ?_, hqueue, .refl c, rfl⟩
        exact
          { chunks := hb.chunks
            fits := hb.fits
            num := hb.num
            size := hb.size
            records := hb.records.updateOutOfOrder hrange ⟨r, hr, hcid⟩ }
      · have htop : markTop b = { b with chunkQueue := markOutOfOrder c :: queue } := by
          unfold markTop
          rw [hqueue]
        exact ⟨_, markTop b, markOutOfOrder c, rfl, markTop_consistent hb, by rw [htop],
          markOutOfOrder_onlyMarked c, by rw [htop]⟩
    · exact ⟨_, b, c, rfl, hb, hqueue, .refl c, rfl⟩

theorem cbrDecide_spec (cfg : Config) (s : RewriteSettings υ)
    {t : RewriteThread (UtilityBuckets υ)} (hb : t.buffer.Consistent)
    (hpos : 0 < t.buffer.num) :
    ∃ t', cbrDecide cfg s t = .ok t' ∧ Emits t t' ∧ t'.buffer.Consistent ∧
      t'.buffer.num < t.buffer.num := by
  obtain ⟨c, queue, t₁, hok₁, hemits₁, hb₁, hqueue₁, hsignal, hnum₁, hlocals₁⟩ :=
    passSignals_spec (s.har cfg) _ t hb rfl hpos
  obtain ⟨utility, b₂, c₂, hok₂, hb₂, hqueue₂, hmark₂, hnum₂⟩ :=
    cbrJudge_spec s t₁.locals hb₁ hqueue₁ hsignal
  obtain ⟨c₃, b₃, hok₃, hb₃, hqueue₃, hmark₃⟩ := rewriteBufferPop_spec (s.har cfg) hb₂ hqueue₂
  refine ⟨{ buffer := b₃, rewriteQueue := t₁.rewriteQueue ++ [c₃],
            locals := utilityBucketsUpdate s.cbr t₁.locals utility }, ?_,
    hemits₁.trans (Emits.pop hqueue₁ (hmark₂.trans hmark₃) hqueue₃ rfl), hb₃, ?_⟩
  · unfold cbrDecide
    simp only [hok₁, hok₂, hok₃, bind, Except.bind, pure, Except.pure]
  · have hsignal₂ : c₂.isSignal = false := hmark₂.signal_eq.trans hsignal
    rw [← hnum₁, ← hnum₂, hb₂.num, hqueue₂, bufferedNum_cons, hsignal₂]
    show b₃.num < _
    rw [hb₃.num, hqueue₃]
    simp

theorem cbrRewrite_onlyMarks (hn : 0 < cfg.rewriteBufferSize) :
    (cbrRewrite cfg s).OnlyMarks cfg.rewriteBufferSize fun t =>
      t.buffer.Consistent ∧ t.buffer.num < cfg.rewriteBufferSize where
  start := ⟨initRewriteBuffer_consistent, init_num_lt hn⟩
  beforePush := fun t _ ht => ⟨t, rfl, forall₂_onlyMarked_refl _, ht.1, ht.2⟩
  afterPush := by
    intro full t hb hfull hnot
    cases full with
    | true =>
        have hnum := hfull rfl
        obtain ⟨t', hok, hemits, hb', hlt⟩ := cbrDecide_spec cfg s hb (by omega)
        exact ⟨t', hok, hemits, hb', by omega⟩
    | false => exact ⟨t, rfl, forall₂_onlyMarked_refl _, hb, hnot rfl⟩
  finish := by
    intro t ht
    obtain ⟨t', hok, hemits, hnil, -⟩ := flush_spec (s.har cfg)
      (fun c _ => ⟨c, rfl, .refl c⟩) ht.1
    exact ⟨t', hok, hemits, hnil⟩

theorem noRewrite_onlyMarked (har : Option (IdMap Int)) (stream : List Chunk) :
    List.Forall₂ Chunk.OnlyMarked stream (noRewrite har stream) := by
  unfold noRewrite
  rw [List.forall₂_map_right_iff]
  exact List.forall₂_same.mpr fun c _ => applyHar_onlyMarked har c

end Algorithms

section Claim

variable {υ : Type}

/-- Whatever the algorithm, the rewrite phase passes on exactly the stream it received, in order, at
most marking chunks as sparse or out of order; no assertion fails and the buffer ends empty. -/
theorem rewrite_phase_only_marks (cfg : Config) (s : RewriteSettings υ)
    (hn : 1 ≤ cfg.rewriteBufferSize) (stream : List Chunk) (hstream : ∀ c ∈ stream, c.Judgeable)
    (hfits : totalsFit cfg s stream = true) :
    ∃ out, startRewritePhase cfg s stream = .ok (out, initRewriteBuffer) ∧
      List.Forall₂ Chunk.OnlyMarked stream out := by
  unfold startRewritePhase
  unfold totalsFit at hfits
  cases halgorithm : cfg.rewriteAlgorithm with
  | no => exact ⟨_, rfl, noRewrite_onlyMarked (s.har cfg) stream⟩
  | cflSelectiveDeduplication =>
      rw [halgorithm] at hfits
      obtain ⟨t, hok, hout, hnil⟩ := (cflRewrite_onlyMarks hn).run hstream hfits
      refine ⟨t.rewriteQueue, ?_, hout⟩
      simp only [hok, hnil, bind, Except.bind, pure, Except.pure]
  | contextBased =>
      rw [halgorithm] at hfits
      obtain ⟨t, hok, hout, hnil⟩ := (cbrRewrite_onlyMarks hn).run hstream hfits
      refine ⟨t.rewriteQueue, ?_, hout⟩
      simp only [hok, hnil, bind, Except.bind, pure, Except.pure]
  | capping =>
      rw [halgorithm] at hfits
      obtain ⟨t, hok, hout, hnil⟩ := (capRewrite_onlyMarks hn).run hstream hfits
      refine ⟨t.rewriteQueue, ?_, hout⟩
      simp only [hok, hnil, bind, Except.bind, pure, Except.pure]

/-- Utilities counted in bytes of an empty container, so exactly; a minimal utility of 7/10, a
limit of 5/100. -/
def byteUtility : UtilityArith Int where
  zero := 0
  ofCoverage bytes := max 0 (containerSize - containerMetaSize - bytes)
  lt a b := decide (a < b)
  minimalUtility := (containerSize - containerMetaSize : Int) * 7 / 10
  bucket u := min 9999 (u.toNat * 10000 / (containerSize - containerMetaSize))
  minIndex := 7000
  bestNum n := n * 5 / 100
  threshold i := (containerSize - containerMetaSize : Int) * i / 10000

/-- Settings for small runs: no inherited container, a cfl usage threshold of 3/100 and one top
container. -/
def smallSettings : RewriteSettings Int where
  inheritedSparseContainers := ∅
  belowCflUsage size := decide (size * 100 < (containerSize - containerMetaSize : Int) * 3)
  cappingLevel := 1
  cbr := byteUtility

def rewriteConfig (algorithm : RewriteAlgorithm) (n : Nat) : Config :=
  { smallConfig .exact .physical with rewriteAlgorithm := algorithm, rewriteBufferSize := n }

/-- A segment with chunks of two containers and a new chunk, through a buffer of two chunks. -/
theorem rewrite_phase_only_marks_capping :
    ∃ out, startRewritePhase (rewriteConfig .capping 2) smallSettings
        (sendSegment [storedChunk 3 10, storedChunk 5 20, newChunk 7]) =
          .ok (out, initRewriteBuffer) ∧
      List.Forall₂ Chunk.OnlyMarked
        (sendSegment [storedChunk 3 10, storedChunk 5 20, newChunk 7]) out := by
  refine rewrite_phase_only_marks (rewriteConfig .capping 2) smallSettings (by decide) _ ?_
    (by decide +kernel)
  intro c hc
  simp only [sendSegment, List.mem_append, List.mem_cons, List.not_mem_nil, or_false] at hc
  rcases hc with (rfl | rfl | rfl | rfl) | rfl
  · exact .signal rfl
  · exact .stored rfl (by decide) rfl (by decide) (by decide)
  · exact .stored rfl (by decide) rfl (by decide) (by decide)
  · exact .pending rfl (by decide) rfl
  · exact .signal rfl

end Claim

end Destor
