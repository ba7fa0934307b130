/- digest: The rewrite threads at the level of pointers: every access to a chunk, and every hand-over
   to the filter thread. -/

import Destor.Library.Operations
import Destor.RewritePhase

set_option autoImplicit false
set_option relaxedAutoImplicit false

namespace Destor

open Library.Operations

/-- What a rewrite thread does to the chunks it was given, each named by its address: it reads
fields of one, overwrites the flag of one, pushes one to `rewrite_queue`, or stops. -/
inductive ChunkAccess where
  | load (addr : Nat)
  | store (addr : Nat) (flag : ChunkFlag)
  | push (addr : Nat)
  | stop (e : Abort)

namespace ChunkAccess

def Answer : ChunkAccess → Type
  | load _ => Chunk
  | store _ _ => Unit
  | push _ => Unit
  | stop _ => Empty

/-- The chunk whose fields are read or written. -/
def target : ChunkAccess → Option Nat
  | load addr => some addr
  | store addr _ => some addr
  | push _ => none
  | stop _ => none

end ChunkAccess

abbrev RewriteCode := Program ChunkAccess ChunkAccess.Answer

/-- `rewrite_buffer`, with the addresses of its chunks. -/
structure PointerBuffer where
  chunkQueue : List Nat
  containerRecordSeq : List ContainerRecord
  num : Int
  size : Int

/-- The buffer and the variables of a rewrite thread. -/
structure PointerThread (σ : Type) where
  buffer : PointerBuffer
  locals : σ

def PointerThread.held {σ : Type} (t : PointerThread σ) : List Nat := t.buffer.chunkQueue

/-- A rewrite thread: what it does for a chunk popped from `dedup_queue`, and after the last one. -/
structure RewriteRoutine (σ : Type) where
  start : σ
  body : σ → Nat → RewriteCode σ
  finish : σ → RewriteCode σ

namespace RewriteCode

section Statements

variable {α : Type}

def load (addr : Nat) : RewriteCode Chunk := Program.call (ChunkAccess.load addr)

def store (addr : Nat) (flag : ChunkFlag) : RewriteCode Unit :=
  Program.call (ChunkAccess.store addr flag)

def push (addr : Nat) : RewriteCode Unit := Program.call (ChunkAccess.push addr)

def stop (e : Abort) : RewriteCode α := Program.perform (ChunkAccess.stop e) Empty.elim

def checkChunk (addr : Nat) (bit : ChunkFlag → Bool) : RewriteCode Bool := do
  let c ← load addr
  return bit c.flag

def checkAny (addr : Nat) : List (ChunkFlag → Bool) → RewriteCode Bool
  | [] => return false
  | bit :: bits => do
      let set ← checkChunk addr bit
      if set then return true else checkAny addr bits

def setChunk (addr : Nat) (mark : ChunkFlag → ChunkFlag) : RewriteCode Unit := do
  let c ← load addr
  store addr (mark c.flag)

def assert (p : Prop) [Decidable p] (e : Abort) : RewriteCode Unit :=
  if p then return () else stop e

def lift : Except Abort α → RewriteCode α
  | .ok a => return a
  | .error e => stop e

/-- Whether a chunk is a file or segment boundary. -/
def checkSignal (addr : Nat) : RewriteCode Bool :=
  checkAny addr [ChunkFlag.fileStart, ChunkFlag.fileEnd, ChunkFlag.segmentStart,
    ChunkFlag.segmentEnd]

end Statements

section Buffer

/-- `har_check`; the fingerprint is read for a message. -/
def harCheck (inherited : IdMap Int) (addr : Nat) : RewriteCode Unit := do
  let file ← checkAny addr [ChunkFlag.fileStart, ChunkFlag.fileEnd]
  if file then return ()
  else do
    let duplicate ← checkChunk addr ChunkFlag.duplicate
    if duplicate then do
      let c ← load addr
      if (inherited.lookup c.id).isSome then do
        setChunk addr fun flag => { flag with sparse := true }
        let _ ← load addr
        return ()
      else return ()
    else return ()

/-- The guarded call of `har_check`. -/
def applyHar (har : Option (IdMap Int)) (addr : Nat) : RewriteCode Unit :=
  match har with
  | none => return ()
  | some inherited => do
      let duplicate ← checkChunk addr ChunkFlag.duplicate
      if duplicate then harCheck inherited addr else return ()

def initRewriteBuffer : PointerBuffer :=
  { chunkQueue := [], containerRecordSeq := [], num := 0, size := 0 }

def rewriteBufferPush (n : Nat) (b : PointerBuffer) (addr : Nat) :
    RewriteCode (Bool × PointerBuffer) := do
  let signal ← checkSignal addr
  if signal then return (false, { b with chunkQueue := b.chunkQueue ++ [addr] })
  else do
    let c ← load addr
    let seq ← lift (pushRecord b.containerRecordSeq c)
    let full : Bool := (n : Int) ≤ b.num + 1
    assert (full = true → b.num + 1 = n) .rewriteBufferOverfull
    return (full,
      { chunkQueue := b.chunkQueue ++ [addr], containerRecordSeq := seq, num := b.num + 1,
        size := toInt32 (b.size + c.size) })

def rewriteBufferPop (har : Option (IdMap Int)) (b : PointerBuffer) :
    RewriteCode (Option Nat × PointerBuffer) :=
  match b.chunkQueue with
  | [] => return (none, b)
  | addr :: queue => do
      let signal ← checkSignal addr
      if signal then return (some addr, { b with chunkQueue := queue })
      else do
        let c ← load addr
        if c.flag.duplicate = true ∧ c.id ≠ temporaryId then do
          let seq ← lift (popRecord b.containerRecordSeq c)
          applyHar har addr
          return (some addr,
            { chunkQueue := queue, containerRecordSeq := seq, num := b.num - 1,
              size := toInt32 (b.size - c.size) })
        else
          return (some addr,
            { b with chunkQueue := queue, num := b.num - 1, size := toInt32 (b.size - c.size) })

variable {σ : Type}

/-- `while ((c = rewrite_buffer_pop()))`, each chunk being judged and pushed. The fuel counts the
passes that are left. -/
def popAll (har : Option (IdMap Int)) (judge : Nat → RewriteCode Unit) :
    Nat → PointerBuffer → RewriteCode PointerBuffer
  | 0, b => return b
  | fuel + 1, b => do
      let (popped, b) ← rewriteBufferPop har b
      match popped with
      | none => return b
      | some addr => do
          judge addr
          push addr
          popAll har judge fuel b

/-- The whole loop: a pass for each chunk, and one that finds the queue empty. -/
def flush (har : Option (IdMap Int)) (judge : Nat → RewriteCode Unit) (b : PointerBuffer) :
    RewriteCode PointerBuffer :=
  popAll har judge (b.chunkQueue.length + 1) b

end Buffer

def noRewrite (har : Option (IdMap Int)) : RewriteRoutine Unit where
  start := ()
  body _ addr := do
    push addr
    applyHar har addr
  finish _ := return ()

section Cfl

variable {υ : Type}

/-- The judgement of `cfl_rewrite` on a chunk of the buffer. -/
def cflMark (outOfOrder : Bool) (addr : Nat) : RewriteCode Unit := do
  let signal ← checkSignal addr
  if signal then return ()
  else if outOfOrder then do
    let c ← load addr
    if c.id ≠ temporaryId then do
      let duplicate ← checkChunk addr ChunkFlag.duplicate
      assert (duplicate = true) .rewriteNotDuplicate
      setChunk addr fun flag => { flag with outOfOrder := true }
    else return ()
  else return ()

def cflJudge (cfg : Config) (s : RewriteSettings υ) (t : PointerThread CflLocals) :
    RewriteCode (PointerThread CflLocals) := do
  let b ← flush (s.har cfg) (cflMark (s.belowCflUsage t.buffer.size)) t.buffer
  return { buffer := b, locals := { t.locals with bufferFull := false } }

/-- `last_id != TEMPORARY_ID && last_id != c->id`. -/
def otherContainer (lastId : Int) (addr : Nat) : RewriteCode Bool :=
  if lastId ≠ temporaryId then do
    let c ← load addr
    return lastId != c.id
  else return false

/-- A chunk with another container than the last one ends a run, as does a full buffer. -/
def cflBoundary (cfg : Config) (s : RewriteSettings υ) (t : PointerThread CflLocals)
    (addr : Nat) : RewriteCode (PointerThread CflLocals) := do
  let other ← otherContainer t.locals.lastId addr
  if other || t.locals.bufferFull then cflJudge cfg s t else return t

def cflRewrite (cfg : Config) (s : RewriteSettings υ) :
    RewriteRoutine (PointerThread CflLocals) where
  start :=
    { buffer := initRewriteBuffer, locals := { lastId := temporaryId, bufferFull := false } }
  body t addr := do
    let t ← cflBoundary cfg s t addr
    let c ← load addr
    let (full, b) ← rewriteBufferPush cfg.rewriteBufferSize t.buffer addr
    return { buffer := b
             locals := { lastId := c.id, bufferFull := full || t.locals.bufferFull } }
  finish := cflJudge cfg s

end Cfl

section Cbr

variable {υ : Type}

def records (b : PointerBuffer) : RewriteBuffer :=
  { chunkQueue := [], containerRecordSeq := b.containerRecordSeq, num := b.num, size := b.size }

def passSignals (har : Option (IdMap Int)) :
    Nat → PointerBuffer → RewriteCode (Nat × PointerBuffer)
  | 0, _ => stop .decisionChunkMissing
  | fuel + 1, b =>
      match b.chunkQueue.head? with
      | none => stop .decisionChunkMissing
      | some decision => do
          let signal ← checkSignal decision
          if signal then do
            let (_, b) ← rewriteBufferPop har b
            push decision
            passSignals har fuel b
          else return (decision, b)

/-- The judgement of `cbr_rewrite` on the decision chunk, with its rewrite utility. -/
def cbrJudge (arith : UtilityArith υ) (ub : UtilityBuckets υ) (b : PointerBuffer)
    (decision : Nat) : RewriteCode (υ × PointerBuffer) := do
  let c ← load decision
  if c.id = temporaryId then return (arith.zero, b)
  else do
    let duplicate ← checkChunk decision ChunkFlag.duplicate
    assert (duplicate = true) .rewriteNotDuplicate
    let c ← load decision
    match lookupRecord b.containerRecordSeq c.id with
    | none => stop .recordMissing
    | some r =>
        if r.outOfOrder then do
          let c ← load decision
          let utility ← lift (getRewriteUtility arith (records b) c)
          if arith.lt utility arith.minimalUtility || arith.lt utility ub.currentUtilityThreshold
          then
            return (utility,
              { b with
                containerRecordSeq :=
                  updateRecord c.id (fun r => some { r with outOfOrder := false })
                    b.containerRecordSeq })
          else do
            setChunk decision fun flag => { flag with outOfOrder := true }
            return (utility, b)
        else return (arith.zero, b)

/-- `cbr_rewrite` with a full buffer. -/
def cbrDecide (cfg : Config) (s : RewriteSettings υ) (t : PointerThread (UtilityBuckets υ)) :
    RewriteCode (PointerThread (UtilityBuckets υ)) := do
  let (decision, b) ← passSignals (s.har cfg) t.buffer.chunkQueue.length t.buffer
  let (utility, b) ← cbrJudge s.cbr t.locals b decision
  let (_, b) ← rewriteBufferPop (s.har cfg) b
  push decision
  return { buffer := b, locals := utilityBucketsUpdate s.cbr t.locals utility }

def cbrRewrite (cfg : Config) (s : RewriteSettings υ) :
    RewriteRoutine (PointerThread (UtilityBuckets υ)) where
  start := { buffer := initRewriteBuffer, locals := initUtilityBuckets s.cbr }
  body t addr := do
    let (full, b) ← rewriteBufferPush cfg.rewriteBufferSize t.buffer addr
    if full then cbrDecide cfg s { t with buffer := b } else return { t with buffer := b }
  finish t := do
    let b ← flush (s.har cfg) (fun _ => return ()) t.buffer
    return { t with buffer := b }

end Cbr

section Cap

variable {υ : Type}

def capSegmentGetTop (level : Int) (t : PointerThread (IdMap ContainerRecord)) :
    PointerThread (IdMap ContainerRecord) :=
  let top := Destor.capSegmentGetTop level
    { buffer := records t.buffer, rewriteQueue := [], locals := t.locals }
  { buffer := { t.buffer with containerRecordSeq := top.buffer.containerRecordSeq }
    locals := top.locals }

/-- `g_hash_table_lookup(top, &c->id) == NULL`: the chunk is marked. -/
def capTop (top : IdMap ContainerRecord) (addr : Nat) : RewriteCode Unit := do
  let c ← load addr
  if top.lookup c.id = none then setChunk addr fun flag => { flag with outOfOrder := true }
  else return ()

/-- The judgement of `cap_rewrite` on a chunk of a full buffer. -/
def capMark (top : IdMap ContainerRecord) (addr : Nat) : RewriteCode Unit := do
  let signal ← checkSignal addr
  if signal then return ()
  else do
    let duplicate ← checkChunk addr ChunkFlag.duplicate
    if duplicate then capTop top addr else return ()

/-- The judgement on a chunk left at the end, which does not ask for duplicates. -/
def capMarkRemaining (top : IdMap ContainerRecord) (addr : Nat) : RewriteCode Unit := do
  let signal ← checkSignal addr
  if signal then return () else capTop top addr

/-- Judges the buffer against its own top containers and empties it. -/
def capFlush (cfg : Config) (s : RewriteSettings υ)
    (mark : IdMap ContainerRecord → Nat → RewriteCode Unit)
    (t : PointerThread (IdMap ContainerRecord)) :
    RewriteCode (PointerThread (IdMap ContainerRecord)) := do
  let t := capSegmentGetTop s.cappingLevel t
  let b ← flush (s.har cfg) (mark t.locals) t.buffer
  return { buffer := b, locals := ∅ }

def capRewrite (cfg : Config) (s : RewriteSettings υ) :
    RewriteRoutine (PointerThread (IdMap ContainerRecord)) where
  start := { buffer := initRewriteBuffer, locals := ∅ }
  body t addr := do
    let (full, b) ← rewriteBufferPush cfg.rewriteBufferSize t.buffer addr
    if full then capFlush cfg s capMark { t with buffer := b } else return { t with buffer := b }
  finish := capFlush cfg s capMarkRemaining

end Cap

end RewriteCode

end Destor
