/- digest: Chunks in memory, handed from the rewrite thread to the filter thread, in any order of
   their steps. -/

import Destor.Library.Transition
import Destor.Pipeline
import Destor.RewriteCode

set_option autoImplicit false
set_option relaxedAutoImplicit false

namespace Destor

open Library.Operations Library.Outcome Library.Transition

/-- The chunks of the segment that the filter thread rebuilds: being collected; complete, with all
flags as they arrived; or being processed. -/
inductive SegmentWork where
  | idle
  | collecting (held : List Nat)
  | complete (held : List Nat)
  | evaluating (held : List Nat)
deriving DecidableEq

/-- Another id, and other flags of the filter thread. -/
def amendChunk (id : Int) (inCache rewriteDenied : Bool) (c : Chunk) : Chunk :=
  { c with
    id := id
    flag := { c.flag with inCache := inCache, rewriteDenied := rewriteDenied } }

/-- The rewrite thread and the filter thread over the chunks of a stream, which are named by their
place in it; the memory has no content where a chunk has been freed. `code` is what the rewrite
thread still does for the chunk it has popped. -/
structure HandOver (σ : Type) where
  memory : Nat → Option Chunk
  dedupQueue : List Nat
  drained : Bool
  code : RewriteCode σ
  rewriteQueue : List Nat
  work : SegmentWork

/-- A thread makes a step. The rewrite thread pops a chunk, or performs its next access. The filter
thread pops a chunk, starts to process a segment, changes a chunk of it, or frees the segment.
A read of a freed chunk finds anything, here `stray`. -/
inductive HandOverEvent where
  | pop
  | access (stray : Chunk)
  | collect (stray : Chunk)
  | evaluate
  | amend (addr : Nat) (id : Int) (inCache rewriteDenied : Bool)
  | free

def SegmentWork.held : SegmentWork → List Nat
  | .idle => []
  | .collecting held => held
  | .complete held => held
  | .evaluating held => held

namespace HandOver

variable {σ : Type}

def initial (routine : RewriteRoutine σ) (stream : List Chunk) : HandOver σ :=
  { memory := fun addr => stream[addr]?, dedupQueue := List.range stream.length, drained := false,
    code := .done routine.start, rewriteQueue := [], work := .idle }

def read (st : HandOver σ) (stray : Chunk) (addr : Nat) : Chunk := (st.memory addr).getD stray

def freeChunks (st : HandOver σ) (addrs : List Nat) : HandOver σ :=
  { st with memory := fun addr => if addr ∈ addrs then none else st.memory addr }

/-- What the rewrite thread writes to a freed chunk is lost. -/
def modify (st : HandOver σ) (addr : Nat) (f : Chunk → Chunk) : HandOver σ :=
  { st with memory := Function.update st.memory addr ((st.memory addr).map f) }

/-- The next access of the rewrite thread; a push waits for room. -/
def access (st : HandOver σ) (stray : Chunk) : Except Abort (HandOver σ) :=
  match st.code with
  | .done _ => .ok st
  | .perform (.load addr) next => .ok { st with code := next (st.read stray addr) }
  | .perform (.store addr flag) next =>
      .ok { st.modify addr (fun c => { c with flag := flag }) with code := next () }
  | .perform (.push addr) next =>
      if st.rewriteQueue.length < phaseQueueSize then
        .ok { st with code := next (), rewriteQueue := st.rewriteQueue ++ [addr] }
      else .ok st
  | .perform (.stop e) _ => .error e

/-- `sync_queue_pop(dedup_queue)`. -/
def pop (routine : RewriteRoutine σ) (st : HandOver σ) : HandOver σ :=
  match st.code, st.drained, st.dedupQueue with
  | .done s, false, addr :: queue =>
      { st with dedupQueue := queue, code := routine.body s addr }
  | .done s, false, [] => { st with drained := true, code := routine.finish s }
  | _, _, _ => st

/-- The filter thread pops a chunk. Segment boundaries are freed at once, other chunks are held. -/
def collect (st : HandOver σ) (stray : Chunk) : Except Abort (HandOver σ) :=
  match st.work, st.rewriteQueue with
  | .idle, addr :: queue => do
      require ((st.read stray addr).flag.segmentStart = true) .segmentStartMissing
      return { st.freeChunks [addr] with work := .collecting [], rewriteQueue := queue }
  | .collecting held, addr :: queue =>
      if (st.read stray addr).flag.segmentEnd then
        .ok { st.freeChunks [addr] with work := .complete held, rewriteQueue := queue }
      else .ok { st with work := .collecting (held ++ [addr]), rewriteQueue := queue }
  | _, _ => .ok st

/-- While it processes a segment, `filter_thread` may give its chunks other ids and set
`CHUNK_IN_CACHE` and `CHUNK_REWRITE_DENIED`. -/
def amend (st : HandOver σ) (addr : Nat) (id : Int) (inCache rewriteDenied : Bool) : HandOver σ :=
  match st.work with
  | .evaluating held =>
      if addr ∈ held then st.modify addr (amendChunk id inCache rewriteDenied) else st
  | _ => st

/-- One step. A thread that has nothing to do waits. -/
def step (routine : RewriteRoutine σ) (st : HandOver σ) :
    HandOverEvent → Except Abort (HandOver σ)
  | .pop => .ok (st.pop routine)
  | .access stray => st.access stray
  | .collect stray => st.collect stray
  | .evaluate =>
      match st.work with
      | .complete held => .ok { st with work := .evaluating held }
      | _ => .ok st
  | .amend addr id inCache rewriteDenied => .ok (st.amend addr id inCache rewriteDenied)
  | .free =>
      match st.work with
      | .evaluating held => .ok { st.freeChunks held with work := .idle }
      | _ => .ok st

/-- What a step can do. -/
inductive Takes (routine : RewriteRoutine σ) (st : HandOver σ) : HandOver σ → Prop
  | wait : Takes routine st st
  | pop {s : σ} {addr : Nat} {queue : List Nat} (hcode : st.code = .done s)
      (hqueue : st.dedupQueue = addr :: queue) :
      Takes routine st { st with dedupQueue := queue, code := routine.body s addr }
  | drain {s : σ} (hcode : st.code = .done s) (hqueue : st.dedupQueue = []) :
      Takes routine st { st with drained := true, code := routine.finish s }
  | load {addr : Nat} {next : Chunk → RewriteCode σ} (stray : Chunk)
      (hcode : st.code = .perform (.load addr) next) :
      Takes routine st { st with code := next (st.read stray addr) }
  | store {addr : Nat} {flag : ChunkFlag} {next : Unit → RewriteCode σ}
      (hcode : st.code = .perform (.store addr flag) next) :
      Takes routine st { st.modify addr (fun c => { c with flag := flag }) with code := next () }
  | push {addr : Nat} {next : Unit → RewriteCode σ} (hcode : st.code = .perform (.push addr) next)
      (hroom : st.rewriteQueue.length < phaseQueueSize) :
      Takes routine st { st with code := next (), rewriteQueue := st.rewriteQueue ++ [addr] }
  | collectStart {addr : Nat} {queue : List Nat} (hwork : st.work = .idle)
      (hqueue : st.rewriteQueue = addr :: queue) :
      Takes routine st
        { st.freeChunks [addr] with work := .collecting [], rewriteQueue := queue }
  | collectEnd {held : List Nat} {addr : Nat} {queue : List Nat} (hwork : st.work = .collecting held)
      (hqueue : st.rewriteQueue = addr :: queue) :
      Takes routine st
        { st.freeChunks [addr] with work := .complete held, rewriteQueue := queue }
  | collectChunk {held : List Nat} {addr : Nat} {queue : List Nat}
      (hwork : st.work = .collecting held) (hqueue : st.rewriteQueue = addr :: queue) :
      Takes routine st { st with work := .collecting (held ++ [addr]), rewriteQueue := queue }
  | evaluate {held : List Nat} (hwork : st.work = .complete held) :
      Takes routine st { st with work := .evaluating held }
  | amend {held : List Nat} {addr : Nat} {id : Int} {inCache rewriteDenied : Bool}
      (hwork : st.work = .evaluating held) (hmem : addr ∈ held) :
      Takes routine st (st.modify addr (amendChunk id inCache rewriteDenied))
  | free {held : List Nat} (hwork : st.work = .evaluating held) :
      Takes routine st { st.freeChunks held with work := .idle }

theorem step_takes {routine : RewriteRoutine σ} (st : HandOver σ) (event : HandOverEvent) :
    Ensures (fun _ => True) (Takes routine st) (st.step routine event) := by
  cases event with
  | pop =>
      show Takes routine st (st.pop routine)
      rw [HandOver.pop]
      split
      · rename_i hcode _ hqueue
        exact .pop hcode hqueue
      · rename_i hcode _ hqueue
        exact .drain hcode hqueue
      · exact .wait
  | access stray =>
      rw [step, access]
      split
      · exact .wait
      · rename_i hcode
        exact .load stray hcode
      · rename_i hcode
        exact .store hcode
      · rename_i hcode
        split
        · rename_i hroom
          exact .push hcode hroom
        · exact .wait
      · trivial
  | collect stray =>
      rw [step, collect]
      split
      · rename_i hwork hqueue
        exact (ensures_require (.inr trivial)).bind fun _ _ => .collectStart hwork hqueue
      · rename_i hwork hqueue
        split
        · exact .collectEnd hwork hqueue
        · exact .collectChunk hwork hqueue
      · exact .wait
  | evaluate =>
      rw [step]
      split
      · rename_i hwork
        exact .evaluate hwork
      · exact .wait
  | amend addr id inCache rewriteDenied =>
      show Takes routine st (st.amend addr id inCache rewriteDenied)
      rw [HandOver.amend]
      split
      · rename_i hwork
        split
        · rename_i hmem
          exact .amend hwork hmem
        · exact .wait
      · exact .wait
  | free =>
      rw [step]
      split
      · rename_i hwork
        exact .free hwork
      · exact .wait

/-- The states that a stream can lead to, in any order of the steps. -/
def Reachable (routine : RewriteRoutine σ) (stream : List Chunk) (st : HandOver σ) : Prop :=
  ∃ events, Run (step routine) (fun _ _ => True) (initial routine stream) events st

section Memory

variable {st : HandOver σ}

theorem modify_memory (addr : Nat) (f : Chunk → Chunk) (x : Nat) :
    (st.modify addr f).memory x = if x = addr then (st.memory x).map f else st.memory x := by
  show Function.update st.memory addr ((st.memory addr).map f) x = _
  by_cases hx : x = addr
  · rw [hx, Function.update_self, if_pos rfl]
  · rw [Function.update_of_ne hx, if_neg hx]

theorem modify_none {addr x : Nat} {f : Chunk → Chunk}
    (h : (st.modify addr f).memory x = none) : st.memory x = none := by
  rw [modify_memory] at h
  split at h
  · exact Option.map_eq_none_iff.mp h
  · exact h

theorem freeChunks_memory {addrs : List Nat} {x : Nat} (hx : x ∉ addrs) :
    (st.freeChunks addrs).memory x = st.memory x := if_neg hx

end Memory

end HandOver

end Destor
