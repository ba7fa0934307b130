/- digest: The dedup, rewrite and filter threads around their queues, and when the index buffer
   can stop all three. -/

import Destor.Index.Index
import Destor.Index.SegmentingMethod
import Destor.Library.Transition
import Destor.RewriteFlow

set_option autoImplicit false
set_option relaxedAutoImplicit false

namespace Destor

open Library.Outcome Library.Transition

/-- The capacity of `dedup_queue` and `rewrite_queue`. -/
def phaseQueueSize : Nat := 1000

/-- A rewrite thread between two calls of `sync_queue_pop`: what it passes on for a chunk, and its
state afterwards. -/
structure RewriteStage (σ : Type) where
  start : σ
  take : σ → Chunk → Except Abort (List Chunk × σ)
  finish : σ → Except Abort (List Chunk × σ)

def RewriteLoop.stage {σ : Type} (loop : RewriteLoop σ) (n : Nat) :
    RewriteStage (RewriteThread σ) where
  start := loop.init
  take t c := do
    let t ← loop.body n { t with rewriteQueue := [] } c
    return (t.rewriteQueue, { t with rewriteQueue := [] })
  finish t := do
    let t ← loop.finish { t with rewriteQueue := [] }
    return (t.rewriteQueue, { t with rewriteQueue := [] })

def noRewriteStage (har : Option (IdMap Int)) : RewriteStage Unit where
  start := ()
  take _ c := .ok ([applyHar har c], ())
  finish _ := .ok ([], ())

/-- Where the filter thread is: before a segment, within one, or with a whole segment. -/
inductive FilterWork where
  | idle
  | collecting (chunks : List Chunk)
  | complete (chunks : List Chunk)
deriving DecidableEq

/-- The three threads. `sending` holds what `send_segment` has not pushed yet, `passing` what the
rewrite thread has not; `chunkNum` is `index_buffer.chunk_num`. -/
structure Pipeline (σ : Type) where
  todo : List Segment
  sending : List Chunk
  dedupQueue : List Chunk
  rewrite : σ
  passing : List Chunk
  rewriteQueue : List Chunk
  work : FilterWork
  chunkNum : Int

/-- What a lookup finds for the chunks of a segment: id, `CHUNK_DUPLICATE`,
`CHUNK_REWRITE_DENIED`. -/
abbrev Findings := Nat → Int × Bool × Bool

def applyFindings (found : Findings) (chunks : List Chunk) : List Chunk :=
  chunks.mapIdx fun i c =>
    if c.isNormal then
      { c with
        id := (found i).1
        flag := { c.flag with duplicate := (found i).2.1, rewriteDenied := (found i).2.2 } }
    else c

/-- A thread makes a step: the dedup thread tries to look a segment up or pushes a chunk; the rewrite
thread takes a chunk or pushes one, or ends; the filter thread pops a chunk, or processes the
segment that it has collected. -/
inductive PipelineEvent where
  | lookup (found : Findings)
  | send
  | rewrite
  | pass
  | terminate
  | collect
  | update

namespace Pipeline

variable {σ : Type}

def initial (stage : RewriteStage σ) (segments : List Segment) : Pipeline σ :=
  { todo := segments, sending := [], dedupQueue := [], rewrite := stage.start, passing := [],
    rewriteQueue := [], work := .idle, chunkNum := 0 }

/-- `index_lookup` under `index_lock`, then `send_segment`. -/
def lookup (threshold : Int) (p : Pipeline σ) (found : Findings) : Pipeline σ :=
  match p.todo, p.sending with
  | s :: todo, [] =>
      if s.chunkNum = 0 then { p with todo := todo, sending := sendSegment s.chunks }
      else if 0 < threshold ∧ threshold ≤ p.chunkNum then p
      else
        { p with
          todo := todo
          sending := sendSegment (applyFindings found s.chunks)
          chunkNum := p.chunkNum + s.chunks.countP Chunk.isNormal }
  | _, _ => p

/-- The filter thread pops a chunk and rebuilds the segment. -/
def collect (p : Pipeline σ) : Except Abort (Pipeline σ) :=
  match p.work, p.rewriteQueue with
  | .idle, c :: queue => do
      require (c.flag.segmentStart = true) .segmentStartMissing
      return { p with work := .collecting [], rewriteQueue := queue }
  | .collecting chunks, c :: queue =>
      if c.flag.segmentEnd then
        .ok { p with work := .complete chunks, rewriteQueue := queue }
      else .ok { p with work := .collecting (chunks ++ [c]), rewriteQueue := queue }
  | _, _ => .ok p

def step (stage : RewriteStage σ) (threshold : Int) (p : Pipeline σ) :
    PipelineEvent → Except Abort (Pipeline σ)
  | .lookup found => .ok (p.lookup threshold found)
  | .send =>
      match p.sending with
      | c :: sending =>
          if p.dedupQueue.length < phaseQueueSize then
            .ok { p with sending := sending, dedupQueue := p.dedupQueue ++ [c] }
          else .ok p
      | [] => .ok p
  | .rewrite =>
      match p.dedupQueue, p.passing with
      | c :: queue, [] => do
          let (out, rewrite) ← stage.take p.rewrite c
          return { p with dedupQueue := queue, rewrite := rewrite, passing := out }
      | _, _ => .ok p
  | .pass =>
      match p.passing with
      | c :: passing =>
          if p.rewriteQueue.length < phaseQueueSize then
            .ok { p with passing := passing, rewriteQueue := p.rewriteQueue ++ [c] }
          else .ok p
      | [] => .ok p
  | .terminate =>
      if p.todo = [] ∧ p.sending = [] ∧ p.dedupQueue = [] ∧ p.passing = [] then do
        let (out, rewrite) ← stage.finish p.rewrite
        return { p with rewrite := rewrite, passing := out }
      else .ok p
  | .collect => p.collect
  | .update =>
      match p.work with
      | .complete chunks =>
          .ok { p with work := .idle, chunkNum := p.chunkNum - chunks.countP Chunk.isNormal }
      | _ => .ok p

/-- The dedup thread waits for room in the index buffer, both other threads wait for input. -/
structure Stuck (threshold : Int) (p : Pipeline σ) : Prop where
  waits : ∃ s todo, p.todo = s :: todo ∧ s.chunkNum ≠ 0 ∧ 0 < threshold ∧ threshold ≤ p.chunkNum
  sent : p.sending = []
  dedupQueue_nil : p.dedupQueue = []
  passed : p.passing = []
  rewriteQueue_nil : p.rewriteQueue = []
  unfinished : ∀ chunks, p.work ≠ .complete chunks

/-- The states that a stream of segments can lead to, in any order of the steps. -/
def Reachable (stage : RewriteStage σ) (threshold : Int) (segments : List Segment)
    (p : Pipeline σ) : Prop :=
  ∃ events, Run (step stage threshold) (fun _ _ => True) (initial stage segments) events p

theorem Stuck.step_eq {stage : RewriteStage σ} {threshold : Int} {p : Pipeline σ}
    (h : p.Stuck threshold) (e : PipelineEvent) : p.step stage threshold e = .ok p := by
  obtain ⟨s, todo, htodo, hne, hfull⟩ := h.waits
  cases e with
  | lookup found =>
      simp only [step, lookup, htodo, h.sent, if_neg hne]
      rw [if_pos hfull]
  | send => simp only [step, h.sent]
  | rewrite => simp only [step, h.dedupQueue_nil]
  | pass => simp only [step, h.passed]
  | terminate => simp [step, htodo]
  | collect =>
      simp only [step, collect, h.rewriteQueue_nil]
      cases hwork : p.work with
      | idle => rfl
      | collecting chunks => rfl
      | complete chunks => rfl
  | update =>
      simp only [step]
      cases hwork : p.work with
      | idle => rfl
      | collecting chunks => rfl
      | complete chunks => exact absurd hwork (h.unfinished chunks)

end Pipeline

section Kinds

/-- What a chunk is to the threads that only cut the stream. -/
inductive ChunkKind where
  | segmentStart
  | segmentEnd
  | file
  | normal
deriving DecidableEq

def Chunk.kind (c : Chunk) : ChunkKind :=
  if c.flag.segmentEnd then .segmentEnd
  else if c.flag.segmentStart then .segmentStart
  else if c.isNormal then .normal
  else .file

@[simp] theorem Chunk.kind_segmentStart : Chunk.segmentStart.kind = .segmentStart := rfl

@[simp] theorem Chunk.kind_segmentEnd : Chunk.segmentEnd.kind = .segmentEnd := rfl

/-- A chunk as it reaches the dedup phase, not a segment boundary. -/
def Chunk.Inner (c : Chunk) : Prop := c.flag.segmentStart = false ∧ c.flag.segmentEnd = false

def kinds (chunks : List Chunk) : List ChunkKind := chunks.map Chunk.kind

def segmentKinds (s : Segment) : List ChunkKind := kinds (sendSegment s.chunks)

def normalNum (ks : List ChunkKind) : Nat := ks.count .normal

variable {c c' : Chunk} {l l' : List Chunk}

theorem Chunk.OnlyMarked.kind_eq (h : c.OnlyMarked c') : c'.kind = c.kind := by
  obtain ⟨s, o, rfl⟩ := h
  rfl

theorem kinds_onlyMarked (h : List.Forall₂ Chunk.OnlyMarked l l') : kinds l' = kinds l := by
  induction h with
  | nil => rfl
  | cons hc _ ih => exact congrArg₂ List.cons hc.kind_eq ih

@[simp] theorem kinds_append : kinds (l ++ l') = kinds l ++ kinds l' := List.map_append

@[simp] theorem kinds_nil : kinds [] = [] := rfl

@[simp] theorem kinds_cons : kinds (c :: l) = c.kind :: kinds l := rfl

@[simp] theorem normalNum_append (ks ks' : List ChunkKind) :
    normalNum (ks ++ ks') = normalNum ks + normalNum ks' := List.count_append

theorem Chunk.kind_normal_iff : c.kind = .normal ↔ c.isSignal = false := by
  unfold Chunk.kind Chunk.isSignal Chunk.isNormal
  cases c.flag.fileStart <;> cases c.flag.fileEnd <;> cases c.flag.segmentStart <;>
    cases c.flag.segmentEnd <;> simp

/-- The chunks that are not signals are those with content. -/
theorem normalNum_kinds (l : List Chunk) : normalNum (kinds l) = bufferedNum l := by
  induction l with
  | nil => rfl
  | cons c l ih =>
      rw [bufferedNum_cons, kinds_cons, ← ih]
      unfold normalNum
      rw [List.count_cons, Nat.add_comm]
      congr 1
      cases h : c.isSignal with
      | false => simp [Chunk.kind_normal_iff.mpr h]
      | true =>
          have hne : c.kind ≠ .normal := fun hk => by
            simp [Chunk.kind_normal_iff.mp hk] at h
          simp [hne]

/-- Within a segment, file boundaries and chunks with content remain. -/
theorem Chunk.Inner.kind_eq (h : c.Inner) :
    c.kind = if c.isNormal then .normal else .file := by
  unfold Chunk.kind
  rw [h.1, h.2]
  rfl

theorem normalNum_inner (h : ∀ c ∈ l, c.Inner) : normalNum (kinds l) = l.countP Chunk.isNormal := by
  induction l with
  | nil => rfl
  | cons c l ih =>
      have hc := (h c List.mem_cons_self).kind_eq
      have hl := ih fun c' hc' => h c' (List.mem_cons_of_mem c hc')
      unfold normalNum at hl ⊢
      rw [kinds_cons, List.count_cons, List.countP_cons, hl, hc]
      cases c.isNormal <;> rfl

theorem segmentEnd_not_mem_kinds (h : ∀ c ∈ l, c.Inner) : ChunkKind.segmentEnd ∉ kinds l := by
  intro hmem
  obtain ⟨c, hc, hkind⟩ := List.mem_map.mp hmem
  rw [(h c hc).kind_eq] at hkind
  split at hkind <;> cases hkind

/-- A lookup changes no boundary. -/
theorem kinds_applyFindings (found : Findings) (l : List Chunk) :
    kinds (applyFindings found l) = kinds l := by
  apply List.ext_getElem
  · simp [kinds, applyFindings]
  · intro i hi hi'
    simp only [kinds, applyFindings, List.getElem_map, List.getElem_mapIdx]
    split
    · rfl
    · rfl

theorem segmentKinds_eq (s : Segment) :
    segmentKinds s = .segmentStart :: (kinds s.chunks ++ [.segmentEnd]) := by
  simp [segmentKinds, sendSegment]

theorem kinds_sendSegment (found : Findings) (s : Segment) :
    kinds (sendSegment (applyFindings found s.chunks)) = segmentKinds s := by
  rw [segmentKinds_eq]
  simp [sendSegment, kinds_applyFindings]

/-- A list is cut in one way at the first occurrence of an element. -/
theorem append_cons_inj_of_not_mem {α : Type} {a : α} {l₁ l₂ r₁ r₂ : List α} (h₁ : a ∉ l₁)
    (h₂ : a ∉ l₂) (h : l₁ ++ a :: r₁ = l₂ ++ a :: r₂) : l₁ = l₂ ∧ r₁ = r₂ := by
  induction l₁ generalizing l₂ with
  | nil =>
      cases l₂ with
      | nil => exact ⟨rfl, (List.cons.inj h).2⟩
      | cons b l₂ => exact absurd ((List.cons.inj h).1 ▸ List.mem_cons_self) h₂
  | cons b l₁ ih =>
      cases l₂ with
      | nil => exact absurd ((List.cons.inj h).1 ▸ List.mem_cons_self) h₁
      | cons b' l₂ =>
          obtain ⟨hb, htail⟩ := List.cons.inj h
          obtain ⟨hl, hr⟩ := ih (fun hmem => h₁ (List.mem_cons_of_mem b hmem))
            (fun hmem => h₂ (List.mem_cons_of_mem b' hmem)) htail
          exact ⟨by rw [hb, hl], hr⟩

end Kinds

section Flow

variable {σ : Type} {stage : RewriteStage σ} {held : σ → List Chunk} {n unit : Nat}
  {Inv : σ → Prop} {segments processed inflight : List Segment} {p : Pipeline σ} {threshold : Int}

/-- What a stage may do: it takes a chunk in and passes others on, without loss; the chunks with
content leave in multiples of `unit`; and after the end of a segment less than `n` of them stay. -/
structure RewriteStage.Passes (stage : RewriteStage σ) (held : σ → List Chunk) (n unit : Nat)
    (Inv : σ → Prop) : Prop where
  start : Inv stage.start
  start_held : held stage.start = []
  take : ∀ t c, Inv t → Ensures (fun _ => True)
    (fun r => Inv r.2 ∧ kinds r.1 ++ kinds (held r.2) = kinds (held t) ++ [c.kind] ∧
      unit ∣ normalNum (kinds r.1)) (stage.take t c)
  bound : ∀ t, Inv t → ∀ ks, kinds (held t) = ks ++ [.segmentEnd] → normalNum (kinds (held t)) < n

def FilterWork.chunks : FilterWork → List Chunk
  | .idle => []
  | .collecting chunks => chunks
  | .complete chunks => chunks

def FilterWork.popped : FilterWork → List Chunk
  | .idle => []
  | .collecting chunks => Chunk.segmentStart :: chunks
  | .complete chunks => Chunk.segmentStart :: (chunks ++ [Chunk.segmentEnd])

def chunkTotal (l : List Segment) : Nat := (l.map Segment.chunkNum).sum

structure Segment.Plain (s : Segment) : Prop where
  counted : s.Counted
  inner : ∀ c ∈ s.chunks, c.Inner

@[simp] theorem chunkTotal_nil : chunkTotal [] = 0 := rfl

@[simp] theorem chunkTotal_cons (s : Segment) (l : List Segment) :
    chunkTotal (s :: l) = s.chunkNum + chunkTotal l := by
  simp [chunkTotal]

@[simp] theorem chunkTotal_append (l l' : List Segment) :
    chunkTotal (l ++ l') = chunkTotal l + chunkTotal l' := by
  simp [chunkTotal]

theorem Segment.Plain.normalNum_chunks {s : Segment} (h : s.Plain) :
    normalNum (kinds s.chunks) = s.chunkNum := by
  rw [normalNum_inner h.inner, h.counted, List.countP_eq_length_filter]
  rfl

theorem Segment.Plain.normalNum_eq {s : Segment} (h : s.Plain) :
    normalNum (segmentKinds s) = s.chunkNum := by
  have hchunks := h.normalNum_chunks
  unfold normalNum at hchunks ⊢
  rw [segmentKinds_eq, List.count_cons, List.count_append, hchunks]
  rfl

theorem normalNum_flatMap (h : ∀ s ∈ inflight, s.Plain) :
    normalNum (inflight.flatMap segmentKinds) = chunkTotal inflight := by
  induction inflight with
  | nil => rfl
  | cons s l ih =>
      rw [List.flatMap_cons, normalNum_append, (h s List.mem_cons_self).normalNum_eq,
        ih fun s' hs' => h s' (List.mem_cons_of_mem s hs'), chunkTotal_cons]

/-- The segments in flight, spread over the threads and queues in the order of the stream; and the
index buffer, which counts them until the filter thread has processed them. -/
structure Flows (held : σ → List Chunk) (unit : Nat) (Inv : σ → Prop) (segments : List Segment)
    (p : Pipeline σ) (processed inflight : List Segment) : Prop where
  split : segments = processed ++ inflight ++ p.todo
  flow : kinds p.work.popped ++ kinds p.rewriteQueue ++ kinds p.passing ++ kinds (held p.rewrite) ++
    kinds p.dedupQueue ++ kinds p.sending = inflight.flatMap segmentKinds
  chunkNum : p.chunkNum = chunkTotal inflight
  aligned : unit ∣ chunkTotal processed +
    normalNum (kinds p.work.popped ++ kinds p.rewriteQueue ++ kinds p.passing)
  inv : Inv p.rewrite
  unended : .segmentEnd ∉ kinds p.work.chunks

/-- The flow, as long as the dedup thread is at work. -/
def FlowInv (held : σ → List Chunk) (unit : Nat) (Inv : σ → Prop) (segments : List Segment)
    (p : Pipeline σ) : Prop :=
  p.todo = [] ∨ ∃ processed inflight, Flows held unit Inv segments p processed inflight

theorem initial_flows (h : stage.Passes held n unit Inv) :
    Flows held unit Inv segments (Pipeline.initial stage segments) [] [] where
  split := rfl
  flow := by simp [Pipeline.initial, FilterWork.popped, h.start_held]
  chunkNum := rfl
  aligned := by simp [Pipeline.initial, FilterWork.popped, normalNum]
  inv := h.start
  unended := by simp [Pipeline.initial, FilterWork.chunks]

/-- A looked-up segment joins those in flight. -/
theorem Flows.lookup (h : Flows held unit Inv segments p processed inflight)
    (hplain : ∀ s ∈ segments, s.Plain) (found : Findings) :
    FlowInv held unit Inv segments (p.lookup threshold found) := by
  unfold Pipeline.lookup
  cases htodo : p.todo with
  | nil => exact Or.inr ⟨processed, inflight, h⟩
  | cons s todo =>
      cases hsending : p.sending with
      | cons c sending => exact Or.inr ⟨processed, inflight, h⟩
      | nil =>
          have hsplit := h.split
          rw [htodo] at hsplit
          have hs : s.Plain := hplain s (by rw [hsplit]; simp)
          have hflow := h.flow
          rw [hsending, kinds_nil, List.append_nil] at hflow
          have hmore : processed ++ inflight ++ s :: todo = processed ++ (inflight ++ [s]) ++ todo := by
            simp
          simp only
          split
          · rename_i hzero
            refine Or.inr ⟨processed, inflight ++ [s],
              { split := hsplit.trans hmore
                flow := ?_
                chunkNum := ?_
                aligned := h.aligned
                inv := h.inv
                unended := h.unended }⟩
            · simp only [List.flatMap_append, List.flatMap_singleton, ← hflow]
              rfl
            · rw [chunkTotal_append, chunkTotal_cons, hzero]
              exact h.chunkNum
          · split
            · exact Or.inr ⟨processed, inflight, h⟩
            · refine Or.inr ⟨processed, inflight ++ [s],
                { split := hsplit.trans hmore
                  flow := ?_
                  chunkNum := ?_
                  aligned := h.aligned
                  inv := h.inv
                  unended := h.unended }⟩
              · simp only [kinds_sendSegment, List.flatMap_append, List.flatMap_singleton, hflow]
              · have hnum := h.chunkNum
                have hcount := hs.normalNum_chunks
                rw [normalNum_inner hs.inner] at hcount
                simp only [chunkTotal_append, chunkTotal_cons, chunkTotal_nil, hcount]
                omega

/-- The filter thread pops the next chunk of the flow. -/
theorem Flows.collect (h : Flows held unit Inv segments p processed inflight) :
    Ensures (fun _ => True) (FlowInv held unit Inv segments) p.collect := by
  have hflow := h.flow
  have haligned := h.aligned
  unfold Pipeline.collect
  cases hwork : p.work with
  | idle =>
      cases hqueue : p.rewriteQueue with
      | nil => exact Or.inr ⟨processed, inflight, h⟩
      | cons c queue =>
          apply (ensures_require (.inr trivial)).bind
          intro _ _
          rw [hwork, hqueue] at hflow haligned
          simp only [FilterWork.popped, kinds_nil, List.nil_append, kinds_cons,
            List.cons_append] at hflow haligned
          have hkind : c.kind = .segmentStart := by
            cases inflight with
            | nil => exact absurd hflow (by simp)
            | cons s rest =>
                rw [List.flatMap_cons, segmentKinds_eq, List.cons_append] at hflow
                exact (List.cons.inj hflow).1
          rw [hkind] at hflow haligned
          exact Or.inr ⟨processed, inflight,
            { split := h.split
              flow := hflow
              chunkNum := h.chunkNum
              aligned := haligned
              inv := h.inv
              unended := by simp [FilterWork.chunks] }⟩
  | collecting chunks =>
      cases hqueue : p.rewriteQueue with
      | nil => exact Or.inr ⟨processed, inflight, h⟩
      | cons c queue =>
          have hunended := h.unended
          rw [hwork] at hunended
          rw [hwork, hqueue] at hflow haligned
          simp only
          split
          · rename_i hend
            have hkind : c.kind = .segmentEnd := if_pos hend
            refine Or.inr ⟨processed, inflight,
              { split := h.split
                flow := ?_
                chunkNum := h.chunkNum
                aligned := ?_
                inv := h.inv
                unended := hunended }⟩
            · rw [← hflow]
              simp [FilterWork.popped, hkind]
            · simpa [FilterWork.popped, hkind] using haligned
          · rename_i hend
            have hkind : c.kind ≠ .segmentEnd := by
              unfold Chunk.kind
              rw [if_neg hend]
              split
              · simp
              · split <;> simp
            refine Or.inr ⟨processed, inflight,
              { split := h.split
                flow := ?_
                chunkNum := h.chunkNum
                aligned := ?_
                inv := h.inv
                unended := ?_ }⟩
            · rw [← hflow]
              simp [FilterWork.popped]
            · simpa [FilterWork.popped] using haligned
            · have hnot : ChunkKind.segmentEnd ∉ kinds chunks := hunended
              simpa [FilterWork.chunks, hnot] using hkind.symm
  | complete chunks => exact Or.inr ⟨processed, inflight, h⟩

/-- The filter thread is done with the first segment in flight. -/
theorem Flows.update (h : Flows held unit Inv segments p processed inflight)
    (hplain : ∀ s ∈ segments, s.Plain) {chunks : List Chunk} (hwork : p.work = .complete chunks) :
    FlowInv held unit Inv segments
      { p with work := .idle, chunkNum := p.chunkNum - chunks.countP Chunk.isNormal } := by
  have hflow := h.flow
  have haligned := h.aligned
  have hunended : ChunkKind.segmentEnd ∉ kinds p.work.chunks := h.unended
  rw [hwork] at hflow haligned hunended
  simp only [FilterWork.chunks] at hunended
  simp only [FilterWork.popped, kinds_cons, kinds_append, Chunk.kind_segmentStart,
    Chunk.kind_segmentEnd, kinds_nil, List.cons_append, List.append_assoc,
    List.nil_append] at hflow haligned
  cases inflight with
  | nil => exact absurd hflow (by simp)
  | cons s rest =>
      have hs : s.Plain := hplain s (by rw [h.split]; simp)
      rw [List.flatMap_cons, segmentKinds_eq, List.cons_append, List.append_assoc,
        List.singleton_append] at hflow
      obtain ⟨hkinds, hrest⟩ := append_cons_inj_of_not_mem hunended
        (segmentEnd_not_mem_kinds hs.inner) (List.cons.inj hflow).2
      have hinner : ∀ c ∈ chunks, c.Inner := by
        intro c hc
        have hmem : c.kind ∈ kinds s.chunks := hkinds ▸ List.mem_map_of_mem hc
        obtain ⟨c', hc', hkind⟩ := List.mem_map.mp hmem
        rw [(hs.inner c' hc').kind_eq] at hkind
        unfold Chunk.kind at hkind
        constructor
        · by_contra hstart
          rw [Bool.not_eq_false] at hstart
          rw [hstart] at hkind
          split at hkind <;> split at hkind <;> simp at hkind
        · by_contra hend
          rw [Bool.not_eq_false] at hend
          rw [hend] at hkind
          split at hkind <;> simp at hkind
      have hcount : chunks.countP Chunk.isNormal = s.chunkNum := by
        rw [← normalNum_inner hinner, hkinds, hs.normalNum_chunks]
      have hnum := h.chunkNum
      rw [chunkTotal_cons] at hnum
      refine Or.inr ⟨processed ++ [s], rest,
        { split := ?_
          flow := ?_
          chunkNum := ?_
          aligned := ?_
          inv := h.inv
          unended := by simp [FilterWork.chunks] }⟩
      · rw [h.split]
        simp
      · rw [← hrest]
        simp [FilterWork.popped]
      · simp only [hcount]
        omega
      · have hsum : normalNum (ChunkKind.segmentStart :: (kinds chunks ++
            ChunkKind.segmentEnd :: (kinds p.rewriteQueue ++ kinds p.passing))) =
            s.chunkNum + normalNum (kinds p.rewriteQueue ++ kinds p.passing) := by
          rw [← hs.normalNum_chunks, ← hkinds]
          simp [normalNum]
        rw [hsum] at haligned
        simp only [FilterWork.popped, kinds_nil, List.nil_append, chunkTotal_append,
          chunkTotal_cons, chunkTotal_nil, Nat.add_zero]
        rwa [Nat.add_assoc]

/-- The dedup thread gets no new segments. -/
theorem step_todo_nil (hdone : p.todo = []) (e : PipelineEvent) :
    Ensures (fun _ => True) (fun p' : Pipeline σ => p'.todo = []) (p.step stage threshold e) := by
  cases e with
  | lookup found =>
      show (p.lookup threshold found).todo = []
      unfold Pipeline.lookup
      rw [hdone]
      exact hdone
  | send =>
      simp only [Pipeline.step]
      split
      · split <;> exact hdone
      · exact hdone
  | rewrite =>
      simp only [Pipeline.step]
      split
      · cases stage.take p.rewrite _ with
        | error e => trivial
        | ok r => exact hdone
      · exact hdone
  | pass =>
      simp only [Pipeline.step]
      split
      · split <;> exact hdone
      · exact hdone
  | terminate =>
      simp only [Pipeline.step]
      split
      · cases stage.finish p.rewrite with
        | error e => trivial
        | ok r => exact hdone
      · exact hdone
  | collect =>
      simp only [Pipeline.step, Pipeline.collect]
      split
      · exact (ensures_require (.inr trivial)).bind fun _ _ => hdone
      · split <;> exact hdone
      · exact hdone
  | update =>
      simp only [Pipeline.step]
      split <;> exact hdone

theorem Flows.send (h : Flows held unit Inv segments p processed inflight) :
    Ensures (fun _ => True) (FlowInv held unit Inv segments) (p.step stage threshold .send) := by
  have hflow := h.flow
  simp only [Pipeline.step]
  cases hsending : p.sending with
  | nil => exact Or.inr ⟨processed, inflight, h⟩
  | cons c sending =>
      simp only
      split
      · rw [hsending] at hflow
        exact Or.inr ⟨processed, inflight,
          { split := h.split
            flow := by simpa using hflow
            chunkNum := h.chunkNum
            aligned := h.aligned
            inv := h.inv
            unended := h.unended }⟩
      · exact Or.inr ⟨processed, inflight, h⟩

/-- The rewrite thread takes in a chunk. -/
theorem Flows.rewrite (hpass : stage.Passes held n unit Inv)
    (h : Flows held unit Inv segments p processed inflight) :
    Ensures (fun _ => True) (FlowInv held unit Inv segments) (p.step stage threshold .rewrite) := by
  have hflow := h.flow
  have haligned := h.aligned
  simp only [Pipeline.step]
  cases hqueue : p.dedupQueue with
  | nil => exact Or.inr ⟨processed, inflight, h⟩
  | cons c queue =>
      cases hpassing : p.passing with
      | cons c' passing => exact Or.inr ⟨processed, inflight, h⟩
      | nil =>
          apply (hpass.take p.rewrite c h.inv).bind
          rintro r ⟨hinv, hkinds, hunit⟩
          rw [hqueue, hpassing, kinds_nil, List.append_nil] at hflow
          rw [hpassing, kinds_nil, List.append_nil] at haligned
          refine Or.inr ⟨processed, inflight,
            { split := h.split
              flow := ?_
              chunkNum := h.chunkNum
              aligned := ?_
              inv := hinv
              unended := h.unended }⟩
          · rw [← hflow]
            simp only [kinds_cons, List.append_assoc]
            rw [← List.append_assoc (kinds r.1), hkinds]
            simp
          · simp only [normalNum_append] at haligned ⊢
            rw [← Nat.add_assoc]
            exact Nat.dvd_add haligned hunit

/-- It passes one on. -/
theorem Flows.pass (h : Flows held unit Inv segments p processed inflight) :
    Ensures (fun _ => True) (FlowInv held unit Inv segments) (p.step stage threshold .pass) := by
  have hflow := h.flow
  have haligned := h.aligned
  simp only [Pipeline.step]
  cases hpassing : p.passing with
  | nil => exact Or.inr ⟨processed, inflight, h⟩
  | cons c passing =>
      simp only
      split
      · rw [hpassing] at hflow haligned
        exact Or.inr ⟨processed, inflight,
          { split := h.split
            flow := by simpa using hflow
            chunkNum := h.chunkNum
            aligned := by simpa using haligned
            inv := h.inv
            unended := h.unended }⟩
      · exact Or.inr ⟨processed, inflight, h⟩

theorem step_flowInv (hpass : stage.Passes held n unit Inv) (hplain : ∀ s ∈ segments, s.Plain)
    (h : FlowInv held unit Inv segments p) (e : PipelineEvent) :
    Ensures (fun _ => True) (FlowInv held unit Inv segments) (p.step stage threshold e) := by
  rcases h with hdone | ⟨processed, inflight, h⟩
  · exact (step_todo_nil hdone e).imp fun p' hp' => Or.inl hp'
  · cases e with
    | lookup found => exact h.lookup hplain found
    | send => exact h.send
    | rewrite => exact h.rewrite hpass
    | pass => exact h.pass
    | terminate =>
        simp only [Pipeline.step]
        split
        · rename_i hdone
          cases stage.finish p.rewrite with
          | error e => trivial
          | ok r => exact Or.inl hdone.1
        · exact Or.inr ⟨processed, inflight, h⟩
    | collect => exact h.collect
    | update =>
        simp only [Pipeline.step]
        cases hwork : p.work with
        | idle => exact Or.inr ⟨processed, inflight, h⟩
        | collecting chunks => exact Or.inr ⟨processed, inflight, h⟩
        | complete chunks => exact h.update hplain hwork

theorem reachable_flowInv (hpass : stage.Passes held n unit Inv) (hplain : ∀ s ∈ segments, s.Plain)
    (h : Pipeline.Reachable stage threshold segments p) : FlowInv held unit Inv segments p := by
  obtain ⟨events, hrun⟩ := h
  exact hrun.invariant (FlowInv held unit Inv segments)
    (Or.inr ⟨[], [], initial_flows hpass⟩) fun _ e hp _ => step_flowInv hpass hplain hp e

private theorem flatMap_segmentKinds_end (l : List Segment) (ks : List ChunkKind) :
    ∃ ks', ks ++ ChunkKind.segmentEnd :: l.flatMap segmentKinds = ks' ++ [.segmentEnd] := by
  rcases List.eq_nil_or_concat l with rfl | ⟨l, s, rfl⟩
  · exact ⟨ks, by simp⟩
  · refine ⟨ks ++ ChunkKind.segmentEnd :: (l.flatMap segmentKinds ++
      .segmentStart :: kinds s.chunks), ?_⟩
    simp [segmentKinds_eq]

private theorem prefix_of_flow {ks ks' rest m : List ChunkKind} (hunended : .segmentEnd ∉ ks)
    (h : ks ++ rest = ks' ++ ChunkKind.segmentEnd :: m) :
    ∃ left, ks' = ks ++ left ∧ rest = left ++ .segmentEnd :: m := by
  rcases List.append_eq_append_iff.mp h with ⟨left, hks, hrest⟩ | ⟨past, hks, hrest⟩
  · exact ⟨left, hks, hrest⟩
  · cases past with
    | nil =>
        rw [List.append_nil] at hks
        exact ⟨[], by rw [hks, List.append_nil], hrest.symm⟩
    | cons k past =>
        rw [List.cons_append] at hrest
        refine absurd ?_ hunended
        rw [hks, ← (List.cons.inj hrest).1]
        simp

/-- In a stuck pipeline the filter thread waits for the rest of a segment `s`, of which `r` chunks
are in the rewrite buffer, with whole segments behind them. -/
theorem stuck_shape (hpass : stage.Passes held n unit Inv) (hplain : ∀ s ∈ segments, s.Plain)
    (hreach : Pipeline.Reachable stage threshold segments p) (hstuck : p.Stuck threshold) :
    ∃ before s mid next after r, segments = before ++ s :: (mid ++ next :: after) ∧
      next.chunkNum ≠ 0 ∧ threshold ≤ (s.chunkNum + chunkTotal mid : Nat) ∧ r ≤ s.chunkNum ∧
      r + chunkTotal mid < n ∧ unit ∣ chunkTotal before + (s.chunkNum - r) := by
  obtain ⟨next, after, htodo, hnext, hpos, hfull⟩ := hstuck.waits
  rcases reachable_flowInv hpass hplain hreach with hdone | ⟨processed, inflight, h⟩
  · exact absurd (htodo.symm.trans hdone) (by simp)
  · have hflow := h.flow
    have hsplit := h.split
    have hnum := h.chunkNum
    have haligned := h.aligned
    have hunended := h.unended
    rw [hstuck.sent, hstuck.dedupQueue_nil, hstuck.passed, hstuck.rewriteQueue_nil] at hflow
    rw [hstuck.passed, hstuck.rewriteQueue_nil] at haligned
    simp only [kinds_nil, List.append_nil] at hflow haligned
    rw [htodo] at hsplit
    cases inflight with
    | nil =>
        rw [chunkTotal_nil] at hnum
        omega
    | cons s mid =>
        have hs : s.Plain := hplain s (by rw [hsplit]; simp)
        have hmid : ∀ s' ∈ mid, s'.Plain := fun s' hs' => hplain s' (by rw [hsplit]; simp [hs'])
        rw [chunkTotal_cons] at hnum
        rw [List.flatMap_cons, segmentKinds_eq, List.cons_append, List.append_assoc,
          List.singleton_append] at hflow
        have hshape : segments = processed ++ s :: (mid ++ next :: after) := by
          rw [hsplit]
          simp
        cases hwork : p.work with
        | idle =>
            rw [hwork] at hflow haligned
            simp only [FilterWork.popped, kinds_nil, List.nil_append] at hflow haligned
            obtain ⟨ks, hks⟩ := flatMap_segmentKinds_end mid (.segmentStart :: kinds s.chunks)
            have hbound := hpass.bound _ h.inv ks (hflow.trans hks)
            have hheld : normalNum (kinds (held p.rewrite)) = s.chunkNum + chunkTotal mid := by
              rw [hflow, ← hs.normalNum_chunks, ← normalNum_flatMap hmid]
              simp [normalNum]
            refine ⟨processed, s, mid, next, after, s.chunkNum, hshape, hnext, ?_, le_rfl, ?_, ?_⟩
            · omega
            · omega
            · simpa [normalNum] using haligned
        | collecting chunks =>
            rw [hwork] at hflow haligned hunended
            simp only [FilterWork.popped, FilterWork.chunks, kinds_cons, Chunk.kind_segmentStart,
              List.cons_append] at hflow haligned hunended
            obtain ⟨left, hchunks, hheld⟩ := prefix_of_flow hunended (List.cons.inj hflow).2
            obtain ⟨ks, hks⟩ := flatMap_segmentKinds_end mid left
            have hbound := hpass.bound _ h.inv ks (hheld.trans hks)
            have hleft : normalNum (kinds (held p.rewrite)) = normalNum left + chunkTotal mid := by
              rw [hheld, ← normalNum_flatMap hmid]
              simp [normalNum]
            have hparts : s.chunkNum = normalNum (kinds chunks) + normalNum left := by
              rw [← hs.normalNum_chunks, hchunks, normalNum_append]
            have hstart : normalNum (ChunkKind.segmentStart :: kinds chunks) =
                normalNum (kinds chunks) := by
              simp [normalNum]
            rw [hstart] at haligned
            refine ⟨processed, s, mid, next, after, normalNum left, hshape, hnext, ?_, ?_, ?_, ?_⟩
            · omega
            · omega
            · omega
            · rwa [hparts, Nat.add_sub_cancel_right]
        | complete chunks => exact absurd hwork (hstuck.unfinished chunks)

end Flow

section Stages

variable {σ : Type} {n unit : Nat}

theorem RewriteLoop.Passes.stage {loop : RewriteLoop σ} {Inv : RewriteBuffer → σ → Prop}
    (h : loop.Passes n unit Inv) :
    (loop.stage n).Passes (fun t => t.buffer.chunkQueue) n unit fun t => Inv t.buffer t.locals where
  start := h.start
  start_held := rfl
  take := by
    intro t c hinv
    apply (h.body { t with rewriteQueue := [] } c hinv rfl).bind
    intro t' ht'
    obtain ⟨hinv', hheld, hunit⟩ := ht'
    refine ⟨hinv', ?_, ?_⟩
    · have hkinds := kinds_onlyMarked hheld
      unfold RewriteThread.held at hkinds
      rwa [kinds_append, kinds_append] at hkinds
    · rwa [normalNum_kinds]
  bound := by
    intro t hinv ks hks
    obtain ⟨queue, rest, hqueue, hrest, hlast⟩ := List.map_eq_append_iff.mp hks
    obtain ⟨c, hc, hkind⟩ := List.map_eq_singleton_iff.mp hlast
    have hsignal : c.isSignal = true := by
      cases hs : c.isSignal with
      | true => rfl
      | false => exact absurd ((Chunk.kind_normal_iff.mpr hs).symm.trans hkind) (by simp)
    rw [normalNum_kinds]
    exact h.bound _ _ hinv queue c (hqueue.trans (congrArg (queue ++ ·) hc)) hsignal

/-- Without rewriting nothing stays behind. -/
theorem noRewriteStage_passes (har : Option (IdMap Int)) :
    (noRewriteStage har).Passes (fun _ => []) 0 1 fun _ => True where
  start := trivial
  start_held := rfl
  take := by
    intro _ c _
    refine ⟨trivial, ?_, one_dvd _⟩
    simp [(applyHar_onlyMarked har c).kind_eq]
  bound := by
    intro _ _ ks hks
    exact absurd hks (by simp)

end Stages

section Segments

variable {cfg : Config}

/-- The largest segment that the segmenting method makes; `start_dedup_phase` counts on it. -/
def Config.segmentBound (cfg : Config) : Nat :=
  match cfg.segmentAlgorithm with
  | .fixed => cfg.segmentSize
  | .contentDefined => cfg.segmentMax
  | .fileDefined => 0

/-- A fixed size of at least one, or content-defined bounds `1 <= min < max`. -/
def Config.SegmentBounds (cfg : Config) : Prop :=
  match cfg.segmentAlgorithm with
  | .fixed => 1 ≤ cfg.segmentSize
  | .contentDefined => 1 ≤ cfg.segmentMin ∧ cfg.segmentMin < cfg.segmentMax
  | .fileDefined => True

private theorem segmentContentDefined_bound (hmin : 1 ≤ cfg.segmentMin)
    (hmax : cfg.segmentMin < cfg.segmentMax) {tmp tmp' : Segment} {found : Option Segment}
    (htmp : tmp.chunkNum < cfg.segmentMax) {c : Chunk}
    (hone : segmentContentDefined cfg tmp c = .ok (found, tmp')) :
    (∀ s ∈ found, s.chunkNum ≤ cfg.segmentMax) ∧ tmp'.chunkNum < cfg.segmentMax := by
  unfold segmentContentDefined at hone
  split at hone
  · split at hone
    · cases hone
      refine ⟨by simp, ?_⟩
      simp only [Segment.appendNormal]
      omega
    · obtain ⟨u, -, hone⟩ := bind_ok_iff.mp hone
      split at hone
      · cases hone
        refine ⟨fun s hs => ?_, ?_⟩
        · rw [← Option.mem_some.mp hs]
          exact Nat.le_of_lt htmp
        · simp only [Segment.appendNormal, newSegment]
          omega
      · have hone := Except.ok.inj hone
        split at hone
        · cases hone
          refine ⟨fun s hs => ?_, ?_⟩
          · rw [← Option.mem_some.mp hs]
            simp only [Segment.appendNormal]
            omega
          · simp only [newSegment]
            omega
        · rename_i hopen
          cases hone
          exact ⟨by simp, Nat.not_le.mp hopen⟩
  · cases hone
    exact ⟨by simp, htmp⟩

private theorem segmenting_bound (hbounds : cfg.SegmentBounds)
    (hfile : cfg.segmentAlgorithm ≠ .fileDefined) {tmp tmp' : Segment} {found : Option Segment}
    (htmp : tmp.chunkNum < cfg.segmentBound) {c : Chunk}
    (hone : segmenting cfg tmp c = .ok (found, tmp')) :
    (∀ s ∈ found, s.chunkNum ≤ cfg.segmentBound) ∧ tmp'.chunkNum < cfg.segmentBound := by
  unfold Config.SegmentBounds at hbounds
  unfold Config.segmentBound at htmp ⊢
  unfold segmenting at hone
  cases halgorithm : cfg.segmentAlgorithm with
  | fileDefined => exact absurd halgorithm hfile
  | fixed =>
      rw [halgorithm] at hbounds htmp hone
      simp only at hbounds htmp ⊢
      unfold segmentFixed at hone
      have hone := Except.ok.inj hone
      split at hone
      · simp only at hone
        split at hone
        · rename_i hfull
          cases hone
          refine ⟨fun s hs => ?_, hbounds⟩
          rw [← Option.mem_some.mp hs]
          exact Nat.le_of_eq hfull
        · rename_i hopen
          cases hone
          refine ⟨by simp, ?_⟩
          simp only [Segment.appendNormal] at hopen ⊢
          omega
      · cases hone
        exact ⟨by simp, htmp⟩
  | contentDefined =>
      rw [halgorithm] at hbounds htmp hone
      exact segmentContentDefined_bound hbounds.1 hbounds.2 htmp hone

theorem segmentStream_bound (hbounds : cfg.SegmentBounds)
    (hfile : cfg.segmentAlgorithm ≠ .fileDefined) {stream : List Chunk} {tmp : Segment}
    {segments : List Segment} (h : segmentStream cfg tmp stream = .ok segments)
    (htmp : tmp.chunkNum < cfg.segmentBound) :
    ∀ s ∈ segments, s.chunkNum ≤ cfg.segmentBound := by
  induction stream generalizing tmp segments with
  | nil =>
      cases h
      intro s hs
      rw [List.mem_singleton.mp hs]
      exact Nat.le_of_lt htmp
  | cons c stream ih =>
      obtain ⟨found, tmp', rest, hone, hrest, rfl⟩ := segmentStream_cons_ok_iff.mp h
      obtain ⟨hfound, htmp'⟩ := segmenting_bound hbounds hfile htmp hone
      intro s hs
      rcases List.mem_append.mp hs with hs | hs
      · exact hfound s (by simpa using hs)
      · exact ih hrest htmp' s hs

theorem segmentStream_plain {stream : List Chunk} (hstream : ∀ c ∈ stream, c.Inner)
    {segments : List Segment} (h : segmentStream cfg newSegment stream = .ok segments) :
    ∀ s ∈ segments, s.Plain := by
  intro s hs
  refine ⟨segmentStream_counted h counted_newSegment s hs, fun c hc => hstream c ?_⟩
  have hall := segmentStream_chunks h
  have hmem : c ∈ segments.flatMap Segment.chunks := List.mem_flatMap.mpr ⟨s, hs, hc⟩
  rw [hall] at hmem
  simpa [newSegment] using hmem

end Segments

section Claim

variable {υ : Type}

/-- A backup of a stream can come to a stop: for some results of the lookups and some order of the
steps the dedup thread waits for room while both other threads wait for input. -/
def CanStall (cfg : Config) (s : RewriteSettings υ) (stream : List Chunk) : Prop :=
  ∃ segments, segmentStream cfg newSegment stream = .ok segments ∧
  match cfg.rewriteAlgorithm with
  | .no => ∃ p, Pipeline.Reachable (noRewriteStage (s.har cfg)) cfg.waitThreshold segments p ∧
      p.Stuck cfg.waitThreshold
  | .cflSelectiveDeduplication => ∃ p, Pipeline.Reachable
      ((cflRewrite cfg s).stage cfg.rewriteBufferSize) cfg.waitThreshold segments p ∧
        p.Stuck cfg.waitThreshold
  | .contextBased => ∃ p, Pipeline.Reachable
      ((cbrRewrite cfg s).stage cfg.rewriteBufferSize) cfg.waitThreshold segments p ∧
        p.Stuck cfg.waitThreshold
  | .capping => ∃ p, Pipeline.Reachable
      ((capRewrite cfg s).stage cfg.rewriteBufferSize) cfg.waitThreshold segments p ∧
        p.Stuck cfg.waitThreshold

/-- A segment of the largest size is followed by whole segments with one chunk less than the rewrite
buffer takes, and by another segment with chunks. Capping empties its buffer at multiples of its
size only. -/
def HasStretch (cfg : Config) (segments : List Segment) : Prop :=
  ∃ before s mid next after, segments = before ++ s :: (mid ++ next :: after) ∧
    s.chunkNum = cfg.segmentBound ∧ chunkTotal mid + 1 = cfg.rewriteBufferSize ∧
    next.chunkNum ≠ 0 ∧
    (cfg.rewriteAlgorithm = .capping → cfg.rewriteBufferSize ∣ chunkTotal before + s.chunkNum)

private theorem hasStretch_of_stuck {σ : Type} {cfg : Config} {stage : RewriteStage σ}
    {held : σ → List Chunk} {unit : Nat} {Inv : σ → Prop}
    (hpass : stage.Passes held cfg.rewriteBufferSize unit Inv)
    (hunit : cfg.rewriteAlgorithm = .capping → unit = cfg.rewriteBufferSize)
    (hbounds : cfg.SegmentBounds) {stream : List Chunk} (hstream : ∀ c ∈ stream, c.Inner)
    {segments : List Segment} (hsegment : segmentStream cfg newSegment stream = .ok segments)
    {p : Pipeline σ} (hreach : Pipeline.Reachable stage cfg.waitThreshold segments p)
    (hstuck : p.Stuck cfg.waitThreshold) :
    cfg.segmentAlgorithm ≠ .fileDefined ∧ HasStretch cfg segments := by
  obtain ⟨before, s, mid, next, after, r, hsegments, hnext, hfull, hr, hheld, haligned⟩ :=
    stuck_shape hpass (segmentStream_plain hstream hsegment) hreach hstuck
  obtain ⟨-, -, -, -, hpos, -⟩ := hstuck.waits
  have hfile : cfg.segmentAlgorithm ≠ .fileDefined := by
    intro hfile
    unfold Config.waitThreshold at hpos
    rw [hfile] at hpos
    exact absurd hpos (show ¬ ((0 : Int) < -1) by decide)
  have hthreshold : cfg.waitThreshold = cfg.rewriteBufferSize + cfg.segmentBound - 1 ∧
      newSegment.chunkNum < cfg.segmentBound := by
    unfold Config.SegmentBounds at hbounds
    unfold Config.waitThreshold Config.segmentBound
    cases halgorithm : cfg.segmentAlgorithm with
    | fileDefined => exact absurd halgorithm hfile
    | fixed =>
        rw [halgorithm] at hbounds
        exact ⟨rfl, hbounds⟩
    | contentDefined =>
        rw [halgorithm] at hbounds
        exact ⟨rfl, Nat.lt_of_lt_of_le Nat.zero_lt_one
          (Nat.le_trans hbounds.1 (Nat.le_of_lt hbounds.2))⟩
  have hsize : s.chunkNum ≤ cfg.segmentBound :=
    segmentStream_bound hbounds hfile hsegment hthreshold.2 s (by rw [hsegments]; simp)
  rw [hthreshold.1] at hfull
  have hzero : r = 0 := by omega
  refine ⟨hfile, before, s, mid, next, after, hsegments, by omega, by omega, hnext, fun hcap => ?_⟩
  rw [hzero, Nat.sub_zero, hunit hcap] at haligned
  exact haligned

/-- No order of the steps stops a backup, whatever its lookups find, if nothing is rewritten, if
segments are files, or if the stream has no stretch that keeps the end of a segment in the rewrite
buffer until the index buffer is full. -/
theorem pipeline_never_stuck (cfg : Config) (s : RewriteSettings υ)
    (hn : 1 ≤ cfg.rewriteBufferSize) (hbounds : cfg.SegmentBounds) (stream : List Chunk)
    (hstream : ∀ c ∈ stream, c.Inner)
    (hcond : cfg.rewriteAlgorithm = .no ∨ cfg.segmentAlgorithm = .fileDefined ∨
      ∀ segments, segmentStream cfg newSegment stream = .ok segments → ¬ HasStretch cfg segments) :
    ¬ CanStall cfg s stream := by
  rintro ⟨segments, hsegment, hstall⟩
  have hstretch : cfg.rewriteAlgorithm ≠ .no →
      ¬ (cfg.segmentAlgorithm ≠ .fileDefined ∧ HasStretch cfg segments) := by
    rintro hno ⟨hfile, hhas⟩
    rcases hcond with h | h | h
    · exact hno h
    · exact hfile h
    · exact h segments hsegment hhas
  cases halgorithm : cfg.rewriteAlgorithm with
  | no =>
      rw [halgorithm] at hstall
      obtain ⟨p, hreach, hstuck⟩ := hstall
      obtain ⟨-, -, mid, -, -, r, -, -, -, -, hheld, -⟩ :=
        stuck_shape (noRewriteStage_passes (s.har cfg))
          (segmentStream_plain hstream hsegment) hreach hstuck
      exact absurd hheld (Nat.not_lt_zero _)
  | cflSelectiveDeduplication =>
      rw [halgorithm] at hstall
      obtain ⟨p, hreach, hstuck⟩ := hstall
      exact hstretch (by simp [halgorithm]) (hasStretch_of_stuck (cflRewrite_passes hn).stage
        (by simp [halgorithm]) hbounds hstream hsegment hreach hstuck)
  | contextBased =>
      rw [halgorithm] at hstall
      obtain ⟨p, hreach, hstuck⟩ := hstall
      exact hstretch (by simp [halgorithm]) (hasStretch_of_stuck (cbrRewrite_passes hn).stage
        (by simp [halgorithm]) hbounds hstream hsegment hreach hstuck)
  | capping =>
      rw [halgorithm] at hstall
      obtain ⟨p, hreach, hstuck⟩ := hstall
      exact hstretch (by simp [halgorithm]) (hasStretch_of_stuck (capRewrite_passes hn).stage
        (fun _ => rfl) hbounds hstream hsegment hreach hstuck)

/-- Segments of two chunks, which a buffer of two takes whole. -/
private def pairedConfig : Config := { rewriteConfig .capping 2 with segmentSize := 2 }

private def sixChunks : List Chunk := [1, 2, 3, 4, 5, 6].map newChunk

private theorem even_chunkTotal {segments : List Segment} (h : ∀ s ∈ segments, 2 ∣ s.chunkNum) :
    2 ∣ chunkTotal segments := by
  induction segments with
  | nil => exact ⟨0, rfl⟩
  | cons s segments ih =>
      obtain ⟨hs, hsegments⟩ := List.forall_mem_cons.mp h
      rw [chunkTotal_cons]
      exact Nat.dvd_add hs (ih hsegments)

/-- Six new chunks in three segments: no whole segments make up one chunk less than the buffer. -/
theorem pipeline_never_stuck_six_chunks : ¬ CanStall pairedConfig smallSettings sixChunks := by
  refine pipeline_never_stuck pairedConfig smallSettings (by decide) (show 1 ≤ 2 by decide)
    sixChunks ?_ (Or.inr (Or.inr ?_))
  · intro c hc
    obtain ⟨b, -, rfl⟩ := List.mem_map.mp hc
    exact ⟨rfl, rfl⟩
  rintro segments hsegment ⟨before, s, mid, next, after, hsplit, -, hmid, -, -⟩
  have heven : ∀ s ∈ segments, 2 ∣ s.chunkNum := by
    cases hsegment
    decide
  have hmem : ∀ s ∈ mid, 2 ∣ s.chunkNum := fun s hs => heven s (by rw [hsplit]; simp [hs])
  obtain ⟨k, hk⟩ := even_chunkTotal hmem
  have hbuffer : pairedConfig.rewriteBufferSize = 2 := rfl
  omega

/-- A segment of one chunk is looked up, sent and passed on as far as it goes. -/
private def drainSegment : List PipelineEvent :=
  .lookup (fun _ => (temporaryId, false, false)) ::
    (List.replicate 3 ([.send, .rewrite] ++
      (List.replicate 5 [.pass, .collect, .update]).flatten)).flatten

private def fourChunks : List Chunk := [newChunk 1, newChunk 2, newChunk 3, newChunk 4]

private def narrowStage : RewriteStage (RewriteThread (IdMap ContainerRecord)) :=
  (capRewrite (rewriteConfig .capping 2) smallSettings).stage 2

private def narrowSegments : List Segment := fourChunks.map (⟨1, [·]⟩) ++ [newSegment]

private def narrowRun : Option (Pipeline (RewriteThread (IdMap ContainerRecord))) :=
  exec (Pipeline.step narrowStage 2) (fun _ _ => true)
    (.initial narrowStage narrowSegments)
    (drainSegment ++ drainSegment ++ drainSegment)

private theorem narrowRun_isSome : narrowRun.isSome = true := by decide +kernel

/-- Four new chunks in segments of one, with capping over buffers of two: three segments are sent,
the end of the second one stays in the buffer with the third, and the fourth waits forever. -/
theorem pipeline_stalls : CanStall (rewriteConfig .capping 2) smallSettings fourChunks := by
  have hwork : (narrowRun.get narrowRun_isSome).work = .collecting [newChunk 2] := by
    decide +kernel
  refine ⟨narrowSegments, rfl, narrowRun.get narrowRun_isSome,
    ⟨_, Run.of_exec (fun _ _ _ => trivial) (Option.some_get narrowRun_isSome).symm⟩, ?_⟩
  exact
    { waits := ⟨⟨1, [newChunk 4]⟩, [newSegment], by decide +kernel, by decide, by decide,
        by decide +kernel⟩
      sent := by decide +kernel
      dedupQueue_nil := by decide +kernel
      passed := by decide +kernel
      rewriteQueue_nil := by decide +kernel
      unfinished := by
        intro chunks hcomplete
        rw [hwork] at hcomplete
        cases hcomplete }

end Claim

end Destor
