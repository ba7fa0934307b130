/- digest: `index_lock` in memory under its two declarations, and the bound of the index buffer. -/

import Destor.DoBackup
import Destor.Library.Bytes
import Destor.Library.Transition
import Mathlib.Data.List.Induction

set_option autoImplicit false
set_option relaxedAutoImplicit false

namespace Destor

open Library.Outcome Library.Bytes Library.Transition

/-- A declaration of `index_lock`: the sizes of the members before `wait_threshold`. -/
structure LockDeclaration where
  mutexSize : Nat
  condSize : Nat

namespace LockDeclaration

/-- `pthread_mutex_t` and `pthread_cond_t`, where the object is defined. -/
def dedupPhase : LockDeclaration := { mutexSize := 40, condSize := 48 }

/-- `GMutex` and `GCond`, in `index.c` and `filter_phase.c`. -/
def index : LockDeclaration := { mutexSize := 8, condSize := 16 }

/-- Where `wait_threshold` lies; the members before it leave no gap. -/
def offset (d : LockDeclaration) : Nat := d.mutexSize + d.condSize

def waitThreshold (d : LockDeclaration) (lock : Image) : Int := ofLeInt (read lock d.offset 4)

end LockDeclaration

/-- What pthread calls do to `index_lock`: they put some bytes into the mutex and the condition. -/
def usePthread (lock objects : Image) : Image :=
  copy lock 0 objects LockDeclaration.dedupPhase.offset

def startDedupPhase (cfg : Config) (lock objects : Image) : Image :=
  usePthread (write lock LockDeclaration.dedupPhase.offset (leInt 4 cfg.waitThreshold)) objects

/-- The system with the memory of `index_lock`. -/
structure LockedSystem where
  sys : System
  lock : Image

/-- An event of the system, with the bytes of the pthread objects while the lock is held. -/
inductive LockedEvent where
  | start (files : List InputFile) (objects : Image)
  | lookup (objects : Image)
  | filter (marks : Nat → Bool × Bool) (objects : Image)
  | finish
  | delete (jobid : Nat)

def chunksOf (segments : List Segment) : Nat := (segments.map Segment.chunkNum).sum

namespace LockedSystem

def initial (lock : Image) : LockedSystem := { sys := initSystem, lock := lock }

/-- One step: `index_lookup` runs under the threshold that `index.c` reads. -/
def step (cfg : Config) (st : LockedSystem) : LockedEvent → Except Abort LockedSystem
  | .start files objects => do
      let sys ← Destor.step cfg st.sys (.start files)
      return { sys := sys, lock := startDedupPhase cfg st.lock objects }
  | .lookup objects => do
      let sys ← Destor.step cfg st.sys
        (.lookup (LockDeclaration.index.waitThreshold (usePthread st.lock objects)))
      return { sys := sys, lock := usePthread st.lock objects }
  | .filter marks objects => do
      let sys ← Destor.step cfg st.sys (.filter marks)
      return { sys := sys, lock := usePthread st.lock objects }
  | .finish => do
      let sys ← Destor.step cfg st.sys .finish
      return { st with sys := sys }
  | .delete jobid => do
      let sys ← Destor.step cfg st.sys (.delete jobid)
      return { st with sys := sys }

/-- The threshold that `start_dedup_phase` stored. -/
def stored (st : LockedSystem) : Int := LockDeclaration.dedupPhase.waitThreshold st.lock

/-- What `index.c` reads in its place. -/
def seen (st : LockedSystem) (objects : Image) : Int :=
  LockDeclaration.index.waitThreshold (usePthread st.lock objects)

/-- Back-pressure at a lookup: from the stored threshold on, it returns 0 and changes nothing. -/
def Waits (cfg : Config) (st : LockedSystem) (objects : Image) : Prop :=
  ∀ job ∈ st.sys.job, ∀ s todo, job.todo = s :: todo → s.chunkNum ≠ 0 →
    st.stored ≤ job.index.buffer.chunkNum →
      st.step cfg (.lookup objects) = .ok { st with lock := usePthread st.lock objects }

/-- The index buffer holds at most one segment more than the stored threshold lets in. -/
def Bounded (st : LockedSystem) : Prop :=
  ∀ job ∈ st.sys.job, job.index.buffer.chunkNum = 0 ∨ ∃ s ∈ job.inflight,
    (job.index.buffer.chunkNum : Int) ≤ st.stored - 1 + s.chunkNum

/-- Fewer chunks than `threshold` come before the last segment of the stream that has chunks. -/
def StreamBelow (cfg : Config) (threshold : Int) (files : List InputFile) : Prop :=
  ∀ segments, segmentStream cfg newSegment (files.flatMap InputFile.stream) = .ok segments →
    ∀ before s after, segments = before ++ s :: after → s.chunkNum ≠ 0 →
      (chunksOf before : Int) < threshold

/-- No four bytes inside the pthread mutex hold the value. -/
def NeverHolds (objects : Image) (value : Int) : Prop :=
  ∀ off, off + 4 ≤ LockDeclaration.dedupPhase.mutexSize → ofLeInt (read objects off 4) ≠ value

def Possible (cfg : Config) (st : LockedSystem) : LockedEvent → Prop
  | .start _ objects => st.sys.job = none ∧ NeverHolds objects cfg.waitThreshold
  | .lookup objects => NeverHolds objects st.stored
  | .filter _ objects => NeverHolds objects st.stored
  | _ => True

/-- A possible event that, if it starts a job, brings a stream below the threshold that
`start_dedup_phase` stores. -/
def Admissible (cfg : Config) (st : LockedSystem) (e : LockedEvent) : Prop :=
  st.Possible cfg e ∧ ∀ files objects, e = .start files objects →
    StreamBelow cfg (LockDeclaration.dedupPhase.waitThreshold
      (startDedupPhase cfg st.lock objects)) files

end LockedSystem

section Counting

variable {cfg : Config} {source : IndexSource} {storage : Option Container}

theorem isNormal_checkStorageBuffer (c : Chunk) :
    (checkStorageBuffer storage c).isNormal = c.isNormal := by
  unfold checkStorageBuffer
  split
  · split <;> rfl
  · rfl

theorem isNormal_checkIndexBuffer (buffer : IndexBuffer) (c : Chunk) :
    (checkIndexBuffer buffer c).isNormal = c.isNormal := by
  unfold checkIndexBuffer
  split
  · split <;> rfl
  · rfl

private theorem isNormal_setDuplicate_ite (p : Prop) [Decidable p] (c : Chunk) (id : Int) :
    (if p then setDuplicate c id else c).isNormal = c.isNormal := by
  split <;> rfl

theorem isNormal_checkFingerprintCache (cache : LruCache CacheUnit) (c : Chunk) :
    Ensures (fun _ => True) (fun r => r.2.isNormal = c.isNormal)
      (checkFingerprintCache cache c) := by
  unfold checkFingerprintCache
  split
  · rfl
  · cases fingerprintCacheLookup cache c.fp with
    | error e => trivial
    | ok r => exact isNormal_setDuplicate_ite _ c _

theorem isNormal_checkKvstore (cache : LruCache CacheUnit) (c : Chunk) :
    Ensures (fun _ => True) (fun r => r.2.isNormal = c.isNormal)
      (checkKvstore cfg source cache c) := by
  unfold checkKvstore
  split
  · rfl
  · split
    · rfl
    · rename_i ids _
      cases fingerprintCachePrefetch cfg source cache (ids.headD temporaryId) with
      | error e => trivial
      | ok cache' =>
          show Ensures _ _ (fingerprintCacheLookup cache' c.fp >>= _)
          cases fingerprintCacheLookup cache' c.fp with
          | error e => trivial
          | ok r => exact isNormal_setDuplicate_ite _ c _

theorem lookupChunk_counts (ask : Bool) (st : IndexState) (c : Chunk) :
    Ensures (fun _ => True)
      (fun r => r.2.isNormal = c.isNormal ∧
        r.1.buffer.chunkNum = st.buffer.chunkNum + c.isNormal.toNat)
      (lookupChunk cfg ask source storage st c) := by
  unfold lookupChunk
  by_cases hnormal : c.isNormal = true
  · rw [if_pos hnormal]
    have hcache := isNormal_checkFingerprintCache st.cache
      (checkIndexBuffer st.buffer (checkStorageBuffer storage c))
    apply hcache.bind
    intro r hr
    rw [isNormal_checkIndexBuffer, isNormal_checkStorageBuffer] at hr
    cases ask with
    | true =>
        refine (isNormal_checkKvstore r.1 r.2).bind fun r' hr' => ⟨hr'.trans hr, ?_⟩
        simp [pushIndexElem, hnormal]
    | false => exact ⟨hr, by simp [pushIndexElem, hnormal]⟩
  · rw [if_neg hnormal]
    simp [hnormal]

theorem lookupChunks_counts (ask : Bool) (st : IndexState) (chunks : List Chunk) :
    Ensures (fun _ => True)
      (fun r => r.2.countP Chunk.isNormal = chunks.countP Chunk.isNormal ∧
        r.1.buffer.chunkNum = st.buffer.chunkNum + chunks.countP Chunk.isNormal)
      (traverseE (lookupChunk cfg ask source storage) st chunks) := by
  have hloop := traverseE_ensures (fun _ => True) (f := lookupChunk cfg ask source storage)
    (fun done st' rest =>
      done.countP Chunk.isNormal + rest.countP Chunk.isNormal = chunks.countP Chunk.isNormal ∧
      st'.buffer.chunkNum + rest.countP Chunk.isNormal =
        st.buffer.chunkNum + chunks.countP Chunk.isNormal)
    (fun done st' c rest ⟨hdone, hnum⟩ => by
      apply (lookupChunk_counts ask st' c).imp
      rintro r ⟨hnormal, hbuffer⟩
      rw [List.countP_append, List.countP_singleton, hnormal, hbuffer]
      rw [List.countP_cons] at hdone hnum
      cases hc : c.isNormal <;> simp only [hc, if_true, Bool.false_eq_true, if_false,
        Bool.toNat_true, Bool.toNat_false] at hdone hnum ⊢ <;> omega)
    (s := st) (l := chunks) ⟨by simp, rfl⟩
  exact hloop.imp fun r hr => by simpa using hr

theorem indexLookup_counts (st : IndexState) (s : Segment) :
    Ensures (fun _ => True)
      (fun r => r.2.countP Chunk.isNormal = s.chunks.countP Chunk.isNormal ∧
        r.1.buffer.chunkNum = st.buffer.chunkNum + s.chunks.countP Chunk.isNormal)
      (indexLookup cfg source storage st s) := by
  unfold indexLookup
  split
  · cases sampling cfg s.chunks s.chunkNum with
    | error e => trivial
    | ok features =>
        show Ensures _ _ (indexLookupSimilarityDetection cfg source storage st features s.chunks)
        unfold indexLookupSimilarityDetection
        cases topSegmentSelect cfg source st.cache features with
        | error e => trivial
        | ok cache => exact lookupChunks_counts _ { st with cache := cache } s.chunks
  · exact lookupChunks_counts _ st s.chunks

theorem isNormal_checkBufferChunk (buffer : IndexBuffer) (c : Chunk) :
    Ensures (fun _ => True) (fun c' => c'.isNormal = c.isNormal) (checkBufferChunk buffer c) := by
  unfold checkBufferChunk
  split
  · split
    · trivial
    · simp only
      split <;> rfl
  · rfl

theorem indexCheckBuffer_counts (buffer : IndexBuffer) (chunks : List Chunk) :
    Ensures (fun _ => True)
      (fun chunks' => chunks'.countP Chunk.isNormal = chunks.countP Chunk.isNormal)
      (indexCheckBuffer buffer chunks) := by
  unfold indexCheckBuffer
  induction chunks with
  | nil => exact rfl
  | cons c chunks ih =>
      rw [List.mapM_cons]
      refine (isNormal_checkBufferChunk buffer c).bind fun c' hc' => ih.bind fun chunks' h => ?_
      show (c' :: chunks').countP Chunk.isNormal = (c :: chunks).countP Chunk.isNormal
      rw [List.countP_cons, List.countP_cons, h, hc']

theorem isNormal_markInCache (st : FilterState) (c : Chunk) :
    Ensures (fun _ => True) (fun c' => c'.isNormal = c.isNormal) (markInCache cfg st c) := by
  unfold markInCache
  split
  · exact (ensures_require (.inr trivial)).bind fun _ _ => rfl
  · rfl

theorem isNormal_resolveUnique (st : FilterState) (c : Chunk) :
    Ensures (fun _ => True) (fun c' => c'.isNormal = c.isNormal) (resolveUnique st c) := by
  unfold resolveUnique
  split
  · split
    · trivial
    · rfl
  · rfl

theorem isNormal_resolveRewritten (st : FilterState) (c : Chunk) :
    (resolveRewritten st c).isNormal = c.isNormal := by
  unfold resolveRewritten
  split <;> rfl

theorem isNormal_storeChunk (st : FilterState) (c : Chunk) :
    Ensures (fun _ => True) (fun r => r.2.isNormal = c.isNormal) (storeChunk cfg st c) := by
  unfold storeChunk
  split
  · unfold writeChunk
    cases containerFor cfg st c.size with
    | error e => trivial
    | ok r =>
        have hadd : Ensures (fun _ => True) (fun r' => r'.2.2.isNormal = c.isNormal)
            (addChunkToContainer cfg r.2 c) := by
          apply ensures_of_ok
          intro r' hok
          rcases (addChunkToContainer_ok hok).2 with ⟨_, rfl⟩ | ⟨_, _, rfl⟩ <;> rfl
        apply hadd.bind
        intro r' hr'
        exact (ensures_require (.inr trivial)).bind fun _ _ => hr'
  · rfl

/-- The filter thread changes ids and marks only. -/
theorem isNormal_filterChunk (st : FilterState) (c : Chunk) :
    Ensures (fun _ => True) (fun r => r.2.isNormal = c.isNormal) (filterChunk cfg st c) := by
  unfold filterChunk
  split
  · apply (isNormal_markInCache st c).bind
    intro c₁ h₁
    apply (isNormal_resolveUnique _ c₁).bind
    intro c₂ h₂
    apply (isNormal_storeChunk _ (resolveRewritten _ c₂)).bind
    intro r h₃
    apply (ensures_require (.inr trivial)).bind
    intro _ _
    exact h₃.trans ((isNormal_resolveRewritten _ c₂).trans (h₂.trans h₁))
  · rfl

theorem filterChunks_counts (st : FilterState) (chunks : List Chunk) :
    Ensures (fun _ => True)
      (fun r => r.2.countP Chunk.isNormal = chunks.countP Chunk.isNormal)
      (traverseE (filterChunk cfg) st chunks) := by
  have hloop := traverseE_ensures (fun _ => True) (f := filterChunk cfg)
    (fun done _ rest =>
      done.countP Chunk.isNormal + rest.countP Chunk.isNormal = chunks.countP Chunk.isNormal)
    (fun done st' c rest hdone => by
      apply (isNormal_filterChunk st' c).imp
      intro r hnormal
      rw [List.countP_append, List.countP_singleton, hnormal]
      rw [List.countP_cons] at hdone
      omega)
    (s := st) (l := chunks) (by simp)
  exact hloop.imp fun r hr => by simpa using hr

theorem indexUpdateBuffer_counts (buffer : IndexBuffer) (chunks : List Chunk) :
    Ensures (fun _ => True)
      (fun buffer' => buffer'.chunkNum = buffer.chunkNum - chunks.countP Chunk.isNormal)
      (indexUpdateBuffer buffer chunks) := by
  unfold indexUpdateBuffer
  induction chunks generalizing buffer with
  | nil => exact rfl
  | cons c chunks ih =>
      have hone : Ensures (fun _ => True)
          (fun buffer' => buffer'.chunkNum = buffer.chunkNum - if c.isNormal then 1 else 0)
          (updateBufferChunk buffer c) := by
        unfold updateBufferChunk
        cases hc : c.isNormal with
        | false => exact rfl
        | true =>
            simp only [if_true]
            refine (ensures_require (.inr trivial)).bind fun _ _ => ?_
            split
            · trivial
            · exact rfl
      refine hone.bind fun buffer' hbuffer' => (ih buffer').imp fun buffer'' h => ?_
      rw [h, hbuffer', List.countP_cons]
      omega

theorem countP_applyMarks (marks : Nat → Bool × Bool) (chunks : List Chunk) :
    (applyMarks cfg marks chunks).countP Chunk.isNormal = chunks.countP Chunk.isNormal := by
  induction chunks generalizing marks with
  | nil => rfl
  | cons c chunks ih =>
      have hrest := ih fun i => marks (i + 1)
      unfold applyMarks at hrest ⊢
      rw [List.mapIdx_cons, List.countP_cons, List.countP_cons, hrest]
      congr 1
      have hsame : Chunk.isNormal (if c.isNormal = true then { c with flag := { c.flag with
          sparse := c.flag.sparse || (cfg.rewriteEnableHar && (marks 0).1)
          outOfOrder := c.flag.outOfOrder || (cfg.rewriteAlgorithm != .no && (marks 0).2) } }
          else c) = c.isNormal := by
        split <;> rfl
      rw [hsame]

end Counting

section Bound

variable {cfg : Config} {store : Store} {job : Job} {threshold limit : Int}

/-- The index buffer counts the chunks in flight; each segment with chunks was looked up below the
threshold, and is going to be even if no other one leaves before. -/
structure BufferBound (threshold : Int) (job : Job) : Prop where
  counted : ∀ s ∈ job.todo ++ job.inflight, s.Counted
  buffered : job.index.buffer.chunkNum = chunksOf job.inflight
  below : ∀ before n after,
    (job.inflight ++ job.todo).map Segment.chunkNum = before ++ n :: after → n ≠ 0 →
      (before.sum : Int) < threshold

theorem Segment.Counted.countP {s : Segment} (h : s.Counted) :
    s.chunks.countP Chunk.isNormal = s.chunkNum := by
  rw [List.countP_eq_length_filter]
  exact h.symm

private theorem chunksOf_append (l l' : List Segment) :
    chunksOf (l ++ l') = chunksOf l + chunksOf l' := by
  simp [chunksOf]

private theorem chunksOf_cons (s : Segment) (l : List Segment) :
    chunksOf (s :: l) = s.chunkNum + chunksOf l := by
  simp [chunksOf]

private theorem chunksOf_last (segments : List Segment) :
    chunksOf segments = 0 ∨ ∃ before s after, segments = before ++ s :: after ∧ s.chunkNum ≠ 0 ∧
      chunksOf segments = chunksOf before + s.chunkNum := by
  induction segments using List.reverseRecOn with
  | nil => exact Or.inl rfl
  | append_singleton l s ih =>
      by_cases hempty : s.chunkNum = 0
      · have hsame : chunksOf (l ++ [s]) = chunksOf l := by
          rw [chunksOf_append, chunksOf_cons, hempty]
          rfl
        rcases ih with hl | ⟨before, s', after, hl, hne, hsum⟩
        · exact Or.inl (hsame.trans hl)
        · exact Or.inr ⟨before, s', after ++ [s], by simp [hl], hne, hsame.trans hsum⟩
      · refine Or.inr ⟨l, s, [], rfl, hempty, ?_⟩
        rw [chunksOf_append, chunksOf_cons]
        rfl

theorem BufferBound.bounded (h : BufferBound threshold job) :
    job.index.buffer.chunkNum = 0 ∨ ∃ s ∈ job.inflight,
      (job.index.buffer.chunkNum : Int) ≤ threshold - 1 + s.chunkNum := by
  rw [h.buffered]
  rcases chunksOf_last job.inflight with hzero | ⟨before, s, after, heq, hne, hsum⟩
  · exact Or.inl hzero
  · have hbelow := h.below (before.map Segment.chunkNum) s.chunkNum
      ((after ++ job.todo).map Segment.chunkNum) (by rw [heq]; simp) hne
    have hbelow : (chunksOf before : Int) < threshold := hbelow
    refine Or.inr ⟨s, by rw [heq]; simp, ?_⟩
    omega

theorem BufferBound.lookup_below (h : BufferBound threshold job) {s : Segment} {todo : List Segment}
    (htodo : job.todo = s :: todo) (hne : s.chunkNum ≠ 0) :
    (job.index.buffer.chunkNum : Int) < threshold := by
  rw [h.buffered]
  exact h.below (job.inflight.map Segment.chunkNum) s.chunkNum (todo.map Segment.chunkNum)
    (by rw [htodo, List.map_append, List.map_cons]) hne

/-- A job of a stream below the threshold starts in order. -/
theorem newJob_bound (store : Store) {segments : List Segment}
    (hcounted : ∀ s ∈ segments, s.Counted)
    (hbelow : ∀ before s after, segments = before ++ s :: after → s.chunkNum ≠ 0 →
      (chunksOf before : Int) < threshold) : BufferBound threshold (newJob cfg store segments) where
  counted s hs := by
    rw [newJob, List.append_nil] at hs
    exact hcounted s hs
  buffered := rfl
  below before n after h hne := by
    obtain ⟨before, rest, heq, rfl, hrest⟩ := List.map_eq_append_iff.mp h
    obtain ⟨s, after, rfl, rfl, -⟩ := List.map_eq_cons_iff.mp hrest
    exact hbelow before s after heq hne

theorem startJob_bound {files : List InputFile} (store : Store)
    (hbelow : LockedSystem.StreamBelow cfg threshold files) :
    Ensures (fun _ => True) (BufferBound threshold) (startJob cfg store files) := by
  apply ensures_of_ok
  intro job hjob
  obtain ⟨segments, hsegment, rfl⟩ := startJob_ok_iff.mp hjob
  exact newJob_bound store (segmentStream_counted hsegment counted_newSegment)
    (hbelow segments hsegment)

private theorem BufferBound.moved (h : BufferBound threshold job) {s s' : Segment}
    {todo : List Segment} (htodo : job.todo = s :: todo) (hs' : s'.Counted)
    (hnum : s'.chunkNum = s.chunkNum) {index : IndexState}
    (hindex : index.buffer.chunkNum = job.index.buffer.chunkNum + s.chunkNum) :
    BufferBound threshold
      { job with todo := todo, inflight := job.inflight ++ [s'], index := index } where
  counted s'' hmem := by
    rcases List.mem_append.mp hmem with hmem | hmem
    · exact h.counted s'' (by rw [htodo]; simp [hmem])
    · rcases List.mem_append.mp hmem with hmem | hmem
      · exact h.counted s'' (List.mem_append_right _ hmem)
      · rwa [List.mem_singleton.mp hmem]
  buffered := by
    show index.buffer.chunkNum = chunksOf (job.inflight ++ [s'])
    rw [chunksOf_append, chunksOf_cons, hnum, hindex, h.buffered]
    rfl
  below before n after heq hne := by
    refine h.below before n after ?_ hne
    rw [← heq, htodo]
    simp [hnum]

/-- A lookup, whether it waits or not, keeps the bound. -/
theorem lookupSegment_bound (h : BufferBound threshold job) :
    Ensures (fun _ => True) (BufferBound threshold) (lookupSegment cfg store job limit) := by
  unfold lookupSegment
  cases htodo : job.todo with
  | nil => exact h
  | cons s todo =>
      have hs : s.Counted := h.counted s (by simp [htodo])
      simp only
      split
      · rename_i hempty
        exact h.moved htodo hs rfl (by rw [hempty]; rfl)
      · split
        · exact h
        · apply (indexLookup_counts job.index s).bind
          rintro r ⟨hnum, hbuffer⟩
          have hcount : ({ s with chunks := r.2 } : Segment).Counted := by
            show s.chunkNum = (r.2.filter Chunk.isNormal).length
            rw [← List.countP_eq_length_filter, hnum, hs.countP]
          exact h.moved htodo hcount rfl (by rw [hbuffer, hs.countP])

/-- The filter thread takes the first segment and counts its chunks off. -/
theorem filterSegment_bound (h : BufferBound threshold job) (marks : Nat → Bool × Bool) :
    Ensures (fun _ => True) (fun r => BufferBound threshold r.2)
      (filterSegment cfg store job marks) := by
  unfold filterSegment
  cases hinflight : job.inflight with
  | nil => exact h
  | cons s inflight =>
      apply (indexCheckBuffer_counts job.index.buffer _).bind
      intro chunks hchecked
      apply (filterChunks_counts (job.filterState store) chunks).bind
      intro r hfiltered
      apply (indexUpdateBuffer_counts job.index.buffer r.2).bind
      intro buffer hbuffer
      cases writeRecipe job.bv job.fileMeta ((chunks.filter Chunk.isNormal).length) r.2 with
      | error e => trivial
      | ok w =>
          show Ensures _ _ (updateLogicalIndex cfg r.1 w.1
            ((chunks.filter Chunk.isNormal).length) r.2 >>= _)
          cases updateLogicalIndex cfg r.1 w.1 ((chunks.filter Chunk.isNormal).length) r.2 with
          | error e => trivial
          | ok kv =>
              refine ⟨fun s' hs' => h.counted s' ?_, ?_, fun before n after heq hne => ?_⟩
              · rcases List.mem_append.mp hs' with hs' | hs'
                · exact List.mem_append_left _ hs'
                · rw [hinflight]
                  exact List.mem_append_right _ (List.mem_cons_of_mem _ hs')
              · have hbuffered := h.buffered
                rw [hinflight, chunksOf_cons] at hbuffered
                have hs : s.Counted := h.counted s (by rw [hinflight]; simp)
                rw [countP_applyMarks, hs.countP] at hchecked
                show buffer.chunkNum = chunksOf inflight
                rw [hbuffer, hfiltered, hchecked, hbuffered, Nat.add_sub_cancel_left]
              · have heq : (inflight ++ job.todo).map Segment.chunkNum = before ++ n :: after := heq
                have hbelow := h.below (s.chunkNum :: before) n after
                  (by rw [hinflight, List.cons_append, List.map_cons, heq]; rfl) hne
                rw [List.sum_cons] at hbelow
                omega

end Bound

section Runs

variable {cfg : Config} {st : LockedSystem}

theorem waitThreshold_usePthread (lock objects : Image) :
    LockDeclaration.dedupPhase.waitThreshold (usePthread lock objects) =
      LockDeclaration.dedupPhase.waitThreshold lock := by
  refine congrArg ofLeInt (read_congr fun i hi _ => ?_)
  exact copy_apply_of_disjoint (Or.inr (by simpa using hi))

/-- The definition reads back the threshold that was stored, if an int holds it. -/
theorem waitThreshold_startDedupPhase (lock objects : Image)
    (hlo : -(2 ^ 31) ≤ cfg.waitThreshold) (hhi : cfg.waitThreshold < 2 ^ 31) :
    LockDeclaration.dedupPhase.waitThreshold (startDedupPhase cfg lock objects) =
      cfg.waitThreshold := by
  rw [startDedupPhase, waitThreshold_usePthread, LockDeclaration.waitThreshold]
  have hread := read_write_self lock LockDeclaration.dedupPhase.offset (leInt 4 cfg.waitThreshold)
  rw [length_leInt] at hread
  rw [hread]
  exact ofLeInt_leInt (by omega) (by norm_num; omega) (by norm_num; omega)

def SystemBound (threshold : Int) (sys : System) : Prop :=
  ∀ job ∈ sys.job, BufferBound threshold job

theorem systemBound_none {threshold : Int} (store : Store) :
    SystemBound threshold { store := store, job := none } := by
  intro job hjob
  cases hjob

theorem systemBound_some {threshold : Int} {store : Store} {job : Job}
    (h : BufferBound threshold job) :
    SystemBound threshold { store := store, job := some job } := by
  intro job' hjob'
  cases hjob'
  exact h

theorem step_bound {threshold : Int} {sys : System} (h : SystemBound threshold sys) {e : Event}
    (hstart : ∀ files, e = .start files → LockedSystem.StreamBelow cfg threshold files) :
    Ensures (fun _ => True) (SystemBound threshold) (Destor.step cfg sys e) := by
  obtain ⟨store, job⟩ := sys
  cases job with
  | none =>
      cases e with
      | start files =>
          exact (startJob_bound store (hstart files rfl)).bind fun _ hjob => systemBound_some hjob
      | delete jobid =>
          simp only [Destor.step]
          cases doDelete cfg store jobid with
          | error e => trivial
          | ok store' => exact systemBound_none store'
      | lookup | filter | finish => exact h
  | some job =>
      have hjob : BufferBound threshold job := h job rfl
      cases e with
      | start | delete => exact h
      | lookup limit =>
          exact (lookupSegment_bound hjob).bind fun _ hjob' => systemBound_some hjob'
      | filter marks =>
          exact (filterSegment_bound hjob marks).bind fun _ hjob' => systemBound_some hjob'
      | finish =>
          simp only [Destor.step]
          split
          · cases finishJob cfg store job with
            | error e => trivial
            | ok store' => exact systemBound_none store'
          · exact h

theorem locked_ensures (h : SystemBound st.stored st.sys) {e : LockedEvent}
    (hok : st.Admissible cfg e) :
    Ensures (fun _ => True) (fun st' => SystemBound st'.stored st'.sys) (st.step cfg e) := by
  have hkeep : ∀ sys objects, SystemBound st.stored sys → SystemBound
      (LockDeclaration.dedupPhase.waitThreshold (usePthread st.lock objects)) sys := by
    intro sys objects hsys
    rwa [waitThreshold_usePthread]
  cases e with
  | start files objects =>
      have hnone : st.sys.job = none := hok.1.1
      have hbelow := hok.2 files objects rfl
      obtain ⟨⟨store, job⟩, lock⟩ := st
      cases hnone
      apply ensures_of_ok
      intro st' hstep
      obtain ⟨sys, hsys, heq⟩ := bind_ok_iff.mp hstep
      cases heq
      refine (step_bound (systemBound_none store) fun files' hfiles => ?_).of_ok hsys
      cases hfiles
      exact hbelow
  | lookup objects =>
      exact (step_bound h (by simp)).bind fun sys hsys => hkeep sys objects hsys
  | filter marks objects =>
      exact (step_bound h (by simp)).bind fun sys hsys => hkeep sys objects hsys
  | finish => exact (step_bound h (by simp)).bind fun _ hsys => hsys
  | delete jobid => exact (step_bound h (by simp)).bind fun _ hsys => hsys

private theorem locked_lookup_iff {store : Store} {job : Job} {lock : Image} (objects : Image) :
    LockedSystem.step cfg ⟨⟨store, some job⟩, lock⟩ (.lookup objects) =
        .ok ⟨⟨store, some job⟩, usePthread lock objects⟩ ↔
      lookupSegment cfg store job
        (LockDeclaration.index.waitThreshold (usePthread lock objects)) = .ok job := by
  constructor
  · intro hstep
    obtain ⟨sys, hsys, heq⟩ := bind_ok_iff.mp hstep
    obtain ⟨job', hjob', heq'⟩ := bind_ok_iff.mp hsys
    cases heq'
    cases heq
    exact hjob'
  · intro hjob
    refine bind_ok_iff.mpr ⟨⟨store, some job⟩, ?_, rfl⟩
    exact bind_ok_iff.mpr ⟨job, hjob, rfl⟩

private theorem full_of_waits {objects : Image} (h : st.Waits cfg objects) {job : Job}
    (hjob : st.sys.job = some job) {s : Segment} {todo : List Segment} (htodo : job.todo = s :: todo)
    (hne : s.chunkNum ≠ 0) (hhigh : st.stored ≤ job.index.buffer.chunkNum) :
    job.index.buffer.Full (st.seen objects) := by
  obtain ⟨⟨store, _⟩, lock⟩ := st
  cases hjob
  by_contra hopen
  have hsame := (locked_lookup_iff objects).mp (h job rfl s todo htodo hne hhigh)
  simp only [lookupSegment, htodo, if_neg hne] at hsame
  obtain ⟨r, -, heq⟩ := bind_ok_iff.mp ((if_neg hopen).symm.trans hsame)
  have hshorter : todo = job.todo := congrArg Job.todo (Except.ok.inj heq)
  rw [htodo] at hshorter
  exact absurd hshorter.symm (List.cons_ne_self s todo)

private theorem seen_zeros (lock : Image) :
    LockDeclaration.index.waitThreshold (usePthread lock zeros) = 0 := by
  have hinside : read (usePthread lock zeros) LockDeclaration.index.offset 4 =
      read zeros LockDeclaration.index.offset 4 :=
    read_congr fun i _ hi => if_pos ⟨Nat.zero_le i, by
      have hoffset : LockDeclaration.index.offset = 24 := rfl
      have hstored : LockDeclaration.dedupPhase.offset = 88 := rfl
      omega⟩
  have hzero : read zeros LockDeclaration.index.offset 4 = [0, 0, 0, 0] := rfl
  rw [LockDeclaration.waitThreshold, hinside, hzero]
  decide

private theorem lookupSegment_eager {s : Segment} {todo : List Segment} {job job' : Job}
    {store : Store} (htodo : job.todo = s :: todo) (hs : s.Counted)
    (hok : lookupSegment cfg store job 0 = .ok job') :
    job'.todo = todo ∧ job'.index.buffer.chunkNum = job.index.buffer.chunkNum + s.chunkNum := by
  simp only [lookupSegment, htodo] at hok
  split at hok
  · rename_i hempty
    cases hok
    exact ⟨rfl, by rw [hempty]; rfl⟩
  · have hopen : ¬ job.index.buffer.Full 0 := fun hfull => absurd hfull.1 (lt_irrefl 0)
    rw [if_neg hopen] at hok
    obtain ⟨r, hlookup, hok⟩ := bind_ok_iff.mp hok
    cases hok
    refine ⟨rfl, ?_⟩
    rw [← hs.countP]
    exact ((indexLookup_counts job.index s).of_ok hlookup).2

/-- The dedup thread runs ahead of the filter thread: it looks `n` segments up first, while the bytes
of the mutex are zero. -/
def eagerRun (files : List InputFile) (n : Nat) : List LockedEvent :=
  .start files zeros :: List.replicate n (.lookup zeros)

private theorem eager_state {lock : Image} {files : List InputFile} {segments : List Segment}
    (hsegment : segmentStream cfg newSegment (files.flatMap InputFile.stream) = .ok segments)
    {n : Nat} (hn : n ≤ segments.length)
    (h : Run (LockedSystem.step cfg) (fun _ _ => True) (.initial lock) (eagerRun files n) st) :
    st.stored = LockDeclaration.dedupPhase.waitThreshold (startDedupPhase cfg lock zeros) ∧
      ∃ job, st.sys.job = some job ∧ job.todo = segments.drop n ∧
        job.index.buffer.chunkNum = chunksOf (segments.take n) := by
  induction n generalizing st with
  | zero =>
      have hlast : Run (LockedSystem.step cfg) (fun _ _ => True) (.initial lock)
        ([] ++ [.start files zeros]) st := h
      obtain ⟨st₀, hrun, -, hstep⟩ := hlast.last
      have hnil : Run (LockedSystem.step cfg) (fun _ _ => True) (.initial lock) []
        (.initial lock) := .nil
      obtain rfl := Run.unique hnil hrun
      obtain ⟨sys, hsys, heq⟩ := bind_ok_iff.mp hstep
      obtain ⟨segments', hsegment', rfl⟩ := step_start hsys
      rw [hsegment] at hsegment'
      cases hsegment'
      cases heq
      exact ⟨rfl, _, rfl, rfl, rfl⟩
  | succ n ih =>
      have hactions : eagerRun files (n + 1) = eagerRun files n ++ [.lookup zeros] := by
        rw [eagerRun, List.replicate_succ']
        rfl
      rw [hactions] at h
      obtain ⟨⟨⟨store, job⟩, lock₀⟩, hrun, -, hstep⟩ := h.last
      obtain ⟨hstored, job₀, hjob, htodo, hnum⟩ := ih (by omega) hrun
      cases hjob
      obtain ⟨sys, hsys, heq⟩ := bind_ok_iff.mp hstep
      obtain ⟨job', hlookup, heq'⟩ := bind_ok_iff.mp hsys
      cases heq'
      cases heq
      rw [List.drop_eq_getElem_cons (by omega)] at htodo
      have hcounted := segmentStream_counted hsegment counted_newSegment segments[n]
        (List.getElem_mem (by omega))
      simp only [seen_zeros] at hlookup
      obtain ⟨htodo', hnum'⟩ := lookupSegment_eager htodo hcounted hlookup
      refine ⟨(waitThreshold_usePthread lock₀ zeros).trans hstored, job', rfl, htodo', ?_⟩
      rw [hnum', hnum, List.take_succ_eq_append_getElem (by omega), chunksOf_append, chunksOf_cons]
      rfl

/-- A stream that reaches the threshold before its last segment with chunks makes a lookup go on at
the threshold. -/
theorem not_waits_of_not_below {lock : Image} {files : List InputFile}
    (hnot : ¬ LockedSystem.StreamBelow cfg
      (LockDeclaration.dedupPhase.waitThreshold (startDedupPhase cfg lock zeros)) files) :
    ∃ n, ∀ st, Run (LockedSystem.step cfg) (fun _ _ => True) (.initial lock) (eagerRun files n) st →
      ¬ st.Waits cfg zeros := by
  unfold LockedSystem.StreamBelow at hnot
  push Not at hnot
  obtain ⟨segments, hsegment, before, s, after, rfl, hne, hhigh⟩ := hnot
  refine ⟨before.length, fun st hrun hwaits => ?_⟩
  obtain ⟨hstored, job, hjob, htodo, hnum⟩ := eager_state hsegment (by simp) hrun
  rw [List.drop_left] at htodo
  rw [List.take_left] at hnum
  have hfull := full_of_waits hwaits hjob htodo hne (by rw [hstored, hnum]; exact hhigh)
  rw [LockedSystem.seen, seen_zeros] at hfull
  exact absurd hfull.1 (lt_irrefl 0)

/-- In runs whose streams stay below the threshold that `start_dedup_phase` stores, the index buffer
is bounded by it and each lookup on a full buffer waits; every other stream has an interleaving in
which, unless a lookup fails, one goes on. -/
theorem index_buffer_bounded (cfg : Config) :
    (∀ lock events st,
      Run (LockedSystem.step cfg) (LockedSystem.Admissible cfg) (.initial lock) events st →
        st.Bounded ∧ ∀ objects, st.Waits cfg objects) ∧
    ∀ lock files, ¬ LockedSystem.StreamBelow cfg
        (LockDeclaration.dedupPhase.waitThreshold (startDedupPhase cfg lock zeros)) files →
      ∃ n, ∀ st, Run (LockedSystem.step cfg) (fun _ _ => True) (.initial lock)
        (eagerRun files n) st → ¬ st.Waits cfg zeros := by
  refine ⟨fun lock events st h => ?_, fun lock files hnot => not_waits_of_not_below hnot⟩
  have hinit : SystemBound (LockedSystem.initial lock).stored initSystem :=
    systemBound_none emptyStore
  have hbound : SystemBound st.stored st.sys :=
    h.invariant (fun st => SystemBound st.stored st.sys) hinit
      fun _ _ hs hok => locked_ensures hs hok
  refine ⟨fun job hjob => (hbound job hjob).bounded, fun objects job hjob s todo htodo hne hhigh => ?_⟩
  exact absurd ((hbound job hjob).lookup_below htodo hne) (not_lt.mpr hhigh)

end Runs

section Example

/-- A rewrite buffer of one chunk: the threshold is one. -/
private def narrowConfig : Config :=
  { smallConfig .nearExact .physical with rewriteBufferSize := 1 }

private def threeChunks : List InputFile :=
  [{ name := [97], chunks := [⟨.fill 1, 1, []⟩, ⟨.fill 2, 1, []⟩, ⟨.fill 3, 1, []⟩] }]

private theorem neverHolds_zeros : LockedSystem.NeverHolds zeros 1 := by
  intro off _
  have hzero : read zeros off 4 = [0, 0, 0, 0] := rfl
  rw [hzero]
  decide

private def twoLookups : List LockedEvent :=
  [.start threeChunks zeros, .lookup zeros, .lookup zeros]

private theorem stored_narrow (objects : Image) :
    LockDeclaration.dedupPhase.waitThreshold (startDedupPhase narrowConfig objects zeros) = 1 :=
  waitThreshold_startDedupPhase objects zeros (by decide) (by decide)

/-- A rewrite buffer of three chunks: the threshold is three. -/
private def wideConfig : Config :=
  { smallConfig .nearExact .physical with rewriteBufferSize := 3 }

private theorem stored_wide (objects : Image) :
    LockDeclaration.dedupPhase.waitThreshold (startDedupPhase wideConfig objects zeros) = 3 :=
  waitThreshold_startDedupPhase objects zeros (by decide) (by decide)

private theorem neverHolds_three : LockedSystem.NeverHolds zeros 3 := by
  intro off _
  have hzero : read zeros off 4 = [0, 0, 0, 0] := rfl
  rw [hzero]
  decide

private theorem threeChunks_below : LockedSystem.StreamBelow wideConfig 3 threeChunks := by
  intro segments hsegment before s after heq hne
  cases hsegment
  have hsum : chunksOf before + (s.chunkNum + chunksOf after) = 3 := by
    rw [← chunksOf_cons, ← chunksOf_append, ← heq]
    rfl
  omega

/-- All three segments of a file are looked up before the filter thread runs. -/
theorem index_buffer_bounded_three_lookups : ∃ st : LockedSystem,
    (st.sys.job.map fun job => job.index.buffer.chunkNum) = some 3 ∧ st.Bounded ∧
      ∀ objects, st.Waits wideConfig objects := by
  have h₀ : Run (LockedSystem.step wideConfig) (LockedSystem.Admissible wideConfig)
    (.initial zeros) [] (.initial zeros) := .nil
  have h₁ := h₀.after (.start threeChunks zeros) ⟨⟨rfl, neverHolds_three⟩, fun files objects heq => by
    cases heq
    show LockedSystem.StreamBelow wideConfig (LockDeclaration.dedupPhase.waitThreshold
      (startDedupPhase _ _ _)) threeChunks
    rw [stored_wide]
    exact threeChunks_below⟩ rfl
  have h₂ := h₁.after (.lookup zeros) ⟨by
    show LockedSystem.NeverHolds zeros
      (LockDeclaration.dedupPhase.waitThreshold (startDedupPhase _ _ _))
    rw [stored_wide]
    exact neverHolds_three, by simp⟩ rfl
  have h₃ := h₂.after (.lookup zeros) ⟨by
    show LockedSystem.NeverHolds zeros (LockDeclaration.dedupPhase.waitThreshold (usePthread _ _))
    rw [waitThreshold_usePthread, stored_wide]
    exact neverHolds_three, by simp⟩ rfl
  have h₄ := h₃.after (.lookup zeros) ⟨by
    show LockedSystem.NeverHolds zeros (LockDeclaration.dedupPhase.waitThreshold (usePthread _ _))
    rw [waitThreshold_usePthread, waitThreshold_usePthread, stored_wide]
    exact neverHolds_three, by simp⟩ rfl
  exact ⟨_, rfl, (index_buffer_bounded wideConfig).1 _ _ _ h₄⟩

/-- With a mutex whose bytes are all zero, a second segment is looked up although the index buffer
has reached the threshold. -/
theorem index_buffer_unbounded : ∃ st : LockedSystem,
    Run (LockedSystem.step narrowConfig) (LockedSystem.Possible narrowConfig) (.initial zeros)
      twoLookups st ∧ ¬ st.Bounded ∧ ¬ st.Waits narrowConfig zeros := by
  have h₀ : Run (LockedSystem.step narrowConfig) (LockedSystem.Possible narrowConfig)
    (.initial zeros) [] (.initial zeros) := .nil
  have h₁ := h₀.after (.start threeChunks zeros) ⟨rfl, neverHolds_zeros⟩ rfl
  have h₂ := h₁.after (.lookup zeros) (by
    show LockedSystem.NeverHolds zeros
      (LockDeclaration.dedupPhase.waitThreshold (startDedupPhase _ _ _))
    rw [stored_narrow]
    exact neverHolds_zeros) rfl
  have h₃ := h₂.after (.lookup zeros) (by
    show LockedSystem.NeverHolds zeros (LockDeclaration.dedupPhase.waitThreshold (usePthread _ _))
    rw [waitThreshold_usePthread, stored_narrow]
    exact neverHolds_zeros) rfl
  have hstored : LockDeclaration.dedupPhase.waitThreshold (usePthread (usePthread (startDedupPhase
      narrowConfig zeros zeros) zeros) zeros) = 1 := by
    rw [waitThreshold_usePthread, waitThreshold_usePthread, stored_narrow]
  refine ⟨_, h₃, fun hbounded => ?_, fun hwaits => ?_⟩
  · rcases hbounded _ rfl with hzero | ⟨s, hs, hle⟩
    · exact absurd hzero (by decide)
    · have hone : s.chunkNum ≤ 1 := by
        revert s
        decide
      have hle : (2 : Int) ≤ LockDeclaration.dedupPhase.waitThreshold (usePthread (usePthread
        (startDedupPhase narrowConfig zeros zeros) zeros) zeros) - 1 + s.chunkNum := hle
      omega
  · have hfull := full_of_waits hwaits rfl rfl (by decide) (by
      show LockDeclaration.dedupPhase.waitThreshold (usePthread (usePthread
        (startDedupPhase narrowConfig zeros zeros) zeros) zeros) ≤ 2
      omega)
    exact absurd hfull.1 (by decide)

end Example

end Destor
