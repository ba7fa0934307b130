/- digest: The recipe of every backup lists the files that it was started with, chunk by chunk. -/

import Destor.ArchiveRuns
import Destor.ExactDedup
import Destor.Restore.RecordedBackup
import Destor.StoredAccounting

set_option autoImplicit false
set_option relaxedAutoImplicit false

namespace Destor

open Library.Outcome Library.Transition Library.RelatedLists Library.Paging

/-- A file of a recipe that was written for an input: its name, and fingerprint and size of each
chunk. -/
structure StoredFile.Lists (s : StoredFile) (f : InputFile) : Prop where
  name_eq : s.name = f.name
  chunks_eq : s.pointers.map (fun cp => (cp.fp, cp.size)) = f.chunks.map fun c => (c.fp, c.size)

def BackupVersion.Lists (bv : BackupVersion) (files : List InputFile) : Prop :=
  ∃ rb : RecordedBackup, List.Forall₂ StoredFile.Lists rb.files files ∧ Recorded bv rb

/-- The counters of `read_recipe_thread` reach the numbers of files and chunks that were given. -/
structure InputsCounted (inputs : List InputFile) : Prop where
  files : inputs.length < 2 ^ 31
  chunks : ∀ f ∈ inputs, f.chunks.length < 2 ^ 31

theorem countsFit_iff_of_lists {rb : RecordedBackup} {files : List InputFile}
    (h : List.Forall₂ StoredFile.Lists rb.files files) : rb.CountsFit ↔ InputsCounted files := by
  have hlength : ∀ {s : StoredFile} {f : InputFile}, s.Lists f →
      s.pointers.length = f.chunks.length := by
    intro s f hlist
    have heq := congrArg List.length hlist.chunks_eq
    rwa [List.length_map, List.length_map] at heq
  refine ⟨fun hfit => ⟨h.length_eq ▸ hfit.files, fun f hf => ?_⟩,
    fun hfit => ⟨h.length_eq ▸ hfit.files, fun s hs => ?_⟩⟩
  · obtain ⟨s, hs, hlist⟩ := mem_forall₂_right h hf
    rw [← hlength hlist]
    exact hfit.chunks s hs
  · obtain ⟨f, hf, hlist⟩ := mem_forall₂_left h hs
    rw [hlength hlist]
    exact hfit.chunks f hf

section Streams

variable {f : InputFile} {files : List InputFile}

private theorem foldl_push_inside {chunks : List Chunk} (h : ∀ c ∈ chunks, c.flag.fileEnd = false)
    (r : FileRecipeMeta) (metas : List FileRecipeMeta) (before : List ChunkPointer) :
    chunks.foldl Description.push ⟨some r, metas, before⟩ =
      ⟨some { r with
          chunknum := r.chunknum + chunks.length
          filesize := r.filesize + (chunks.map Chunk.size).sum },
        metas, before ++ chunks.map Chunk.pointer⟩ := by
  induction chunks generalizing r before with
  | nil => simp
  | cons c chunks ih =>
      obtain ⟨hc, hchunks⟩ := List.forall_mem_cons.mp h
      have hpush : Description.push ⟨some r, metas, before⟩ c =
          ⟨some { r with chunknum := r.chunknum + 1, filesize := r.filesize + c.size }, metas,
            before ++ [c.pointer]⟩ := by
        simp [Description.push, hc, Chunk.pointer]
      rw [List.foldl_cons, hpush, ih hchunks]
      simp [Nat.add_assoc, Nat.add_comm 1]

/-- What the filter thread made of the stream of a file describes a file that lists it. -/
theorem InputFile.foldl_push {done : List Chunk}
    (h : List.Forall₂ Chunk.SamePayload f.stream done) :
    ∃ s : StoredFile, s.Lists f ∧ ∀ metas before, done.foldl Description.push ⟨none, metas, before⟩ =
      ⟨none, metas ++ [s.fileRecipeMeta], before ++ s.pointers⟩ := by
  rw [InputFile.stream, List.cons_append] at h
  obtain ⟨first, rest, hfirst, hrest, rfl⟩ := List.forall₂_cons_left_iff.mp h
  obtain ⟨chunks, tail, hchunks, htail, rfl⟩ := forall₂_append_left hrest
  obtain ⟨last, none, hlast, hnone, rfl⟩ := List.forall₂_cons_left_iff.mp htail
  cases hnone
  have hinside : ∀ c ∈ chunks, c.flag.fileEnd = false := by
    intro c hc
    obtain ⟨a, ha, hac⟩ := mem_forall₂_right hchunks hc
    obtain ⟨ic, -, rfl⟩ := List.mem_map.mp ha
    rw [hac.signals_eq.2]
    rfl
  have hlist : chunks.map (fun c => (c.fp, c.size)) = f.chunks.map fun c => (c.fp, c.size) := by
    generalize f.chunks = ics at hchunks
    clear hinside h hrest hlast htail
    induction ics generalizing chunks with
    | nil =>
        cases hchunks
        rfl
    | cons ic ics ih =>
        obtain ⟨c, cs, hc, hcs, rfl⟩ := List.forall₂_cons_left_iff.mp hchunks
        rw [List.map_cons, List.map_cons, ih cs hcs, hc.fp_eq, hc.size_eq]
        rfl
  refine ⟨⟨f.name, chunks.map Chunk.pointer⟩, ⟨rfl, ?_⟩, fun metas before => ?_⟩
  · rw [← hlist, List.map_map]
    rfl
  · have hstart : Description.push ⟨none, metas, before⟩ first =
        ⟨some (newFileRecipeMeta f.name), metas, before⟩ := by
      have hname : first.data = f.name := hfirst.data_eq
      rw [Description.push, hname]
    have hend : last.flag.fileEnd = true := hlast.signals_eq.2
    rw [List.foldl_cons, hstart, List.foldl_append, foldl_push_inside hinside]
    simp [Description.push, hend, newFileRecipeMeta, StoredFile.fileRecipeMeta, Function.comp_def,
      Chunk.pointer]

theorem foldl_push_inputs {done : List Chunk}
    (h : List.Forall₂ Chunk.SamePayload (files.flatMap InputFile.stream) done) :
    ∃ stored, List.Forall₂ StoredFile.Lists stored files ∧
      ∀ metas before, done.foldl Description.push ⟨none, metas, before⟩ =
        ⟨none, metas ++ stored.map StoredFile.fileRecipeMeta,
          before ++ stored.flatMap StoredFile.pointers⟩ := by
  induction files generalizing done with
  | nil =>
      cases h
      exact ⟨[], .nil, fun metas before => by simp⟩
  | cons f files ih =>
      rw [List.flatMap_cons] at h
      obtain ⟨first, rest, hfirst, hrest, rfl⟩ := forall₂_append_left h
      obtain ⟨s, hs, hpush⟩ := InputFile.foldl_push hfirst
      obtain ⟨stored, hstored, hpushes⟩ := ih hrest
      refine ⟨s :: stored, .cons hs hstored, fun metas before => ?_⟩
      rw [List.foldl_append, hpush, hpushes]
      simp

end Streams

section Write

variable {bv bv' : BackupVersion} {d : Description} {r r' : Option FileRecipeMeta} {c : Chunk}
  {chunks : List Chunk}

theorem Describes.writeRecipeChunk_ok (h : Describes bv d) (hr : r = d.opened)
    (hok : Destor.writeRecipeChunk (bv, r) c = .ok (bv', r')) :
    Describes bv' (d.push c) ∧ r' = (d.push c).opened := by
  obtain ⟨opened, metas, pointers⟩ := d
  cases hr
  cases opened with
  | none =>
      obtain ⟨-, -, hok⟩ := bind_ok_iff.mp hok
      cases hok
      exact ⟨⟨h.metas, h.numberOfFiles, h.numberOfChunks, h.pointers, h.accessRecord, h.records⟩,
        rfl⟩
  | some r =>
      cases hend : c.flag.fileEnd with
      | true =>
          have hpush : Description.push ⟨some r, metas, pointers⟩ c =
              ⟨none, metas ++ [r], pointers⟩ := by simp [Description.push, hend]
          simp only [Destor.writeRecipeChunk, hend, if_true] at hok
          cases hok
          rw [hpush]
          refine ⟨⟨?_, ?_, h.numberOfChunks, h.pointers, h.accessRecord, h.records⟩, rfl⟩
          · exact congrArg (· ++ [r]) h.metas
          · show bv.numberOfFiles + 1 = (metas ++ [r]).length
            rw [h.numberOfFiles, List.length_append, List.length_singleton]
      | false =>
          have hpush : Description.push ⟨some r, metas, pointers⟩ c =
              ⟨some { r with chunknum := r.chunknum + 1, filesize := r.filesize + c.size }, metas,
                pointers ++ [{ fp := c.fp, id := c.id, size := c.size }]⟩ := by
            simp [Description.push, hend]
          simp only [Destor.writeRecipeChunk, hend, Bool.false_eq_true, if_false] at hok
          obtain ⟨u, hid, hok⟩ := bind_ok_iff.mp hok
          obtain ⟨bv₁, happend, hok⟩ := bind_ok_iff.mp hok
          cases hok
          have hid : 0 ≤ (⟨c.fp, c.id, c.size⟩ : ChunkPointer).id := require_ok_iff.mp hid
          obtain ⟨bv₂, happend', hdesc⟩ := h.appendChunkPointer hid
            (some { r with chunknum := r.chunknum + 1, filesize := r.filesize + c.size })
          obtain rfl := Except.ok.inj (happend.symm.trans happend')
          rw [hpush]
          exact ⟨hdesc, rfl⟩

theorem Describes.writeRecipeChunks_ok (h : Describes bv d) (hr : r = d.opened)
    (hok : foldE Destor.writeRecipeChunk (bv, r) chunks = .ok (bv', r')) :
    Describes bv' (chunks.foldl Description.push d) ∧
      r' = (chunks.foldl Description.push d).opened := by
  induction chunks generalizing bv r d with
  | nil =>
      cases hok
      exact ⟨h, hr⟩
  | cons c chunks ih =>
      obtain ⟨⟨bv₁, r₁⟩, hc, hok⟩ := bind_ok_iff.mp hok
      obtain ⟨h₁, hr₁⟩ := h.writeRecipeChunk_ok hr hc
      exact ih h₁ hr₁ hok

theorem Describes.writeRecipe_ok (h : Describes bv d) (hbuf : bv.segmentbuf = [])
    (hr : r = d.opened) {chunkNum : Nat} {sid : Int}
    (hok : writeRecipe bv r chunkNum chunks = .ok (sid, bv', r')) :
    Describes bv' (chunks.foldl Description.push d) ∧ bv'.segmentbuf = [] ∧
      r' = (chunks.foldl Description.push d).opened := by
  obtain ⟨⟨bv₁, r₁⟩, hwrite, hok⟩ := bind_ok_iff.mp hok
  cases hok
  have hstart : Describes (appendSegmentStart bv chunkNum).2 d := by
    refine ⟨h.metas, h.numberOfFiles, h.numberOfChunks, ?_, h.accessRecord, h.records⟩
    show (bv.recipe ++ [segmentFlag chunkSegmentStart chunkNum]).filter
      ChunkPointer.isPointer = _
    rw [List.filter_append, ← h.pointers, hbuf, List.append_nil]
    exact List.append_nil _
  obtain ⟨hdesc, hr'⟩ := hstart.writeRecipeChunks_ok hr hwrite
  refine ⟨⟨hdesc.metas, hdesc.numberOfFiles, hdesc.numberOfChunks, ?_, hdesc.accessRecord,
    hdesc.records⟩, rfl, hr'⟩
  show (bv₁.recipe ++ bv₁.segmentbuf ++ [segmentFlag chunkSegmentEnd 0] ++ []).filter
    ChunkPointer.isPointer = _
  rw [List.append_nil, List.filter_append, hdesc.pointers]
  exact List.append_nil _

theorem Describes.lists {files : List InputFile} {done : List Chunk}
    (hstream : List.Forall₂ Chunk.SamePayload (files.flatMap InputFile.stream) done)
    (h : Describes bv (done.foldl Description.push {})) (hbuf : bv.segmentbuf = []) :
    (updateBackupVersion bv).Lists files := by
  obtain ⟨stored, hstored, hpush⟩ := foldl_push_inputs hstream
  have hpush : done.foldl Description.push {} = _ := hpush [] []
  rw [hpush] at h
  obtain ⟨hmetas, hfiles, hchunks, hpointers, -, hrecords⟩ := h
  rw [hbuf, List.append_nil] at hpointers
  refine ⟨⟨stored, [stored.flatMap StoredFile.stream], List.flatten_singleton⟩, hstored, hmetas,
    hfiles.trans (List.length_map _), hchunks, hpointers, ?_⟩
  show (if bv.accessRecord ≠ temporaryId then bv.records ++ [bv.accessRecord]
    else bv.records) ++ [temporaryId] = changes temporaryId _ ++ [temporaryId]
  refine congrArg (· ++ [temporaryId]) (Eq.trans ?_ hrecords)
  split
  · rfl
  · exact (List.append_nil _).symm

end Write

section Pass

variable {cfg : Config} {st st' : FilterState} {c c' : Chunk} {store store' : Store} {job job' : Job}
  {s : Segment} {inflight : List Segment} {files : List InputFile}

/-- Storing a chunk gives it an id and leaves the rest of it. -/
theorem storeChunk_payload (h : storeChunk cfg st c = .ok (st', c')) : c.SamePayload c' := by
  rw [storeChunk] at h
  split at h
  · obtain ⟨⟨st₁, b⟩, -, h⟩ := bind_ok_iff.mp h
    obtain ⟨r, hadd, h⟩ := bind_ok_iff.mp h
    obtain ⟨-, -, h⟩ := bind_ok_iff.mp h
    cases h
    have hcases := (addChunkToContainer_cases cfg b c).of_ok hadd
    rcases hcases with rfl | rfl <;> exact ⟨rfl, rfl, rfl, rfl, rfl⟩
  · cases h
    exact .refl c

theorem resolveRewritten_payload (st : FilterState) (c : Chunk) :
    c.SamePayload (resolveRewritten st c) := by
  rw [resolveRewritten]
  split
  · exact ⟨rfl, rfl, rfl, rfl, rfl⟩
  · exact .refl c

/-- The loop body of the filter phase changes ids and marks only. -/
theorem filterChunk_payload (h : filterChunk cfg st c = .ok (st', c')) : c.SamePayload c' := by
  rw [filterChunk] at h
  split at h
  · obtain ⟨c₁, hmark, h⟩ := bind_ok_iff.mp h
    obtain ⟨c₂, hunique, h⟩ := bind_ok_iff.mp h
    obtain ⟨⟨st₁, c₃⟩, hstore, h⟩ := bind_ok_iff.mp h
    obtain ⟨-, -, h⟩ := bind_ok_iff.mp h
    cases h
    have h₁ : c.SamePayload c₁ := by
      rw [markInCache_cases hmark]
      exact ⟨rfl, rfl, rfl, rfl, rfl⟩
    have h₂ : c₁.SamePayload c₂ := by
      rw [(resolveUnique_cases hunique).1]
      exact ⟨rfl, rfl, rfl, rfl, rfl⟩
    exact ((h₁.trans h₂).trans (resolveRewritten_payload _ c₂)).trans (storeChunk_payload hstore)
  · cases h
    exact .refl c

structure FilterPass (cfg : Config) (store : Store) (job : Job) (s : Segment) (store' : Store)
    (job' : Job) (chunks done : List Chunk) (st : FilterState) : Prop where
  checked : List.Forall₂ Chunk.SamePayload s.chunks chunks
  loop : traverseE (filterChunk cfg) (job.filterState store) chunks = .ok (st, done)
  written : ∃ n sid, writeRecipe job.bv job.fileMeta n done = .ok (sid, job'.bv, job'.fileMeta)
  pool_eq : store'.pool = st.pool
  storage_eq : job'.storage = st.storage
  backups_eq : store'.backups = store.backups
  todo_eq : job'.todo = job.todo

theorem filterSegment_pass {marks : Nat → Bool × Bool} (hinflight : job.inflight = s :: inflight)
    (h : filterSegment cfg store job marks = .ok (store', job')) :
    job'.inflight = inflight ∧
      ∃ chunks done st, FilterPass cfg store job s store' job' chunks done st := by
  rw [filterSegment, hinflight] at h
  obtain ⟨chunks, hcheck, h⟩ := bind_ok_iff.mp h
  obtain ⟨⟨st, done⟩, hloop, h⟩ := bind_ok_iff.mp h
  obtain ⟨buffer, -, h⟩ := bind_ok_iff.mp h
  obtain ⟨⟨sid, bv, fileMeta⟩, hwrite, h⟩ := bind_ok_iff.mp h
  obtain ⟨kv, -, h⟩ := bind_ok_iff.mp h
  cases h
  have hmarks := (applyMarks_marked cfg marks s.chunks).imp fun _ _ hm => hm.1
  have hchecks := (indexCheckBuffer_forall₂ hcheck).imp fun _ _ hc => checkBufferChunk_payload hc
  exact ⟨rfl, chunks, done, st, forall₂_trans (fun _ _ _ h h' => h.trans h') hmarks hchecks, hloop,
    ⟨_, sid, hwrite⟩, rfl, rfl, rfl, rfl⟩

theorem filterSegment_backups {marks : Nat → Bool × Bool}
    (h : filterSegment cfg store job marks = .ok (store', job')) :
    store'.backups = store.backups := by
  cases hinflight : job.inflight with
  | nil =>
      rw [filterSegment, hinflight] at h
      cases h
      rfl
  | cons s inflight =>
      obtain ⟨-, chunks, done, st, hpass⟩ := filterSegment_pass hinflight h
      exact hpass.backups_eq

theorem FilterPass.payload {chunks done : List Chunk}
    (h : FilterPass cfg store job s store' job' chunks done st) :
    List.Forall₂ Chunk.SamePayload s.chunks done := by
  have hloop : List.Forall₂ Chunk.SamePayload chunks done :=
    traverseE_forall₂ (R := Chunk.SamePayload) (fun _ _ _ _ hok => filterChunk_payload hok) h.loop
  exact forall₂_trans (fun _ _ _ h h' => h.trans h') h.checked hloop

theorem lookupSegment_remaining {waitThreshold : Int}
    (h : lookupSegment cfg store job waitThreshold = .ok job') :
    List.Forall₂ Chunk.SamePayload job.remaining job'.remaining ∧ job'.bv = job.bv ∧
      job'.fileMeta = job.fileMeta ∧ job'.storage = job.storage := by
  have hself : ∀ l : List Chunk, List.Forall₂ Chunk.SamePayload l l := fun l =>
    List.forall₂_same.mpr fun c _ => .refl c
  rw [lookupSegment] at h
  split at h
  · cases h
    exact ⟨hself _, rfl, rfl, rfl⟩
  · rename_i s todo htodo
    split at h
    · cases h
      refine ⟨?_, rfl, rfl, rfl⟩
      have hpayload := hself job.remaining
      rw [Job.remaining, htodo] at hpayload
      rw [Job.remaining, Job.remaining, htodo]
      simpa [List.append_assoc] using hpayload
    · split at h
      · cases h
        exact ⟨hself _, rfl, rfl, rfl⟩
      · obtain ⟨⟨index, chunks⟩, hlookup, h⟩ := bind_ok_iff.mp h
        cases h
        refine ⟨?_, rfl, rfl, rfl⟩
        have hsame := (indexLookup_sameContents hlookup).payload
        have hpayload := List.rel_append (hself (job.inflight.flatMap Segment.chunks))
          (List.rel_append hsame (hself (todo.flatMap Segment.chunks)))
        simpa [Job.remaining, htodo, List.append_assoc] using hpayload

end Pass

section Jobs

variable {cfg : Config} {store store' : Store} {job job' : Job} {files : List InputFile}

/-- A running job has written the first chunks of the stream of its files, and the others are still to
come. -/
def JobLists (files : List InputFile) (job : Job) : Prop :=
  ∃ done, List.Forall₂ Chunk.SamePayload (files.flatMap InputFile.stream) (done ++ job.remaining) ∧
    Describes job.bv (done.foldl Description.push {}) ∧ job.bv.segmentbuf = [] ∧
    job.fileMeta = (done.foldl Description.push {}).opened

theorem newJob_remaining {segments : List Segment}
    (hsegment : segmentStream cfg newSegment (files.flatMap InputFile.stream) = .ok segments) :
    (newJob cfg store segments).remaining = files.flatMap InputFile.stream := by
  simp [Job.remaining, newJob, segmentStream_chunks hsegment, newSegment]

theorem newJob_lists {segments : List Segment}
    (hsegment : segmentStream cfg newSegment (files.flatMap InputFile.stream) = .ok segments) :
    JobLists files (newJob cfg store segments) := by
  refine ⟨[], ?_, describes_create _, rfl, rfl⟩
  rw [List.nil_append, newJob_remaining hsegment]
  exact List.forall₂_same.mpr fun c _ => .refl c

theorem JobLists.lookup (h : JobLists files job) {waitThreshold : Int}
    (hok : lookupSegment cfg store job waitThreshold = .ok job') : JobLists files job' := by
  obtain ⟨done, hstream, hdesc, hbuf, hmeta⟩ := h
  obtain ⟨hremaining, hbv, hfile, -⟩ := lookupSegment_remaining hok
  refine ⟨done, ?_, hbv ▸ hdesc, hbv ▸ hbuf, hfile.trans hmeta⟩
  exact forall₂_trans (fun _ _ _ h h' => h.trans h') hstream
    (List.rel_append (List.forall₂_same.mpr fun c _ => .refl c) hremaining)

theorem JobLists.filter (h : JobLists files job) {marks : Nat → Bool × Bool}
    (hok : filterSegment cfg store job marks = .ok (store', job')) : JobLists files job' := by
  cases hinflight : job.inflight with
  | nil =>
      rw [filterSegment, hinflight] at hok
      cases hok
      exact h
  | cons s inflight =>
      obtain ⟨done, hstream, hdesc, hbuf, hmeta⟩ := h
      obtain ⟨hrest, chunks, done', st, hpass⟩ := filterSegment_pass hinflight hok
      obtain ⟨n, sid, hwrite⟩ := hpass.written
      obtain ⟨hdesc', hbuf', hmeta'⟩ := hdesc.writeRecipe_ok hbuf hmeta hwrite
      rw [← List.foldl_append] at hdesc' hmeta'
      refine ⟨done ++ done', ?_, hdesc', hbuf', hmeta'⟩
      have hself : ∀ l : List Chunk, List.Forall₂ Chunk.SamePayload l l := fun l =>
        List.forall₂_same.mpr fun c _ => .refl c
      have hsplit : job.remaining = s.chunks ++ job'.remaining := by
        simp [Job.remaining, hinflight, hrest, hpass.todo_eq]
      rw [hsplit] at hstream
      rw [List.append_assoc]
      exact forall₂_trans (fun _ _ _ h h' => h.trans h') hstream
        (List.rel_append (hself done) (List.rel_append hpass.payload (hself _)))

/-- A job that is through with its stream leaves a version that lists its files. -/
theorem JobLists.finish (h : JobLists files job) (hdone : job.todo = [] ∧ job.inflight = []) :
    (updateBackupVersion job.bv).Lists files := by
  obtain ⟨done, hstream, hdesc, hbuf, -⟩ := h
  have hnone : job.remaining = [] := by simp [Job.remaining, hdone.1, hdone.2]
  rw [hnone, List.append_nil] at hstream
  exact hdesc.lists hstream hbuf

end Jobs

section Runs

variable {cfg : Config} {order : List Int → List Int} {a a' : Archive} {inputs : List (List InputFile)}

def StartsAlone (a : Archive) : Event → Prop
  | .start _ => a.sys.job = none
  | _ => True

/-- Each finished backup lists the files it was started with, and the running one is on its way. -/
def Archive.Listed (inputs : List (List InputFile)) (a : Archive) : Prop :=
  match a.sys.job with
  | none => List.Forall₂ BackupVersion.Lists a.sys.store.backups inputs
  | some job => ∃ before files, inputs = before ++ [files] ∧
      List.Forall₂ BackupVersion.Lists a.sys.store.backups before ∧ JobLists files job

/-- A deletion changes neither recipes nor containers. -/
theorem archiveStep_delete {jobid : Nat} (h : archiveStep order cfg a (.delete jobid) = .ok a') :
    a'.sys.job = a.sys.job ∧ a'.sys.store.backups = a.sys.store.backups ∧
      a'.sys.store.pool = a.sys.store.pool := by
  obtain ⟨⟨store, job⟩, oldest, reclaimed⟩ := a
  cases job with
  | none =>
      obtain ⟨store', hdelete, h⟩ := bind_ok_iff.mp h
      obtain ⟨r, -, hdelete⟩ := bind_ok_iff.mp hdelete
      obtain ⟨bv, -, hdelete⟩ := bind_ok_iff.mp hdelete
      obtain ⟨kv, -, hdelete⟩ := bind_ok_iff.mp hdelete
      cases hdelete
      cases h
      exact ⟨rfl, rfl, rfl⟩
  | some job =>
      cases h
      exact ⟨rfl, rfl, rfl⟩

theorem Archive.Listed.congr (h : a.Listed inputs) (hjob : a'.sys.job = a.sys.job)
    (hbackups : a'.sys.store.backups = a.sys.store.backups) : a'.Listed inputs := by
  rw [Archive.Listed] at h ⊢
  rw [hjob, hbackups]
  exact h

/-- Every step of the archive keeps the recipes in line with what was backed up. -/
theorem archiveStep_listed {events : List Event} (h : a.Listed (startedFiles events)) {e : Event}
    (hok : StartsAlone a e) :
    Ensures (fun _ => True) (Archive.Listed (startedFiles (events ++ [e])))
      (archiveStep order cfg a e) := by
  apply ensures_of_ok
  intro a' hstep
  cases e with
  | delete jobid =>
      obtain ⟨hjob, hbackups, -⟩ := archiveStep_delete hstep
      rw [startedFiles_other events fun files h => by cases h]
      exact h.congr hjob hbackups
  | start files =>
      obtain ⟨⟨store, job⟩, oldest, reclaimed⟩ := a
      obtain rfl : job = none := hok
      rw [startedFiles_start]
      obtain ⟨sys, hsys, heq⟩ := bind_ok_iff.mp hstep
      obtain ⟨segments, hsegment, rfl⟩ := step_start hsys
      cases heq
      exact ⟨startedFiles events, files, rfl, h, newJob_lists hsegment⟩
  | lookup waitThreshold =>
      rw [startedFiles_other events fun files h => by cases h]
      obtain ⟨⟨store, job⟩, oldest, reclaimed⟩ := a
      cases job with
      | none =>
          cases hstep
          exact h
      | some job =>
          obtain ⟨sys, hsys, hstep⟩ := bind_ok_iff.mp hstep
          obtain ⟨job', hlookup, hsys⟩ := bind_ok_iff.mp hsys
          cases hsys
          cases hstep
          obtain ⟨before, files, hinputs, hbackups, hjob⟩ := h
          exact ⟨before, files, hinputs, hbackups, hjob.lookup hlookup⟩
  | filter marks =>
      rw [startedFiles_other events fun files h => by cases h]
      obtain ⟨⟨store, job⟩, oldest, reclaimed⟩ := a
      cases job with
      | none =>
          cases hstep
          exact h
      | some job =>
          obtain ⟨sys, hsys, hstep⟩ := bind_ok_iff.mp hstep
          obtain ⟨⟨store', job'⟩, hfilter, hsys⟩ := bind_ok_iff.mp hsys
          cases hsys
          cases hstep
          obtain ⟨before, files, hinputs, hbackups, hjob⟩ := h
          have hsame : store'.backups = store.backups := filterSegment_backups hfilter
          exact ⟨before, files, hinputs, hsame ▸ hbackups, hjob.filter hfilter⟩
  | finish =>
      rw [startedFiles_other events fun files h => by cases h]
      obtain ⟨⟨store, job⟩, oldest, reclaimed⟩ := a
      cases job with
      | none =>
          cases hstep
          exact h
      | some job =>
          obtain ⟨sys, hsys, hstep⟩ := bind_ok_iff.mp hstep
          cases hstep
          obtain ⟨before, files, hinputs, hbackups, hjob⟩ := h
          simp only [step] at hsys
          split at hsys
          · rename_i hdone
            obtain ⟨store', hfinish, hsys⟩ := bind_ok_iff.mp hsys
            cases hsys
            obtain ⟨st, -, hfinish⟩ := bind_ok_iff.mp hfinish
            cases hfinish
            show List.Forall₂ BackupVersion.Lists _ (startedFiles events)
            rw [hinputs]
            exact List.rel_append hbackups (.cons (hjob.finish hdone) .nil)
          · cases hsys
            exact ⟨before, files, hinputs, hbackups, hjob⟩

theorem listed_of_run {events : List Event}
    (hrun : Run (archiveStep order cfg) StartsAlone initArchive events a) {jobid : Nat}
    {bv : BackupVersion} (hbv : a.sys.store.backups[jobid]? = some bv) :
    ∃ files, (startedFiles events)[jobid]? = some files ∧ bv.Lists files := by
  have hlisted : a.Listed (startedFiles events) :=
    hrun.invariant_actions (fun events a => a.Listed (startedFiles events)) List.Forall₂.nil
      fun events a e h hok => archiveStep_listed h hok
  have hlists : ∃ after before, startedFiles events = before ++ after ∧
      List.Forall₂ BackupVersion.Lists a.sys.store.backups before := by
    rw [Archive.Listed] at hlisted
    split at hlisted
    · exact ⟨[], _, (List.append_nil _).symm, hlisted⟩
    · obtain ⟨before, files, hinputs, hbackups, -⟩ := hlisted
      exact ⟨[files], before, hinputs, hbackups⟩
  obtain ⟨after, before, hinputs, hbackups⟩ := hlists
  obtain ⟨files, hfiles, hlist⟩ := getElem?_forall₂ hbackups hbv
  refine ⟨files, ?_, hlist⟩
  rw [hinputs, List.getElem?_append_left (List.getElem?_eq_some_iff.mp hfiles).1, hfiles]

/-- Every backup is recorded as it was given: whatever the index finds, in whatever order the two
threads and the deletions come, the recipe of the backup that was started `jobid`-th lists its files,
with the name of each and with fingerprint and size of each of its chunks, in order, and
`read_recipe_thread` reads them back as long as it can count them. -/
theorem recipes_list_files {events : List Event}
    (hrun : Run (archiveStep order cfg) StartsAlone initArchive events a) {jobid : Nat}
    {bv : BackupVersion} (hbv : a.sys.store.backups[jobid]? = some bv) :
    ∃ files rb, (startedFiles events)[jobid]? = some files ∧
      List.Forall₂ StoredFile.Lists rb.files files ∧ Recorded bv rb ∧
      (readRecipeThread bv = .ok rb.restoreStream ↔ InputsCounted files) := by
  obtain ⟨files, hfiles, rb, hlist, hrec⟩ := listed_of_run hrun hbv
  refine ⟨files, rb, hfiles, hlist, hrec, ?_⟩
  rw [← countsFit_iff_of_lists hlist]
  exact ⟨hrec.countsFit, hrec.readRecipeThread⟩

end Runs

section Example

/-- A second backup, of two files with common chunks, after the first one is deleted. -/
theorem recipes_list_files_two_files : ∃ (a : Archive) (bv : BackupVersion) (rb : RecordedBackup),
    a.oldest = 1 ∧ a.sys.store.backups[1]? = some bv ∧
      List.Forall₂ StoredFile.Lists rb.files [smallFile [1, 2], smallFile [2]] ∧
      readRecipeThread bv = .ok rb.restoreStream := by
  have hexec : (exec (archiveStep id minSampled) (admitsArchive minSampled) initArchive
      (backupEvents [smallFile [1]] 1 ++ [.delete 0] ++
        backupEvents [smallFile [1, 2], smallFile [2]] 2)).any
        (fun a => decide (a.oldest = 1 ∧ a.sys.store.backups.length = 2)) = true := by
    decide +kernel
  obtain ⟨a, hexec, hcheck⟩ := (Option.any_eq_true _ _).mp hexec
  obtain ⟨holdest, hlength⟩ := of_decide_eq_true hcheck
  have halone : ∀ a e, admitsArchive minSampled a e = true → StartsAlone a e := by
    intro a e hadmits
    cases e with
    | start files => exact (archiveEvent_of_admits hadmits).1
    | lookup | filter | finish | delete => trivial
  obtain ⟨bv, hbv⟩ : ∃ bv, a.sys.store.backups[1]? = some bv :=
    ⟨_, List.getElem?_eq_getElem (by omega)⟩
  obtain ⟨files, rb, hfiles, hlist, -, hread⟩ :=
    recipes_list_files (Run.of_exec halone hexec) hbv
  obtain rfl : [smallFile [1, 2], smallFile [2]] = files := Option.some.inj hfiles
  refine ⟨a, bv, rb, holdest, hbv, hlist, hread.mpr ⟨by decide, by decide⟩⟩

end Example

end Destor
