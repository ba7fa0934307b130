/- digest: Exact deduplication without rewriting refines a store that looks every chunk up. -/

import Destor.DedupSound

set_option autoImplicit false
set_option relaxedAutoImplicit false

namespace Destor

open Library.Outcome Library.Transition

/-- The sequential reference: it remembers the container of every fingerprint ever stored. -/
structure NaiveStore where
  pool : ContainerPool
  current : Option Container
  stored : FpMap Int

namespace NaiveStore

def empty : NaiveStore := { pool := emptyStore.pool, current := none, stored := ∅ }

/-- The container that takes the next chunk: the current one, or a new one if there is none or
the chunk does not fit. -/
def room (cfg : Config) (s : NaiveStore) (size : Nat) : ContainerPool × Container :=
  match s.current with
  | none => ((createContainer cfg s.pool).2, (createContainer cfg s.pool).1)
  | some b =>
      if containerOverflow b size then
        ((createContainer cfg (s.pool.push b)).2, (createContainer cfg (s.pool.push b)).1)
      else (s.pool, b)

/-- Backs one chunk up: it is appended iff its fingerprint was never stored before. -/
def add (cfg : Config) (s : NaiveStore) (c : InputChunk) : NaiveStore × ChunkPointer :=
  match s.stored.lookup c.fp with
  | some id => (s, { fp := c.fp, id := id, size := c.size })
  | none =>
      let (pool, b) := s.room cfg c.size
      ({ pool := pool, current := some (appendChunk cfg b c.toChunk),
         stored := s.stored.insert c.fp b.id },
        { fp := c.fp, id := b.id, size := c.size })

def stream (cfg : Config) : NaiveStore → List InputChunk → NaiveStore × List ChunkPointer
  | s, [] => (s, [])
  | s, c :: chunks =>
      let (s, pointer) := s.add cfg c
      let (s, pointers) := stream cfg s chunks
      (s, pointer :: pointers)

/-- The end of a run: the current container is pushed. -/
def close (s : NaiveStore) : NaiveStore :=
  { s with
    pool := match s.current with
      | none => s.pool
      | some b => s.pool.push b
    current := none }

def backup (cfg : Config) (s : NaiveStore) (files : List InputFile) :
    NaiveStore × List ChunkPointer :=
  let (s, pointers) := s.stream cfg (files.flatMap InputFile.chunks)
  (s.close, pointers)

def backups (cfg : Config) :
    NaiveStore → List (List InputFile) → NaiveStore × List (List ChunkPointer)
  | s, [] => (s, [])
  | s, files :: rest =>
      let (s, pointers) := s.backup cfg files
      let (s, recipes) := backups cfg s rest
      (s, pointers :: recipes)

variable {cfg : Config}

theorem stream_append (s : NaiveStore) (l l' : List InputChunk) :
    s.stream cfg (l ++ l') =
      (((s.stream cfg l).1.stream cfg l').1,
        (s.stream cfg l).2 ++ ((s.stream cfg l).1.stream cfg l').2) := by
  induction l generalizing s with
  | nil => rfl
  | cons c l ih => simp only [List.cons_append, stream, ih]

theorem backups_append (s : NaiveStore) (l l' : List (List InputFile)) :
    s.backups cfg (l ++ l') =
      (((s.backups cfg l).1.backups cfg l').1,
        (s.backups cfg l).2 ++ ((s.backups cfg l).1.backups cfg l').2) := by
  induction l generalizing s with
  | nil => rfl
  | cons files l ih => simp only [List.cons_append, backups, ih]

end NaiveStore

def startedFiles (events : List Event) : List (List InputFile) :=
  events.filterMap fun
    | .start files => some files
    | _ => none

def Chunk.content (c : Chunk) : InputChunk := { fp := c.fp, size := c.size, data := c.data }

def chunkContents (chunks : List Chunk) : List InputChunk :=
  (chunks.filter Chunk.isNormal).map Chunk.content

section Contents

@[simp] theorem chunkContents_append (l l' : List Chunk) :
    chunkContents (l ++ l') = chunkContents l ++ chunkContents l' := by
  simp [chunkContents]

theorem chunkContents_stream (f : InputFile) : chunkContents f.stream = f.chunks := by
  have hmap : ∀ chunks : List InputChunk,
      chunkContents (chunks.map InputChunk.toChunk) = chunks := by
    intro chunks
    induction chunks with
    | nil => rfl
    | cons c chunks ih =>
        have hhead : chunkContents [c.toChunk] = [c] := rfl
        rw [List.map_cons, ← List.singleton_append, chunkContents_append, hhead, ih,
          List.singleton_append]
  have hstart : chunkContents [Chunk.fileStart f.name] = [] := rfl
  have hend : chunkContents [Chunk.fileEnd] = [] := rfl
  rw [InputFile.stream, List.cons_append, ← List.singleton_append, chunkContents_append,
    chunkContents_append, hmap, hstart, hend, List.nil_append, List.append_nil]

theorem chunkContents_files (files : List InputFile) :
    chunkContents (files.flatMap InputFile.stream) = files.flatMap InputFile.chunks := by
  induction files with
  | nil => rfl
  | cons f files ih =>
      rw [List.flatMap_cons, chunkContents_append, chunkContents_stream, ih, List.flatMap_cons]

theorem chunkContents_congr {l l' : List Chunk} (h : List.Forall₂ Chunk.SamePayload l l') :
    chunkContents l' = chunkContents l := by
  induction h with
  | nil => rfl
  | @cons c c' l l' hc _ ih =>
      rw [← List.singleton_append (l := l'), ← List.singleton_append (l := l),
        chunkContents_append, chunkContents_append, ih]
      simp only [chunkContents, List.filter_cons, List.filter_nil, hc.normal_eq]
      split <;> simp [Chunk.content, hc.fp_eq, hc.size_eq, hc.data_eq]

theorem recipePointers_append (l l' : List Chunk) :
    recipePointers (l ++ l') = recipePointers l ++ recipePointers l' := by
  simp [recipePointers]

/-- The flags around a segment are no pointers. -/
theorem pointers_append {b b' : BackupVersion} {pointers : List ChunkPointer}
    (hrecipe : b'.recipe = b.recipe ++ encodeSegment pointers)
    (hids : ∀ cp ∈ pointers, 0 ≤ cp.id) : b'.pointers = b.pointers ++ pointers := by
  have hkeep : ∀ cp ∈ pointers,
      decide (cp.id ≠ 0 - chunkSegmentStart ∧ cp.id ≠ 0 - chunkSegmentEnd) = true := by
    intro cp hcp
    have := hids cp hcp
    simp only [chunkSegmentStart, chunkSegmentEnd]
    exact decide_eq_true ⟨by omega, by omega⟩
  simp only [BackupVersion.pointers, hrecipe, List.filter_append, encodeSegment, List.filter_cons,
    List.cons_append, List.filter_nil, List.filter_eq_self.mpr hkeep]
  simp [segmentFlag]

end Contents

/-- The scope of exact deduplication: every container counts, and the index must know each
fingerprint. -/
def exactScope : Scope := { live := fun _ => True, exact := True, oldest := 0 }

/-- The reference has the same containers, and remembers exactly what they hold. -/
structure NaiveSim (n : NaiveStore) (pool : ContainerPool) (storage : Option Container) : Prop where
  pool_eq : n.pool = pool
  current_eq : n.current = storage
  stored_iff : ∀ fp id, n.stored.lookup fp = some id ↔ Stored pool storage id fp

section Simulation

variable {cfg : Config} {versions : List BackupVersion} {st st' : FilterState}
  {n : NaiveStore} {c c' : Chunk} {pending : Fingerprint → Prop}

variable (st) in
/-- Both stores make room for a chunk in the same way. -/
theorem containerFor_room {sc : Coverage}
    (hcore : CoreInv cfg sc st.pool st.storage versions st.kv pending)
    (hsim : NaiveSim n st.pool st.storage.containerBuffer) {size : Nat}
    {r : FilterState × Container} (hok : containerFor cfg st size = .ok r) :
    n.room cfg size = (r.1.pool, r.2) ∧
      ∀ fp, ¬ OpenHolds st.storage.containerBuffer fp → r.2.lookupFingerprint fp = false := by
  unfold containerFor at hok
  unfold NaiveStore.room
  rw [hsim.pool_eq, hsim.current_eq]
  cases hb : st.storage.containerBuffer with
  | none =>
      rw [hb] at hok
      cases hok
      exact ⟨rfl, fun fp _ => createContainer_lookup cfg _ fp⟩
  | some b =>
      rw [hb] at hok
      have hopen := hcore.open_ok b hb
      simp only at hok ⊢
      split at hok
      · rename_i hover
        rw [if_pos hover]
        simp only [pushContainer, bind_ok_iff] at hok
        obtain ⟨st₁, ⟨kv, -, pool, hpool, hst₁⟩, hr⟩ := hok
        rw [writeContainerAsync_ensures hopen.counted hopen.nonempty] at hpool
        cases hpool
        cases hst₁
        cases hr
        exact ⟨rfl, fun fp _ => createContainer_lookup cfg _ fp⟩
      · rename_i hover
        rw [if_neg hover]
        cases hok
        refine ⟨rfl, fun fp hnot => Bool.eq_false_iff.mpr fun hfp => hnot ⟨b, rfl, hfp⟩⟩

theorem addChunk_new {b : Container} {r : Bool × Container × Chunk}
    (hok : addChunkToContainer cfg b c = .ok r) (hnew : b.lookupFingerprint c.fp = false) :
    r = (true, appendChunk cfg b c, { c with id := b.id }) := by
  obtain ⟨-, ⟨hfound, -⟩ | ⟨-, -, hr⟩⟩ := addChunkToContainer_ok hok
  · exact absurd (hnew.symm.trans hfound) Bool.false_ne_true
  · exact hr

private theorem writeChunk_inv {r : FilterState × Chunk} (hok : writeChunk cfg st c = .ok r) :
    ∃ st₁ b added b' c', containerFor cfg st c.size = .ok (st₁, b) ∧
      addChunkToContainer cfg b c = .ok (added, b', c') ∧
      r = (if added then recordWritten cfg st₁ b' c'
        else { st₁ with storage := { st₁.storage with containerBuffer := some b' } }, c') := by
  simp only [writeChunk, bind_ok_iff] at hok
  obtain ⟨⟨st₁, b⟩, hfor, ⟨added, b', c'⟩, hadd, -, -, hr⟩ := hok
  cases hr
  exact ⟨st₁, b, added, b', c', hfor, hadd, rfl⟩

/-- One iteration of the filter loop does what the reference does to the chunk. -/
theorem FilterStep.naive (hcfg : ExactIndex cfg)
    (hcore : CoreInv cfg exactScope st.pool st.storage versions st.kv pending)
    (hsim : NaiveSim n st.pool st.storage.containerBuffer)
    (hstep : FilterStep cfg exactScope versions st c st' c') (hnormal : c.isNormal = true) :
    NaiveSim (n.add cfg c'.content).1 st'.pool st'.storage.containerBuffer ∧
      (n.add cfg c'.content).2 = c'.pointer := by
  obtain ⟨enable, c₁, st₂, hres, hmark, hok, hwrite, rfl⟩ := hstep.normal hnormal
  have hmust : mustWrite enable c₁ = !c₁.flag.duplicate := by
    have hsparse : c₁.flag.sparse = false := by
      apply Bool.eq_false_iff.mpr
      intro h
      have := hmark.sparse h
      rw [hcfg.har] at this
      cases this
    have hout : c₁.flag.outOfOrder = false :=
      Bool.eq_false_iff.mpr fun h => hmark.outOfOrder h hcfg.rewrite
    simp [mustWrite, hsparse, hout]
  have hfp : c'.fp = c₁.fp := by rw [hwrite.chunk_eq]
  have hsize : c'.size = c₁.size := by rw [hwrite.chunk_eq]
  have hdata : c'.data = c₁.data := by rw [hwrite.chunk_eq]
  have hsound := hwrite.sound.2
  unfold storeChunk at hok
  rcases hres.state with ⟨hdup, habsent⟩ | ⟨hdup, hs⟩
  · -- a new chunk is written, by the reference too
    rw [if_pos (by simp [hmust, hdup])] at hok
    have hnone : n.stored.lookup c'.content.fp = none := by
      cases hlookup : n.stored.lookup c'.content.fp with
      | none => rfl
      | some id =>
          have hstored := (hsim.stored_iff _ id).mp hlookup
          simp only [Chunk.content, hfp] at hstored
          exact absurd ⟨trivial, hstored⟩ (habsent.2 trivial id trivial)
    obtain ⟨st₁, b, added, b', c₂, hfor, hadd, hr⟩ := writeChunk_inv hok
    obtain ⟨hroom, hnew⟩ := containerFor_room { st with enableRewrite := enable } hcore hsim hfor
    have hr' := addChunk_new hadd (hnew c₁.fp habsent.1)
    cases hr'
    cases hr
    have hroom' : n.room cfg c₁.size = (st₁.pool, b) := hroom
    have happend : appendChunk cfg b c₁ =
        appendChunk cfg b (Chunk.content { c₁ with id := b.id }).toChunk := rfl
    unfold NaiveStore.add
    rw [hnone]
    simp only [Chunk.content, hroom']
    refine ⟨⟨rfl, ?_, fun fp id => ?_⟩, rfl⟩
    · exact congrArg some happend.symm
    · by_cases heq : fp = c₁.fp
      · subst heq
        rw [AList.lookup_insert]
        constructor
        · intro h
          cases h
          exact hsound
        · intro h
          rcases hwrite.stored_of id c₁.fp h with h | ⟨h, -⟩
          · exact absurd ⟨trivial, h⟩ (habsent.2 trivial id trivial)
          · exact congrArg some h.symm
      · rw [AList.lookup_insert_ne heq, hsim.stored_iff]
        exact ⟨hwrite.stored_mono id fp, fun h =>
          (hwrite.stored_of id fp h).resolve_right fun h => heq h.2⟩
  · -- a duplicate is left where it is
    rw [if_neg (by simp [hmust, hdup])] at hok
    cases hok
    have hsome : n.stored.lookup c'.content.fp = some c'.id := (hsim.stored_iff _ _).mpr hs.2
    unfold NaiveStore.add
    rw [hsome]
    exact ⟨⟨hsim.pool_eq, hsim.current_eq, hsim.stored_iff⟩, rfl⟩

end Simulation

section Jobs

variable {cfg : Config} {store : Store} {job : Job} {n₀ : NaiveStore} {files : List InputFile}

/-- The running backup against the reference: they agree on the part of the stream that the filter
thread has processed. -/
structure JobSim (cfg : Config) (n₀ : NaiveStore) (files : List InputFile) (store : Store)
    (job : Job) : Prop where
  agree : ∃ processed, processed ++
      chunkContents ((job.inflight ++ job.todo).flatMap Segment.chunks) =
        files.flatMap InputFile.chunks ∧
    NaiveSim (n₀.stream cfg processed).1 store.pool job.storage.containerBuffer ∧
    (n₀.stream cfg processed).2 = job.bv.pointers

/-- The system against the reference: the finished backups agree, and so does the running one as
far as it got. -/
def RefinesNaive (cfg : Config) (events : List Event) (sys : System) : Prop :=
  match sys.job with
  | none =>
      NaiveSim (NaiveStore.empty.backups cfg (startedFiles events)).1 sys.store.pool none ∧
        (NaiveStore.empty.backups cfg (startedFiles events)).2 =
          sys.store.backups.map BackupVersion.pointers
  | some job => ∃ before files, startedFiles events = before ++ [files] ∧
      (NaiveStore.empty.backups cfg before).2 = sys.store.backups.map BackupVersion.pointers ∧
      JobSim cfg (NaiveStore.empty.backups cfg before).1 files sys.store job

theorem newJob_sim (hsim : NaiveSim n₀ store.pool none) {segments : List Segment}
    (hsegment : segmentStream cfg newSegment (files.flatMap InputFile.stream) = .ok segments) :
    JobSim cfg n₀ files store (newJob cfg store segments) := by
  refine ⟨[], ?_, hsim, rfl⟩
  rw [List.nil_append, newJob, List.nil_append, segmentStream_chunks hsegment, newSegment,
    List.nil_append, chunkContents_files]

/-- Looking a segment up concerns the reference as little as it changes contents. -/
theorem lookupSegment_sim (hexact : exactScope.exact → ExactIndex cfg)
    (h : JobInv cfg exactScope store job) (hsim : JobSim cfg n₀ files store job)
    (waitThreshold : Int) :
    Ensures (AllowedAbort cfg) (JobSim cfg n₀ files store)
      (lookupSegment cfg store job waitThreshold) := by
  obtain ⟨processed, hall, hpool, hrecipe⟩ := hsim.agree
  unfold lookupSegment
  cases htodo : job.todo with
  | nil => exact hsim
  | cons s todo =>
      rw [htodo] at hall
      simp only
      split
      · refine ⟨processed, ?_, hpool, hrecipe⟩
        simpa using hall
      · split
        · exact hsim
        · obtain ⟨hcounted, hstream⟩ := h.todo s (by rw [htodo]; exact List.mem_cons_self)
          refine ((indexLookup_ensures h.core hexact (job.source_of store) h.cache h.buffer
            (fun c hc => (hstream c hc).fresh) hcounted).mono (fun _ h => Or.inl h)
            fun _ h => h).bind ?_
          rintro ⟨index, chunks⟩ ⟨-, hsame, -⟩
          refine ⟨processed, ?_, hpool, hrecipe⟩
          rw [← hall]
          simp [chunkContents_congr hsame.payload]

def LoopSim (cfg : Config) (n₀ : NaiveStore) (processed : List InputChunk)
    (pointers : List ChunkPointer) (versions : List BackupVersion) (done : List Chunk)
    (st : FilterState) : Prop :=
  NaiveSim (n₀.stream cfg (processed ++ chunkContents done)).1 st.pool
      st.storage.containerBuffer ∧
    (n₀.stream cfg (processed ++ chunkContents done)).2 = pointers ++ recipePointers done ∧
    CoreInv cfg exactScope st.pool st.storage versions st.kv
      fun fp => (st.recentlyUnique.lookup fp).isSome

theorem LoopSim.step (hcfg : ExactIndex cfg) {processed : List InputChunk}
    {pointers : List ChunkPointer} {versions : List BackupVersion} {done : List Chunk}
    {st st' : FilterState} {c c' : Chunk}
    (h : LoopSim cfg n₀ processed pointers versions done st)
    (hstep : FilterStep cfg exactScope versions st c st' c') :
    LoopSim cfg n₀ processed pointers versions (done ++ [c']) st' := by
  obtain ⟨hsim, hpointers, hcore⟩ := h
  cases hnormal : c.isNormal with
  | false =>
      obtain ⟨rfl, rfl⟩ := hstep.signal hnormal
      have hcontents : chunkContents [c'] = [] := by simp [chunkContents, hnormal]
      have hnone : recipePointers [c'] = [] := by simp [recipePointers, hnormal]
      refine ⟨?_, ?_, hcore⟩
      · rwa [chunkContents_append, hcontents, List.append_nil]
      · rwa [chunkContents_append, hcontents, List.append_nil, recipePointers_append, hnone,
          List.append_nil]
  | true =>
      obtain ⟨hsim', hpointer⟩ := hstep.naive hcfg hcore hsim hnormal
      obtain ⟨enable, c₁, st₂, hres, -, -, hwrite, rfl⟩ := hstep.normal hnormal
      have hnormal' : c'.isNormal = true := by
        rw [hwrite.chunk_eq]
        exact hres.normal_eq.trans hnormal
      have hcontents : chunkContents [c'] = [c'.content] := by simp [chunkContents, hnormal']
      have hone : recipePointers [c'] = [c'.pointer] := by simp [recipePointers, hnormal']
      have hstream : n₀.stream cfg (processed ++ chunkContents (done ++ [c'])) =
          (((n₀.stream cfg (processed ++ chunkContents done)).1.add cfg c'.content).1,
            (n₀.stream cfg (processed ++ chunkContents done)).2 ++ [c'.pointer]) := by
        rw [chunkContents_append, hcontents, ← List.append_assoc, NaiveStore.stream_append]
        simp only [NaiveStore.stream, hpointer]
      refine ⟨?_, ?_, hwrite.core⟩
      · rw [hstream]
        exact hsim'
      · rw [hstream, hpointers, recipePointers_append, hone, List.append_assoc]

/-- A pass of the filter thread agrees with the reference on the contents of the segment. -/
theorem SegmentFiltered.sim {store' : Store} {job' : Job} {processed : List InputChunk}
    (hsim : JobSim cfg n₀ files store job)
    (hall : processed ++ chunkContents ((job.inflight ++ job.todo).flatMap Segment.chunks) =
      files.flatMap InputFile.chunks)
    (hfiltered : SegmentFiltered store job
      (LoopSim cfg n₀ processed job.bv.pointers (store.backups ++ [job.bv])) store' job') :
    JobSim cfg n₀ files store' job' := by
  cases hinflight : job.inflight with
  | nil =>
      obtain ⟨rfl, rfl⟩ := hfiltered.idle hinflight
      exact hsim
  | cons s inflight =>
      obtain ⟨done, st, hpayload, ⟨hpool, hpointers, -⟩, hin, hpool', hstorage, hrecipe, hids⟩ :=
        hfiltered.segment s inflight hinflight
      refine ⟨processed ++ chunkContents done, ?_, ?_, ?_⟩
      · rw [← hall, hinflight, hin, hfiltered.todo_eq, chunkContents_congr hpayload]
        simp
      · rw [hpool', hstorage]
        exact hpool
      · rw [hpointers, pointers_append hrecipe hids]

end Jobs

section Runs

variable {cfg : Config} {events : List Event} {sys : System}

theorem startedFiles_start (events : List Event) (files : List InputFile) :
    startedFiles (events ++ [.start files]) = startedFiles events ++ [files] := by
  simp [startedFiles]

theorem startedFiles_other (events : List Event) {e : Event}
    (h : ∀ files, e ≠ .start files) : startedFiles (events ++ [e]) = startedFiles events := by
  cases e with
  | start files => exact absurd rfl (h files)
  | lookup | filter | finish | delete => simp [startedFiles]

/-- The end of a run agrees with the reference. -/
theorem finishJob_sim {store : Store} {job : Job} {n : NaiveStore}
    (h : JobInv cfg exactScope store job)
    (hsim : NaiveSim n store.pool job.storage.containerBuffer) {store' : Store}
    (hok : finishJob cfg store job = .ok store') : NaiveSim n.close store'.pool none := by
  simp only [finishJob, bind_ok_iff] at hok
  obtain ⟨st, hclose, hstore'⟩ := hok
  cases hstore'
  unfold closeStorage at hclose
  unfold NaiveStore.close
  rw [hsim.current_eq]
  cases hb : job.storage.containerBuffer with
  | none =>
      have hb' : (job.filterState store).storage.containerBuffer = none := hb
      rw [hb'] at hclose
      cases hclose
      exact ⟨hsim.pool_eq, rfl, hb ▸ hsim.stored_iff⟩
  | some b =>
      have hopen := h.core.open_ok b hb
      have hb' : (job.filterState store).storage.containerBuffer = some b := hb
      rw [hb'] at hclose
      simp only [hopen.nonempty, Bool.false_eq_true, if_false, pushContainer, bind_ok_iff] at hclose
      obtain ⟨kv, -, pool, hpool, hst⟩ := hclose
      have hpush : writeContainerAsync store.pool b = .ok (store.pool.push b) :=
        writeContainerAsync_ensures hopen.counted hopen.nonempty
      have hpool' : pool = store.pool.push b := by
        have : writeContainerAsync store.pool b = .ok pool := hpool
        rw [hpush] at this
        cases this
        rfl
      cases hst
      subst hpool'
      refine ⟨congrArg (·.push b) hsim.pool_eq, rfl, fun fp id => ?_⟩
      rw [hsim.stored_iff, hb]
      exact (stored_push hopen id fp).symm

/-- Every step keeps the system and the reference in agreement. -/
theorem refinesNaive_step (hset : cfg.Settled) (hcfg : ExactIndex cfg)
    (hinv : SystemInv cfg exactScope sys) (hsim : RefinesNaive cfg events sys) {e : Event}
    (hok : BackupEvent cfg exactScope sys e) :
    Ensures (AllowedAbort cfg) (RefinesNaive cfg (events ++ [e])) (step cfg sys e) := by
  have hexact : exactScope.exact → ExactIndex cfg := fun _ => hcfg
  obtain ⟨store, job⟩ := sys
  cases job with
  | none =>
      have hidle : ∀ e, (∀ files, e ≠ Event.start files) →
          RefinesNaive cfg (events ++ [e]) { store := store, job := none } := by
        intro e he
        simp only [RefinesNaive, startedFiles_other events he]
        exact hsim
      cases e with
      | start files =>
          apply (startJob_ensures cfg store files).bind
          rintro job ⟨segments, hsegment, rfl⟩
          exact ⟨startedFiles events, files, startedFiles_start events files, hsim.2,
            newJob_sim hsim.1 hsegment⟩
      | delete jobid => exact hok.elim
      | lookup | filter | finish => exact hidle _ (by simp)
  | some job =>
      have hjob : JobInv cfg exactScope store job := hinv
      obtain ⟨before, files, hstarted, hrecipes, hjobsim⟩ := hsim
      cases e with
      | start files => exact absurd hok.1 (by simp)
      | delete jobid => exact hok.elim
      | lookup limit =>
          apply (lookupSegment_sim hexact hjob hjobsim limit).bind
          intro job' hjob'
          exact ⟨before, files, by rw [startedFiles_other _ (by simp), hstarted], hrecipes, hjob'⟩
      | filter marks =>
          obtain ⟨processed, hall, hpool, hrecipe⟩ := hjobsim.agree
          refine (filterSegment_ensures hset hexact hjob marks
            (LoopSim cfg (NaiveStore.empty.backups cfg before).1 processed
              job.bv.pointers (store.backups ++ [job.bv])) ?_
            fun _ _ _ _ _ h hstep => h.step hcfg hstep).bind ?_
          · have hnil : chunkContents [] = [] := rfl
            have hnil' : recipePointers [] = [] := rfl
            refine ⟨?_, ?_, hjob.core.weaken fun _ _ => False.elim⟩
            · rw [hnil, List.append_nil]
              exact hpool
            · rw [hnil, hnil', List.append_nil, List.append_nil]
              exact hrecipe
          · rintro ⟨store', job'⟩ ⟨-, hfiltered⟩
            refine ⟨before, files, by rw [startedFiles_other _ (by simp), hstarted], ?_,
              hfiltered.sim hjobsim hall⟩
            rw [hrecipes, hfiltered.backups_eq]
      | finish =>
          simp only [step]
          split
          · rename_i hdone
            obtain ⟨processed, hall, hpool, hrecipe⟩ := hjobsim.agree
            rw [hdone.1, hdone.2] at hall
            have hprocessed : processed = files.flatMap InputFile.chunks := by
              simpa [chunkContents] using hall
            subst hprocessed
            apply (finishJob_ensures hset hexact hjob).and_eq.bind
            rintro store' ⟨⟨-, hbackups, -⟩, hfinish⟩
            have hsim' := finishJob_sim hjob hpool hfinish
            have hsame := startedFiles_other events (e := .finish) (by simp)
            simp only [RefinesNaive, ensures_pure, hsame, hstarted, NaiveStore.backups_append,
              NaiveStore.backups, NaiveStore.backup]
            refine ⟨hsim', ?_⟩
            rw [hrecipes, hrecipe, hbackups, List.map_append]
            rfl
          · exact ⟨before, files, by rw [startedFiles_other _ (by simp), hstarted], hrecipes, hjobsim⟩

/-- Exact deduplication without rewriting. Whatever the interleaving of the threads, the containers
and the recipes are those of the sequential reference over the same files; no fingerprint is in two
containers; and no step fails, unless segments are content-defined with zero for the divisor.
`BackupEvent` asks, for logical locality, that no chunk has the
fingerprint which the sampler inserts for want of features. -/
theorem exact_refines_naive (haccepted : cfg.Accepted) (hcfg : ExactIndex cfg)
    (hratio : cfg.locality = .logical → 0 < cfg.samplingRatio)
    (hrun : Run (step cfg) (BackupEvent cfg exactScope) initSystem events sys) :
    RefinesNaive cfg events sys ∧
      (∀ fp i j, sys.store.pool.Holds i fp → sys.store.pool.Holds j fp → i = j) ∧
      ∀ e, BackupEvent cfg exactScope sys e →
        Ensures (DividesByZero cfg) (RefinesNaive cfg (events ++ [e])) (step cfg sys e) := by
  have hset := (Config.accepted_iff cfg).mp haccepted
  have hratio' : cfg.samplingRatio ≠ 0 := by
    cases hloc : cfg.locality with
    | logical => exact Nat.ne_of_gt (hratio hloc)
    | physical => simp [(hset.uniform_exact hloc hcfg.exact).2]
  have honly : ∀ a, AllowedAbort cfg a → DividesByZero cfg a := by
    rintro a (⟨-, hzero⟩ | hdivides | ⟨-, -, -, hhar⟩)
    · exact absurd hzero hratio'
    · exact hdivides
    · rw [hcfg.har] at hhar
      cases hhar
  have hstep : ∀ evs s e, SystemInv cfg exactScope s ∧ RefinesNaive cfg evs s →
      BackupEvent cfg exactScope s e → Ensures (DividesByZero cfg)
        (fun s' => SystemInv cfg exactScope s' ∧ RefinesNaive cfg (evs ++ [e]) s')
        (step cfg s e) := by
    rintro evs s e ⟨hinv, hsim⟩ hok
    exact (((step_ensures hset (fun _ => hcfg) hinv hok).imp fun _ h => h.1).and
      (refinesNaive_step hset hcfg hinv hsim hok)).mono honly fun _ h => h
  obtain ⟨hinv, hsim⟩ := hrun.invariant_actions
    (fun evs s => SystemInv cfg exactScope s ∧ RefinesNaive cfg evs s)
    ⟨systemInv_init rfl fun _ _ => trivial, ⟨rfl, rfl, fun fp id => by
      simp [NaiveStore.empty, startedFiles, NaiveStore.backups, initSystem, emptyStore, Stored,
        ContainerPool.Holds]⟩, rfl⟩ hstep
  refine ⟨hsim, fun fp i j hi hj => ?_, fun e hok =>
    (hstep events sys e ⟨hinv, hsim⟩ hok).imp fun _ h => h.2⟩
  obtain ⟨store, job⟩ := sys
  cases job with
  | none => exact hinv.1.unique trivial fp i j ⟨trivial, Or.inl hi⟩ ⟨trivial, Or.inl hj⟩
  | some job =>
      have hjob : JobInv cfg exactScope store job := hinv
      exact hjob.core.unique trivial fp i j ⟨trivial, Or.inl hi⟩ ⟨trivial, Or.inl hj⟩

def admitsExact (cfg : Config) (sys : System) (e : Event) : Bool :=
  admitsBackup cfg sys e &&
    match e with
    | .start files => files.all fun f => f.chunks.all fun c => decide (c.fp ≠ cfg.fillerFp)
    | _ => true

theorem backupEvent_of_admitsExact {e : Event} (h : admitsExact cfg sys e = true) :
    BackupEvent cfg exactScope sys e := by
  cases e with
  | start files =>
      simp only [admitsExact, Bool.and_eq_true, List.all_eq_true, decide_eq_true_eq] at h
      obtain ⟨hjob, hfiles, hids⟩ := backupEvent_of_admits h.1
      exact ⟨hjob, ⟨hfiles.fits, fun _ _ => h.2⟩, hids⟩
  | delete jobid => simp [admitsExact, admitsBackup] at h
  | lookup | filter | finish => trivial

/-- Two backups that share a chunk, which the second one finds through the first one's recipe. -/
theorem exact_refines_naive_two_backups : ∃ sys : System,
    sys.store.backups.map (fun b => b.pointers.map ChunkPointer.id) = [[0, 0, 0], [1, 0]] ∧
      RefinesNaive (smallConfig .exact .logical)
        (backupEvents [smallFile [1, 2, 1]] 4 ++ backupEvents [smallFile [3, 2]] 3) sys := by
  have hrun : (exec (step (smallConfig .exact .logical)) (admitsExact (smallConfig .exact .logical))
      initSystem (backupEvents [smallFile [1, 2, 1]] 4 ++ backupEvents [smallFile [3, 2]] 3)).any
        (fun sys => decide (sys.store.backups.map (fun b => b.pointers.map ChunkPointer.id) =
          [[0, 0, 0], [1, 0]])) = true := by decide +kernel
  obtain ⟨sys, hsys, hcheck⟩ := (Option.any_eq_true _ _).mp hrun
  exact ⟨sys, of_decide_eq_true hcheck,
    (exact_refines_naive (smallConfig_accepted _ _) ⟨rfl, rfl, rfl, Or.inr Nat.one_pos⟩
      (fun _ => Nat.one_pos) (Run.of_exec (fun _ _ => backupEvent_of_admitsExact) hsys)).1⟩

/-- A chunk stored twice refutes the agreement with the reference. -/
theorem not_refinesNaive {i j : Int} {fp : Fingerprint} (hne : i ≠ j) (hjob : sys.job = none)
    (hi : sys.store.pool.Holds i fp) (hj : sys.store.pool.Holds j fp) :
    ¬ RefinesNaive cfg events sys := by
  intro h
  obtain ⟨store, job⟩ := sys
  cases hjob
  have h₁ := (h.1.stored_iff fp i).mpr (Or.inl hi)
  have h₂ := (h.1.stored_iff fp j).mpr (Or.inl hj)
  exact hne (Option.some.inj (h₁.symm.trans h₂))

instance (pool : ContainerPool) (id : Int) (fp : Fingerprint) : Decidable (pool.Holds id fp) :=
  decidable_of_iff ((pool.containers.lookup id).any (·.lookupFingerprint fp) = true) (by
    rw [Option.any_eq_true]
    rfl)

/-- The two runs: the file boundary at the start of the second one is indexed under the
fingerprint of the chunk that follows it. -/
def zeroRuns : List Event :=
  backupEvents [smallFile [0, 1]] 3 ++ backupEvents [smallFile [0]] 2

/-- Without the condition on the filler, exact deduplication stores a chunk twice. -/
theorem exact_stores_filler_twice :
    (smallConfig .exact .logical).Accepted ∧ ExactIndex (smallConfig .exact .logical) ∧
      0 < (smallConfig .exact .logical).samplingRatio ∧
      ∃ sys, Run (step (smallConfig .exact .logical))
          (BackupEvent (smallConfig .exact .logical) backupScope) initSystem zeroRuns sys ∧
        sys.store.pool.Holds 0 (.fill 0) ∧ sys.store.pool.Holds 1 (.fill 0) ∧
        ¬ RefinesNaive (smallConfig .exact .logical) zeroRuns sys := by
  refine ⟨smallConfig_accepted _ _, ⟨rfl, rfl, rfl, Or.inr Nat.one_pos⟩, Nat.one_pos, ?_⟩
  have hrun : (exec (step (smallConfig .exact .logical)) (admitsBackup (smallConfig .exact .logical))
      initSystem zeroRuns).any (fun sys => sys.job.isNone &&
        decide (sys.store.pool.Holds 0 (.fill 0)) &&
        decide (sys.store.pool.Holds 1 (.fill 0))) = true := by decide +kernel
  obtain ⟨sys, hsys, hcheck⟩ := (Option.any_eq_true _ _).mp hrun
  simp only [Bool.and_eq_true, Option.isNone_iff_eq_none, decide_eq_true_eq] at hcheck
  exact ⟨sys, Run.of_exec (fun _ _ => backupEvent_of_admits) hsys, hcheck.1.2, hcheck.2,
    not_refinesNaive (by decide) hcheck.1.1 hcheck.1.2 hcheck.2⟩

end Runs

end Destor
