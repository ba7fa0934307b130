/- digest: The three threads of a restore over their two bounded queues: however they are interleaved, the
   restore ends, with what the threads do one after another on disk. -/

import Destor.Restore.AssemblyArea
import Destor.Restore.OptimalRestore
import Destor.Restore.RestoreAgree
import Destor.Restore.WriteRestoreData
import Destor.Utils.QueuedThreads

set_option autoImplicit false
set_option relaxedAutoImplicit false

namespace Destor

open Library.Outcome Library.Transition Library.ThreadChain Library.RelatedLists

section RecipeThread

/-- Where `read_recipe_thread` is: at file `i`, or at chunk `j` of the `chunknum` chunks of that file;
`metas` and `pointers` are left of the recipe, and `read` is the static `read_chunk_num`. -/
inductive RecipeState where
  | file (i : Int) (metas : List FileRecipeMeta) (read : Int) (pointers : List ChunkPointer)
  | chunk (j : Int) (chunknum : Nat) (i : Int) (metas : List FileRecipeMeta) (read : Int)
      (pointers : List ChunkPointer)

/-- The next action of `read_recipe_thread`. -/
def RecipeState.act (b : BackupVersion) : RecipeState → Act RecipeState Chunk
  | .file i [] _ _ => if i < b.numberOfFiles then .fail else .halt
  | .file i (r :: metas) read pointers =>
      if i < b.numberOfFiles then .push r.startChunk (.chunk 0 r.chunknum i metas read pointers)
      else .halt
  | .chunk j chunknum i metas read pointers =>
      if j < chunknum then
        match readNextChunkPointer b read pointers with
        | .error _ => .fail
        | .ok (cp, read, pointers) =>
            .push cp.toChunk (.chunk (toInt32 (j + 1)) chunknum i metas read pointers)
      else .push Chunk.fileEnd (.file (toInt32 (i + 1)) metas read pointers)

def RecipeState.start (b : BackupVersion) : RecipeState := .file 0 b.metas 0 b.recipe

variable {b : BackupVersion}

private theorem solo_chunks {chunknum : Nat} {i j read read' : Int} {metas : List FileRecipeMeta}
    {pointers pointers' : List ChunkPointer} {cs outputs : List Chunk} {final : RecipeState} {n : Nat}
    (h : readFileChunks b chunknum j read pointers = .ok (cs, read', pointers'))
    (hrest : Solo (RecipeState.act b) true (.file (toInt32 (i + 1)) metas read' pointers') [] outputs
      final n) :
    ∃ m, Solo (RecipeState.act b) true (.chunk j chunknum i metas read pointers) []
      (cs ++ Chunk.fileEnd :: outputs) final m := by
  induction hlength : pointers.length using Nat.strongRecOn generalizing j read pointers cs with
  | ind k ih =>
      by_cases hj : j < chunknum
      · rw [readFileChunks_of_lt hj] at h
        obtain ⟨⟨cp, read₁, pointers₁⟩, hnext, h⟩ := bind_ok_iff.mp h
        obtain ⟨⟨cs', r⟩, hchunks, h⟩ := bind_ok_iff.mp h
        cases h
        obtain ⟨m, hsolo⟩ :=
          ih pointers₁.length (hlength ▸ length_readNextChunkPointer hnext) hchunks rfl
        refine ⟨m + 1, .push ?_ hsolo⟩
        rw [RecipeState.act, if_pos hj, hnext]
      · rw [readFileChunks_of_le (by omega)] at h
        cases h
        exact ⟨_, .push (if_neg hj) hrest⟩

private theorem solo_files {i read : Int} {metas : List FileRecipeMeta}
    {pointers : List ChunkPointer} {stream : List Chunk}
    (h : readFiles b i metas read pointers = .ok stream) :
    ∃ final m, Solo (RecipeState.act b) true (.file i metas read pointers) [] stream final m := by
  induction metas generalizing i read pointers stream with
  | nil =>
      by_cases hi : i < b.numberOfFiles
      · rw [readFiles, if_pos hi] at h
        cases h
      · rw [readFiles, if_neg hi] at h
        cases h
        exact ⟨_, _, .halt (if_neg hi)⟩
  | cons r metas ih =>
      by_cases hi : i < b.numberOfFiles
      · rw [readFiles, if_pos hi] at h
        obtain ⟨⟨cs, read', pointers'⟩, hchunks, h⟩ := bind_ok_iff.mp h
        obtain ⟨rest, hfiles, heq⟩ := bind_ok_iff.mp h
        cases heq
        obtain ⟨final, n, hrest⟩ := ih hfiles
        obtain ⟨m, hsolo⟩ := solo_chunks hchunks hrest
        exact ⟨final, m + 1, .push (if_pos hi) hsolo⟩
      · rw [readFiles, if_neg hi] at h
        cases h
        exact ⟨_, _, .halt (if_neg hi)⟩

/-- Alone, the thread pushes what the function says. -/
theorem readRecipeThread_solo {stream : List Chunk} (h : readRecipeThread b = .ok stream) :
    ∃ final m, Solo (RecipeState.act b) true (RecipeState.start b) [] stream final m :=
  solo_files h

end RecipeThread

section RestoreLoops

/-- A loop that has nothing to do when its queue has ended. -/
private def noRound {ρ : Type} (_ : ρ) : Except Abort (Option ρ) := .ok none

variable {cfg : Config} {env : RestoreEnv} {α : Type} {reader : CacheReader α}

theorem lruFetch_pushed {check : α → Except Abort Unit} {s s' : LruRestore α} {c : Chunk} {e : α}
    (h : lruFetch reader check s c = .ok (e, s')) : s'.pushed = s.pushed := by
  rw [lruFetch] at h
  split at h
  · cases h
    rfl
  · obtain ⟨e', -, h⟩ := bind_ok_iff.mp h
    obtain ⟨_, -, h⟩ := bind_ok_iff.mp h
    cases h
    rfl

theorem fetch_pushed {s s' : OptimalRestore α} {c : Chunk} (h : s.fetch env reader c = .ok s') :
    s'.pushed = s.pushed := by
  obtain ⟨⟨hit, cache⟩, -, h⟩ := bind_ok_iff.mp h
  dsimp only at h
  split at h
  · cases h
    rfl
  · obtain ⟨cache', -, h⟩ := bind_ok_iff.mp h
    cases h
    rfl

theorem lookup_pushed {s s' : OptimalRestore Container} {fp : Fingerprint} {rc : Chunk}
    (h : s.lookup cfg env fp = .ok (rc, s')) : s'.pushed = s.pushed := by
  rw [OptimalRestore.lookup] at h
  split at h
  · cases h
  · obtain ⟨rc', -, h⟩ := bind_ok_iff.mp h
    cases h
    rfl

theorem assembleArea_pushed {s s' : AssemblyRestore} {q : Option (List Chunk)}
    (h : s.assembleArea cfg env = .ok (q, s')) : s'.pushed = s.pushed := by
  rw [AssemblyRestore.assembleArea] at h
  split at h
  · cases h
    rfl
  · dsimp only at h
    split at h
    · cases h
      rfl
    · obtain ⟨con, -, h⟩ := bind_ok_iff.mp h
      obtain ⟨area, -, h⟩ := bind_ok_iff.mp h
      cases h
      rfl

/-- Nothing is assembled only where there is nothing. -/
theorem assembleArea_none {s s' : AssemblyRestore} (h : s.assembleArea cfg env = .ok (none, s')) :
    s' = s := by
  rw [AssemblyRestore.assembleArea] at h
  split at h
  · cases h
    rfl
  · dsimp only at h
    split at h
    · cases h
    · obtain ⟨con, -, h⟩ := bind_ok_iff.mp h
      obtain ⟨area, -, h⟩ := bind_ok_iff.mp h
      cases h

theorem areaPush_pushed (s : AssemblyRestore) (c : Chunk) : (s.areaPush c).2.pushed = s.pushed := by
  rw [AssemblyRestore.areaPush]
  split <;> rfl

theorem issue_pushed (cfg : Config) (q : List Chunk) (s : AssemblyRestore) :
    s.pushed <+: (q.foldl (AssemblyRestore.issueChunk cfg) s).pushed := by
  induction q generalizing s with
  | nil => exact List.prefix_refl _
  | cons rc q ih =>
      refine List.IsPrefix.trans ?_ (ih _)
      rw [AssemblyRestore.issueChunk]
      split
      · dsimp only
        split
        · exact List.prefix_append _ _
        · exact List.prefix_refl _
      · exact List.prefix_append _ _

variable (cfg env)

/-- The loop of `lru_restore_thread` below `SIMULATION_RESTORE`. -/
def lruLoop : Loop Abort (LruRestore Container) Chunk where
  init := .ok (LruRestore.init cfg)
  body := lruRestoreChunk cfg env
  round := noRound
  pushed := LruRestore.pushed
  body_pushed s c s' h := by
    rw [lruRestoreChunk] at h
    split at h
    · obtain ⟨⟨con, s₁⟩, hfetch, h⟩ := bind_ok_iff.mp h
      obtain ⟨rc, -, h⟩ := bind_ok_iff.mp h
      cases h
      exact lruFetch_pushed hfetch ▸ List.prefix_append _ _
    · cases h
      exact List.prefix_append _ _
  round_pushed s s' h := by cases h

def lruMetaLoop : Loop Abort (LruRestore ContainerMeta) Chunk where
  init := .ok (LruRestore.init cfg)
  body := lruRestoreChunkMeta cfg env
  round := noRound
  pushed := LruRestore.pushed
  body_pushed s c s' h := by
    rw [lruRestoreChunkMeta] at h
    split at h
    · obtain ⟨⟨cm, s₁⟩, hfetch, h⟩ := bind_ok_iff.mp h
      cases h
      rw [← lruFetch_pushed hfetch]
    · cases h
      exact List.prefix_append _ _
  round_pushed s s' h := by cases h

/-- The loop of `optimal_restore_thread` with `SIMULATION_NO`. -/
def optimalLoop (records : List Int) : Loop Abort (OptimalRestore Container) Chunk where
  init := OptimalRestore.init cfg env records
  body := OptimalRestore.chunk cfg env
  round := noRound
  pushed := OptimalRestore.pushed
  body_pushed s c s' h := by
    rw [OptimalRestore.chunk] at h
    split at h
    · obtain ⟨s₁, hfetch, h⟩ := bind_ok_iff.mp h
      obtain ⟨⟨rc, s₂⟩, hlookup, h⟩ := bind_ok_iff.mp h
      cases h
      rw [← fetch_pushed hfetch, ← lookup_pushed hlookup]
      exact List.prefix_append _ _
    · cases h
      exact List.prefix_append _ _
  round_pushed s s' h := by cases h

/-- The same with another simulation level. -/
def optimalMetaLoop (records : List Int) : Loop Abort (OptimalRestore ContainerMeta) Chunk where
  init := OptimalRestore.init cfg env records
  body := OptimalRestore.chunkMeta cfg env
  round := noRound
  pushed := OptimalRestore.pushed
  body_pushed s c s' h := by
    rw [OptimalRestore.chunkMeta] at h
    split at h
    · obtain ⟨s₁, hfetch, h⟩ := bind_ok_iff.mp h
      cases h
      rw [← fetch_pushed hfetch]
    · cases h
      exact List.prefix_append _ _
  round_pushed s s' h := by cases h

/-- A round of the final loop of `assembly_restore_thread`. -/
def AssemblyRestore.round (s : AssemblyRestore) : Except Abort (Option AssemblyRestore) := do
  let (q, s) ← s.assembleArea cfg env
  return q.map fun q => q.foldl (issueChunk cfg) s

/-- The loops of `assembly_restore_thread`. -/
def assemblyLoop : Loop Abort AssemblyRestore Chunk where
  init := .ok (AssemblyRestore.init cfg)
  body := AssemblyRestore.chunk cfg env
  round := AssemblyRestore.round cfg env
  pushed := AssemblyRestore.pushed
  body_pushed s c s' h := by
    have hpush := areaPush_pushed s c
    rw [AssemblyRestore.chunk] at h
    dsimp only at h
    split at h
    · obtain ⟨⟨q, s₁⟩, harea, h⟩ := bind_ok_iff.mp h
      cases h
      rw [← hpush, ← assembleArea_pushed harea]
      exact issue_pushed cfg _ _
    · cases h
      rw [hpush]
  round_pushed s s' h := by
    obtain ⟨⟨q, s₁⟩, harea, h⟩ := bind_ok_iff.mp h
    cases q with
    | none => cases h
    | some q =>
        cases h
        rw [← assembleArea_pushed harea]
        exact issue_pushed cfg _ _

variable {cfg env}

/-- The final loop goes through its rounds. -/
theorem drain_rounds {s last : AssemblyRestore} (h : s.drain cfg env = .ok last) :
    (assemblyLoop cfg env).Rounds s last := by
  induction hlength : s.area.length using Nat.strong_induction_on generalizing s with
  | _ n ih =>
      cases harea : s.assembleArea cfg env with
      | error e =>
          rw [AssemblyRestore.drain_error harea] at h
          cases h
      | ok r =>
          obtain ⟨q, s'⟩ := r
          cases q with
          | none =>
              rw [AssemblyRestore.drain_none harea] at h
              cases h
              obtain rfl := assembleArea_none harea
              exact .done (bind_ok_iff.mpr ⟨_, harea, rfl⟩)
          | some q =>
              rw [AssemblyRestore.drain_some harea] at h
              have hless := AssemblyRestore.assembleArea_length (AssemblyRestore.area_ne_nil harea) harea
              refine .next (bind_ok_iff.mpr ⟨_, harea, rfl⟩) (ih _ ?_ h rfl)
              rw [AssemblyRestore.foldl_issueChunk_area, ← hlength]
              exact hless

private theorem noRound_solo {ρ : Type} {l : Loop Abort ρ Chunk} {s : ρ} {f : ρ → RestoreCounts}
    {stream chunks : List Chunk} {counts : RestoreCounts} (hinit : l.init = .ok s)
    (hround : ∀ s, l.round s = .ok none)
    (h : (foldE l.body s stream >>= fun s => pure (f s, l.pushed s)) = .ok (counts, chunks)) :
    ∃ last n, Solo l.act false .starting stream chunks (.ending last chunks.length) n ∧
      f last = counts := by
  obtain ⟨last, hfold, heq⟩ := bind_ok_iff.mp h
  cases heq
  obtain ⟨n, hsolo⟩ := Loop.solo hinit hfold (.done (hround last))
  exact ⟨last, n, hsolo, rfl⟩

end RestoreLoops

section Threads

inductive RestoreCache where
  | lru
  | opt
  | asm
deriving DecidableEq, Repr

/-- The code of the thread in the middle, and the statistics that it keeps. -/
structure RestoreCode where
  State : Type
  loop : Loop Abort State Chunk
  counts : State → RestoreCounts

variable (cfg : Config) (env : RestoreEnv) (records : List Int)

/-- The thread that `do_restore` creates between the other two. -/
def restoreCode : RestoreCache → RestoreCode
  | .lru =>
      if cfg.simulationLevel.readsData then
        { State := _, loop := lruLoop cfg env, counts := LruRestore.counts }
      else { State := _, loop := lruMetaLoop cfg env, counts := LruRestore.counts }
  | .opt =>
      if cfg.simulationLevel.readsData then
        { State := _, loop := optimalLoop cfg env records, counts := OptimalRestore.counts }
      else { State := _, loop := optimalMetaLoop cfg env records, counts := OptimalRestore.counts }
  | .asm => { State := _, loop := assemblyLoop cfg env, counts := AssemblyRestore.counts }

/-- What that thread does on all of the recipe: its statistics, and what it pushes. -/
def restoreThread (stream : List Chunk) : RestoreCache → Except Abort (RestoreCounts × List Chunk)
  | .lru => lruRestoreThread cfg env stream
  | .opt => optimalRestoreThread cfg env records stream
  | .asm => do
      let (counts, pushed, _) ← assemblyRestoreThread cfg env stream
      return (counts, pushed)

variable {cfg env records}

private theorem assemblyThread_solo {stream chunks : List Chunk} {counts : RestoreCounts}
    (h : restoreThread cfg env records stream .asm = .ok (counts, chunks)) :
    ∃ last n, Solo (assemblyLoop cfg env).act false .starting stream chunks
        (.ending last chunks.length) n ∧ last.counts = counts := by
  obtain ⟨r, hthread, heq⟩ := bind_ok_iff.mp h
  cases heq
  obtain ⟨s, hfold, hthread⟩ := bind_ok_iff.mp hthread
  obtain ⟨last, hdrain, hthread⟩ := bind_ok_iff.mp hthread
  cases hthread
  obtain ⟨n, hsolo⟩ := Loop.solo (l := assemblyLoop cfg env) rfl hfold (drain_rounds hdrain)
  exact ⟨last, n, hsolo, rfl⟩

/-- Alone, the thread does what the function says. -/
theorem restoreThread_solo {cache : RestoreCache} {stream chunks : List Chunk} {counts : RestoreCounts}
    (h : restoreThread cfg env records stream cache = .ok (counts, chunks)) :
    ∃ last n, Solo (restoreCode cfg env records cache).loop.act false .starting stream chunks
        (.ending last chunks.length) n ∧ (restoreCode cfg env records cache).counts last = counts := by
  cases cache with
  | asm => exact assemblyThread_solo h
  | lru =>
      rw [restoreThread, lruRestoreThread] at h
      rw [restoreCode]
      split at h
      · rename_i hreads
        rw [if_pos hreads]
        exact noRound_solo (l := lruLoop cfg env) rfl (fun _ => rfl) h
      · rename_i hreads
        rw [if_neg hreads]
        exact noRound_solo (l := lruMetaLoop cfg env) rfl (fun _ => rfl) h
  | opt =>
      rw [restoreThread, optimalRestoreThread] at h
      rw [restoreCode]
      split at h
      · rename_i hreads
        obtain ⟨s, hinit, h⟩ := bind_ok_iff.mp h
        rw [if_pos hreads]
        exact noRound_solo (l := optimalLoop cfg env records) hinit (fun _ => rfl) h
      · rename_i hreads
        obtain ⟨s, hinit, h⟩ := bind_ok_iff.mp h
        rw [if_neg hreads]
        exact noRound_solo (l := optimalMetaLoop cfg env records) hinit (fun _ => rfl) h

end Threads

section Disk

variable (cwd : List (List UInt8)) (level : SimulationLevel) (path : List UInt8) (tree : DiskTree)

/-- The loop of `write_restore_data`, which pushes nothing. -/
def writeLoop : Loop WriteAbort RestoreTarget Chunk where
  init := .ok { tree := makeParents cwd (path.take 1) (path.drop 1) tree, fp := none, fileNum := 0 }
  body s c := writeRestoreItem cwd level path s c.restoreItem
  round _ := .ok none
  pushed _ := []
  body_pushed _ _ _ _ := List.prefix_refl _
  round_pushed _ _ h := by cases h

variable {cwd level path tree}

/-- Alone, the thread does what the function says. -/
theorem writeRestoreData_solo {chunks : List Chunk} {target : RestoreTarget}
    (h : writeRestoreData cwd level path (chunks.map Chunk.restoreItem) tree = .ok target) :
    ∃ n, Solo (writeLoop cwd level path tree).act false .starting chunks [] (.ending target 0) n := by
  have hfold : ∀ s, foldE (writeRestoreItem cwd level path) s (chunks.map Chunk.restoreItem) =
      foldE (writeLoop cwd level path tree).body s chunks := by
    clear h
    intro s
    induction chunks generalizing s with
    | nil => rfl
    | cons c chunks ih =>
        rw [List.map_cons, foldE, foldE]
        exact bind_congr fun s' => ih s'
  rw [writeRestoreData, hfold] at h
  exact Loop.solo rfl h (.done rfl)

end Disk

section Restore

inductive RestoreThread (ρ : Type) where
  | recipe (s : RecipeState)
  | restore (s : LoopState ρ Chunk)
  | write (s : LoopState RestoreTarget Chunk)

/-- A restore of a backup to a path on a disk. -/
structure RestoreJob where
  cfg : Config
  env : RestoreEnv
  cache : RestoreCache
  bv : BackupVersion
  cwd : List (List UInt8)
  path : List UInt8
  tree : DiskTree

namespace RestoreJob

variable (job : RestoreJob)

def code : RestoreCode := restoreCode job.cfg job.env job.bv.records job.cache

def act : RestoreThread job.code.State → Act (RestoreThread job.code.State) Chunk
  | .recipe s => (RecipeState.act job.bv s).map .recipe
  | .restore s => (job.code.loop.act s).map .restore
  | .write s =>
      ((writeLoop job.cwd job.cfg.simulationLevel job.path job.tree).act s).map .write

/-- The threads that `do_restore` creates, with its queues of 100. -/
def threads : ThreadRow (RestoreThread job.code.State) Chunk :=
  ThreadRow.start (.recipe (RecipeState.start job.bv))
    [(.restore .starting, 100), (.write .starting, 100)]

/-- What the threads do one after another: the statistics, and what is on disk at the end. -/
def Delivers (counts : RestoreCounts) (target : RestoreTarget) : Prop :=
  ∃ stream chunks, readRecipeThread job.bv = .ok stream ∧
    restoreThread job.cfg job.env job.bv.records stream job.cache = .ok (counts, chunks) ∧
    writeRestoreData job.cwd job.cfg.simulationLevel job.path (chunks.map Chunk.restoreItem) job.tree =
      .ok target

end RestoreJob

variable {job : RestoreJob} {counts : RestoreCounts} {target : RestoreTarget}

/-- The threads one after another. -/
theorem RestoreJob.Delivers.serial (h : job.Delivers counts target) :
    ∃ recipe last sent n, Serial job.act true
        [.recipe (RecipeState.start job.bv), .restore .starting, .write .starting] [] []
        [.recipe recipe, .restore (.ending last sent), .write (.ending target 0)] n ∧
      job.code.counts last = counts := by
  obtain ⟨stream, chunks, hrecipe, hrestore, hwrite⟩ := h
  obtain ⟨recipe, n₁, hsolo₁⟩ := readRecipeThread_solo hrecipe
  obtain ⟨last, n₂, hsolo₂, hcounts⟩ := restoreThread_solo hrestore
  obtain ⟨n₃, hsolo₃⟩ := writeRestoreData_solo hwrite
  have hact₁ : ∀ s, job.act (.recipe s) = (RecipeState.act job.bv s).map .recipe := fun _ => rfl
  have hact₂ : ∀ s, job.act (.restore s) = (job.code.loop.act s).map .restore := fun _ => rfl
  have hact₃ : ∀ s, job.act (.write s) =
      ((writeLoop job.cwd job.cfg.simulationLevel job.path job.tree).act s).map .write := fun _ => rfl
  exact ⟨recipe, last, chunks.length, _, .cons (hsolo₁.map hact₁)
    (.cons (hsolo₂.map hact₂) (.cons (hsolo₃.map hact₃) (.nil false []))), hcounts⟩

/-- A restore over its queues does what its threads do one after another, however they are interleaved.
No thread fails or waits for ever: the actions are bounded, but for waits that end without a broadcast,
and until all threads have ended one of them can go on. The queues never hold more than 100 chunks,
and when the last thread is done, as `do_restore` asserts, they are empty. -/
theorem restore_threads_deliver (h : job.Delivers counts target) :
    ∃ n, ∀ actions row, Run (ThreadRow.step job.act) ThreadRow.Admissible job.threads actions row →
      (∀ a, row.Admissible a → ∃ row', row.step job.act a = .ok row') ∧
      (∀ t ∈ row.threads, t.input.sq.queue.elemNum ≤ 100) ∧
      actions.length ≤ 2 * n + 3 * actions.countP RowAction.isWakeUp + 6 ∧
      ((∀ t ∈ row.threads, t.ended = true) ∨
        ∃ i, ∀ node, (∀ u ∈ row.threads[i + 1]?, u.input.sq.queue.heap node = none) →
          row.Admissible (.move i node)) ∧
      ((∀ t ∈ row.threads.getLast?, t.ended = true) →
        (∀ t ∈ row.threads, t.ended = true ∧ t.input.sq.queue.elemNum = 0) ∧
        ∃ recipe last sent, row.threads.map QueuedThread.state =
            [.recipe recipe, .restore (.ending last sent), .write (.ending target 0)] ∧
          job.code.counts last = counts) := by
  obtain ⟨recipe, last, sent, n, hserial, hcounts⟩ := h.serial
  refine ⟨n, fun actions row hrun => ?_⟩
  have hsizes : ∀ r ∈ [((.restore .starting : RestoreThread job.code.State), (100 : Int)),
      (.write .starting, 100)], 0 < r.2 := by
    simp
  obtain ⟨hsteps, hqueues, hbound, hprogress, hends⟩ := threadRow_ends hserial hsizes hrun
  refine ⟨hsteps, fun t ht => ?_, hbound, hprogress, fun hlast => ?_⟩
  · obtain ⟨size, hsize, hle⟩ := mem_forall₂_left hqueues ht
    have hsmall : ∀ size ∈ [(1 : Int), 100, 100], size ≤ 100 := by decide
    have := hsmall size hsize
    omega
  obtain ⟨hfinals, -, hempty⟩ := hends hlast
  exact ⟨hempty, recipe, last, sent, hfinals, hcounts⟩

end Restore

section Example

/-- A file of a hundred chunks of one container, and a file with a chunk of each of two others. -/
def longFiles : List StoredFile :=
  [{ name := [97], pointers := List.replicate 100 (bytePointer 1 0) },
    { name := [98], pointers := [bytePointer 3 1, bytePointer 4 2] }]

def longBackup : RecordedBackup where
  files := longFiles
  segments := [longFiles.flatMap StoredFile.stream]
  cut := List.append_nil _

def longVersion : BackupVersion :=
  { createBackupVersion 0 with
    numberOfFiles := 2
    numberOfChunks := 102
    recipe := longBackup.pointers
    metas := longFiles.map StoredFile.fileRecipeMeta
    records := longBackup.records }

theorem longVersion_recorded : Recorded longVersion longBackup := by
  refine ⟨rfl, rfl, by decide, List.filter_eq_self.mpr ?_, rfl⟩
  decide

theorem longBackup_sound : longBackup.Sound pooledConfig (pooledEnv 2) := by
  have hpooled : ∀ cp ∈ longBackup.pointers, cp ∈ pooledBackup.pointers := by decide +kernel
  exact fun cp hcp => pooledBackup_sound 2 cp (hpooled cp hcp)

/-- It is restored to the root of an empty disk. -/
def longJob : RestoreJob where
  cfg := pooledConfig
  env := pooledEnv 2
  cache := .lru
  bv := longVersion
  cwd := []
  path := [47]
  tree := bareDisk

private theorem ok_of_toOption {ε β : Type} {x : Except ε β} {b : β} (h : x.toOption = some b) :
    x = .ok b := by
  cases x with
  | error e => cases h
  | ok b' =>
      cases h
      rfl

theorem longJob_delivers : ∃ counts target, longJob.Delivers counts target ∧
    target.tree.entry [[97]] = some (.file (List.replicate 100 1)) ∧
    target.tree.entry [[98]] = some (.file [3, 4]) := by
  have hstream := longVersion_recorded.readRecipeThread ⟨by decide, by decide⟩
  obtain ⟨⟨counts, chunks⟩, hlru, hall⟩ :=
    lruRestoreThread_spec (show pooledConfig.simulationLevel.readsData = true from rfl)
      longBackup_sound.held
  have hitems : chunks.map Chunk.restoreItem = longFiles.flatMap (StoredFile.items byteContent) :=
    (restoreItem_eq_target rfl (pooledStore_sameContent 2) longBackup_sound.held hall).trans
      (target_restoreStream byteContent longBackup)
  have hwritten : (writeRestoreData [] .no [47] (longFiles.flatMap (StoredFile.items byteContent))
      bareDisk).toOption.any (fun target => decide (
        target.tree.entry [[97]] = some (.file (List.replicate 100 1)) ∧
          target.tree.entry [[98]] = some (.file [3, 4]))) = true := by decide +kernel
  obtain ⟨target, hwrite, hfiles⟩ := (Option.any_eq_true _ _).mp hwritten
  have hwrite := ok_of_toOption hwrite
  rw [← hitems] at hwrite
  exact ⟨counts, target, ⟨_, chunks, hstream, hlru, hwrite⟩, of_decide_eq_true hfiles⟩

/-- The thread `p.1` makes `p.2` steps, for each pair in turn. -/
def turns (blocks : List (Nat × Nat)) : List RowAction :=
  (blocks.flatMap fun p => List.replicate p.2 p.1).zipIdx.map fun p => .move p.1 p.2

/-- Each thread goes on until it sleeps: the first one when its queue is full, the others when theirs are
empty. -/
def longSchedule : List RowAction :=
  turns [(0, 101), (1, 302), (2, 202), (0, 7), (1, 20), (2, 14)]

/-- The two files arrive on disk, although the first thread had to wait for the second. -/
theorem restore_threads_deliver_two_files : ∃ row : ThreadRow (RestoreThread longJob.code.State) Chunk,
    Run (ThreadRow.step longJob.act) ThreadRow.Admissible longJob.threads longSchedule row ∧
      (∀ t ∈ row.threads, t.ended = true ∧ t.input.sq.queue.elemNum = 0) ∧
      ∃ recipe last sent target, row.threads.map QueuedThread.state =
          [.recipe recipe, .restore (.ending last sent), .write (.ending target 0)] ∧
        target.tree.entry [[97]] = some (.file (List.replicate 100 1)) ∧
        target.tree.entry [[98]] = some (.file [3, 4]) := by
  have hexec : (exec (ThreadRow.step longJob.act) admitsRow longJob.threads
      longSchedule).any (fun row => row.threads.all QueuedThread.ended) = true := by decide +kernel
  obtain ⟨row, hexec, hall⟩ := (Option.any_eq_true _ _).mp hexec
  have hrun := Run.of_exec admissible_of_admitsRow hexec
  obtain ⟨counts, target, hdelivers, hfiles⟩ := longJob_delivers
  obtain ⟨n, hdeliver⟩ := restore_threads_deliver hdelivers
  obtain ⟨-, -, -, -, hends⟩ := hdeliver longSchedule row hrun
  obtain ⟨hempty, recipe, last, sent, hstates, -⟩ := hends fun t ht =>
    List.all_eq_true.mp hall t (List.mem_of_getLast? ht)
  exact ⟨row, hrun, hempty, recipe, last, sent, target, hstates, hfiles⟩

end Example

end Destor
