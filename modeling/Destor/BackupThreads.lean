/- digest: The threads of a backup from the directory to `hash_queue`, over their bounded queues: however
   they are interleaved, what is behind them receives the files of the directory. -/

import Destor.DirectoryTree
import Destor.Utils.QueuedThreads

set_option autoImplicit false
set_option relaxedAutoImplicit false

namespace Destor

open Library.Outcome Library.Transition Library.ThreadChain Library.RelatedLists

section ReadThread

/-- Where `read_thread` is: what `read_file` has still to push, and the directories that it is in, each
with the entries that `readdir` has not returned yet. -/
structure ReadState where
  chunks : List Chunk
  dirs : List (List UInt8 × Entries)

variable (jcrPath : List UInt8)

/-- `find_one_file` opens the directory at `path`, or `read_file` the file. -/
def ReadState.find (path : List UInt8) (dirs : List (List UInt8 × Entries)) : Node → ReadState
  | .directory entries =>
      ⟨[], if path.getLast? = some slash then (path, entries) :: dirs else dirs⟩
  | .file content => ⟨if path.getLast? = some slash then [] else readFile jcrPath path content, dirs⟩
  | .failing => ⟨[], dirs⟩

/-- The next action of `read_thread`. -/
def ReadState.act : ReadState → Act ReadState Chunk
  | ⟨c :: chunks, dirs⟩ => .push c ⟨chunks, dirs⟩
  | ⟨[], []⟩ => .halt
  | ⟨[], (_, .nil) :: dirs⟩ => .work ⟨[], dirs⟩
  | ⟨[], (path, .cons name node rest) :: dirs⟩ =>
      if name.isDots then .work ⟨[], (path, rest) :: dirs⟩
      else match node with
        -- the warning, and the return out of the loop
        | .failing => .work ⟨[], dirs⟩
        | node => .work (ReadState.find jcrPath (childPath path name node) ((path, rest) :: dirs) node)

variable {jcrPath} {final : ReadState}

private theorem readChunks_solo (chunks : List Chunk) {dirs : List (List UInt8 × Entries)}
    {outputs : List Chunk} {n : Nat}
    (h : Solo (ReadState.act jcrPath) true ⟨[], dirs⟩ [] outputs final n) :
    ∃ m, Solo (ReadState.act jcrPath) true ⟨chunks, dirs⟩ [] (chunks ++ outputs) final m := by
  induction chunks with
  | nil => exact ⟨n, h⟩
  | cons c chunks ih =>
      obtain ⟨m, hsolo⟩ := ih
      exact ⟨m + 1, .push rfl hsolo⟩

mutual

private theorem findOneFile_solo (path : List UInt8) {dirs : List (List UInt8 × Entries)} (node : Node)
    {outputs : List Chunk} {n : Nat}
    (h : Solo (ReadState.act jcrPath) true ⟨[], dirs⟩ [] outputs final n) :
    ∃ m, Solo (ReadState.act jcrPath) true (ReadState.find jcrPath path dirs node) []
      (findOneFile jcrPath path node ++ outputs) final m := by
  cases node with
  | failing => exact ⟨n, h⟩
  | file content =>
      rw [findOneFile, ReadState.find]
      exact readChunks_solo _ h
  | directory entries =>
      rw [findOneFile, ReadState.find]
      split
      · exact findEntries_solo path entries h
      · exact ⟨n, h⟩

private theorem findEntries_solo (path : List UInt8) {dirs : List (List UInt8 × Entries)}
    (entries : Entries) {outputs : List Chunk} {n : Nat}
    (h : Solo (ReadState.act jcrPath) true ⟨[], dirs⟩ [] outputs final n) :
    ∃ m, Solo (ReadState.act jcrPath) true ⟨[], (path, entries) :: dirs⟩ []
      (findEntries jcrPath path entries ++ outputs) final m := by
  cases entries with
  | nil => exact ⟨n + 1, .work rfl h⟩
  | cons name node rest =>
      obtain ⟨m, hrest⟩ := findEntries_solo path rest h
      by_cases hdots : name.isDots = true
      · have hskip : findEntries jcrPath path (.cons name node rest) =
            findEntries jcrPath path rest := by
          cases node <;> rw [findEntries, if_pos hdots]
        rw [hskip]
        exact ⟨m + 1, .work (if_pos hdots) hrest⟩
      · cases node with
        | failing =>
            rw [findEntries, if_neg hdots]
            exact ⟨n + 1, .work (if_neg hdots) h⟩
        | file content =>
            obtain ⟨l, hsolo⟩ :=
              findOneFile_solo (childPath path name (.file content)) (.file content) hrest
            rw [findEntries, if_neg hdots, List.append_assoc]
            exact ⟨l + 1, .work (if_neg hdots) hsolo⟩
        | directory entries =>
            obtain ⟨l, hsolo⟩ :=
              findOneFile_solo (childPath path name (.directory entries)) (.directory entries) hrest
            rw [findEntries, if_neg hdots, List.append_assoc]
            exact ⟨l + 1, .work (if_neg hdots) hsolo⟩

end

/-- Alone, the thread pushes what the walk finds. -/
theorem readThread_solo (jcrPath path : List UInt8) (node : Node) :
    ∃ n, Solo (ReadState.act jcrPath) true (ReadState.find jcrPath path [] node) []
      (findOneFile jcrPath path node) ⟨[], []⟩ n := by
  have hhalt : Solo (ReadState.act jcrPath) true ⟨[], []⟩ [] [] ⟨[], []⟩ 1 := .halt rfl
  obtain ⟨n, hsolo⟩ := findOneFile_solo path node hhalt
  rw [List.append_nil] at hsolo
  exact ⟨n, hsolo⟩

end ReadThread

section ChunkThread

/-- Where `chunk_thread` is: before a file, with what it takes for a `CHUNK_FILE_START`, behind that,
with what follows it, in the loop that fills `leftbuf`, with a block for it, and before a cut; `left`,
`leftoff` and `c` are its variables. It is lost when the queue ends within a file. -/
inductive ChunkState where
  | file
  | started (c : Chunk)
  | first
  | received (c : Chunk)
  | refill (left : List UInt8) (leftoff : Nat) (c : Option Chunk)
  | block (left : List UInt8) (leftoff : Nat) (c : Chunk)
  | cut (left : List UInt8) (leftoff : Nat) (c : Option Chunk)
  | ended
  | lost

variable (d : ChunkPhase)

/-- The next action of `chunk_thread`. -/
def ChunkState.act : ChunkState → Act ChunkState Chunk
  | .file => .pop fun
      | some c => .started c
      | none => .ended
  | .started c => if c.flag.fileStart then .push c .first else .fail
  | .first => .pop fun
      | some c => .received c
      | none => .lost
  | .received c =>
      if c.flag.fileEnd then .work (.refill [] 0 (some c))
      else if (c.size : Int) ≤ leftbufSize d then .work (.refill (c.data.take c.size) 0 none)
      else .fail
  | .refill left leftoff (some c) => .work (.cut left leftoff (some c))
  | .refill left leftoff none =>
      if (left.length : Int) < d.sizes.chunkMaxSize then
        .pop fun
          | some c => .block left leftoff c
          | none => .lost
      else .work (.cut left leftoff none)
  | .block left leftoff c =>
      if c.flag.fileEnd then .work (.cut left leftoff (some c))
      else if (left.length : Int) + c.size ≤ leftbufSize d then
        .work (.refill (left ++ c.data.take c.size) 0 none)
      else .fail
  | .cut left leftoff c =>
      if left = [] then
        match c with
        | some c => .push c .file
        | none => .fail
      else if (leftoff : Int) + left.length ≤ leftbufSize d then
        match d.chunking left with
        | .ok size =>
            if 0 ≤ size ∧ size ≤ left.length then
              .push (dataChunk (left.take size.toNat))
                (.refill (left.drop size.toNat) (leftoff + size.toNat) c)
            else .fail
        | .error _ => .fail
      else .fail
  | .ended => .halt
  | .lost => .fail

variable {d} {outputs : List Chunk} {final : ChunkState} {n : Nat}

private theorem refillLoop_solo {queue queue' : List Chunk} {left left' : List UInt8}
    {leftoff leftoff' : Nat} {c : Option Chunk}
    (h : refillLoop d queue left leftoff = .ok (queue', left', leftoff', c))
    (rest : Solo (ChunkState.act d) false (.cut left' leftoff' c) queue' outputs final n) :
    ∃ m, Solo (ChunkState.act d) false (.refill left leftoff none) queue outputs final m := by
  induction queue generalizing left leftoff with
  | nil =>
      rw [refillLoop] at h
      split at h
      · cases h
      · rename_i hfull
        cases h
        exact ⟨n + 1, .work (if_neg hfull) rest⟩
  | cons b queue ih =>
      rw [refillLoop] at h
      split at h
      · rename_i hless
        split at h
        · rename_i hend
          cases h
          exact ⟨n + 2, .pop (if_pos hless) (.work (if_pos hend) rest)⟩
        · rename_i hend
          obtain ⟨_, hfits, h⟩ := bind_ok_iff.mp h
          obtain ⟨m, hsolo⟩ := ih h
          have hblock : ChunkState.act d (.block left leftoff b) =
              .work (.refill (left ++ b.data.take b.size) 0 none) := by
            rw [ChunkState.act, if_neg hend, if_pos (require_ok_iff.mp hfits)]
          exact ⟨m + 2, .pop (if_pos hless) (.work hblock hsolo)⟩
      · rename_i hfull
        cases h
        exact ⟨n + 1, .work (if_neg hfull) rest⟩

private theorem refillLeftbuf_solo {s s' : FileState} (h : refillLeftbuf d s = .ok s')
    (rest : Solo (ChunkState.act d) false (.cut s'.left s'.leftoff s'.c) s'.queue outputs final n) :
    s'.out = s.out ∧
      ∃ m, Solo (ChunkState.act d) false (.refill s.left s.leftoff s.c) s.queue outputs final m := by
  obtain ⟨queue, left, leftoff, c, out⟩ := s
  cases c with
  | some c =>
      cases h
      exact ⟨rfl, n + 1, .work rfl rest⟩
  | none =>
      obtain ⟨r, hloop, heq⟩ := bind_ok_iff.mp h
      cases heq
      exact ⟨rfl, refillLoop_solo hloop rest⟩

private theorem chunkFile_solo {k : Nat} {s r : FileState} (h : chunkFile d k s = .ok (some r))
    (rest : Solo (ChunkState.act d) false .file r.queue outputs final n) :
    ∃ out m, r.out = s.out ++ out ∧
      Solo (ChunkState.act d) false (.refill s.left s.leftoff s.c) s.queue (out ++ outputs) final
        m := by
  induction k generalizing s with
  | zero => cases h
  | succ k ih =>
      obtain ⟨s', hrefill, h⟩ := bind_ok_iff.mp h
      split at h
      · rename_i hleft
        cases hc : s'.c with
        | none =>
            rw [hc] at h
            cases h
        | some c =>
            rw [hc] at h
            cases h
            have hend : ChunkState.act d (.cut s'.left s'.leftoff s'.c) = .push c .file := by
              rw [hc]
              exact if_pos hleft
            obtain ⟨hout, m, hsolo⟩ := refillLeftbuf_solo hrefill (.push hend rest)
            exact ⟨[c], m, by rw [hout], hsolo⟩
      · rename_i hleft
        obtain ⟨_, hfits, h⟩ := bind_ok_iff.mp h
        obtain ⟨size, hsize, h⟩ := bind_ok_iff.mp h
        obtain ⟨_, hrange, h⟩ := bind_ok_iff.mp h
        obtain ⟨out, m, hout, hsolo⟩ := ih h
        have hcut : ChunkState.act d (.cut s'.left s'.leftoff s'.c) =
            .push (dataChunk (s'.left.take size.toNat))
              (.refill (s'.left.drop size.toNat) (s'.leftoff + size.toNat) s'.c) := by
          refine (if_neg hleft).trans ((if_pos (require_ok_iff.mp hfits)).trans ?_)
          rw [hsize]
          exact if_pos (require_ok_iff.mp hrange)
        obtain ⟨hout', m', hsolo'⟩ := refillLeftbuf_solo hrefill (.push hcut hsolo)
        refine ⟨dataChunk (s'.left.take size.toNat) :: out, m', ?_, hsolo'⟩
        rw [hout, hout', List.append_assoc]
        rfl

private theorem receiveBlock_solo {queue : List Chunk} {s : FileState}
    (h : receiveBlock d queue = .ok s)
    (rest : Solo (ChunkState.act d) false (.refill s.left s.leftoff s.c) s.queue outputs final n) :
    s.out = [] ∧ ∃ m, Solo (ChunkState.act d) false .first queue outputs final m := by
  cases queue with
  | nil => cases h
  | cons c queue =>
      rw [receiveBlock] at h
      split at h
      · rename_i hend
        cases h
        exact ⟨rfl, n + 2, .pop rfl (.work (if_pos hend) rest)⟩
      · rename_i hend
        obtain ⟨_, hfits, heq⟩ := bind_ok_iff.mp h
        cases heq
        have hreceived : ChunkState.act d (.received c) =
            .work (.refill (c.data.take c.size) 0 none) := by
          rw [ChunkState.act, if_neg hend, if_pos (require_ok_iff.mp hfits)]
        exact ⟨rfl, n + 2, .pop rfl (.work hreceived rest)⟩

/-- Alone, the thread pushes what the function says. -/
theorem chunkThread_solo {k : Nat} {queue out : List Chunk}
    (h : chunkThread d k queue = .ok (some out)) :
    ∃ n, Solo (ChunkState.act d) false .file queue out .ended n := by
  induction k generalizing queue out with
  | zero => cases h
  | succ k ih =>
      cases queue with
      | nil =>
          cases h
          exact ⟨2, .eof rfl (.halt rfl)⟩
      | cons c queue =>
          obtain ⟨_, hstart, h⟩ := bind_ok_iff.mp h
          obtain ⟨s, hreceive, h⟩ := bind_ok_iff.mp h
          obtain ⟨file, hfile, h⟩ := bind_ok_iff.mp h
          cases file with
          | none => cases h
          | some r =>
              obtain ⟨rest, hrest, heq⟩ := bind_ok_iff.mp h
              obtain ⟨out', rfl, rfl⟩ := Option.map_eq_some_iff.mp (Except.ok.inj heq)
              obtain ⟨n, hsolo⟩ := ih hrest
              obtain ⟨outFile, m, hout, hsolo⟩ := chunkFile_solo hfile hsolo
              obtain ⟨hempty, l, hsolo⟩ := receiveBlock_solo hreceive hsolo
              rw [hempty, List.nil_append] at hout
              rw [hout]
              exact ⟨l + 2, .pop rfl (.push (if_pos (require_ok_iff.mp hstart)) hsolo)⟩

end ChunkThread

section HashThread

/-- Where `sha1_thread` is. -/
inductive HashState where
  | popping
  | hashed (c : Chunk)
  | ended

variable (sha1 : List UInt8 → Fingerprint)

/-- The next action of `sha1_thread`. -/
def HashState.act : HashState → Act HashState Chunk
  | .popping => .pop fun
      | some c => .hashed (sha1Chunk sha1 c)
      | none => .ended
  | .hashed c => .push c .popping
  | .ended => .halt

/-- Alone, the thread pushes what the function says. -/
theorem sha1Thread_solo (queue : List Chunk) :
    ∃ n, Solo (HashState.act sha1) false .popping queue (sha1Thread sha1 queue) .ended n := by
  induction queue with
  | nil => exact ⟨2, .eof rfl (.halt rfl)⟩
  | cons c queue ih =>
      obtain ⟨n, hsolo⟩ := ih
      exact ⟨n + 2, .pop rfl (.push rfl hsolo)⟩

end HashThread

section Backup

/-- The states of the threads: those up to `hash_queue`, and of the one that pops it. -/
inductive BackupThread (ρ : Type) where
  | read (s : ReadState)
  | chunk (s : ChunkState)
  | hash (s : HashState)
  | behind (s : ρ)

structure BackupPhases where
  sha1 : List UInt8 → Fingerprint
  chunkPhase : ChunkPhase
  path : BackupPath

namespace BackupPhases

variable {ρ : Type} (phases : BackupPhases) (behind : ρ → Act ρ Chunk)

def act : BackupThread ρ → Act (BackupThread ρ) Chunk
  | .read s => (ReadState.act phases.path.initJcr s).map .read
  | .chunk s => (ChunkState.act phases.chunkPhase s).map .chunk
  | .hash s => (HashState.act phases.sha1 s).map .hash
  | .behind s => (behind s).map .behind

/-- `read_thread`, as it starts. -/
def readStart : ReadState := .find phases.path.initJcr phases.path.initJcr [] phases.path.node

/-- The threads at their start, with `read_queue`, `chunk_queue` and `hash_queue`. -/
def threads (start : ρ) : ThreadRow (BackupThread ρ) Chunk :=
  ThreadRow.start (.read phases.readStart)
    [(.chunk .file, 10), (.hash .popping, 100), (.behind start, 100)]

variable {behind} {k : Nat} {out results : List Chunk} {start final : ρ} {m : Nat}

theorem serial (hchunk : chunkThread phases.chunkPhase k
      (findOneFile phases.path.initJcr phases.path.initJcr phases.path.node) = .ok (some out))
    (hbehind : Solo behind false start (sha1Thread phases.sha1 out) results final m) :
    ∃ n, Serial (phases.act behind) true
      [.read phases.readStart, .chunk .file, .hash .popping, .behind start] [] results
      [.read ⟨[], []⟩, .chunk .ended, .hash .ended, .behind final] n := by
  obtain ⟨n₁, hread⟩ := readThread_solo phases.path.initJcr phases.path.initJcr phases.path.node
  obtain ⟨n₂, hchunk⟩ := chunkThread_solo hchunk
  obtain ⟨n₃, hhash⟩ := sha1Thread_solo phases.sha1 out
  have hact₁ : ∀ s, phases.act behind (.read s) =
      (ReadState.act phases.path.initJcr s).map .read := fun _ => rfl
  have hact₂ : ∀ s, phases.act behind (.chunk s) =
      (ChunkState.act phases.chunkPhase s).map .chunk := fun _ => rfl
  have hact₃ : ∀ s, phases.act behind (.hash s) = (HashState.act phases.sha1 s).map .hash :=
    fun _ => rfl
  have hact₄ : ∀ s, phases.act behind (.behind s) = (behind s).map .behind := fun _ => rfl
  exact ⟨_, .cons (hread.map hact₁) (.cons (hchunk.map hact₂) (.cons (hhash.map hact₃)
    (.cons (hbehind.map hact₄) (.nil false results))))⟩

end BackupPhases

variable {phases : BackupPhases} {c : ChunkSizes} {aeWindow : Int → Int} {gear : UInt8 → UINT64}
  {entries : Entries}

/-- From a directory to `hash_queue`, thread by thread. What is behind the queue receives one stream,
that of the files that the walk reaches, cut and hashed. If the thread there comes to its end on this
stream alone, then so do all threads, however they are interleaved, and with the same outcome: no thread
fails or waits for ever, and the queues hold no more than their sizes. -/
theorem backup_threads_deliver (algorithm : ChunkAlgorithm) (hint : c.IsInt)
    (hstart : startChunkPhase aeWindow gear algorithm c = .ok phases.chunkPhase)
    (hadvances : AlwaysAdvances gear algorithm c) (hnode : phases.path.node = .directory entries)
    (hproper : entries.Proper) :
    ∃ stream : List Chunk, (inputFiles stream).map InputFile.placed = entries.placed [] ∧
      (∀ f ∈ inputFiles stream, f.IsHashed phases.sha1) ∧
      ∀ (ρ : Type) (behind : ρ → Act ρ Chunk) (start final : ρ) (results : List Chunk) (m : Nat),
        Solo behind false start stream results final m →
        ∃ n, ∀ actions row, Run (ThreadRow.step (phases.act behind)) ThreadRow.Admissible
            (phases.threads start) actions row →
          (∀ a, row.Admissible a → ∃ row', row.step (phases.act behind) a = .ok row') ∧
          List.Forall₂ (fun t (size : Int) => (t.input.sq.queue.elemNum : Int) ≤ size) row.threads
            [1, 10, 100, 100] ∧
          actions.length ≤ 2 * n + 3 * actions.countP RowAction.isWakeUp + 8 ∧
          ((∀ t ∈ row.threads, t.ended = true) ∨
            ∃ i, ∀ node, (∀ u ∈ row.threads[i + 1]?, u.input.sq.queue.heap node = none) →
              row.Admissible (.move i node)) ∧
          ((∀ t ∈ row.threads.getLast?, t.ended = true) →
            row.threads.map QueuedThread.state =
                [.read ⟨[], []⟩, .chunk .ended, .hash .ended, .behind final] ∧
              row.results = results ∧
              ∀ t ∈ row.threads, t.ended = true ∧ t.input.sq.queue.elemNum = 0) := by
  obtain ⟨cut, hd⟩ := cutBy_of_advances hint hstart hadvances
  have hdirectory : (∃ files, Delivers phases.sha1 phases.chunkPhase phases.path files) ∧ _ :=
    delivers_directory hd hnode hproper
  obtain ⟨⟨files, hdelivers⟩, hall⟩ := hdirectory
  obtain ⟨hplaced, hhashed⟩ := hall files hdelivers
  obtain ⟨k, out, hchunk, rfl⟩ := hdelivers
  refine ⟨sha1Thread phases.sha1 out, hplaced, hhashed,
    fun ρ behind start final results m hbehind => ?_⟩
  obtain ⟨n, hserial⟩ := phases.serial hchunk hbehind
  have hsizes : ∀ r ∈ [((.chunk .file : BackupThread ρ), (10 : Int)), (.hash .popping, 100),
      (.behind start, 100)], 0 < r.2 := by
    simp
  refine ⟨n, fun actions row hrun => ?_⟩
  have hends := threadRow_ends hserial hsizes hrun
  exact hends

end Backup

section Example

inductive Keeper where
  | keeping (chunks : List Chunk)
  | ended (chunks : List Chunk)

def Keeper.act : Keeper → Act Keeper Chunk
  | .keeping chunks => .pop fun
      | some c => .keeping (chunks ++ [c])
      | none => .ended chunks
  | .ended _ => .halt

theorem keeper_solo (chunks stream : List Chunk) :
    ∃ n, Solo Keeper.act false (.keeping chunks) stream [] (.ended (chunks ++ stream)) n := by
  induction stream generalizing chunks with
  | nil =>
      rw [List.append_nil]
      exact ⟨2, .eof rfl (.halt rfl)⟩
  | cons c stream ih =>
      obtain ⟨n, hsolo⟩ := ih (chunks ++ [c])
      rw [← List.append_cons] at hsolo
      exact ⟨n + 1, .pop rfl hsolo⟩

def smallPhases : BackupPhases :=
  { sha1 := firstByteHash, chunkPhase := bytePhase, path := smallDirectory [1] [2, 3] }

/-- The threads in turns, the last one first; each new element is at a place of its own. -/
def smallSchedule : List RowAction :=
  [3, 2, 1, 0, 0, 1, 0, 1, 0, 2, 1, 0, 2, 1, 0, 3, 2, 1, 0, 3, 1, 0, 2, 1, 0, 2, 1, 0, 3, 2, 1, 0, 3,
    2, 1, 0, 2, 1, 3, 2, 1, 3, 2, 1, 3, 2, 1, 3, 1, 2, 1, 2, 1, 3, 2, 1, 3, 2, 1, 3, 2, 1, 3, 2, 1, 2,
    1, 3, 2, 3, 2, 3, 3].mapIdx fun node i => .move i node

theorem backup_threads_deliver_small : ∃ row : ThreadRow (BackupThread Keeper) Chunk,
    Run (ThreadRow.step (smallPhases.act Keeper.act)) ThreadRow.Admissible
        (smallPhases.threads (.keeping [])) smallSchedule row ∧
      (∀ t ∈ row.threads, t.ended = true ∧ t.input.sq.queue.elemNum = 0) ∧
      ∃ stream, row.threads.map QueuedThread.state =
          [.read ⟨[], []⟩, .chunk .ended, .hash .ended, .behind (.ended stream)] ∧
        (inputFiles stream).map InputFile.placed = [([[97]], [1]), ([[98], [97]], [2, 3])] := by
  have hexec : (exec (ThreadRow.step (smallPhases.act Keeper.act)) admitsRow
      (smallPhases.threads (.keeping [])) smallSchedule).any
        (fun row => row.threads.all QueuedThread.ended) = true := by decide +kernel
  obtain ⟨row, hexec, hall⟩ := (Option.any_eq_true _ _).mp hexec
  have hrun := Run.of_exec admissible_of_admitsRow hexec
  have hadvances : AlwaysAdvances (fun _ => 0) .fixed byteSizes := Int.le_refl 1
  have hnode : smallPhases.path.node = .directory (smallEntries [1] [2, 3]) := rfl
  obtain ⟨stream, hplaced, -, hdeliver⟩ := backup_threads_deliver .fixed byteSizes_isInt
    start_bytePhase hadvances hnode (smallEntries_proper [1] [2, 3])
  obtain ⟨m, hkeeper⟩ := keeper_solo [] stream
  obtain ⟨n, hruns⟩ := hdeliver Keeper Keeper.act _ _ [] m hkeeper
  obtain ⟨-, -, -, -, hends⟩ := hruns smallSchedule row hrun
  obtain ⟨hstates, -, hempty⟩ := hends fun t ht =>
    List.all_eq_true.mp hall t (List.mem_of_getLast? ht)
  exact ⟨row, hrun, hempty, stream, hstates, hplaced⟩

end Example

end Destor
