/- digest: The hash phase, and what the read, chunk and hash phases together hand to deduplication: the
   files of a directory tree, each cut into chunks that make up its bytes. -/

import Destor.ChunkProgress
import Destor.Library.RelatedLists
import Destor.RecordedPaths
import Destor.Restore.WriteRestoreData

set_option autoImplicit false
set_option relaxedAutoImplicit false

namespace Destor

open Library Library.Outcome Library.PathName Library.RelatedLists

section Code

variable (sha1 : List UInt8 → Fingerprint)

/-- The loop body of `sha1_thread`: what is pushed to `hash_queue` for a chunk. -/
def sha1Chunk (c : Chunk) : Chunk :=
  if c.flag.fileStart || c.flag.fileEnd then c else { c with fp := sha1 (c.data.take c.size) }

def sha1Thread (queue : List Chunk) : List Chunk := queue.map (sha1Chunk sha1)

def leadingContents : List Chunk → List InputChunk
  | [] => []
  | c :: rest =>
      if c.isNormal then { fp := c.fp, size := c.size, data := c.data } :: leadingContents rest else []

/-- The files of a stream on `hash_queue`, as the later phases read it: a name up to its terminator, and
the chunks that follow. -/
def inputFiles : List Chunk → List InputFile
  | [] => []
  | c :: rest =>
      if c.flag.fileStart then
        { name := c.data.takeWhile (· ≠ 0), chunks := leadingContents rest } :: inputFiles rest
      else inputFiles rest

def Delivers (d : ChunkPhase) (b : BackupPath) (files : List InputFile) : Prop :=
  ∃ k out, chunkThread d k (findOneFile b.initJcr b.initJcr b.node) = .ok (some out) ∧
    files = inputFiles (sha1Thread sha1 out)

end Code

section ReadQueue

/-- The blocks of a file are not empty, no longer than a block, and make up the file. -/
theorem readBlocks_spec (n : Nat) (bytes : List UInt8) (hn : bytes.length ≤ n) :
    ReadBlocks (readBlocks n bytes) ∧ (readBlocks n bytes).flatten = bytes := by
  induction n generalizing bytes with
  | zero =>
      obtain rfl : bytes = [] := List.eq_nil_of_length_eq_zero (Nat.le_zero.mp hn)
      exact ⟨nofun, rfl⟩
  | succ n ih =>
      rw [readBlocks]
      split
      · rename_i hnil
        exact ⟨nofun, hnil.symm⟩
      · rename_i hne
        have hpos := List.length_pos_iff.mpr hne
        have hblock : 1 ≤ defaultBlockSize := by decide
        obtain ⟨hblocks, hflat⟩ := ih (bytes.drop defaultBlockSize) (by
          rw [List.length_drop]
          omega)
        refine ⟨fun b hb => ?_, ?_⟩
        · rcases List.mem_cons.mp hb with rfl | hb
          · refine ⟨fun hnil => ?_, ?_⟩
            · have hlength := congrArg List.length hnil
              rw [List.length_take, List.length_nil] at hlength
              omega
            · rw [List.length_take]
              omega
          · exact hblocks b hb
        · rw [List.flatten_cons, hflat, List.take_append_drop]

/-- What `read_file` pushes of a file, as the chunk phase pops it. -/
theorem readFile_eq (jcrPath path content : List UInt8) (rest : List Chunk) :
    readFile jcrPath path content ++ rest = fileStartChunk (recordedName jcrPath path) ::
      fileQueue (readBlocks content.length content) rest := by
  rw [readFile, fileQueue, List.append_assoc]
  rfl

end ReadQueue

section ChunkQueue

variable {d : ChunkPhase} {cut : List UInt8 → Nat} {jcrPath : List UInt8}

/-- More rounds within a file change nothing. -/
theorem chunkFile_mono {k k' : Nat} {s r : FileState} (hle : k ≤ k')
    (h : chunkFile d k s = .ok (some r)) : chunkFile d k' s = .ok (some r) := by
  induction k generalizing k' s with
  | zero => cases h
  | succ k ih =>
      obtain ⟨k', rfl⟩ : ∃ n, k' = n + 1 := ⟨k' - 1, by omega⟩
      obtain ⟨s₁, hrefill, h⟩ := bind_ok_iff.mp h
      rw [chunkFile, hrefill]
      show (if s₁.left = [] then _ else _) = _
      split at h
      · rename_i hleft
        rw [if_pos hleft]
        exact h
      · rename_i hleft
        rw [if_neg hleft]
        obtain ⟨u, hfits, h⟩ := bind_ok_iff.mp h
        obtain ⟨size, hsize, h⟩ := bind_ok_iff.mp h
        obtain ⟨u', hbounds, h⟩ := bind_ok_iff.mp h
        rw [hfits, hsize]
        show (require _ _ >>= _) = _
        rw [hbounds]
        exact ih (by omega) h

/-- Nor do they over the whole queue. -/
theorem chunkThread_mono {k k' : Nat} {queue out : List Chunk} (hle : k ≤ k')
    (h : chunkThread d k queue = .ok (some out)) : chunkThread d k' queue = .ok (some out) := by
  induction k generalizing k' queue out with
  | zero => cases h
  | succ k ih =>
      obtain ⟨k', rfl⟩ : ∃ n, k' = n + 1 := ⟨k' - 1, by omega⟩
      cases queue with
      | nil => exact h
      | cons c queue =>
          obtain ⟨u, hstart, h⟩ := bind_ok_iff.mp h
          obtain ⟨s, hreceive, h⟩ := bind_ok_iff.mp h
          obtain ⟨file, hfile, h⟩ := bind_ok_iff.mp h
          cases file with
          | none => cases h
          | some r =>
              obtain ⟨rest, hrest, h⟩ := bind_ok_iff.mp h
              cases rest with
              | none => cases h
              | some rest =>
                  have hfile' := chunkFile_mono (by omega : k + 1 ≤ k' + 1) hfile
                  have hrest' := ih (by omega : k ≤ k') hrest
                  rw [chunkThread, hstart, hreceive]
                  show (chunkFile d (k' + 1) s >>= _) = _
                  rw [hfile']
                  show (chunkThread d k' r.queue >>= _) = _
                  rw [hrest']
                  exact h

/-- A file in pieces, as the chunk phase pushes it: a name, and pieces of the bytes. -/
def chunkedFile (f : List UInt8 × List (List UInt8)) : List Chunk :=
  fileStartChunk f.1 :: f.2.map dataChunk ++ [Chunk.fileEnd]

/-- The pieces of a file, under the name that it is recorded with. -/
structure PiecesOf (jcrPath : List UInt8) (f : List UInt8 × List UInt8)
    (g : List UInt8 × List (List UInt8)) : Prop where
  name : g.1 = recordedName jcrPath f.1
  bytes : g.2.flatten = f.2
  ne_nil : ∀ bytes ∈ g.2, bytes ≠ []

/-- Files are cut into pieces that make them up. -/
theorem exists_chunkThread (hd : d.CutBy cut) (files : List (List UInt8 × List UInt8)) {k : Nat}
    (hk : (files.map fun f => f.2.length + 1).sum < k) :
    ∃ cutFiles, chunkThread d k (files.flatMap fun f => readFile jcrPath f.1 f.2) =
        .ok (some (cutFiles.flatMap chunkedFile)) ∧
      List.Forall₂ (PiecesOf jcrPath) files cutFiles := by
  induction files generalizing k with
  | nil =>
      obtain ⟨k, rfl⟩ : ∃ n, k = n + 1 := ⟨k - 1, by omega⟩
      exact ⟨[], rfl, .nil⟩
  | cons f files ih =>
      obtain ⟨path, content⟩ := f
      rw [List.map_cons, List.sum_cons] at hk
      obtain ⟨k, rfl⟩ : ∃ n, k = n + 1 := ⟨k - 1, by omega⟩
      obtain ⟨hblocks, hflat⟩ := readBlocks_spec content.length content (Nat.le_refl _)
      have hk : content.length + 1 + (files.map fun f => f.2.length + 1).sum < k + 1 := hk
      have hrounds : (readBlocks content.length content).flatten.length < k + 1 := by
        rw [hflat]
        omega
      obtain ⟨pieces, hrun, hpieces, hne, -⟩ := receiveBlock_chunkFile hd hblocks
        (files.flatMap fun f => readFile jcrPath f.1 f.2) hrounds
      obtain ⟨s, hreceive, hrun⟩ := bind_ok_iff.mp hrun
      have hfewer : (files.map fun f => f.2.length + 1).sum < k := by omega
      obtain ⟨cutFiles, hrest, hall⟩ := ih hfewer
      refine ⟨(recordedName jcrPath path, pieces) :: cutFiles, ?_,
        .cons ⟨rfl, hpieces.trans hflat, hne⟩ hall⟩
      have hstart : (fileStartChunk (recordedName jcrPath path)).flag.fileStart = true := rfl
      rw [List.flatMap_cons, readFile_eq, chunkThread, require_of hstart, hreceive]
      show (chunkFile d (k + 1) s >>= _) = _
      rw [hrun]
      show (chunkThread d k _ >>= _) = _
      rw [hrest]
      rfl

/-- However many rounds the chunk phase took for a directory tree, this is what it pushed. -/
theorem chunkThread_spec (hd : d.CutBy cut) {files : List (List UInt8 × List UInt8)} {k : Nat}
    {out : List Chunk}
    (h : chunkThread d k (files.flatMap fun f => readFile jcrPath f.1 f.2) = .ok (some out)) :
    ∃ cutFiles, out = cutFiles.flatMap chunkedFile ∧
      List.Forall₂ (PiecesOf jcrPath) files cutFiles := by
  have hk := Nat.le_add_right k ((files.map fun f => f.2.length + 1).sum + 1)
  obtain ⟨cutFiles, hrun, hall⟩ : ∃ cutFiles, _ ∧ List.Forall₂ (PiecesOf jcrPath) files cutFiles :=
    exists_chunkThread hd files (Nat.lt_of_lt_of_le (Nat.lt_succ_self _) (Nat.le_add_left _ k))
  rw [chunkThread_mono hk h] at hrun
  cases hrun
  exact ⟨cutFiles, rfl, hall⟩

end ChunkQueue

section HashQueue

variable (sha1 : List UInt8 → Fingerprint)

/-- What becomes of a file in pieces: each piece has its bytes and their hash. -/
def hashedFile (f : List UInt8 × List (List UInt8)) : InputFile :=
  { name := f.1, chunks := f.2.map fun bytes =>
      { fp := sha1 bytes, size := bytes.length, data := bytes } }

theorem sha1Chunk_dataChunk (bytes : List UInt8) :
    sha1Chunk sha1 (dataChunk bytes) = { dataChunk bytes with fp := sha1 bytes } := by
  have hdata : (dataChunk bytes).data.take (dataChunk bytes).size = bytes := List.take_length
  rw [sha1Chunk, hdata]
  rfl

theorem leadingContents_pieces (pieces : List (List UInt8)) (rest : List Chunk) :
    leadingContents (sha1Thread sha1 (pieces.map dataChunk ++ Chunk.fileEnd :: rest)) =
      pieces.map fun bytes => { fp := sha1 bytes, size := bytes.length, data := bytes } := by
  induction pieces with
  | nil => rfl
  | cons bytes pieces ih =>
      rw [List.map_cons, List.cons_append, sha1Thread, List.map_cons, sha1Chunk_dataChunk,
        leadingContents, List.map_cons]
      exact congrArg (_ :: ·) ih

theorem inputFiles_pieces (pieces : List (List UInt8)) (rest : List Chunk) :
    inputFiles (sha1Thread sha1 (pieces.map dataChunk ++ Chunk.fileEnd :: rest)) =
      inputFiles (sha1Thread sha1 rest) := by
  induction pieces with
  | nil => rfl
  | cons bytes pieces ih =>
      rw [List.map_cons, List.cons_append, sha1Thread, List.map_cons, sha1Chunk_dataChunk]
      exact ih

/-- The files of the stream are those that were cut. -/
theorem inputFiles_chunkedFiles {files : List (List UInt8 × List (List UInt8))}
    (hnul : ∀ f ∈ files, 0 ∉ f.1) :
    inputFiles (sha1Thread sha1 (files.flatMap chunkedFile)) = files.map (hashedFile sha1) := by
  induction files with
  | nil => rfl
  | cons f files ih =>
      obtain ⟨hname, hfiles⟩ := List.forall_mem_cons.mp hnul
      have hall : ∀ c ∈ f.1, decide (c ≠ 0) = true := by
        intro c hc
        apply decide_eq_true
        rintro rfl
        exact hname hc
      have hcut : (fileStartChunk f.1).data.takeWhile (· ≠ 0) = f.1 := by
        show (f.1 ++ [0]).takeWhile _ = _
        rw [List.takeWhile_append_of_pos hall]
        exact List.append_nil _
      have hsplit : (f :: files).flatMap chunkedFile = fileStartChunk f.1 ::
          (f.2.map dataChunk ++ Chunk.fileEnd :: files.flatMap chunkedFile) := by
        rw [List.flatMap_cons, chunkedFile, List.cons_append, List.cons_append, List.append_assoc]
        rfl
      have hstart : sha1Thread sha1 (fileStartChunk f.1 ::
            (f.2.map dataChunk ++ Chunk.fileEnd :: files.flatMap chunkedFile)) =
          fileStartChunk f.1 ::
            sha1Thread sha1 (f.2.map dataChunk ++ Chunk.fileEnd :: files.flatMap chunkedFile) := rfl
      rw [hsplit, hstart, inputFiles, hcut, leadingContents_pieces, inputFiles_pieces, ih hfiles]
      rfl

/-- A file that reaches deduplication: its bytes, in chunks that their hashes stand for. -/
structure Hashed (f : List UInt8 × List UInt8) (jcrPath : List UInt8) (g : InputFile) : Prop where
  name : g.name = recordedName jcrPath f.1
  bytes : g.bytes = f.2
  hashed : ∀ c ∈ g.chunks, c.fp = sha1 c.data ∧ c.size = c.data.length ∧ 1 ≤ c.size

theorem hashed_of_pieces {jcrPath : List UInt8} {f : List UInt8 × List UInt8}
    {g : List UInt8 × List (List UInt8)} (h : PiecesOf jcrPath f g) :
    Hashed sha1 f jcrPath (hashedFile sha1 g) := by
  refine ⟨h.name, ?_, fun c hc => ?_⟩
  · have htake : ∀ pieces : List (List UInt8), (hashedFile sha1 (g.1, pieces)).bytes =
        pieces.flatten := by
      intro pieces
      induction pieces with
      | nil => rfl
      | cons bytes pieces ih =>
          rw [List.flatten_cons, ← ih]
          exact congrArg (· ++ _) List.take_length
    exact (htake g.2).trans h.bytes
  · obtain ⟨bytes, hbytes, rfl⟩ := List.mem_map.mp hc
    exact ⟨rfl, rfl, List.length_pos_iff.mpr (h.ne_nil bytes hbytes)⟩

end HashQueue

section Delivered

variable {sha1 : List UInt8 → Fingerprint} {d : ChunkPhase} {cut : List UInt8 → Nat}
  {b : BackupPath} {files : List (List UInt8 × List UInt8)}

/-- What the three phases deliver, when names have no terminator in them: each file that is visited, in
order, with all its bytes. -/
theorem delivers_spec (hd : d.CutBy cut)
    (hvisited : findOneFile b.initJcr b.initJcr b.node =
      files.flatMap fun f => readFile b.initJcr f.1 f.2)
    (hnul : ∀ f ∈ files, 0 ∉ recordedName b.initJcr f.1) :
    (∃ delivered, Delivers sha1 d b delivered) ∧ ∀ delivered, Delivers sha1 d b delivered →
      List.Forall₂ (fun f g => Hashed sha1 f b.initJcr g) files delivered := by
  constructor
  · obtain ⟨cutFiles, hrun, -⟩ := exists_chunkThread hd files (Nat.lt_succ_self _)
    exact ⟨_, _, _, by rw [hvisited]; exact hrun, rfl⟩
  · rintro delivered ⟨k, out, hrun, rfl⟩
    rw [hvisited] at hrun
    obtain ⟨cutFiles, rfl, hall⟩ := chunkThread_spec hd hrun
    have hnames : ∀ f ∈ cutFiles, 0 ∉ f.1 := by
      intro g hg
      obtain ⟨f, hf, hpieces⟩ := mem_forall₂_right hall hg
      rw [hpieces.name]
      exact hnul f hf
    rw [inputFiles_chunkedFiles sha1 hnames]
    exact List.forall₂_map_right_iff.mpr (hall.imp fun f g hpieces => hashed_of_pieces sha1 hpieces)

end Delivered

end Destor
