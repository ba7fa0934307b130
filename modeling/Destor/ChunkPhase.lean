/- digest: The chunk phase: which configurations it starts with, the loop that refills the buffer and
   cuts it, and that a file is cut into the pieces of its bytes. -/

import Destor.Chunking.AeChunking
import Destor.Chunking.FastcdcChunking
import Destor.Library.Cutting
import Destor.ReadPhase
import Destor.Storage.Containerstore

set_option autoImplicit false
set_option relaxedAutoImplicit false

namespace Destor

open Library Library.Outcome

inductive ChunkAlgorithm where
  | fixed
  | file
  | rabin
  | normalizedRabin
  | tttd
  | ae
  | fastcdc
deriving DecidableEq

structure ChunkPhase where
  sizes : ChunkSizes
  chunking : List UInt8 → Except Abort Int

def fixedChunkData (c : ChunkSizes) (p : List UInt8) : Int :=
  if (p.length : Int) < c.chunkAvgSize then p.length else c.chunkAvgSize

section Start

def containerDataSize : Int := containerSize - containerMetaSize

/-- `for (pwr = 0; destor.chunk_avg_size; pwr++) destor.chunk_avg_size >>= 1`, for `k` rounds at
most. -/
def pwrLoop : Nat → Int → Nat → Option Nat
  | 0, _, _ => none
  | k + 1, avg, pwr => if avg = 0 then some pwr else pwrLoop k (avg >>> (1 : Nat)) (pwr + 1)

/-- The average rounded down to a power of two. An `int` that is not negative is zero after 31 rounds
at most, a negative one never. -/
def roundAvgSize (avg : Int) : Except Abort Int :=
  match pwrLoop 32 avg 0 with
  | some (pwr + 1) => .ok (2 ^ pwr)
  | _ => .error .chunkAvgSizeRounding

/-- The common part of the three algorithms that use the rolling hash. -/
def roundedSizes (c : ChunkSizes) : Except Abort ChunkSizes := do
  let avg ← roundAvgSize c.chunkAvgSize
  require (c.chunkMinSize ≤ avg) .chunkSizeAssert
  require (avg ≤ c.chunkMaxSize) .chunkSizeAssert
  require (c.chunkMaxSize ≤ containerDataSize) .chunkSizeAssert
  return { c with chunkAvgSize := avg }

variable (aeWindow : Int → Int) (gear : UInt8 → UINT64)

/-- `start_chunk_phase`; `aeWindow` is the division in floating point of `ae_init`. -/
def startChunkPhase (algorithm : ChunkAlgorithm) (c : ChunkSizes) : Except Abort ChunkPhase :=
  match algorithm with
  | .rabin => do
      let c ← roundedSizes c
      return { sizes := c, chunking := rabinChunkData c }
  | .normalizedRabin => do
      let c ← roundedSizes c
      return { sizes := c, chunking := normalizedRabinChunkData c }
  | .tttd => do
      let c ← roundedSizes c
      return { sizes := c, chunking := tttdChunkData c }
  | .fixed => do
      require (c.chunkAvgSize ≤ containerDataSize) .chunkSizeAssert
      let c := { c with chunkMaxSize := c.chunkAvgSize }
      return { sizes := c, chunking := fun p => .ok (fixedChunkData c p) }
  | .file =>
      let c := { c with chunkAvgSize := containerDataSize, chunkMaxSize := containerDataSize }
      .ok { sizes := c, chunking := fun p => .ok (fixedChunkData c p) }
  | .ae => do
      require (c.chunkAvgSize ≤ c.chunkMaxSize) .chunkSizeAssert
      require (c.chunkMaxSize ≤ containerDataSize) .chunkSizeAssert
      return { sizes := c
               chunking := fun p => .ok (aeChunkData (aeWindow c.chunkAvgSize) c.chunkMaxSize p) }
  | .fastcdc => do
      require (c.chunkAvgSize ≤ c.chunkMaxSize) .chunkSizeAssert
      require (c.chunkMaxSize ≤ containerDataSize) .chunkSizeAssert
      let f ← fastcdcInit c
      return { sizes := c, chunking := fastcdcChunkData gear f }

end Start

/-- A chunk of some bytes, as `read_file` and `chunk_thread` push it. -/
def dataChunk (bytes : List UInt8) : Chunk := { newChunk bytes.length with data := bytes }

section Thread

/-- The variables of `chunk_thread` within a file: what is left on `read_queue`, the `leftlen` bytes
at `leftoff` of `leftbuf`, `leftoff`, `c`, and what has been pushed to `chunk_queue`. -/
structure FileState where
  queue : List Chunk
  left : List UInt8
  leftoff : Nat
  c : Option Chunk
  out : List Chunk

variable (d : ChunkPhase)

def leftbufSize : Int := defaultBlockSize + d.sizes.chunkMaxSize

/-- The loop that pops blocks until a chunk of the maximum size is there or the file ends: the queue,
`leftbuf`, `leftoff` and `c` behind it. -/
def refillLoop : List Chunk → List UInt8 → Nat →
    Except Abort (List Chunk × List UInt8 × Nat × Option Chunk)
  | [], left, leftoff =>
      if (left.length : Int) < d.sizes.chunkMaxSize then .error .readQueueEnded
      else .ok ([], left, leftoff, none)
  | c :: queue, left, leftoff =>
      if (left.length : Int) < d.sizes.chunkMaxSize then
        if c.flag.fileEnd then .ok (queue, left, leftoff, some c)
        else do
          require ((left.length : Int) + c.size ≤ leftbufSize d) .chunkBuffer
          refillLoop queue (left ++ c.data.take c.size) 0
      else .ok (c :: queue, left, leftoff, none)

def refillLeftbuf (s : FileState) : Except Abort FileState :=
  match s.c with
  | some _ => .ok s
  | none => do
      let r ← refillLoop d s.queue s.left s.leftoff
      return { s with queue := r.1, left := r.2.1, leftoff := r.2.2.1, c := r.2.2.2 }

/-- The loop of `chunk_thread` over the chunks of a file, for at most `k` rounds; `none` if it has
not left the loop by then. -/
def chunkFile : Nat → FileState → Except Abort (Option FileState)
  | 0, _ => .ok none
  | k + 1, s => do
      let s ← refillLeftbuf d s
      if s.left = [] then
        match s.c with
        | some c => .ok (some { s with out := s.out ++ [c], leftoff := 0, c := none })
        | none => .error .chunkFileEnd
      else do
        require ((s.leftoff : Int) + s.left.length ≤ leftbufSize d) .chunkBuffer
        let size ← d.chunking s.left
        require (0 ≤ size ∧ size ≤ s.left.length) .chunkBuffer
        chunkFile k { s with
          left := s.left.drop size.toNat
          leftoff := s.leftoff + size.toNat
          out := s.out ++ [dataChunk (s.left.take size.toNat)] }

def receiveBlock (queue : List Chunk) : Except Abort FileState :=
  match queue with
  | [] => .error .readQueueEnded
  | c :: queue =>
      if c.flag.fileEnd then .ok { queue := queue, left := [], leftoff := 0, c := some c, out := [] }
      else do
        require ((c.size : Int) ≤ leftbufSize d) .chunkBuffer
        return { queue := queue, left := c.data.take c.size, leftoff := 0, c := none, out := [] }

/-- `chunk_thread` over `read_queue` from the start of a file on: what it pushes to `chunk_queue`, or
`none` if the rounds do not suffice. -/
def chunkThread : Nat → List Chunk → Except Abort (Option (List Chunk))
  | 0, _ => .ok none
  | _ + 1, [] => .ok (some [])
  | k + 1, c :: queue => do
      require (c.flag.fileStart = true) .chunkFileStart
      let s ← receiveBlock d queue
      let file ← chunkFile d (k + 1) s
      match file with
      | none => .ok none
      | some s => do
          let rest ← chunkThread k s.queue
          return rest.map fun out => c :: s.out ++ out

end Thread

section Run

/-- What `read_queue` holds of a file whose start has been popped. -/
def fileQueue (blocks : List (List UInt8)) (rest : List Chunk) : List Chunk :=
  blocks.map dataChunk ++ Chunk.fileEnd :: rest

/-- Blocks as `read_file` pushes them. -/
def ReadBlocks (blocks : List (List UInt8)) : Prop :=
  ∀ b ∈ blocks, b ≠ [] ∧ b.length ≤ defaultBlockSize

structure ChunkPhase.CutBy (d : ChunkPhase) (cut : List UInt8 → Nat) : Prop where
  max_pos : 1 ≤ d.sizes.chunkMaxSize
  chunking_eq : ∀ p, p ≠ [] → (p.length : Int) ≤ leftbufSize d → d.chunking p = .ok (cut p : Int)
  cuts : Cuts cut

/-- Where `chunk_thread` is in a file: some blocks are still to be popped, and they and the end of the
file follow on the queue, or the end has been popped. -/
private structure FileState.Within (d : ChunkPhase) (s : FileState) (blocks : List (List UInt8))
    (rest : List Chunk) : Prop where
  blocks_ok : ReadBlocks blocks
  queue_eq : (s.c = none ∧ s.queue = fileQueue blocks rest) ∨
    (s.c = some Chunk.fileEnd ∧ blocks = [] ∧ s.queue = rest)
  fits : (s.leftoff : Int) + s.left.length ≤ leftbufSize d

variable {d : ChunkPhase} {cut : List UInt8 → Nat} {s : FileState} {blocks : List (List UInt8)}
  {rest : List Chunk}

private theorem refillLoop_within (hb : ReadBlocks blocks) (rest : List Chunk) {left : List UInt8}
    {leftoff : Nat} (hfits : (leftoff : Int) + left.length ≤ leftbufSize d) (out : List Chunk) :
    ∃ queue left' leftoff' c blocks', refillLoop d (fileQueue blocks rest) left leftoff =
        .ok (queue, left', leftoff', c) ∧
      FileState.Within d { queue := queue, left := left', leftoff := leftoff', c := c, out := out }
        blocks' rest ∧
      left' ++ blocks'.flatten = left ++ blocks.flatten ∧
      (c = none → d.sizes.chunkMaxSize ≤ left'.length) := by
  induction blocks generalizing left leftoff with
  | nil =>
      by_cases hlt : (left.length : Int) < d.sizes.chunkMaxSize
      · refine ⟨rest, left, leftoff, some Chunk.fileEnd, [], ?_, ⟨hb, .inr ⟨rfl, rfl, rfl⟩, hfits⟩,
          rfl, fun h => by cases h⟩
        exact (if_pos hlt).trans rfl
      · refine ⟨fileQueue [] rest, left, leftoff, none, [], ?_, ⟨hb, .inl ⟨rfl, rfl⟩, hfits⟩, rfl,
          fun _ => by omega⟩
        exact if_neg hlt
  | cons b blocks ih =>
      by_cases hlt : (left.length : Int) < d.sizes.chunkMaxSize
      · have hlen := (hb b List.mem_cons_self).2
        have hroom : (left.length : Int) + (dataChunk b).size ≤ leftbufSize d := by
          show (left.length : Int) + b.length ≤ leftbufSize d
          rw [leftbufSize]
          omega
        have hnotend : (dataChunk b).flag.fileEnd = false := rfl
        have hdata : (dataChunk b).data.take (dataChunk b).size = b := List.take_length
        have hstep : refillLoop d (fileQueue (b :: blocks) rest) left leftoff =
            refillLoop d (fileQueue blocks rest) (left ++ b) 0 := by
          rw [fileQueue, List.map_cons, List.cons_append, refillLoop, if_pos hlt,
            hnotend, if_neg Bool.false_ne_true, require_of hroom, hdata]
          rfl
        have hkept : ((0 : Nat) : Int) + (left ++ b).length ≤ leftbufSize d := by
          rw [List.length_append]
          have hsize : (dataChunk b).size = b.length := rfl
          omega
        obtain ⟨queue, left', leftoff', c, blocks', heq, hwithin, hflat, hfull⟩ :=
          ih (fun x hx => hb x (List.mem_cons_of_mem b hx)) hkept
        refine ⟨queue, left', leftoff', c, blocks', hstep.trans heq, hwithin, ?_, hfull⟩
        rw [hflat, List.flatten_cons, List.append_assoc]
      · refine ⟨fileQueue (b :: blocks) rest, left, leftoff, none, b :: blocks, ?_,
          ⟨hb, .inl ⟨rfl, rfl⟩, hfits⟩, rfl, fun _ => by omega⟩
        exact if_neg hlt

private theorem refillLeftbuf_within (h : s.Within d blocks rest) :
    ∃ s' blocks', refillLeftbuf d s = .ok s' ∧
    s'.Within d blocks' rest ∧ s'.left ++ blocks'.flatten = s.left ++ blocks.flatten ∧
    s'.out = s.out ∧ (s'.c = none → d.sizes.chunkMaxSize ≤ s'.left.length) := by
  obtain ⟨queue, left, leftoff, c, out⟩ := s
  obtain ⟨hb, hqueue | hqueue, hfits⟩ := h
  · obtain ⟨rfl, rfl⟩ := hqueue
    obtain ⟨queue, left', leftoff', c, blocks', heq, hwithin, hflat, hfull⟩ :=
      refillLoop_within hb rest hfits out
    refine ⟨_, blocks', ?_, hwithin, hflat, rfl, hfull⟩
    rw [refillLeftbuf]
    show (do
      let r ← refillLoop d (fileQueue blocks rest) left leftoff
      pure ({ queue := r.1, left := r.2.1, leftoff := r.2.2.1, c := r.2.2.2, out := out } :
        FileState) : Except Abort FileState) = _
    rw [heq]
    rfl
  · obtain ⟨rfl, rfl, rfl⟩ := hqueue
    exact ⟨_, [], rfl, ⟨hb, .inr ⟨rfl, rfl, rfl⟩, hfits⟩, rfl, rfl, fun h => by cases h⟩

/-- The loop after it cut a chunk off. -/
private def FileState.afterCut (s : FileState) (cut : List UInt8 → Nat) : FileState :=
  { s with
    left := s.left.drop (cut s.left)
    leftoff := s.leftoff + cut s.left
    out := s.out ++ [dataChunk (s.left.take (cut s.left))] }

private theorem chunkFile_cut {s s' : FileState} (hd : d.CutBy cut) (k : Nat)
    (hrefill : refillLeftbuf d s = .ok s') (hwithin : s'.Within d blocks rest)
    (hleft : s'.left ≠ []) :
    chunkFile d (k + 1) s = chunkFile d k (s'.afterCut cut) ∧
      (s'.afterCut cut).Within d blocks rest := by
  have hfits := hwithin.fits
  have hle := hd.cuts.le_length _ hleft
  have hcut := hd.chunking_eq s'.left hleft (by omega)
  constructor
  · rw [chunkFile, hrefill]
    show (if s'.left = [] then _ else _) = _
    rw [if_neg hleft, require_of hwithin.fits, hcut]
    show (do
      require (0 ≤ (cut s'.left : Int) ∧ (cut s'.left : Int) ≤ s'.left.length)
        Abort.chunkBuffer
      _) = _
    rw [require_of ⟨by omega, by omega⟩]
    rfl
  · refine ⟨hwithin.blocks_ok, hwithin.queue_eq, ?_⟩
    show ((s'.leftoff + cut s'.left : Nat) : Int) + (s'.left.drop (cut s'.left)).length ≤ _
    rw [List.length_drop]
    omega

/-- Within a file the rounds reach its end: one round for each chunk and one for the end. The
chunks are non-empty and make up the bytes; if the cut is a local one they are the pieces of these
bytes, wherever the blocks end. -/
private theorem chunkFile_within (hd : d.CutBy cut) (k : Nat) (h : s.Within d blocks rest)
    (hk : (s.left ++ blocks.flatten).length < k) : ∃ L : List (List UInt8),
      chunkFile d k s = .ok (some { queue := rest, left := [], leftoff := 0, c := none
                                    out := s.out ++ L.map dataChunk ++ [Chunk.fileEnd] }) ∧
      L.flatten = s.left ++ blocks.flatten ∧ (∀ bytes ∈ L, bytes ≠ []) ∧
      (LocalCut d.sizes.chunkMaxSize.toNat cut → L = piecesOf cut (s.left ++ blocks.flatten)) := by
  induction k generalizing s blocks with
  | zero => omega
  | succ k ih =>
      obtain ⟨s', blocks', hrefill, hwithin, hflat, hout, hfull⟩ := refillLeftbuf_within h
      have hmax := hd.max_pos
      rw [← hflat] at hk ⊢
      by_cases hleft : s'.left = []
      · -- no bytes are left behind a refill: the file has ended
        have hended : s'.c = some Chunk.fileEnd ∧ blocks' = [] ∧ s'.queue = rest := by
          obtain hnone | hended := hwithin.queue_eq
          · have hge := hfull hnone.1
            rw [hleft, List.length_nil] at hge
            omega
          · exact hended
        obtain ⟨hc, hblocks, hqueue⟩ := hended
        have hempty : s'.left ++ blocks'.flatten = [] := by rw [hleft, hblocks]; rfl
        refine ⟨[], ?_, hempty.symm, fun _ hr => absurd hr List.not_mem_nil, fun _ => ?_⟩
        · rw [chunkFile, hrefill]
          show (if s'.left = [] then _ else _) = _
          rw [if_pos hleft, hc]
          rw [hqueue, hleft, hout]
          simp
        · rw [hempty]
          rfl
      · have hpos := hd.cuts.pos _ hleft
        have hle := hd.cuts.le_length _ hleft
        obtain ⟨hstep, hnext⟩ := chunkFile_cut hd k hrefill hwithin hleft
        obtain ⟨L, hrun, hL, hne, hlocal⟩ := ih hnext (by
          show (s'.left.drop (cut s'.left) ++ blocks'.flatten).length < k
          rw [List.length_append, List.length_drop]
          rw [List.length_append] at hk
          omega)
        dsimp only [FileState.afterCut] at hstep hrun hL hlocal
        refine ⟨s'.left.take (cut s'.left) :: L, ?_, ?_, ?_, ?_⟩
        · rw [hstep, hrun, hout]
          simp
        · rw [List.flatten_cons, hL, ← List.append_assoc, List.take_append_drop]
        · intro bytes hmem
          obtain rfl | hmem := List.mem_cons.mp hmem
          · intro hnil
            have hlen := congrArg List.length hnil
            rw [List.length_take, List.length_nil] at hlen
            omega
          · exact hne bytes hmem
        · intro hloc
          have hwhole : s'.left ++ blocks'.flatten ≠ [] := by
            intro hnil
            exact hleft (List.append_eq_nil_iff.mp hnil).1
          have hsame : cut (s'.left ++ blocks'.flatten) = cut s'.left := by
            obtain ⟨hnone, _⟩ | ⟨_, hblocks, _⟩ := hwithin.queue_eq
            · have hge := hfull hnone
              exact hloc.append (by omega) _
            · rw [hblocks, List.flatten_nil, List.append_nil]
          rw [piecesOf_cons hd.cuts hwhole, hsame, List.take_append_of_le_length hle,
            List.drop_append_of_le_length hle, hlocal hloc]

private theorem receiveBlock_within (hmax : 1 ≤ d.sizes.chunkMaxSize) (hb : ReadBlocks blocks)
    (rest : List Chunk) :
    ∃ s blocks', receiveBlock d (fileQueue blocks rest) = .ok s ∧ s.Within d blocks' rest ∧
      s.left ++ blocks'.flatten = blocks.flatten ∧ s.out = [] := by
  have hroom : ∀ n : Nat, n ≤ defaultBlockSize → (n : Int) ≤ leftbufSize d := by
    intro n hn
    rw [leftbufSize]
    omega
  cases blocks with
  | nil => exact ⟨_, [], rfl, ⟨hb, .inr ⟨rfl, rfl, rfl⟩, hroom 0 (Nat.zero_le _)⟩, rfl, rfl⟩
  | cons b blocks =>
      have hlen := hroom _ (hb b List.mem_cons_self).2
      have hdata : (dataChunk b).data.take (dataChunk b).size = b := List.take_length
      refine ⟨{ queue := fileQueue blocks rest, left := b, leftoff := 0, c := none, out := [] },
        blocks, ?_, ⟨fun x hx => hb x (List.mem_cons_of_mem b hx), .inl ⟨rfl, rfl⟩, ?_⟩, rfl, rfl⟩
      · show (do
          require ((b.length : Int) ≤ leftbufSize d) .chunkBuffer
          pure ({ queue := fileQueue blocks rest
                  left := (dataChunk b).data.take (dataChunk b).size
                  leftoff := 0, c := none, out := [] } : FileState) : Except Abort FileState) = _
        rw [require_of hlen, hdata]
        rfl
      · show ((0 : Nat) : Int) + b.length ≤ leftbufSize d
        omega

/-- `chunk_thread` reaches the end of the file: behind a `CHUNK_FILE_START` it pushes non-empty chunks
that make up the bytes of the blocks, then the `CHUNK_FILE_END`, and has popped no more than that. -/
def ReachesFileEnd (d : ChunkPhase) (blocks : List (List UInt8)) (rest : List Chunk) : Prop :=
  ∃ k s, (receiveBlock d (fileQueue blocks rest) >>= chunkFile d k) = .ok (some s) ∧
    s.queue = rest ∧ ∃ L : List (List UInt8), s.out = L.map dataChunk ++ [Chunk.fileEnd] ∧
      L.flatten = blocks.flatten ∧ ∀ bytes ∈ L, bytes ≠ []

/-- What the loop leaves of a file, for every number of rounds above the number of its bytes. -/
theorem receiveBlock_chunkFile (hd : d.CutBy cut) (hb : ReadBlocks blocks) (rest : List Chunk)
    {k : Nat} (hk : blocks.flatten.length < k) : ∃ L : List (List UInt8),
      (receiveBlock d (fileQueue blocks rest) >>= chunkFile d k) =
        .ok (some { queue := rest, left := [], leftoff := 0, c := none
                    out := L.map dataChunk ++ [Chunk.fileEnd] }) ∧
      L.flatten = blocks.flatten ∧ (∀ bytes ∈ L, bytes ≠ []) ∧
      (LocalCut d.sizes.chunkMaxSize.toNat cut → L = piecesOf cut blocks.flatten) := by
  obtain ⟨s, blocks', hreceive, hwithin, hflat, hout⟩ :=
    receiveBlock_within hd.max_pos hb rest
  rw [← hflat] at hk ⊢
  obtain ⟨L, hrun, hrest⟩ := chunkFile_within hd k hwithin hk
  refine ⟨L, ?_, hrest⟩
  rw [hreceive]
  show chunkFile d k s = _
  rw [hrun, hout, List.nil_append]

/-- A chunker that takes something of every buffer reaches the end of every file. -/
theorem reachesFileEnd_of_cut (hd : d.CutBy cut) (hb : ReadBlocks blocks) (rest : List Chunk) :
    ReachesFileEnd d blocks rest := by
  obtain ⟨L, hrun, hflat, hne, _⟩ :=
    receiveBlock_chunkFile hd hb rest (Nat.lt_succ_self blocks.flatten.length)
  exact ⟨_, _, hrun, rfl, L, rfl, hflat, hne⟩

/-- With no room for a byte the loop never pops the end of the file. -/
theorem not_reachesFileEnd_of_max (hmax : d.sizes.chunkMaxSize ≤ 0) (b : UInt8) :
    ¬ ReachesFileEnd d [[b]] rest := by
  have hloop : ∀ k s s', s.c = none → chunkFile d k s ≠ .ok (some s') := by
    intro k
    induction k with
    | zero => intro s s' _ h; cases h
    | succ k ih =>
        intro s s' hc h
        have hrefill : refillLeftbuf d s = .ok s := by
          obtain ⟨queue, left, leftoff, c, out⟩ := s
          have hc : c = none := hc
          subst hc
          have hstay : refillLoop d queue left leftoff = .ok (queue, left, leftoff, none) := by
            cases queue with
            | nil => exact if_neg (by omega)
            | cons c queue => exact if_neg (by omega)
          rw [refillLeftbuf]
          show (do
            let r ← refillLoop d queue left leftoff
            pure ({ queue := r.1, left := r.2.1, leftoff := r.2.2.1, c := r.2.2.2, out := out } :
              FileState) : Except Abort FileState) = _
          rw [hstay]
          rfl
        rw [chunkFile, hrefill] at h
        change (if s.left = [] then _ else _) = _ at h
        split at h
        · rw [hc] at h
          cases h
        · obtain ⟨_, _, h⟩ := bind_ok_iff.mp h
          obtain ⟨size, _, h⟩ := bind_ok_iff.mp h
          obtain ⟨_, _, h⟩ := bind_ok_iff.mp h
          refine ih _ s' ?_ h
          exact hc
  rintro ⟨k, s, hrun, _⟩
  obtain ⟨s₀, hreceive, hrun⟩ := bind_ok_iff.mp hrun
  have hc : s₀.c = none := by
    change (do
      require ((([b] : List UInt8).length : Int) ≤ leftbufSize d) .chunkBuffer
      pure _ : Except Abort FileState) = _ at hreceive
    obtain ⟨_, _, hreceive⟩ := bind_ok_iff.mp hreceive
    cases hreceive
    rfl
  exact hloop k s₀ s hc hrun

/-- A chunker that takes nothing of a byte never gets beyond it. -/
theorem not_reachesFileEnd_of_stuck (b : UInt8) (h : ∀ size, d.chunking [b] = .ok size → size ≤ 0) :
    ¬ ReachesFileEnd d [[b]] rest := by
  have hloop : ∀ k s s', s.left = [b] → (s.c = none ∧ s.queue = fileQueue [] rest ∨
      s.c = some Chunk.fileEnd) → chunkFile d k s ≠ .ok (some s') := by
    intro k
    induction k with
    | zero => intro s s' _ _ hrun; cases hrun
    | succ k ih =>
        intro s s' hleft hc hrun
        have hrefill : ∃ s₁, refillLeftbuf d s = .ok s₁ ∧ s₁.left = [b] ∧
            (s₁.c = none ∧ s₁.queue = fileQueue [] rest ∨ s₁.c = some Chunk.fileEnd) := by
          obtain ⟨queue, left, leftoff, c, out⟩ := s
          obtain ⟨hnone, hqueue⟩ | hend := hc
          · have hnone : c = none := hnone
            have hqueue : queue = fileQueue [] rest := hqueue
            subst hnone hqueue
            by_cases hlt : (left.length : Int) < d.sizes.chunkMaxSize
            · have hpop : refillLoop d (fileQueue [] rest) left leftoff =
                  .ok (rest, left, leftoff, some Chunk.fileEnd) := (if_pos hlt).trans rfl
              refine ⟨{ queue := rest, left := left, leftoff := leftoff, c := some Chunk.fileEnd
                        out := out }, ?_, hleft, .inr rfl⟩
              rw [refillLeftbuf]
              exact (congrArg (· >>= _) hpop).trans rfl
            · have hstay : refillLoop d (fileQueue [] rest) left leftoff =
                  .ok (fileQueue [] rest, left, leftoff, none) := if_neg hlt
              refine ⟨{ queue := fileQueue [] rest, left := left, leftoff := leftoff, c := none
                        out := out }, ?_, hleft, .inl ⟨rfl, rfl⟩⟩
              rw [refillLeftbuf]
              exact (congrArg (· >>= _) hstay).trans rfl
          · have hend : c = some Chunk.fileEnd := hend
            subst hend
            exact ⟨_, rfl, hleft, .inr rfl⟩
        obtain ⟨s₁, hok, hleft₁, hc₁⟩ := hrefill
        rw [chunkFile, hok] at hrun
        change (if s₁.left = [] then _ else _) = _ at hrun
        rw [hleft₁, if_neg (List.cons_ne_nil b [])] at hrun
        obtain ⟨_, _, hrun⟩ := bind_ok_iff.mp hrun
        obtain ⟨size, hsize, hrun⟩ := bind_ok_iff.mp hrun
        obtain ⟨_, hpos, hrun⟩ := bind_ok_iff.mp hrun
        have hle := h size hsize
        have hge := (require_ok_iff.mp hpos).1
        have hzero : size.toNat = 0 := by omega
        rw [hzero] at hrun
        refine ih _ s' ?_ ?_ hrun
        · rfl
        · exact hc₁
  rintro ⟨k, s, hrun, _⟩
  obtain ⟨s₀, hreceive, hrun⟩ := bind_ok_iff.mp hrun
  have hs₀ : s₀.left = [b] ∧ s₀.c = none ∧ s₀.queue = fileQueue [] rest := by
    change (do
      require ((([b] : List UInt8).length : Int) ≤ leftbufSize d) .chunkBuffer
      pure _ : Except Abort FileState) = _ at hreceive
    obtain ⟨_, _, hreceive⟩ := bind_ok_iff.mp hreceive
    cases hreceive
    exact ⟨rfl, rfl, rfl⟩
  exact hloop k s₀ s hs₀.1 (.inl hs₀.2) hrun

end Run

end Destor
