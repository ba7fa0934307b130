/- digest: Restore through a forward assembly area that is filled container by container. -/

import Destor.Restore.DoRestore

set_option autoImplicit false
set_option relaxedAutoImplicit false

namespace Destor

open Library.Outcome Library.Bytes

/-- `assembly_area`, with the statistics and what was pushed to `restore_chunk_queue`. -/
structure AssemblyRestore where
  area : List Chunk
  areaSize : Int
  size : Int
  counts : RestoreCounts
  pushed : List Chunk

namespace AssemblyRestore

def init (cfg : Config) : AssemblyRestore :=
  { area := [], areaSize := (cfg.restoreCacheSize - 1) * containerSize, size := 0, counts := {},
    pushed := [] }

/-- What is done to the chunks of the container that was read: their data are copied from it, in
a simulation they only become ready. -/
def assembleChunk (cfg : Config) (env : RestoreEnv) (con : Option Container) (id : Int)
    (c : Chunk) : Except Abort Chunk :=
  if c.isNormal && id == c.id then
    match con with
    | none => .ok { c with flag := { c.flag with ready := true } }
    | some con => do
        let buf ← getChunkInContainer cfg (env.stray con c.fp) con c.fp
        require (c.size = buf.size) .assembledSizeMismatch
        return { c with flag := { c.flag with ready := true }, data := buf.data }
  else .ok c

/-- The pass of `assemble_area` over the whole area. -/
def assembleChunks (cfg : Config) (env : RestoreEnv) (con : Option Container) (id : Int) :
    List Chunk → Except Abort (List Chunk)
  | [] => .ok []
  | c :: cs => do
      let c ← assembleChunk cfg env con id c
      let cs ← assembleChunks cfg env con id cs
      return c :: cs

/-- The container that `assemble_area` reads, none in a simulation. -/
def readContainer (cfg : Config) (env : RestoreEnv) (id : Int) :
    Except Abort (Option Container) :=
  if cfg.simulationLevel.readsData then do
    let con ← env.store.retrieveContainerById cfg id
    return some con
  else .ok none

/-- What `assemble_area` issues without waiting: file boundaries, and chunks that are ready. -/
def issuable (c : Chunk) : Bool := !c.isNormal || c.flag.ready

/-- The bytes that leave the area with some chunks. -/
def issuedSize (cs : List Chunk) : Nat := ((cs.filter Chunk.isNormal).map Chunk.size).sum

def assembleArea (cfg : Config) (env : RestoreEnv) (s : AssemblyRestore) :
    Except Abort (Option (List Chunk) × AssemblyRestore) :=
  if s.area = [] then .ok (none, s)
  else
    let signals := s.area.takeWhile fun c => !c.isNormal
    match s.area.dropWhile fun c => !c.isNormal with
    | [] => .ok (some signals, { s with area := [] })
    | c :: rest => do
        let con ← readContainer cfg env c.id
        let area ← assembleChunks cfg env con c.id (c :: rest)
        return (some (signals ++ area.takeWhile issuable),
          { s with
            area := area.dropWhile issuable
            size := s.size - issuedSize (area.takeWhile issuable)
            counts := s.counts.readContainer })

/-- `assembly_area_push` for a chunk; it tells whether the area is full. -/
def areaPush (s : AssemblyRestore) (c : Chunk) : Bool × AssemblyRestore :=
  if c.isNormal then
    (decide (s.areaSize ≤ s.size + c.size),
      { s with area := s.area ++ [c], size := s.size + c.size })
  else (false, { s with area := s.area ++ [c] })

/-- The loop over an assembled queue: its chunks are counted, and pushed unless the restore is
simulated. -/
def issueChunk (cfg : Config) (s : AssemblyRestore) (rc : Chunk) : AssemblyRestore :=
  if rc.isNormal then
    { s with
      counts := s.counts.restoreChunk rc
      pushed := if cfg.simulationLevel.readsData then s.pushed ++ [rc] else s.pushed }
  else { s with pushed := s.pushed ++ [rc] }

/-- The loop body of `assembly_restore_thread`. -/
def chunk (cfg : Config) (env : RestoreEnv) (s : AssemblyRestore) (c : Chunk) :
    Except Abort AssemblyRestore :=
  let (full, s) := s.areaPush c
  if full then do
    let (q, s) ← s.assembleArea cfg env
    return (q.getD []).foldl (issueChunk cfg) s
  else .ok s

theorem assembleChunks_cons {cfg : Config} {env : RestoreEnv} {con : Option Container} {id : Int}
    {c : Chunk} {cs area : List Chunk}
    (h : assembleChunks cfg env con id (c :: cs) = .ok area) :
    ∃ c' cs', area = c' :: cs' ∧ assembleChunk cfg env con id c = .ok c' ∧
      assembleChunks cfg env con id cs = .ok cs' := by
  obtain ⟨c', hc, h⟩ := bind_ok_iff.mp h
  obtain ⟨cs', hcs, h⟩ := bind_ok_iff.mp h
  cases h
  exact ⟨c', cs', rfl, hc, hcs⟩

theorem length_assembleChunks {cfg : Config} {env : RestoreEnv} {con : Option Container} {id : Int}
    {cs area : List Chunk} (h : assembleChunks cfg env con id cs = .ok area) :
    area.length = cs.length := by
  induction cs generalizing area with
  | nil =>
      cases h
      rfl
  | cons c cs ih =>
      obtain ⟨c', cs', rfl, -, hcs⟩ := assembleChunks_cons h
      simp [ih hcs]

theorem assembleChunk_ready {cfg : Config} {env : RestoreEnv} {con : Option Container}
    {c c' : Chunk} (hc : c.isNormal = true) (h : assembleChunk cfg env con c.id c = .ok c') :
    c'.flag.ready = true := by
  unfold assembleChunk at h
  rw [if_pos (by simp [hc])] at h
  cases con with
  | none =>
      cases h
      rfl
  | some con =>
      obtain ⟨buf, -, h⟩ := bind_ok_iff.mp h
      obtain ⟨_, -, h⟩ := bind_ok_iff.mp h
      cases h
      rfl

/-- A call leaves fewer chunks in an area that was not empty. -/
theorem assembleArea_length {cfg : Config} {env : RestoreEnv} {s s' : AssemblyRestore}
    {q : Option (List Chunk)} (hne : s.area ≠ [])
    (h : s.assembleArea cfg env = .ok (q, s')) : s'.area.length < s.area.length := by
  have hpos := List.length_pos_iff.mpr hne
  unfold assembleArea at h
  rw [if_neg hne] at h
  have hle : (s.area.dropWhile fun c => !c.isNormal).length ≤ s.area.length :=
    (List.dropWhile_sublist _).length_le
  cases hdrop : s.area.dropWhile fun c => !c.isNormal with
  | nil =>
      simp only [hdrop] at h
      cases h
      exact hpos
  | cons c rest =>
      have hc : c.isNormal = true := by
        have hhead := List.head_dropWhile_not (fun c : Chunk => !c.isNormal)
          (l := s.area) (by simp [hdrop])
        simpa [hdrop] using hhead
      simp only [hdrop] at h hle
      obtain ⟨con, -, h⟩ := bind_ok_iff.mp h
      obtain ⟨area, harea, h⟩ := bind_ok_iff.mp h
      cases h
      have hlength := length_assembleChunks harea
      obtain ⟨c', cs', rfl, hc', -⟩ := assembleChunks_cons harea
      have hissue : issuable c' = true := by simp [issuable, assembleChunk_ready hc hc']
      have hrest : (cs'.dropWhile issuable).length ≤ cs'.length :=
        (List.dropWhile_sublist issuable).length_le
      simp only [List.length_cons] at hlength hle
      show ((c' :: cs').dropWhile issuable).length < s.area.length
      rw [List.dropWhile_cons_of_pos hissue]
      omega

/-- An assembled queue comes from an area that was not empty. -/
theorem area_ne_nil {cfg : Config} {env : RestoreEnv} {s s' : AssemblyRestore} {q : List Chunk}
    (h : s.assembleArea cfg env = .ok (some q, s')) : s.area ≠ [] := by
  intro hnil
  simp [assembleArea, hnil] at h

theorem foldl_issueChunk_area (cfg : Config) (q : List Chunk) (s : AssemblyRestore) :
    (q.foldl (issueChunk cfg) s).area = s.area := by
  induction q generalizing s with
  | nil => rfl
  | cons rc q ih =>
      rw [List.foldl_cons, ih]
      unfold issueChunk
      split <;> rfl

/-- The final loop of `assembly_restore_thread`, which ends because each round removes a chunk. -/
def drain (cfg : Config) (env : RestoreEnv) (s : AssemblyRestore) : Except Abort AssemblyRestore :=
  match h : s.assembleArea cfg env with
  | .error e => .error e
  | .ok (none, s') => .ok s'
  | .ok (some q, s') =>
      have : s'.area.length < s.area.length := assembleArea_length (area_ne_nil h) h
      drain cfg env (q.foldl (issueChunk cfg) s')
termination_by s.area.length
decreasing_by
  rw [foldl_issueChunk_area]
  exact this

end AssemblyRestore

def assemblyRestoreThread (cfg : Config) (env : RestoreEnv) (stream : List Chunk) :
    Except Abort (RestoreCounts × List Chunk × List Chunk) := do
  let s ← foldE (AssemblyRestore.chunk cfg env) (AssemblyRestore.init cfg) stream
  let s ← s.drain cfg env
  return (s.counts, s.pushed, s.area)

end Destor
