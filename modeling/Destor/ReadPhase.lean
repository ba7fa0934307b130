/- digest: The read phase: a walk over a directory tree that pushes the files it finds. -/

import Destor.Basic

set_option autoImplicit false
set_option relaxedAutoImplicit false

namespace Destor

def defaultBlockSize : Nat := 1048576

/-- The character `/`. -/
def slash : UInt8 := 47

structure FileName where
  bytes : List UInt8
  ne_nil : bytes ≠ []
  no_slash : slash ∉ bytes
deriving DecidableEq

/-- The names `.` and `..`. -/
def FileName.isDots (name : FileName) : Bool := name.bytes == [46] || name.bytes == [46, 46]

mutual

/-- What `stat` says of an entry, and what is behind it. -/
inductive Node where
  | failing
  | file (content : List UInt8)
  | directory (entries : Entries)

/-- The entries of a directory in the order in which `readdir` returns them. -/
inductive Entries where
  | nil
  | cons (name : FileName) (node : Node) (rest : Entries)

end

def readBlocks : Nat → List UInt8 → List (List UInt8)
  | 0, _ => []
  | n + 1, bytes =>
      if bytes = [] then []
      else bytes.take defaultBlockSize :: readBlocks n (bytes.drop defaultBlockSize)

/-- The name under which `read_file` records a file: what follows the backup path, or the last
component with its slash where the backup path is a file. -/
def recordedName (jcrPath path : List UInt8) : List UInt8 :=
  if jcrPath.getLast? = some slash then path.drop jcrPath.length
  else path.drop (path.length - ((path.reverse.takeWhile (· ≠ slash)).length + 1))

def fileStartChunk (name : List UInt8) : Chunk :=
  { newChunk (name.length + 1) with flag := { fileStart := true }, data := name ++ [0] }

def readFile (jcrPath path content : List UInt8) : List Chunk :=
  fileStartChunk (recordedName jcrPath path) ::
    (readBlocks content.length content).map (fun bytes =>
      { newChunk bytes.length with data := bytes }) ++ [Chunk.fileEnd]

/-- The path of an entry; that of a directory ends in a slash. -/
def childPath (path : List UInt8) (name : FileName) : Node → List UInt8
  | .directory _ => path ++ name.bytes ++ [slash]
  | _ => path ++ name.bytes

mutual

def findOneFile (jcrPath path : List UInt8) : Node → List Chunk
  | .directory entries =>
      if path.getLast? = some slash then findEntries jcrPath path entries else []
  | .file content => if path.getLast? = some slash then [] else readFile jcrPath path content
  | .failing => []

/-- The loop of `find_one_file` over a directory. Its assertion, that no name ends in a slash,
holds of every `FileName`. -/
def findEntries (jcrPath path : List UInt8) : Entries → List Chunk
  | .nil => []
  | .cons name node rest =>
      if name.isDots then findEntries jcrPath path rest
      else match node with
        -- the warning, and the return out of the loop
        | .failing => []
        | .file content =>
            findOneFile jcrPath (childPath path name (.file content)) (.file content) ++
              findEntries jcrPath path rest
        | .directory entries =>
            findOneFile jcrPath (childPath path name (.directory entries)) (.directory entries) ++
              findEntries jcrPath path rest

end

section Specification

mutual

def Node.files (path : List UInt8) : Node → List (List UInt8 × List UInt8)
  | .directory entries => entries.files path
  | .file content => [(path, content)]
  | .failing => []

def Entries.files (path : List UInt8) : Entries → List (List UInt8 × List UInt8)
  | .nil => []
  | .cons name node rest =>
      (if name.isDots then [] else node.files (childPath path name node)) ++ rest.files path

end

/-- The pushed chunks are one group for each file, and nothing else. -/
def BacksUp (jcrPath : List UInt8) (files : List (List UInt8 × List UInt8))
    (pushed : List Chunk) : Prop :=
  ∃ order : List (List UInt8 × List UInt8), order.Perm files ∧
    pushed = order.flatMap fun f => readFile jcrPath f.1 f.2

mutual

def Node.fileNum : Node → Nat
  | .directory entries => entries.fileNum
  | .file _ => 1
  | .failing => 0

def Entries.fileNum : Entries → Nat
  | .nil => 0
  | .cons name node rest => (if name.isDots then 0 else node.fileNum) + rest.fileNum

end

mutual

def Node.NoneHidden : Node → Prop
  | .directory entries => entries.NoneHidden
  | .file _ => True
  | .failing => True

def Entries.NoneHidden : Entries → Prop
  | .nil => True
  | .cons name node rest =>
      if name.isDots then rest.NoneHidden
      else match node with
        | .failing => rest.fileNum = 0
        | .file _ => rest.NoneHidden
        | .directory entries => (Node.directory entries).NoneHidden ∧ rest.NoneHidden

end

end Specification

section Walk

variable {jcrPath : List UInt8}

mutual

/-- The files that the walk reaches, in its order. -/
def Node.visited (path : List UInt8) : Node → List (List UInt8 × List UInt8)
  | .directory entries => entries.visited path
  | .file content => [(path, content)]
  | .failing => []

def Entries.visited (path : List UInt8) : Entries → List (List UInt8 × List UInt8)
  | .nil => []
  | .cons name node rest =>
      if name.isDots then rest.visited path
      else match node with
        | .failing => []
        | .file content => (path ++ name.bytes, content) :: rest.visited path
        | .directory entries =>
            entries.visited (path ++ name.bytes ++ [slash]) ++ rest.visited path

end

private theorem getLast?_append_name (path : List UInt8) (name : FileName) :
    (path ++ name.bytes).getLast? ≠ some slash := by
  intro h
  rw [List.getLast?_append_of_ne_nil _ name.ne_nil] at h
  exact name.no_slash (List.mem_of_getLast? h)

private theorem findOneFile_file {path content : List UInt8} (h : path.getLast? ≠ some slash) :
    findOneFile jcrPath path (.file content) = readFile jcrPath path content :=
  if_neg h

mutual

theorem findOneFile_visited (path : List UInt8) (node : Node)
    (hpath : path.getLast? = some slash ↔ ∃ entries, node = .directory entries) :
    findOneFile jcrPath path node =
      (node.visited path).flatMap fun f => readFile jcrPath f.1 f.2 := by
  cases node with
  | failing => simp [findOneFile, Node.visited]
  | file content =>
      have hlast : ¬ path.getLast? = some slash := fun h => by
        obtain ⟨entries, heq⟩ := hpath.mp h
        cases heq
      rw [findOneFile, if_neg hlast, Node.visited]
      simp
  | directory entries =>
      have hlast : path.getLast? = some slash := hpath.mpr ⟨entries, rfl⟩
      rw [findOneFile, if_pos hlast, Node.visited]
      exact findEntries_visited path entries

theorem findEntries_visited (path : List UInt8) (entries : Entries) :
    findEntries jcrPath path entries =
      (entries.visited path).flatMap fun f => readFile jcrPath f.1 f.2 := by
  cases entries with
  | nil => simp [findEntries, Entries.visited]
  | cons name node rest =>
      have hrest := findEntries_visited path rest
      by_cases hdots : name.isDots = true
      · cases node <;> simp only [findEntries, Entries.visited, if_pos hdots, hrest]
      · cases node with
        | failing => simp only [findEntries, Entries.visited, if_neg hdots, List.flatMap_nil]
        | file content =>
            simp only [findEntries, Entries.visited, if_neg hdots, childPath, hrest,
              List.flatMap_cons, findOneFile_file (getLast?_append_name path name)]
        | directory entries =>
            have hchild := findEntries_visited (path ++ name.bytes ++ [slash]) entries
            simp only [findEntries, Entries.visited, if_neg hdots, findOneFile, childPath,
              List.getLast?_concat, if_true, hchild, hrest, List.flatMap_append]

end

mutual

/-- The walk meets no file twice and none that is not there. -/
theorem Node.visited_sublist (path : List UInt8) (node : Node) :
    (node.visited path).Sublist (node.files path) := by
  cases node with
  | failing => exact List.Sublist.refl _
  | file content => exact List.Sublist.refl _
  | directory entries => exact entries.visited_sublist path

theorem Entries.visited_sublist (path : List UInt8) (entries : Entries) :
    (entries.visited path).Sublist (entries.files path) := by
  cases entries with
  | nil => exact List.Sublist.refl _
  | cons name node rest =>
      have hrest := rest.visited_sublist path
      by_cases hdots : name.isDots = true
      · cases node <;>
          simpa only [Entries.visited, Entries.files, if_pos hdots, List.nil_append] using hrest
      · cases node with
        | failing =>
            rw [Entries.visited, if_neg hdots]
            exact List.nil_sublist _
        | file content =>
            simp only [Entries.visited, Entries.files, if_neg hdots]
            exact hrest.cons_cons _
        | directory entries =>
            have hchild := entries.visited_sublist (path ++ name.bytes ++ [slash])
            simp only [Entries.visited, Entries.files, if_neg hdots]
            exact hchild.append hrest

end

mutual

theorem Node.length_files (path : List UInt8) (node : Node) :
    (node.files path).length = node.fileNum := by
  cases node with
  | failing => rfl
  | file content => rfl
  | directory entries => exact entries.length_files path

theorem Entries.length_files (path : List UInt8) (entries : Entries) :
    (entries.files path).length = entries.fileNum := by
  cases entries with
  | nil => rfl
  | cons name node rest =>
      have hrest := rest.length_files path
      have hnode := node.length_files (childPath path name node)
      rw [Entries.files, Entries.fileNum, List.length_append, hrest]
      split
      · rfl
      · rw [hnode]

end

mutual

/-- The walk reaches every file exactly where no directory hides one. -/
theorem Node.length_visited (path : List UInt8) (node : Node) :
    (node.visited path).length = node.fileNum ↔ node.NoneHidden := by
  cases node with
  | failing => simp [Node.visited, Node.fileNum, Node.NoneHidden]
  | file content => simp [Node.visited, Node.fileNum, Node.NoneHidden]
  | directory entries => exact entries.length_visited path

theorem Entries.length_visited (path : List UInt8) (entries : Entries) :
    (entries.visited path).length = entries.fileNum ↔ entries.NoneHidden := by
  cases entries with
  | nil => simp [Entries.visited, Entries.fileNum, Entries.NoneHidden]
  | cons name node rest =>
      have hrest := rest.length_visited path
      have hle : (rest.visited path).length ≤ rest.fileNum := by
        rw [← rest.length_files path]
        exact (rest.visited_sublist path).length_le
      by_cases hdots : name.isDots = true
      · cases node <;>
          simpa only [Entries.visited, Entries.fileNum, Entries.NoneHidden, if_pos hdots,
            Nat.zero_add] using hrest
      · cases node with
        | failing =>
            simp only [Entries.visited, Entries.fileNum, Entries.NoneHidden, if_neg hdots,
              Node.fileNum, List.length_nil]
            omega
        | file content =>
            simp only [Entries.visited, Entries.fileNum, Entries.NoneHidden, if_neg hdots,
              Node.fileNum, List.length_cons]
            rw [← hrest]
            omega
        | directory entries =>
            have hchild := entries.length_visited (path ++ name.bytes ++ [slash])
            have hchildle : (entries.visited (path ++ name.bytes ++ [slash])).length ≤
                entries.fileNum := by
              rw [← entries.length_files (path ++ name.bytes ++ [slash])]
              exact (entries.visited_sublist _).length_le
            simp only [Entries.visited, Entries.fileNum, Entries.NoneHidden, if_neg hdots,
              Node.fileNum, Node.NoneHidden, List.length_append]
            rw [← hrest, ← hchild]
            omega

end

private theorem countP_readFile (f : List UInt8 × List UInt8) :
    (readFile jcrPath f.1 f.2).countP (fun c => c.flag.fileStart) = 1 := by
  simp [readFile, fileStartChunk, List.countP_append, List.countP_map, Chunk.fileEnd, newChunk,
    Function.comp_def]

private theorem countP_flatMap_readFile (files : List (List UInt8 × List UInt8)) :
    (files.flatMap fun f => readFile jcrPath f.1 f.2).countP (fun c => c.flag.fileStart) =
      files.length := by
  induction files with
  | nil => rfl
  | cons f files ih =>
      rw [List.flatMap_cons, List.countP_append, ih, countP_readFile, List.length_cons,
        Nat.add_comm]

/-- The read phase backs up every file of a directory tree if and only if no directory lists,
behind an entry on which `stat` fails, an entry that leads to a file. -/
theorem findOneFile_backsUp_iff (jcrPath path : List UInt8) (entries : Entries) :
    BacksUp jcrPath (entries.files (path ++ [slash]))
        (findOneFile jcrPath (path ++ [slash]) (.directory entries)) ↔ entries.NoneHidden := by
  have hpushed : findOneFile jcrPath (path ++ [slash]) (.directory entries) = _ :=
    findOneFile_visited (path ++ [slash]) (.directory entries)
      ⟨fun _ => ⟨entries, rfl⟩, fun _ => List.getLast?_concat⟩
  have hsub := entries.visited_sublist (path ++ [slash])
  rw [← entries.length_visited (path ++ [slash]), ← entries.length_files (path ++ [slash]),
    hpushed, Node.visited]
  constructor
  · rintro ⟨order, hperm, heq⟩
    have hcount := congrArg (List.countP fun c : Chunk => c.flag.fileStart) heq
    rw [countP_flatMap_readFile, countP_flatMap_readFile] at hcount
    rw [hcount, hperm.length_eq]
  · intro hlength
    exact ⟨_, (hsub.eq_of_length hlength) ▸ List.Perm.refl _, rfl⟩

private def nameA : FileName := ⟨[97], by decide, by decide⟩

private def nameB : FileName := ⟨[98], by decide, by decide⟩

/-- A dangling link listed before a file: nothing is pushed for the file. -/
theorem findOneFile_loses_file :
    ¬ BacksUp [47, 100, 47]
      (Entries.files [47, 100, 47] (.cons nameA .failing (.cons nameB (.file [1]) .nil)))
      (findOneFile [47, 100, 47] [47, 100, 47]
        (.directory (.cons nameA .failing (.cons nameB (.file [1]) .nil)))) := by
  rintro ⟨order, hperm, heq⟩
  have hlength : order.length = 1 := hperm.length_eq
  have hcount := congrArg (List.countP fun c : Chunk => c.flag.fileStart) heq
  rw [countP_flatMap_readFile, hlength] at hcount
  exact absurd hcount (by decide)

end Walk

end Destor
