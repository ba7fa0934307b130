/- digest: The files of a directory tree at their places, and that the read, chunk and hash phases deliver
   each of them under the name of its place. -/

import Destor.HashPhase

set_option autoImplicit false
set_option relaxedAutoImplicit false

namespace Destor

open Library Library.Outcome Library.PathName Library.FileTree Library.RelatedLists

section Trees

def Entries.names : Entries → List FileName
  | .nil => []
  | .cons name _ rest => name :: rest.names

mutual

/-- A tree as a file system has it: in each directory a name occurs once, and no name has a terminator
in it. -/
def Node.Proper : Node → Prop
  | .directory entries => entries.Proper
  | .file _ => True
  | .failing => True

def Entries.Proper : Entries → Prop
  | .nil => True
  | .cons name node rest => 0 ∉ name.bytes ∧ name ∉ rest.names ∧ node.Proper ∧ rest.Proper

end

mutual

def Node.placed (place : List (List UInt8)) : Node → List (List (List UInt8) × List UInt8)
  | .directory entries => entries.placed place
  | .file content => [(place, content)]
  | .failing => []

def Entries.placed (place : List (List UInt8)) :
    Entries → List (List (List UInt8) × List UInt8)
  | .nil => []
  | .cons name node rest =>
      if name.isDots then rest.placed place
      else match node with
        | .failing => []
        | .file content => (place ++ [name.bytes], content) :: rest.placed place
        | .directory entries => entries.placed (place ++ [name.bytes]) ++ rest.placed place

end

end Trees

section Names

/-- A path below a directory, from there: nothing, or names that each have a slash behind them. -/
structure IsRelativeDir (dir : List UInt8) (place : List (List UInt8)) : Prop where
  no_nul : 0 ∉ dir
  slashed : dir = [] ∨ dir.getLast? = some slash
  components_eq : components dir = place
  entries : ∀ n ∈ place, IsEntryName n

theorem FileName.isEntryName {name : FileName} (h : ¬ name.isDots = true) : IsEntryName name.bytes := by
  rw [FileName.isDots, Bool.or_eq_true, beq_iff_eq, beq_iff_eq, not_or] at h
  exact h

variable {dir : List UInt8} {place : List (List UInt8)} {name : FileName}

theorem IsRelativeDir.components_name (h : IsRelativeDir dir place) (name : FileName) :
    components (dir ++ name.bytes) = place ++ [name.bytes] := by
  have hname : components name.bytes = [name.bytes] :=
    components_of_not_mem name.no_slash name.ne_nil
  rcases h.slashed with rfl | hlast
  · rw [List.nil_append, hname, ← h.components_eq]
    rfl
  · obtain ⟨before, rfl⟩ := List.getLast?_eq_some_iff.mp hlast
    have hdir : components (before ++ [separator]) = components before ++ components [] :=
      components_append_separator before []
    have hplace : components before = place := by
      rw [← h.components_eq]
      exact (hdir.trans (List.append_nil _)).symm
    have hsplit : components (before ++ separator :: name.bytes) =
        components before ++ components name.bytes := components_append_separator before name.bytes
    rw [List.append_assoc, ← hname, ← hplace]
    exact hsplit

/-- The path of a file in the directory. -/
theorem IsRelativeDir.file (h : IsRelativeDir dir place) (hnul : 0 ∉ name.bytes)
    (hdots : ¬ name.isDots = true) :
    IsRelativeName (dir ++ name.bytes) ∧ components (dir ++ name.bytes) = place ++ [name.bytes] := by
  refine ⟨⟨?_, List.append_ne_nil_of_right_ne_nil dir name.ne_nil, fun hlast => ?_, fun n hn => ?_⟩,
    h.components_name name⟩
  · rw [List.mem_append, not_or]
    exact ⟨h.no_nul, hnul⟩
  · rw [List.getLast?_append_of_ne_nil _ name.ne_nil] at hlast
    exact name.no_slash (List.mem_of_getLast? hlast)
  · rw [h.components_name name] at hn
    rcases List.mem_append.mp hn with hn | hn
    · exact h.entries n hn
    · rw [List.mem_singleton.mp hn]
      exact FileName.isEntryName hdots

theorem IsRelativeDir.directory (h : IsRelativeDir dir place) (hnul : 0 ∉ name.bytes)
    (hdots : ¬ name.isDots = true) :
    IsRelativeDir (dir ++ name.bytes ++ [slash]) (place ++ [name.bytes]) := by
  obtain ⟨hname, hcomponents⟩ := h.file hnul hdots
  refine ⟨?_, .inr List.getLast?_concat, ?_, ?_⟩
  · rw [List.mem_append, not_or, List.mem_singleton]
    exact ⟨hname.no_nul, by decide⟩
  · have hsplit : components (dir ++ name.bytes ++ [separator]) =
        components (dir ++ name.bytes) ++ components [] :=
      components_append_separator (dir ++ name.bytes) []
    exact hsplit.trans ((List.append_nil _).trans hcomponents)
  · rw [← hcomponents]
    exact hname.entries

end Names

section Visited

variable {path : List UInt8}

structure VisitedAt (path : List UInt8) (f : List UInt8 × List UInt8)
    (p : List (List UInt8) × List UInt8) : Prop where
  content : f.2 = p.2
  name : ∃ rel, f.1 = path ++ rel ∧ IsRelativeName rel ∧ components rel = p.1

theorem visited_placed (entries : Entries) {dir : List UInt8} {place : List (List UInt8)}
    (hdir : IsRelativeDir dir place) (hproper : entries.Proper) :
    List.Forall₂ (VisitedAt path) (entries.visited (path ++ dir)) (entries.placed place) := by
  cases entries with
  | nil => exact .nil
  | cons name node rest =>
      obtain ⟨hnul, -, hnode, hproper⟩ := hproper
      have hrest := visited_placed rest hdir hproper
      by_cases hdots : name.isDots = true
      · cases node <;> simpa only [Entries.visited, Entries.placed, if_pos hdots] using hrest
      · cases node with
        | failing =>
            simp only [Entries.visited, Entries.placed, if_neg hdots]
            exact .nil
        | file content =>
            obtain ⟨hname, hcomponents⟩ := hdir.file hnul hdots
            simp only [Entries.visited, Entries.placed, if_neg hdots]
            exact .cons ⟨rfl, dir ++ name.bytes, List.append_assoc .., hname, hcomponents⟩ hrest
        | directory entries =>
            have hchild := visited_placed entries (hdir.directory hnul hdots) hnode
            have hpath : path ++ dir ++ name.bytes ++ [slash] =
                path ++ (dir ++ name.bytes ++ [slash]) := by
              simp only [List.append_assoc]
            simp only [Entries.visited, Entries.placed, if_neg hdots]
            rw [hpath]
            exact List.rel_append hchild hrest

end Visited

section Apart

end Apart

section Delivered

variable {aeWindow : Int → Int} {gear : UInt8 → UINT64} {c : ChunkSizes}
  {d : ChunkPhase} {b : BackupPath} {entries : Entries}

theorem getLast?_initJcr (hnode : b.node = .directory entries) :
    b.initJcr.getLast? = some slash := by
  rw [BackupPath.initJcr, hnode]
  dsimp only
  split
  · exact List.getLast?_concat
  · rename_i hlast
    exact not_not.mp hlast

theorem recordedName_append (hnode : b.node = .directory entries) (rel : List UInt8) :
    recordedName b.initJcr (b.initJcr ++ rel) = rel := by
  rw [recordedName, if_pos (getLast?_initJcr hnode), List.drop_left]

structure InputFile.IsHashed (sha1 : List UInt8 → Fingerprint) (f : InputFile) : Prop where
  name : IsRelativeName f.name
  hashed : ∀ c ∈ f.chunks, c.fp = sha1 c.data ∧ c.size = c.data.length ∧ 1 ≤ c.size

theorem delivers_directory {sha1 : List UInt8 → Fingerprint} {cut : List UInt8 → Nat}
    (hd : d.CutBy cut) (hnode : b.node = .directory entries) (hproper : entries.Proper) :
    (∃ files, Delivers sha1 d b files) ∧ ∀ files, Delivers sha1 d b files →
      files.map InputFile.placed = entries.placed [] ∧ ∀ f ∈ files, f.IsHashed sha1 := by
  have hroot : IsRelativeDir [] [] := ⟨List.not_mem_nil, .inl rfl, rfl, nofun⟩
  have hwalk : findOneFile b.initJcr b.initJcr b.node =
      (b.node.visited b.initJcr).flatMap fun f => readFile b.initJcr f.1 f.2 :=
    findOneFile_visited b.initJcr b.node
      ⟨fun _ => ⟨entries, hnode⟩, fun _ => getLast?_initJcr hnode⟩
  have hplaced : List.Forall₂ (VisitedAt b.initJcr) (b.node.visited b.initJcr)
      (entries.placed []) := by
    have hvisited : List.Forall₂ (VisitedAt b.initJcr) (entries.visited (b.initJcr ++ []))
        (entries.placed []) := visited_placed entries hroot hproper
    rw [List.append_nil] at hvisited
    rw [hnode]
    exact hvisited
  have hrecorded : ∀ f ∈ b.node.visited b.initJcr, IsRelativeName (recordedName b.initJcr f.1) := by
    intro f hf
    obtain ⟨p, -, -, rel, hpath, hname, -⟩ := mem_forall₂_left hplaced hf
    rw [hpath, recordedName_append hnode]
    exact hname
  obtain ⟨hexists, hall⟩ : (∃ files, Delivers sha1 d b files) ∧ ∀ files, Delivers sha1 d b files →
      List.Forall₂ (fun f g => Hashed sha1 f b.initJcr g) (b.node.visited b.initJcr) files :=
    delivers_spec hd hwalk fun f hf => (hrecorded f hf).no_nul
  refine ⟨hexists, fun files hfiles => ⟨?_, fun g hg => ?_⟩⟩
  · have hboth := hall files hfiles
    clear hall hexists hrecorded hwalk hfiles
    generalize b.node.visited b.initJcr = visited at hplaced hboth
    generalize entries.placed [] = placed at hplaced
    induction hboth generalizing placed with
    | nil =>
        cases hplaced
        rfl
    | cons hhashed _ ih =>
        cases hplaced with
        | cons hvisited hrest =>
            obtain ⟨rel, hpath, -, hcomponents⟩ := hvisited.name
            rw [List.map_cons, ih _ hrest, InputFile.placed, hhashed.name, hhashed.bytes, hpath,
              recordedName_append hnode, hcomponents, hvisited.content]
  · obtain ⟨f, hf, hhashed⟩ := mem_forall₂_right (hall files hfiles) hg
    exact ⟨hhashed.name ▸ hrecorded f hf, hhashed.hashed⟩

/-- From a directory to deduplication: for each configuration of the chunk phase that takes something of
every buffer, the read, chunk and hash phases come to their end, and deliver the files that the walk
reaches, in its order: each under the name that leads to its place, with all its bytes, cut into
non-empty chunks that carry the hash of their bytes. -/
theorem phases_deliver_directory (sha1 : List UInt8 → Fingerprint) (algorithm : ChunkAlgorithm)
    (hint : c.IsInt) (hstart : startChunkPhase aeWindow gear algorithm c = .ok d)
    (hadvances : AlwaysAdvances gear algorithm c) (hnode : b.node = .directory entries)
    (hproper : entries.Proper) :
    (∃ files, Delivers sha1 d b files) ∧ ∀ files, Delivers sha1 d b files →
      files.map InputFile.placed = entries.placed [] ∧ ∀ f ∈ files, f.IsHashed sha1 := by
  obtain ⟨cut, hd⟩ := cutBy_of_advances hint hstart hadvances
  exact delivers_directory hd hnode hproper

def letterName (c : UInt8) (h : slash ∉ [c]) : FileName := ⟨[c], List.cons_ne_nil c [], h⟩

theorem slash_not_mem_a : slash ∉ [97] := by decide

theorem slash_not_mem_b : slash ∉ [98] := by decide

theorem name_d_ne_nil : ([100] : List UInt8) ≠ [] := by decide

/-- The files `a` and `b/a`. -/
def smallEntries (a b : List UInt8) : Entries :=
  .cons (letterName 97 slash_not_mem_a) (.file a) (.cons (letterName 98 slash_not_mem_b)
    (.directory (.cons (letterName 97 slash_not_mem_a) (.file b) .nil)) .nil)

theorem smallEntries_proper (a b : List UInt8) : (smallEntries a b).Proper := by
  have hnew : letterName 97 slash_not_mem_a ∉ [letterName 98 slash_not_mem_b] := by decide
  exact ⟨by decide, hnew, trivial, by decide, List.not_mem_nil,
    ⟨by decide, List.not_mem_nil, trivial, trivial⟩, trivial⟩

def smallDirectory (a b : List UInt8) : BackupPath where
  path := [100]
  node := .directory (smallEntries a b)
  ne_nil := name_d_ne_nil
  exists_node h := by cases h
  file_end content h := by cases h

def byteSizes : ChunkSizes := { chunkAvgSize := 1, chunkMinSize := 1, chunkMaxSize := 1 }

theorem byteSizes_isInt : byteSizes.IsInt := by
  unfold ChunkSizes.IsInt
  decide

def bytePhase : ChunkPhase :=
  { sizes := byteSizes, chunking := fun p => .ok (fixedChunkData byteSizes p) }

theorem start_bytePhase :
    startChunkPhase (fun _ => 1) (fun _ => 0) .fixed byteSizes = .ok bytePhase := rfl

def firstByteHash (bytes : List UInt8) : Fingerprint := .fill (bytes.headD 0)

theorem phases_deliver_directory_small :
    (∃ files, Delivers firstByteHash bytePhase (smallDirectory [1] [2, 3]) files) ∧
    ∀ files, Delivers firstByteHash bytePhase (smallDirectory [1] [2, 3]) files →
      files.map InputFile.placed = [([[97]], [1]), ([[98], [97]], [2, 3])] := by
  have hadvances : AlwaysAdvances (fun _ => 0) .fixed byteSizes := Int.le_refl 1
  have hnode : (smallDirectory [1] [2, 3]).node = .directory (smallEntries [1] [2, 3]) := rfl
  obtain ⟨hexists, hall⟩ := phases_deliver_directory firstByteHash .fixed byteSizes_isInt
    start_bytePhase hadvances hnode (smallEntries_proper [1] [2, 3])
  exact ⟨hexists, fun files hfiles => (hall files hfiles).1⟩

end Delivered

end Destor
