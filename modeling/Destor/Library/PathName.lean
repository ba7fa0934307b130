/- digest: Path names as POSIX resolves them: repeated slashes count as one. -/

import Destor.Library.FileTree
import Mathlib.Data.List.Basic

set_option autoImplicit false
set_option relaxedAutoImplicit false

namespace Destor.Library.PathName

def separator : UInt8 := 47

def componentsFrom (current : List UInt8) : List UInt8 → List (List UInt8)
  | [] => if current = [] then [] else [current]
  | c :: rest =>
      if c = separator then (if current = [] then [] else [current]) ++ componentsFrom [] rest
      else componentsFrom (current ++ [c]) rest

def components (path : List UInt8) : List (List UInt8) := componentsFrom [] path

def isAbsolute (path : List UInt8) : Bool := path.head? == some separator

/-- Two path names that are resolved alike. -/
structure SameFile (path path' : List UInt8) : Prop where
  start : isAbsolute path = isAbsolute path'
  components : components path = components path'

variable {current path rest : List UInt8}

theorem componentsFrom_append_separator (current path rest : List UInt8) :
    componentsFrom current (path ++ separator :: rest) =
      componentsFrom current path ++ components rest := by
  induction path generalizing current with
  | nil =>
      rw [List.nil_append]
      exact if_pos rfl
  | cons c path ih =>
      rw [List.cons_append, componentsFrom, componentsFrom]
      split
      · rw [ih, List.append_assoc]
      · exact ih _

theorem components_append_separator (path rest : List UInt8) :
    components (path ++ separator :: rest) = components path ++ components rest :=
  componentsFrom_append_separator [] path rest

theorem components_separator (rest : List UInt8) : components (separator :: rest) = components rest :=
  components_append_separator [] rest

private theorem componentsFrom_of_not_mem (h : separator ∉ path) :
    componentsFrom current path = if current ++ path = [] then [] else [current ++ path] := by
  induction path generalizing current with
  | nil => rw [componentsFrom, List.append_nil]
  | cons c path ih =>
      rw [List.mem_cons, not_or] at h
      rw [componentsFrom, if_neg (Ne.symm h.1), ih h.2, List.append_assoc, List.singleton_append]

/-- A name without slashes is one component. -/
theorem components_of_not_mem (h : separator ∉ path) (hne : path ≠ []) :
    components path = [path] := by
  rw [components, componentsFrom_of_not_mem h, List.nil_append, if_neg hne]

theorem componentsFrom_eq_nil_iff : componentsFrom current rest = [] ↔
    current = [] ∧ ∀ c ∈ rest, c = separator := by
  induction rest generalizing current with
  | nil =>
      rw [componentsFrom]
      by_cases hcurrent : current = [] <;> simp [hcurrent]
  | cons c rest ih =>
      rw [componentsFrom, List.forall_mem_cons]
      by_cases hc : c = separator
      · rw [if_pos hc, List.append_eq_nil_iff, ih]
        by_cases hcurrent : current = [] <;> simp [hcurrent, hc]
      · rw [if_neg hc, ih]
        simp [hc]

theorem isAbsolute_append_separator (path rest rest' : List UInt8) :
    isAbsolute (path ++ separator :: rest) = isAbsolute (path ++ separator :: rest') := by
  cases path <;> rfl

/-- A second slash changes nothing. -/
theorem sameFile_append_separator (path rest : List UInt8) :
    SameFile (path ++ separator :: separator :: rest) (path ++ separator :: rest) := by
  constructor
  · exact isAbsolute_append_separator path (separator :: rest) rest
  · rw [components_append_separator, components_append_separator, components_separator]

section Steps

open FileTree

/-- What a component asks for: the names `.` and `..` are those of directories. -/
def stepOf (name : List UInt8) : PathStep (List UInt8) :=
  if name = [46] then .here else if name = [46, 46] then .up else .down name

def steps (path : List UInt8) : List (PathStep (List UInt8)) := (components path).map stepOf

def startOf (cwd : List (List UInt8)) (path : List UInt8) : List (List UInt8) :=
  if isAbsolute path then [] else cwd

/-- `stat`: what is found under a path name. A slash at its end asks for a directory. -/
def stat (t : FileTree (List UInt8) UInt8) (cwd : List (List UInt8)) (path : List UInt8) :
    Option (FileEntry UInt8) :=
  match path, t.find (startOf cwd path) (steps path) with
  | [], _ => none
  | _ :: _, some (.file content) =>
      if path.getLast? = some separator then none else some (.file content)
  | _ :: _, found => found

/-- The directory that is to have what a path name names, and the last name; none if there is no such
directory or the name is one of those above. -/
def parentOf (t : FileTree (List UInt8) UInt8) (cwd : List (List UInt8)) (path : List UInt8) :
    Option (List (List UInt8) × List UInt8) :=
  match (steps path).getLast? with
  | some (.down name) =>
      (t.walk (startOf cwd path) (steps path).dropLast).map fun place => (place, name)
  | _ => none

/-- `mkdir`, and what it leaves where it fails. -/
def makeDirectory (t : FileTree (List UInt8) UInt8) (cwd : List (List UInt8)) (path : List UInt8) :
    FileTree (List UInt8) UInt8 :=
  match parentOf t cwd path with
  | some (place, name) => t.mkdir place name
  | none => t

def openWrite (t : FileTree (List UInt8) UInt8) (cwd : List (List UInt8)) (path : List UInt8) :
    Option (FileTree (List UInt8) UInt8 × List (List UInt8) × List UInt8) :=
  if path.getLast? = some separator then none
  else do
    let (place, name) ← parentOf t cwd path
    let t ← t.create place name
    return (t, place, name)

structure Leads (t : FileTree (List UInt8) UInt8) (cwd : List (List UInt8)) (path : List UInt8)
    (place : List (List UInt8)) : Prop where
  slash : path.getLast? = some separator
  walk : t.walk (startOf cwd path) (steps path) = some place
  directory : t.entry place = some .directory

variable {t t' : FileTree (List UInt8) UInt8} {cwd place : List (List UInt8)} {name : List UInt8}

theorem stat_eq_find (hne : path ≠ []) (hlast : path.getLast? ≠ some separator) :
    stat t cwd path = t.find (startOf cwd path) (steps path) := by
  obtain ⟨c, path, rfl⟩ := List.exists_cons_of_ne_nil hne
  cases hfind : t.find (startOf cwd (c :: path)) (steps (c :: path)) with
  | none => simp only [stat, hfind]
  | some e =>
      cases e with
      | directory => simp only [stat, hfind]
      | file content => simp only [stat, hfind, if_neg hlast]

theorem walk_of_stat (h : stat t cwd path = some .directory) : path ≠ [] ∧
    ∃ place, t.walk (startOf cwd path) (steps path) = some place ∧
      t.entry place = some .directory := by
  cases path with
  | nil => cases h
  | cons c path =>
      refine ⟨List.cons_ne_nil c path, ?_⟩
      have hfind : t.find (startOf cwd (c :: path)) (steps (c :: path)) = some .directory := by
        cases hfind : t.find (startOf cwd (c :: path)) (steps (c :: path)) with
        | none => simp only [stat, hfind, reduceCtorEq] at h
        | some e =>
            cases e with
            | directory => rfl
            | file content =>
                simp only [stat, hfind] at h
                split at h <;> cases h
      exact Option.bind_eq_some_iff.mp hfind

theorem stepOf_name (h : name ≠ [46] ∧ name ≠ [46, 46]) : stepOf name = .down name := by
  rw [stepOf, if_neg h.1, if_neg h.2]

theorem openWrite_eq (hlast : path.getLast? ≠ some separator)
    (hparent : parentOf t cwd path = some (place, name)) (hcreate : t.create place name = some t') :
    openWrite t cwd path = some (t', place, name) := by
  rw [openWrite, if_neg hlast, hparent]
  show (t.create place name >>= _) = _
  rw [hcreate]
  rfl

theorem Leads.grows (h : Leads t cwd path place) (hgrows : t.Grows t') :
    Leads t' cwd path place :=
  ⟨h.slash, hgrows.walk h.walk, hgrows place h.directory⟩

theorem Leads.eq_append (h : Leads t cwd path place) : ∃ before, path = before ++ [separator] :=
  List.getLast?_eq_some_iff.mp h.slash

theorem Leads.startOf_append (h : Leads t cwd path place) (rest : List UInt8) :
    startOf cwd (path ++ rest) = startOf cwd path := by
  obtain ⟨before, rfl⟩ := h.eq_append
  rw [startOf, startOf, List.append_assoc, List.singleton_append,
    isAbsolute_append_separator before rest []]

theorem Leads.steps_append (h : Leads t cwd path place) (rest : List UInt8) :
    steps (path ++ rest) = steps path ++ steps rest := by
  obtain ⟨before, rfl⟩ := h.eq_append
  have hnil : components [] = [] := rfl
  rw [steps, steps, steps, List.append_assoc, List.singleton_append,
    components_append_separator, components_append_separator, hnil, List.append_nil,
    List.map_append]

end Steps

end Destor.Library.PathName
