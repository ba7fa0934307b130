/- digest: The working directory, and the paths under which one run writes what the next one reads. -/

import Destor.DestorStart
import Destor.HarRewrite
import Destor.Library.PathName

set_option autoImplicit false
set_option relaxedAutoImplicit false

namespace Destor

open Library.Decimal Library.Text Library.PathName

/-- `destor.working_directory`: what `destor_start` puts there, or the value of the last directive. -/
inductive WorkingDirectory where
  | compiledIn
  | configured (value : List UInt8)
deriving DecidableEq

/-- The string; `sdscpy` copies up to the first zero byte, and a slash is appended. -/
def WorkingDirectory.path : WorkingDirectory → List UInt8
  | compiledIn => bytes "/pmem/dedupDir".toList
  | configured value => cString value ++ bytes "/".toList

/-- The path that `init_kvstore_htable` reads. -/
def initKvstorePath (workingDirectory : List UInt8) : List UInt8 :=
  workingDirectory ++ bytes "index/htable".toList

/-- The path that `close_kvstore_htable` writes. -/
def closeKvstorePath (workingDirectory : List UInt8) : List UInt8 :=
  workingDirectory ++ bytes "/index/htable".toList

/-- What a run leaves under the directory is what the next run opens there: the dump of the index, and
the sparse containers of job `n`. -/
structure RunsMeet (d : WorkingDirectory) (n : Int) : Prop where
  index : SameFile (closeKvstorePath d.path) (initKvstorePath d.path)
  sparse : SameFile (closeHarPath d.path n) (initHarPath d.path (n + 1))

section Paths

variable {n : Int}

private theorem sameFile_configured (value rest : List UInt8) :
    SameFile ((WorkingDirectory.configured value).path ++ separator :: rest)
      ((WorkingDirectory.configured value).path ++ rest) := by
  have hpath : (WorkingDirectory.configured value).path = cString value ++ [separator] := rfl
  rw [hpath, List.append_assoc, List.append_assoc]
  exact sameFile_append_separator (cString value) rest

private theorem not_sameFile_compiledIn (folder rest : List UInt8)
    (hne : folder ≠ []) (hslash : separator ∉ folder) :
    ¬ SameFile (WorkingDirectory.compiledIn.path ++ separator :: (folder ++ separator :: rest))
      (WorkingDirectory.compiledIn.path ++ (folder ++ separator :: rest)) := by
  intro h
  have hparent : WorkingDirectory.compiledIn.path =
      bytes "/pmem".toList ++ separator :: bytes "dedupDir".toList := by decide
  have hname : separator ∉ bytes "dedupDir".toList := by decide
  have hjoined : separator ∉ bytes "dedupDir".toList ++ folder := by
    rw [List.mem_append, not_or]
    exact ⟨hname, hslash⟩
  have hleft : components
      (WorkingDirectory.compiledIn.path ++ separator :: (folder ++ separator :: rest)) =
      components (bytes "/pmem".toList) ++
        bytes "dedupDir".toList :: components (folder ++ separator :: rest) := by
    rw [components_append_separator, hparent, components_append_separator,
      components_of_not_mem hname (by decide), List.append_assoc, List.singleton_append]
  have hright : components (WorkingDirectory.compiledIn.path ++ (folder ++ separator :: rest)) =
      components (bytes "/pmem".toList) ++
        (bytes "dedupDir".toList ++ folder) :: components rest := by
    rw [hparent, List.append_assoc, List.cons_append, ← List.append_assoc (bytes "dedupDir".toList),
      components_append_separator, components_append_separator,
      components_of_not_mem hjoined (by simp [hne]), List.singleton_append]
  have hcomponents := h.components
  rw [hleft, hright, List.append_cancel_left_eq, List.cons.injEq] at hcomponents
  apply hne
  have hempty := hcomponents.1
  rwa [List.self_eq_append_right] at hempty

theorem index_sameFile_iff (d : WorkingDirectory) :
    SameFile (closeKvstorePath d.path) (initKvstorePath d.path) ↔
      d ≠ .compiledIn := by
  cases d with
  | compiledIn =>
      refine iff_of_false ?_ fun h => h rfl
      exact not_sameFile_compiledIn (bytes "index".toList) (bytes "htable".toList) (by decide)
        (by decide)
  | configured value =>
      refine iff_of_true ?_ fun h => WorkingDirectory.noConfusion h
      exact sameFile_configured value (bytes "index/htable".toList)

theorem sparse_sameFile_iff (d : WorkingDirectory) (n : Int) :
    SameFile (closeHarPath d.path n) (initHarPath d.path (n + 1)) ↔ d ≠ .compiledIn := by
  have hjob : n + 1 - 1 = n := by omega
  rw [closeHarPath, initHarPath, hjob]
  cases d with
  | compiledIn =>
      refine iff_of_false ?_ fun h => h rfl
      exact not_sameFile_compiledIn (bytes "recipes".toList)
        (bytes "bv".toList ++ decimal n ++ bytes ".sparse".toList) (by decide) (by decide)
  | configured value =>
      refine iff_of_true ?_ fun h => WorkingDirectory.noConfusion h
      exact sameFile_configured value (sparseName "recipes/bv" n)

/-- What one run persists the next run finds exactly if the configuration set the directory. -/
theorem runs_meet_iff (d : WorkingDirectory) (n : Int) :
    RunsMeet d n ↔ ∃ value, d = .configured value := by
  have hconfigured : (∃ value, d = .configured value) ↔ d ≠ .compiledIn := by
    cases d with
    | compiledIn => exact iff_of_false (fun ⟨_, h⟩ => WorkingDirectory.noConfusion h) fun h => h rfl
    | configured value => exact iff_of_true ⟨value, rfl⟩ fun h => WorkingDirectory.noConfusion h
  rw [hconfigured]
  constructor
  · exact fun h => (index_sameFile_iff d).mp h.index
  · exact fun h => ⟨(index_sameFile_iff d).mpr h, (sparse_sameFile_iff d n).mpr h⟩

/-- In the compiled-in directory neither the index nor the sparse containers are found again. -/
theorem compiledIn_not_found (n : Int) :
    ¬ SameFile (closeKvstorePath WorkingDirectory.compiledIn.path)
        (initKvstorePath WorkingDirectory.compiledIn.path) ∧
      ¬ SameFile (closeHarPath WorkingDirectory.compiledIn.path n)
        (initHarPath WorkingDirectory.compiledIn.path (n + 1)) :=
  ⟨fun h => (index_sameFile_iff .compiledIn).mp h rfl,
    fun h => (sparse_sameFile_iff .compiledIn n).mp h rfl⟩

/-- The first two runs in the compiled-in directory. -/
theorem default_directory_runs_do_not_meet :
    WorkingDirectory.compiledIn.path = bytes defaultSettings.workingDirectory ∧
      ¬ RunsMeet .compiledIn 0 :=
  ⟨rfl, fun h => (compiledIn_not_found 0).1 h.index⟩

end Paths

end Destor
