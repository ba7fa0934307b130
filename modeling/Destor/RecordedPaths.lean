/- digest: The path of a backup version and the recorded file names: where together they lead. -/

import Destor.Library.PathName
import Destor.ReadPhase
import Destor.Recipe.RecipeFile
import Mathlib.Data.List.Induction

set_option autoImplicit false
set_option relaxedAutoImplicit false

namespace Destor

open Library.PathName (SameFile sameFile_append_separator)

/-- A backup path that `init_jcr` accepts, with what `stat` finds there. -/
structure BackupPath where
  path : List UInt8
  node : Node
  /-- There is nothing under the empty name. -/
  ne_nil : path ≠ []
  exists_node : node ≠ .failing
  /-- A name that ends in a slash is that of a directory. -/
  file_end : ∀ content, node = .file content → path.getLast? ≠ some slash

namespace BackupPath

def initJcr (b : BackupPath) : List UInt8 :=
  match b.node with
  | .directory _ => if b.path.getLast? ≠ some slash then b.path ++ [slash] else b.path
  | _ => b.path

end BackupPath

/-- The loop `while (s[cur] != '/') cur--` where `cur` starts below `n`, unless it runs out of the
string. -/
def scanSlash (s : List UInt8) : Nat → Option Nat
  | 0 => none
  | cur + 1 => if s[cur]? = some slash then some cur else scanSlash s cur

/-- `create_backup_version`, the scan of the path: what is behind the slash is cut off. -/
def versionPath (path : List UInt8) : Option (List UInt8) :=
  (scanSlash path path.length).map fun cur => path.take (cur + 1)

/-- `read_file`, the name it records, with the scan that finds it. -/
def scanFileName (jcrPath path : List UInt8) : Option (List UInt8) :=
  if jcrPath.getLast? = some slash then some (path.drop jcrPath.length)
  else (scanSlash path path.length).map fun cur => path.drop cur

section Scan

variable {path jcrPath before after : List UInt8}

private theorem scanSlash_append_of_le (s t : List UInt8) {n : Nat} (hn : n ≤ s.length) :
    scanSlash (s ++ t) n = scanSlash s n := by
  induction n with
  | zero => rfl
  | succ n ih =>
      have hget : (s ++ t)[n]? = s[n]? := List.getElem?_append_left hn
      rw [scanSlash, scanSlash, hget, ih (Nat.le_of_succ_le hn)]

/-- The scan stops at the last slash. -/
theorem scanSlash_eq (h : slash ∉ after) :
    scanSlash (before ++ slash :: after) (before ++ slash :: after).length = some before.length := by
  induction after using List.reverseRecOn with
  | nil =>
      rw [List.length_append, List.length_singleton, scanSlash, if_pos]
      exact List.getElem?_concat_length
  | append_singleton after c ih =>
      rw [List.mem_append, List.mem_singleton, not_or] at h
      have hassoc : before ++ slash :: (after ++ [c]) = (before ++ slash :: after) ++ [c] := by
        simp
      rw [hassoc, List.length_append, List.length_singleton, scanSlash, List.getElem?_concat_length,
        if_neg fun heq => h.2 (Option.some.inj heq).symm,
        scanSlash_append_of_le _ _ (Nat.le_refl _)]
      exact ih h.1

/-- Without a slash it runs out of the string. -/
theorem scanSlash_eq_none (h : slash ∉ path) (n : Nat) : scanSlash path n = none := by
  induction n with
  | zero => rfl
  | succ n ih =>
      rw [scanSlash, if_neg fun hget => h (List.mem_of_getElem? hget)]
      exact ih

private theorem split_at_last_slash (h : slash ∈ path) :
    ∃ before after, path = before ++ slash :: after ∧ slash ∉ after := by
  induction path using List.reverseRecOn with
  | nil => cases h
  | append_singleton path c ih =>
      by_cases hc : c = slash
      · exact ⟨path, [], by rw [hc], List.not_mem_nil⟩
      · rcases List.mem_append.mp h with h | h
        · obtain ⟨before, after, rfl, hafter⟩ := ih h
          refine ⟨before, after ++ [c], by simp, ?_⟩
          rw [List.mem_append, List.mem_singleton, not_or]
          exact ⟨hafter, Ne.symm hc⟩
        · exact absurd (List.mem_singleton.mp h).symm hc

theorem versionPath_eq (h : slash ∉ after) :
    versionPath (before ++ slash :: after) = some (before ++ [slash]) := by
  rw [versionPath, scanSlash_eq h, Option.map_some, List.append_cons,
    List.take_left' (by rw [List.length_append, List.length_singleton])]

theorem versionPath_eq_none (h : slash ∉ path) : versionPath path = none := by
  rw [versionPath, scanSlash_eq_none h, Option.map_none]

theorem scanFileName_of_directory (h : jcrPath.getLast? = some slash) (rest : List UInt8) :
    scanFileName jcrPath (jcrPath ++ rest) = some rest := by
  rw [scanFileName, if_pos h, List.drop_left]

theorem scanFileName_of_file (hfile : jcrPath.getLast? ≠ some slash) (h : slash ∉ after) :
    scanFileName jcrPath (before ++ slash :: after) = some (slash :: after) := by
  rw [scanFileName, if_neg hfile, scanSlash_eq h, Option.map_some, List.drop_left]

private theorem takeWhile_reverse (h : slash ∉ after) :
    (before ++ slash :: after).reverse.takeWhile (· ≠ slash) = after.reverse ∧
      (before ++ slash :: after).reverse.dropWhile (· ≠ slash) = slash :: before.reverse := by
  have hreverse : (before ++ slash :: after).reverse = after.reverse ++ slash :: before.reverse := by
    simp
  have hall : ∀ c ∈ after.reverse, decide (c ≠ slash) = true := by
    intro c hc
    apply decide_eq_true
    rintro rfl
    exact h (List.mem_reverse.mp hc)
  rw [hreverse, List.takeWhile_append_of_pos hall, List.dropWhile_append_of_pos hall,
    List.takeWhile_cons_of_neg (by simp), List.dropWhile_cons_of_neg (by simp)]
  exact ⟨List.append_nil _, rfl⟩

/-- A scan that stays inside the string gives the path that the backup version records. -/
theorem versionPath_eq_some {p : List UInt8} (h : versionPath path = some p) (bvNum : Int) :
    (BackupFile.createBackupVersion bvNum path).path = p := by
  by_cases hslash : slash ∈ path
  · obtain ⟨before, after, rfl, hafter⟩ := split_at_last_slash hslash
    rw [versionPath_eq hafter, Option.some_inj] at h
    have hcut : (before ++ slash :: after).reverse.dropWhile (· ≠ slash) = slash :: before.reverse :=
      (takeWhile_reverse hafter).2
    have hpath : (BackupFile.createBackupVersion bvNum (before ++ slash :: after)).path =
        ((before ++ slash :: after).reverse.dropWhile (· ≠ slash)).reverse := by
      have htest : (fun c : UInt8 => c != 47) = fun c => decide (c ≠ slash) := by
        funext c
        rw [slash]
        by_cases hc : c = 47 <;> simp [hc]
      show (List.dropWhile (fun c => c != 47) _).reverse = _
      rw [htest]
    rw [hpath, hcut, List.reverse_cons, List.reverse_reverse]
    exact h
  · rw [versionPath_eq_none hslash] at h
    cases h

end Scan

/-- The scans of the backup path and of the name of each file that is read stay inside their strings,
and the recorded path followed by the recorded name leads to the file. -/
def BackupPath.LeadsBack (b : BackupPath) : Prop :=
  ∃ p, versionPath b.initJcr = some p ∧ ∀ f ∈ b.node.visited b.initJcr,
    ∃ name, scanFileName b.initJcr f.1 = some name ∧ SameFile (p ++ name) f.1

section Visited

mutual

private theorem visited_continues (path : List UInt8) (node : Node) :
    ∀ f ∈ node.visited path, ∃ rest, f.1 = path ++ rest := by
  cases node with
  | failing => intro f hf; cases hf
  | file content =>
      intro f hf
      rw [Node.visited, List.mem_singleton] at hf
      exact ⟨[], by rw [hf, List.append_nil]⟩
  | directory entries => exact entries_visited_continues path entries

private theorem entries_visited_continues (path : List UInt8) (entries : Entries) :
    ∀ f ∈ entries.visited path, ∃ rest, f.1 = path ++ rest := by
  cases entries with
  | nil => intro f hf; cases hf
  | cons name node rest =>
      have hrest := entries_visited_continues path rest
      by_cases hdots : name.isDots = true
      · cases node <;> simpa only [Entries.visited, if_pos hdots] using hrest
      · cases node with
        | failing =>
            intro f hf
            rw [Entries.visited, if_neg hdots] at hf
            cases hf
        | file content =>
            intro f hf
            simp only [Entries.visited, if_neg hdots] at hf
            rcases List.mem_cons.mp hf with rfl | hf
            · exact ⟨name.bytes, rfl⟩
            · exact hrest f hf
        | directory entries =>
            intro f hf
            simp only [Entries.visited, if_neg hdots] at hf
            rcases List.mem_append.mp hf with hf | hf
            · obtain ⟨tail, heq⟩ :=
                entries_visited_continues (path ++ name.bytes ++ [slash]) entries f hf
              exact ⟨name.bytes ++ slash :: tail, by rw [heq]; simp⟩
            · exact hrest f hf

end

end Visited

section Paths

variable {b : BackupPath}

private theorem initJcr_directory {entries : Entries} (h : b.node = .directory entries) :
    ∃ before, b.initJcr = before ++ [slash] := by
  rw [BackupPath.initJcr, h]
  dsimp only
  split
  · exact ⟨b.path, rfl⟩
  · rename_i hlast
    obtain ⟨before, hbefore⟩ := List.getLast?_eq_some_iff.mp (not_not.mp hlast)
    exact ⟨before, hbefore⟩

private theorem initJcr_file {content : List UInt8} (h : b.node = .file content) :
    b.initJcr = b.path := by
  rw [BackupPath.initJcr, h]

/-- The recorded paths lead back to the files exactly where the backup path is that of a directory, or
has a slash; else both scans run out of the string. -/
theorem recorded_paths_lead_back_iff (b : BackupPath) :
    b.LeadsBack ↔ (∃ entries, b.node = .directory entries) ∨ slash ∈ b.path := by
  cases hnode : b.node with
  | failing => exact absurd hnode b.exists_node
  | directory entries =>
      refine iff_of_true ?_ (.inl ⟨entries, rfl⟩)
      obtain ⟨before, hinit⟩ := initJcr_directory hnode
      have hlast : b.initJcr.getLast? = some slash := by rw [hinit, List.getLast?_concat]
      refine ⟨b.initJcr, ?_, ?_⟩
      · rw [hinit]
        exact versionPath_eq List.not_mem_nil
      · intro f hf
        obtain ⟨rest, hrest⟩ := visited_continues b.initJcr b.node f hf
        refine ⟨rest, ?_, ?_⟩
        · rw [hrest]
          exact scanFileName_of_directory hlast rest
        · rw [hrest]
          exact ⟨rfl, rfl⟩
  | file content =>
      have hinit := initJcr_file hnode
      have hfile : b.path.getLast? ≠ some slash := b.file_end content hnode
      constructor
      · rintro ⟨p, hp, -⟩
        refine .inr (Classical.byContradiction fun hslash => ?_)
        rw [hinit, versionPath_eq_none hslash] at hp
        cases hp
      · rintro (⟨entries, hentries⟩ | hslash)
        · cases hentries
        · obtain ⟨before, after, hsplit, hafter⟩ := split_at_last_slash hslash
          rw [BackupPath.LeadsBack, hinit, hnode]
          refine ⟨before ++ [slash], hsplit ▸ versionPath_eq hafter, ?_⟩
          intro f hf
          rw [Node.visited, List.mem_singleton] at hf
          refine ⟨slash :: after, ?_, ?_⟩
          · rw [hf]
            show scanFileName b.path b.path = _
            conv_lhs => arg 2; rw [hsplit]
            exact scanFileName_of_file hfile hafter
          · rw [hf, hsplit, List.append_assoc, List.singleton_append]
            exact sameFile_append_separator before after

/-- A file of the working directory, by its name alone. -/
theorem recorded_path_without_slash : ¬ ∀ b : BackupPath, b.LeadsBack := by
  intro h
  obtain ⟨p, hp, -⟩ := h
    { path := [97], node := .file [1], ne_nil := by decide, exists_node := fun hnode => by cases hnode
      file_end := fun _ _ => by decide }
  have hnone : versionPath [97] = none := versionPath_eq_none (by decide)
  cases hnone.symm.trans hp

end Paths

end Destor
