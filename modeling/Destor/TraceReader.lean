/- digest: The trace reader stops exactly on the traces whose files are all ended. -/

import Destor.TracePhase

set_option autoImplicit false
set_option relaxedAutoImplicit false

namespace Destor

open Library.Text

/-- The line that the reader takes off a text, up to its first zero byte. -/
def firstLine (text : List UInt8) : List UInt8 := cString (takeLine (lineSize - 1) text).1

def afterLine (text : List UInt8) : List UInt8 := (takeLine (lineSize - 1) text).2

def StartsFile (stray : List UInt8 → Option Nat) (line text name rest : List UInt8) : Prop :=
  fileStartPrefix <+: cString line ∧ readFileName stray line text = some (name, rest)

inductive FileLines : List UInt8 → List UInt8 → Prop
  | last {text : List UInt8} (hend : fileEndPrefix <+: firstLine text) :
      FileLines text (afterLine text)
  | line {text rest : List UInt8} (hline : ¬ fileEndPrefix <+: firstLine text)
      (hlines : FileLines (afterLine text) rest) : FileLines text rest

inductive CompleteFiles (stray : List UInt8 → Option Nat) : List UInt8 → Prop
  | rest {text : List UInt8}
      (hstart : ∀ name lines, ¬ StartsFile stray (firstLine text) (afterLine text) name lines) :
      CompleteFiles stray text
  | file {text name lines rest : List UInt8}
      (hstart : StartsFile stray (firstLine text) (afterLine text) name lines)
      (hlines : FileLines lines rest) (hrest : CompleteFiles stray rest) :
      CompleteFiles stray text

section Buffer

variable {stray : List UInt8 → Option Nat} {line line' text name rest : List UInt8}

theorem cString_append_cons_zero (line tail : List UInt8) :
    cString (line ++ 0 :: tail) = cString line := by
  induction line with
  | nil => rfl
  | cons b line ih =>
      simp only [cString, List.cons_append, List.takeWhile_cons] at ih ⊢
      rw [ih]

theorem cString_cString (line : List UInt8) : cString (cString line) = cString line := by
  unfold cString
  apply List.takeWhile_eq_self_iff.mpr
  intro b hb
  exact List.mem_takeWhile_imp (p := fun b => b != 0) hb

/-- While there is text, the buffer gets its next line. -/
theorem fgets_lineSize (line : List UInt8) (h : text ≠ []) :
    cString (fgets lineSize line text).1 = firstLine text ∧
      (fgets lineSize line text).2 = afterLine text := by
  rw [fgets, if_neg h]
  exact ⟨cString_append_cons_zero _ _, rfl⟩

theorem fgets_nil (line : List UInt8) : fgets lineSize line [] = (line, []) := rfl

/-- Only the string in the buffer matters. -/
theorem StartsFile.congr (h : cString line = cString line') :
    StartsFile stray line text name rest ↔ StartsFile stray line' text name rest := by
  unfold StartsFile readFileName
  rw [h]

theorem startsFile_fgets (line : List UInt8) (h : text ≠ []) :
    StartsFile stray (fgets lineSize line text).1 (fgets lineSize line text).2 name rest ↔
      StartsFile stray (firstLine text) (afterLine text) name rest := by
  obtain ⟨hline, hrest⟩ := fgets_lineSize line h
  rw [hrest]
  apply StartsFile.congr
  rw [hline, firstLine, cString_cString]

theorem not_fileEnd_of_fileStart (h : fileStartPrefix <+: line) : ¬ fileEndPrefix <+: line := by
  intro hend
  have hshort : fileEndPrefix <+: fileStartPrefix :=
    List.prefix_of_prefix_length_le hend h (by decide)
  exact absurd hshort (by decide)

theorem streamEnd_not_fileStart : ¬ fileStartPrefix <+: streamEnd := by decide

/-- There is no text after a name that is read at the end. -/
theorem StartsFile.rest_nil (h : StartsFile stray line [] name rest) : rest = [] := by
  have htake : ∀ n, (takeLine n []).2 = [] := by
    intro n
    cases n <;> rfl
  have hname := h.2
  unfold readFileName at hname
  simp only [htake, List.take_nil, List.drop_nil] at hname
  split at hname
  · obtain ⟨n, -, hn⟩ := Option.map_eq_some_iff.mp hname
    exact (congrArg Prod.snd hn).symm
  · split at hname
    · obtain ⟨n, -, hn⟩ := Option.map_eq_some_iff.mp hname
      exact (congrArg Prod.snd hn).symm
    · split at hname
      · cases hname
      · cases hname
        rfl

theorem FileLines.ne_nil (h : FileLines text rest) : text ≠ [] := by
  induction h with
  | last hend =>
      rintro rfl
      exact absurd hend (by decide)
  | line _ _ ih =>
      rintro rfl
      exact ih rfl

end Buffer

section Steps

variable {stray : List UInt8 → Option Nat} {line text : List UInt8}

/-- A round of the outer loop goes on only where a file starts. -/
theorem running_outer_iff (fuel : Nat) :
    (readTrace stray (fuel + 1) false line text).2 = .running ↔
      ∃ name rest, StartsFile stray (fgets lineSize line text).1 (fgets lineSize line text).2
        name rest ∧
          (readTrace stray fuel true (fgets lineSize line text).1 rest).2 = .running := by
  rw [readTrace]
  generalize fgets lineSize line text = r
  obtain ⟨line', text'⟩ := r
  simp only [StartsFile]
  by_cases hend : cString line' = streamEnd
  · rw [if_pos hend, hend]
    simp [streamEnd_not_fileStart]
  · rw [if_neg hend]
    by_cases hstart : fileStartPrefix <+: cString line'
    · rw [if_neg (not_not.mpr hstart)]
      cases hname : readFileName stray line' text' with
      | none => simp
      | some found =>
          obtain ⟨name, rest⟩ := found
          simp [hstart]
    · rw [if_pos hstart]
      simp [hstart]

/-- A round of the inner loop always goes on, and leaves the loop at the end of the file. -/
theorem running_inner_iff (fuel : Nat) :
    (readTrace stray (fuel + 1) true line text).2 = .running ↔
      if fileEndPrefix <+: cString (fgets lineSize line text).1 then
        (readTrace stray fuel false (fgets lineSize line text).1
          (fgets lineSize line text).2).2 = .running
      else
        (readTrace stray fuel true (fgets lineSize line text).1
          (fgets lineSize line text).2).2 = .running := by
  rw [readTrace]
  generalize fgets lineSize line text = r
  obtain ⟨line', text'⟩ := r
  simp only
  split <;> rfl

/-- At the end of the text the buffer keeps its line, and the inner loop never leaves it. -/
theorem running_of_end (hline : ¬ fileEndPrefix <+: cString line) (fuel : Nat) :
    (readTrace stray fuel true line []).2 = .running := by
  induction fuel with
  | zero => rfl
  | succ fuel ih =>
      rw [running_inner_iff, fgets_nil, if_neg hline]
      exact ih

theorem completeFiles_of_stops (fuel : Nat) (line text : List UInt8) :
    ((readTrace stray fuel false line text).2 ≠ .running → CompleteFiles stray text) ∧
      (¬ fileEndPrefix <+: cString line → (readTrace stray fuel true line text).2 ≠ .running →
        ∃ rest, FileLines text rest ∧ CompleteFiles stray rest) := by
  induction fuel generalizing line text with
  | zero => exact ⟨fun h => absurd rfl h, fun _ h => absurd rfl h⟩
  | succ fuel ih =>
      constructor
      · intro h
        by_cases hfile : ∃ name lines,
            StartsFile stray (firstLine text) (afterLine text) name lines
        · obtain ⟨name, lines, hstart⟩ := hfile
          have hne : text ≠ [] := by
            rintro rfl
            exact absurd hstart.1 (by decide)
          have hbegin := (startsFile_fgets line hne).mpr hstart
          have hstops : (readTrace stray fuel true (fgets lineSize line text).1 lines).2 ≠
              .running := fun hrun => h ((running_outer_iff fuel).mpr ⟨name, lines, hbegin, hrun⟩)
          obtain ⟨rest, hlines, hrest⟩ :=
            (ih _ lines).2 (not_fileEnd_of_fileStart hbegin.1) hstops
          exact .file hstart hlines hrest
        · exact .rest fun name lines hstart => hfile ⟨name, lines, hstart⟩
      · intro hline h
        have hne : text ≠ [] := by
          rintro rfl
          exact h (running_of_end hline (fuel + 1))
        obtain ⟨hfirst, hafter⟩ := fgets_lineSize line hne
        rw [Ne, running_inner_iff, hfirst, hafter] at h
        by_cases hend : fileEndPrefix <+: firstLine text
        · rw [if_pos hend] at h
          exact ⟨afterLine text, .last hend, (ih _ _).1 h⟩
        · rw [if_neg hend] at h
          obtain ⟨rest, hlines, hrest⟩ := (ih _ _).2 (hfirst ▸ hend) h
          exact ⟨rest, .line hend hlines, hrest⟩

/-- After its last line a file is left. -/
theorem stops_of_fileLines {rest : List UInt8} (h : FileLines text rest)
    (hnext : ∀ line, fileEndPrefix <+: cString line →
      ∃ fuel, (readTrace stray fuel false line rest).2 ≠ .running) (line : List UInt8) :
    ∃ fuel, (readTrace stray fuel true line text).2 ≠ .running := by
  induction h generalizing line with
  | @last text hend =>
      obtain ⟨hfirst, hafter⟩ := fgets_lineSize line (FileLines.last hend).ne_nil
      obtain ⟨fuel, hstops⟩ := hnext (fgets lineSize line text).1 (hfirst ▸ hend)
      refine ⟨fuel + 1, ?_⟩
      rw [Ne, running_inner_iff, hfirst, hafter, if_pos hend]
      exact hstops
  | @line text rest hline hlines ih =>
      obtain ⟨hfirst, hafter⟩ := fgets_lineSize line (FileLines.line hline hlines).ne_nil
      obtain ⟨fuel, hstops⟩ := ih hnext (fgets lineSize line text).1
      refine ⟨fuel + 1, ?_⟩
      rw [Ne, running_inner_iff, hfirst, hafter, if_neg hline]
      exact hstops

/-- Complete files are read to their end, whatever the buffer holds while there is text. -/
theorem stops_of_completeFiles (h : CompleteFiles stray text)
    (hline : text = [] → ∀ name rest, ¬ StartsFile stray line [] name rest) :
    ∃ fuel, (readTrace stray fuel false line text).2 ≠ .running := by
  induction h generalizing line with
  | @rest text hstart =>
      refine ⟨1, ?_⟩
      rw [Ne, running_outer_iff]
      rintro ⟨name, lines, hbegin, -⟩
      by_cases hne : text = []
      · subst hne
        exact hline rfl name lines hbegin
      · exact hstart name lines ((startsFile_fgets line hne).mp hbegin)
  | @file text name lines rest hstart hlines _ ih =>
      have hne : text ≠ [] := by
        rintro rfl
        exact absurd hstart.1 (by decide)
      -- the buffer holds the last line of the file when the outer loop goes on
      have hnext : ∀ line, fileEndPrefix <+: cString line →
          ∃ fuel, (readTrace stray fuel false line rest).2 ≠ .running := fun line hend =>
        ih fun _ name lines hstart => not_fileEnd_of_fileStart hstart.1 hend
      obtain ⟨fuel, hstops⟩ := stops_of_fileLines hlines hnext (fgets lineSize line text).1
      refine ⟨fuel + 1, ?_⟩
      rw [Ne, running_outer_iff]
      rintro ⟨name', lines', hbegin, hrun⟩
      have hsame := hstart.2.symm.trans ((startsFile_fgets line hne).mp hbegin).2
      cases hsame
      exact hstops hrun

/-- The reader comes to an end exactly on a trace of complete files before a rest that starts no
file; on an empty trace, exactly if the buffer, which nothing has initialized, starts no file. -/
theorem trace_reader_stops_iff (stray : List UInt8 → Option Nat) (line content : List UInt8) :
    (∃ fuel, (readTrace stray fuel false line content).2 ≠ .running) ↔
      CompleteFiles stray content ∧
        (content = [] → ∀ name rest, ¬ StartsFile stray line [] name rest) := by
  constructor
  · rintro ⟨fuel, hstops⟩
    refine ⟨(completeFiles_of_stops fuel line content).1 hstops, ?_⟩
    rintro rfl name rest hstart
    cases fuel with
    | zero => exact hstops rfl
    | succ fuel =>
        refine hstops ((running_outer_iff fuel).mpr ⟨name, rest, hstart, ?_⟩)
        rw [hstart.rest_nil]
        exact running_of_end (not_fileEnd_of_fileStart hstart.1) fuel
  · rintro ⟨hfiles, hline⟩
    exact stops_of_completeFiles hfiles hline

/-- A trace that breaks off after the name of its first file. -/
theorem truncated_trace_read_forever : ¬ ∃ fuel,
    (readTrace (fun _ => none) fuel false (List.replicate lineSize 0)
      (fileStartPrefix ++ decimal 1 ++ newline :: 97 :: [newline])).2 ≠ .running := by
  rintro ⟨fuel, hstops⟩
  cases fuel with
  | zero => exact hstops rfl
  | succ fuel =>
      refine hstops ((running_outer_iff fuel).mpr ⟨[97], [], ⟨?_, ?_⟩, ?_⟩)
      · decide +kernel
      · decide +kernel
      · exact running_of_end (by decide +kernel) fuel

end Steps

end Destor
