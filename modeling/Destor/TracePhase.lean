/- digest: Traces of hashed chunk streams: what is written, and what the reader makes of it. -/

import Destor.DoBackup
import Destor.Library.Text

set_option autoImplicit false
set_option relaxedAutoImplicit false

namespace Destor

open Library.Decimal Library.Text

def codeDigit (b : UInt8) : UInt8 :=
  match b.toNat with
  | 10 => 65
  | 11 => 66
  | 12 => 67
  | 13 => 68
  | 14 => 69
  | 15 => 70
  | _ => b + 48

/-- The loop body of `hash2code`: the digit of the high half of a byte, then of the low half. -/
def byteCode (a : UInt8) : List UInt8 := [codeDigit (a / 16), codeDigit ((a <<< 4) / 16)]

def hash2code (hash : List UInt8) : List UInt8 := hash.flatMap byteCode

def digitValue (a : UInt8) : UInt8 :=
  match a.toNat with
  | 65 | 97 => 10
  | 66 | 98 => 11
  | 67 | 99 => 12
  | 68 | 100 => 13
  | 69 | 101 => 14
  | 70 | 102 => 15
  | _ => a - 48

def code2hash : List UInt8 → List UInt8
  | a :: b :: code => (digitValue a * 16 + digitValue b) :: code2hash code
  | _ => []

def streamEnd : List UInt8 := bytes "stream end".toList

def fileStartPrefix : List UInt8 := bytes "file start ".toList

def fileEndPrefix : List UInt8 := bytes "file end".toList

/-- What `make_trace` prints for a chunk. -/
def traceChunk (c : Chunk) : List UInt8 :=
  if c.flag.fileStart then
    fileStartPrefix ++ decimal (cString c.data).length ++ newline :: cString c.data ++ [newline]
  else if c.flag.fileEnd then fileEndPrefix ++ [newline]
  else hash2code c.fp.bytes ++ 32 :: decimal c.size ++ [newline]

inductive LogLevel where
  | debug
  | verbose
  | notice
  | warning
deriving DecidableEq, Repr

/-- The value of a log level, as in `destor.h`. -/
def LogLevel.level : LogLevel → Nat
  | .debug => 0
  | .verbose => 1
  | .notice => 2
  | .warning => 3

/-- The byte that starts a conversion of a format. -/
def percent : UInt8 := 37

/-- The rest of a format has a conversion that asks for an argument: a `%` that no second one
follows. `opened` tells that a `%` has just been read. -/
def asksFrom : Bool → List UInt8 → Bool
  | opened, [] => opened
  | false, c :: format => asksFrom (c == percent) format
  | true, c :: format => c != percent || asksFrom false format

def asksArgument (format : List UInt8) : Bool := asksFrom false format

/-- What decides how a call of `destor_log` without arguments ends: the verbosity, and whether
`vsnprintf` comes back from a format and leaves the program as it was. Where the format asks for
arguments, this is undefined behaviour. -/
structure LogSettings where
  verbosity : LogLevel
  comesBack : List UInt8 → Bool
  comesBack_plain : ∀ format, asksArgument format = false → comesBack format = true

/-- `destor_log` without arguments; `none` where `vsnprintf` does not come back. -/
def destorLog (log : LogSettings) (level : LogLevel) (format : List UInt8) : Option Unit :=
  if level.level % 256 < log.verbosity.level then some ()
  else if log.comesBack format then some ()
  else none

/-- What `make_trace` does with a chunk: it logs the name of a file, as a format, before it prints
its lines. -/
def traceStep (log : LogSettings) (c : Chunk) : Option (List UInt8) := do
  if c.flag.fileStart then destorLog log .notice (cString c.data)
  return traceChunk c

/-- `make_trace`; `none` where the program ends before the trace is complete. -/
def makeTrace (log : LogSettings) (stream : List Chunk) : Option (List UInt8) := do
  let lines ← stream.mapM (traceStep log)
  return lines.flatten ++ streamEnd

/-- How `read_trace_thread` ended. -/
inductive TraceEnd where
  | terminated
  | aborted
  | running
deriving DecidableEq

def lineSize : Nat := 128

/-- The chunk that the inner loop makes of a line, less its flags. -/
def lineChunk (line : List UInt8) : Chunk :=
  Chunk.normal (Fingerprint.ofBytes (code2hash (((cString line).take 40).takeD 40 0)))
    ((scanDecimal (cString (line.drop 41))).getD 0).toNat []

/-- The name read after a line that gives its length, and the text after it. A length for which
there is no buffer ends the program. Where the line gives no length that an `int` holds, or `-1`, the
behaviour is undefined: the program stops or goes on with the bytes that `stray` gives it. -/
def readFileName (stray : List UInt8 → Option Nat) (line text : List UInt8) :
    Option (List UInt8 × List UInt8) :=
  let undefinedName := (stray text).map fun n => (cString (text.take n), text.drop n)
  match scanDecimal ((cString line).drop fileStartPrefix.length) with
  | none => undefinedName
  | some len =>
      if toInt32 len ≠ len ∨ len = -1 then undefinedName
      else if len < 0 ∨ toInt32 (len + 2) ≤ 0 then none
      else
        let data := takeLine (len.toNat + 1) text
        some ((cString data.1).take len.toNat, data.2)

/-- `read_trace_thread` with at most `fuel` lines: the chunks pushed and the way it ended. `inFile`
tells the two loops apart; `line` is the buffer, which keeps what an earlier line left in it. -/
def readTrace (stray : List UInt8 → Option Nat) :
    Nat → Bool → List UInt8 → List UInt8 → List Chunk × TraceEnd
  | 0, _, _, _ => ([], .running)
  | fuel + 1, false, line, text =>
      let (line, text) := fgets lineSize line text
      if cString line = streamEnd then ([], .terminated)
      else if ¬ fileStartPrefix <+: cString line then ([], .aborted)
      else
        match readFileName stray line text with
        | none => ([], .aborted)
        | some (name, text) =>
            let r := readTrace stray fuel true line text
            (Chunk.fileStart name :: r.1, r.2)
  | fuel + 1, true, line, text =>
      let (line, text) := fgets lineSize line text
      if fileEndPrefix <+: cString line then
        let r := readTrace stray fuel false line text
        (Chunk.fileEnd :: r.1, r.2)
      else
        let r := readTrace stray fuel true line text
        (lineChunk line :: r.1, r.2)

section Code

private theorem byte_forall {P : UInt8 → Prop} (h : ∀ n < 256, P (UInt8.ofNat n)) (a : UInt8) :
    P a := by
  have ha := h a.toNat a.toNat_lt
  rwa [UInt8.ofNat_toNat] at ha

private theorem code2hash_byteCode (a : UInt8) : code2hash (byteCode a) = [a] :=
  byte_forall (P := fun a => code2hash (byteCode a) = [a]) (by decide +kernel) a

theorem code2hash_hash2code (hash : List UInt8) : code2hash (hash2code hash) = hash := by
  induction hash with
  | nil => rfl
  | cons a hash ih =>
      have ha := List.head_eq_of_cons_eq (code2hash_byteCode a)
      show _ :: code2hash (hash2code hash) = a :: hash
      rw [ih, ha]

theorem length_hash2code (hash : List UInt8) : (hash2code hash).length = 2 * hash.length := by
  induction hash with
  | nil => rfl
  | cons a hash ih =>
      show (hash2code hash).length + 2 = 2 * (hash.length + 1)
      omega

private theorem codeDigit_range (a : UInt8) : 48 ≤ codeDigit (a / 16) ∧ codeDigit (a / 16) ≤ 70 := by
  have hdigits : ∀ n < 16, 48 ≤ codeDigit (UInt8.ofNat n) ∧ codeDigit (UInt8.ofNat n) ≤ 70 := by
    decide
  have hlt : (a / 16).toNat < 16 := by
    have ha := a.toNat_lt
    rw [UInt8.toNat_div, show (16 : UInt8).toNat = 16 from rfl]
    omega
  have hdigit := hdigits (a / 16).toNat hlt
  rwa [UInt8.ofNat_toNat] at hdigit

/-- A code consists of digits and capital letters. -/
theorem mem_hash2code {hash : List UInt8} {b : UInt8} (h : b ∈ hash2code hash) :
    48 ≤ b ∧ b ≤ 70 := by
  obtain ⟨a, -, hb⟩ := List.mem_flatMap.mp h
  rcases List.mem_pair.mp hb with rfl | rfl
  · exact codeDigit_range a
  · exact codeDigit_range (a <<< 4)

end Code

section Log

variable {log : LogSettings} {format : List UInt8}

/-- The log prints the name of a file without harm: not at all, or as a format from which
`vsnprintf` comes back. -/
def LogSettings.Logs (log : LogSettings) (format : List UInt8) : Prop :=
  LogLevel.notice.level < log.verbosity.level ∨ log.comesBack format = true

instance (log : LogSettings) (format : List UInt8) : Decidable (log.Logs format) :=
  inferInstanceAs (Decidable (_ ∨ _))

theorem destorLog_isSome_iff : (destorLog log .notice format).isSome ↔ log.Logs format := by
  unfold destorLog LogSettings.Logs
  rw [show LogLevel.notice.level % 256 = LogLevel.notice.level from rfl]
  by_cases hquiet : LogLevel.notice.level < log.verbosity.level
  · simp [hquiet]
  · by_cases hback : log.comesBack format = true <;> simp [hquiet, hback]

private theorem traceStep_eq (log : LogSettings) (c : Chunk) :
    traceStep log c =
      if c.flag.fileStart = true → log.Logs (cString c.data) then some (traceChunk c) else none := by
  unfold traceStep
  by_cases hstart : c.flag.fileStart = true
  · have hlog : (destorLog log .notice (cString c.data)).isSome ↔ log.Logs (cString c.data) :=
      destorLog_isSome_iff
    cases hcall : destorLog log .notice (cString c.data) with
    | none =>
        have hnot : ¬ log.Logs (cString c.data) := fun h => by simp [hcall] at hlog; exact hlog h
        simp [hstart, hnot]
    | some u =>
        have hlogs : log.Logs (cString c.data) := hlog.mp (by rw [hcall]; rfl)
        simp [hstart, hlogs]
  · simp [hstart]

private theorem mapM_traceStep (log : LogSettings) (stream : List Chunk) :
    stream.mapM (traceStep log) =
      if ∀ c ∈ stream, c.flag.fileStart = true → log.Logs (cString c.data) then
        some (stream.map traceChunk) else none := by
  induction stream with
  | nil => rfl
  | cons c stream ih =>
      rw [List.mapM_cons, ih, traceStep_eq]
      by_cases hc : c.flag.fileStart = true → log.Logs (cString c.data)
      · by_cases hstream : ∀ c ∈ stream, c.flag.fileStart = true → log.Logs (cString c.data)
        · have hall := List.forall_mem_cons.mpr ⟨hc, hstream⟩
          rw [if_pos hc, if_pos hstream, if_pos hall]
          rfl
        · have hnot : ¬ ∀ d ∈ c :: stream, d.flag.fileStart = true → log.Logs (cString d.data) :=
            fun hall => hstream (List.forall_mem_cons.mp hall).2
          rw [if_pos hc, if_neg hstream, if_neg hnot]
          rfl
      · have hnot : ¬ ∀ d ∈ c :: stream, d.flag.fileStart = true → log.Logs (cString d.data) :=
          fun hall => hc (List.forall_mem_cons.mp hall).1
        rw [if_neg hc, if_neg hnot]
        rfl

/-- The trace is written when the log prints every file name without harm. -/
theorem makeTrace_eq_some_iff {stream : List Chunk} {text : List UInt8} :
    makeTrace log stream = some text ↔
      (∀ c ∈ stream, c.flag.fileStart = true → log.Logs (cString c.data)) ∧
        stream.flatMap traceChunk ++ streamEnd = text := by
  unfold makeTrace
  rw [mapM_traceStep, List.flatMap_def]
  by_cases hall : ∀ c ∈ stream, c.flag.fileStart = true → log.Logs (cString c.data)
  · rw [if_pos hall, and_iff_right hall]
    exact Option.some_inj
  · rw [if_neg hall]
    exact ⟨fun h => (Option.some_ne_none text h.symm).elim, fun h => absurd h.1 hall⟩

private theorem logs_of_files {files : List InputFile} (h0 : ∀ f ∈ files, 0 ∉ f.name) :
    (∀ c ∈ files.flatMap InputFile.stream, c.flag.fileStart = true → log.Logs (cString c.data)) ↔
      ∀ f ∈ files, log.Logs f.name := by
  constructor
  · intro hall f hf
    have hstart := hall (Chunk.fileStart f.name)
      (List.mem_flatMap.mpr ⟨f, hf, List.mem_cons_self⟩) rfl
    rwa [show (Chunk.fileStart f.name).data = f.name from rfl, cString_of_not_mem (h0 f hf)]
      at hstart
  · intro hall c hc hflag
    obtain ⟨f, hf, hc⟩ := List.mem_flatMap.mp hc
    rcases List.mem_cons.mp hc with rfl | hc
    · rw [show (Chunk.fileStart f.name).data = f.name from rfl, cString_of_not_mem (h0 f hf)]
      exact hall f hf
    · rcases List.mem_append.mp hc with hc | hc
      · obtain ⟨ck, -, rfl⟩ := List.mem_map.mp hc
        exact absurd hflag Bool.false_ne_true
      · rw [List.mem_singleton.mp hc] at hflag
        exact absurd hflag (by decide)

end Log

section Lines

variable {stray : List UInt8 → Option Nat} {fuel : Nat} {line text : List UInt8}

/-- What the reader adds to what it makes of the rest. -/
def prepend (chunks : List Chunk) (r : List Chunk × TraceEnd) : List Chunk × TraceEnd :=
  (chunks ++ r.1, r.2)

private theorem not_mem_decimal {x : Int} {b : UInt8} (h : b < 45) : b ∉ decimal x := by
  intro hb
  rcases mem_decimal hb with rfl | ⟨hlo, -⟩
  · exact absurd h (by decide)
  · exact absurd (UInt8.lt_of_lt_of_le (UInt8.lt_trans h (by decide : (45 : UInt8) < 48)) hlo)
      (UInt8.lt_irrefl b)

private theorem startLine_not_mem {len : Nat} {b : UInt8} (h : b < 45) (hne : b ≠ 32) :
    b ∉ fileStartPrefix ++ decimal len := by
  intro hb
  rcases List.mem_append.mp hb with hb | hb
  · have hall : fileStartPrefix.all (fun a => a == 32 || 45 ≤ a) = true := by decide
    have hor := List.all_eq_true.mp hall b hb
    simp only [Bool.or_eq_true, beq_iff_eq, decide_eq_true_eq] at hor
    rcases hor with heq | hle
    · exact hne heq
    · exact absurd h (UInt8.not_lt.mpr hle)
  · exact not_mem_decimal h hb

private theorem cString_line (h : 0 ∉ line) (tail : List UInt8) :
    cString (line ++ newline :: 0 :: tail) = line ++ [newline] := by
  have hnone : (0 : UInt8) ∉ line ++ [newline] := by
    intro hmem
    rcases List.mem_append.mp hmem with hmem | hmem
    · exact h hmem
    · exact absurd (List.mem_singleton.mp hmem) (by decide)
  have hcut := cString_append_zero hnone tail
  rwa [List.append_assoc, List.singleton_append] at hcut

private theorem cString_startLine (len : Nat) (tail : List UInt8) :
    cString (fileStartPrefix ++ decimal len ++ newline :: 0 :: tail) =
      fileStartPrefix ++ (decimal len ++ [newline]) := by
  rw [cString_line (startLine_not_mem (by decide) (by decide)), List.append_assoc]

private theorem scanDecimal_newline (x : Int) : scanDecimal (decimal x ++ [newline]) = some x := by
  apply scanDecimal_decimal x
  intro c hc
  cases hc
  decide

private theorem cString_newline (h : 0 ∉ line) :
    cString (line ++ [newline]) = line ++ [newline] := by
  apply cString_of_not_mem
  intro hmem
  rcases List.mem_append.mp hmem with hmem | hmem
  · exact h hmem
  · exact absurd (List.mem_singleton.mp hmem) (by decide)

private theorem readFileName_startLine {len : Nat} {before after tail : List UInt8}
    (hlen : len + 2 < 2 ^ 31) (hzero : 0 ∉ before) (hline : newline ∉ before)
    (hle : before.length ≤ len) :
    readFileName stray (fileStartPrefix ++ decimal len ++ newline :: 0 :: tail)
        (before ++ newline :: after) =
      some ((before ++ [newline]).take len, after) := by
  have hfits : toInt32 ((len : Int) + 2) = len + 2 := by
    unfold toInt32
    exact Int.bmod_eq_of_le_mul_two (by omega) (by omega)
  unfold readFileName
  rw [cString_startLine, List.drop_left, scanDecimal_newline]
  have hint : toInt32 (len : Int) = len := by
    unfold toInt32
    exact Int.bmod_eq_of_le_mul_two (by omega) (by omega)
  simp only [hfits, hint]
  rw [if_neg (by omega), if_neg (by omega), Int.toNat_natCast, takeLine_newline hline (by omega)]
  simp only [cString_newline hzero]

private theorem readFileName_long {len : Nat} {tail text : List UInt8}
    (hlong : 2 ^ 31 ≤ len + 2) (hlen : len + 1 < 2 ^ 31) :
    readFileName stray (fileStartPrefix ++ decimal len ++ newline :: 0 :: tail) text = none := by
  have hwraps : toInt32 ((len : Int) + 2) ≤ 0 := by
    have heq : len = 2 ^ 31 - 2 := by omega
    subst heq
    decide
  have hint : toInt32 (len : Int) = len := by
    unfold toInt32
    exact Int.bmod_eq_of_le_mul_two (by omega) (by omega)
  unfold readFileName
  rw [cString_startLine, List.drop_left, scanDecimal_newline]
  simp only [hint]
  rw [if_neg (by omega), if_pos (Or.inr hwraps)]

private theorem traceChunk_fileStart {name : List UInt8} (h0 : 0 ∉ name) (rest : List UInt8) :
    traceChunk (Chunk.fileStart name) ++ rest =
      (fileStartPrefix ++ decimal name.length) ++ newline :: (name ++ newline :: rest) := by
  have hname : cString (Chunk.fileStart name).data = name := cString_of_not_mem h0
  have hflag : (Chunk.fileStart name).flag.fileStart = true := rfl
  rw [traceChunk, if_pos hflag, hname]
  simp only [List.append_assoc, List.cons_append, List.nil_append]

private theorem readTrace_startLine {name : List UInt8} (h0 : 0 ∉ name)
    (hlen : name.length + 1 < 2 ^ 31) (fuel : Nat) (line rest : List UInt8) : ∃ tail,
    readTrace stray (fuel + 1) false line (traceChunk (Chunk.fileStart name) ++ rest) =
      match readFileName stray (fileStartPrefix ++ decimal name.length ++ newline :: 0 :: tail)
        (name ++ newline :: rest) with
      | none => ([], .aborted)
      | some (found, text) => prepend [Chunk.fileStart found] (readTrace stray fuel true
          (fileStartPrefix ++ decimal name.length ++ newline :: 0 :: tail) text) := by
  have hdigits : (decimal (name.length : Int)).length ≤ 10 :=
    length_decimal_le (by decide) (by omega)
  have hsize : (fileStartPrefix ++ decimal name.length).length + 1 < lineSize := by
    have hprefix : fileStartPrefix.length = 11 := rfl
    rw [List.length_append, hprefix, lineSize]
    omega
  have hfgets := fgets_newline line (name ++ newline :: rest)
    (startLine_not_mem (b := newline) (by decide) (by decide)) hsize
  have hstring := cString_startLine name.length
    (line.drop ((fileStartPrefix ++ decimal name.length).length + 2))
  have hnotEnd : fileStartPrefix ++ (decimal name.length ++ [newline]) ≠ streamEnd := by
    intro heq
    have hhead : some (102 : UInt8) = some 115 := congrArg List.head? heq
    exact absurd hhead (by decide)
  refine ⟨line.drop ((fileStartPrefix ++ decimal name.length).length + 2), ?_⟩
  rw [traceChunk_fileStart h0, readTrace, hfgets]
  simp only [hstring, if_neg hnotEnd]
  rw [if_neg (not_not.mpr (List.prefix_append _ _))]
  rfl

private theorem readTrace_fileStart {name before after : List UInt8} (h0 : 0 ∉ name)
    (hlen : name.length + 2 < 2 ^ 31) (hline : newline ∉ before)
    (hle : before.length ≤ name.length) {rest : List UInt8}
    (hsplit : name ++ newline :: rest = before ++ newline :: after) (fuel : Nat)
    (line : List UInt8) : ∃ line',
    readTrace stray (fuel + 1) false line (traceChunk (Chunk.fileStart name) ++ rest) =
      prepend [Chunk.fileStart ((before ++ [newline]).take name.length)]
        (readTrace stray fuel true line' after) := by
  have hzero : 0 ∉ before := by
    have hbefore : before = name.take before.length := by
      have htake := congrArg (List.take before.length) hsplit
      rwa [List.take_left, List.take_append_of_le_length hle, eq_comm] at htake
    intro hmem
    rw [hbefore] at hmem
    exact h0 (List.mem_of_mem_take hmem)
  obtain ⟨tail, hread⟩ := readTrace_startLine h0 (by omega) fuel line rest
  rw [hsplit, readFileName_startLine hlen hzero hline hle] at hread
  exact ⟨_, hread⟩

private theorem readTrace_fileStart_long {name : List UInt8} (h0 : 0 ∉ name)
    (hlong : 2 ^ 31 ≤ name.length + 2) (hlen : name.length + 1 < 2 ^ 31) (fuel : Nat)
    (line rest : List UInt8) :
    readTrace stray (fuel + 1) false line (traceChunk (Chunk.fileStart name) ++ rest) =
      ([], .aborted) := by
  obtain ⟨tail, hread⟩ := readTrace_startLine h0 hlen fuel line rest
  rwa [readFileName_long hlong hlen] at hread

private theorem readTrace_fileEnd (fuel : Nat) (line rest : List UInt8) : ∃ line',
    readTrace stray (fuel + 1) true line (traceChunk Chunk.fileEnd ++ rest) =
      prepend [Chunk.fileEnd] (readTrace stray fuel false line' rest) := by
  have htext : traceChunk Chunk.fileEnd ++ rest = fileEndPrefix ++ newline :: rest := by
    simp only [traceChunk]
    rfl
  have hline : newline ∉ fileEndPrefix := by decide
  have hfits : fileEndPrefix.length + 1 < lineSize := by decide
  have hzero : (0 : UInt8) ∉ fileEndPrefix ++ [newline] := by decide
  have hfgets := fgets_newline line rest hline hfits
  have hstring := cString_append_zero hzero (line.drop (fileEndPrefix.length + 2))
  rw [List.append_assoc, List.singleton_append] at hstring
  refine ⟨fileEndPrefix ++ newline :: 0 :: line.drop (fileEndPrefix.length + 2), ?_⟩
  rw [htext, readTrace, hfgets]
  simp only [hstring, if_pos (List.prefix_append _ _)]
  rfl

private theorem readTrace_streamEnd (fuel : Nat) (line : List UInt8) :
    readTrace stray (fuel + 1) false line streamEnd = ([], .terminated) := by
  have hne : streamEnd ≠ [] := by decide
  have hline : newline ∉ streamEnd := by decide
  have hfits : streamEnd.length < lineSize := by decide
  have hzero : (0 : UInt8) ∉ streamEnd := by decide
  have hfgets := fgets_end line hne hline hfits
  have hstring := cString_append_zero hzero (line.drop (streamEnd.length + 1))
  rw [readTrace, hfgets]
  simp only [hstring, if_true]

def chunkLine (c : InputChunk) : List UInt8 := hash2code c.fp.bytes ++ 32 :: decimal c.size

private theorem length_code (c : InputChunk) : (hash2code c.fp.bytes).length = 40 := by
  rw [length_hash2code, c.fp.length_eq]

private theorem chunkLine_not_mem (c : InputChunk) {b : UInt8} (hb : b < 32) : b ∉ chunkLine c := by
  intro hmem
  rcases List.mem_append.mp hmem with hmem | hmem
  · have hlo := (mem_hash2code hmem).1
    exact absurd (UInt8.lt_of_le_of_lt hlo hb) (by decide)
  · rcases List.mem_cons.mp hmem with rfl | hmem
    · exact absurd hb (by decide)
    · exact not_mem_decimal (UInt8.lt_trans hb (by decide)) hmem

private theorem lineChunk_chunkLine (c : InputChunk) (tail : List UInt8) :
    lineChunk (chunkLine c ++ newline :: 0 :: tail) = Chunk.normal c.fp c.size [] := by
  have hcode : ((cString (chunkLine c ++ newline :: 0 :: tail)).take 40).takeD 40 0 =
      hash2code c.fp.bytes := by
    rw [cString_line (chunkLine_not_mem c (by decide)), chunkLine, List.append_assoc,
      List.take_left' (length_code c), List.takeD_eq_take 0 (Nat.le_of_eq (length_code c).symm),
      List.take_of_length_le (Nat.le_of_eq (length_code c))]
  have hdrop : (chunkLine c ++ newline :: 0 :: tail).drop 41 =
      decimal c.size ++ newline :: 0 :: tail := by
    have hsplit : chunkLine c ++ newline :: 0 :: tail =
        (hash2code c.fp.bytes ++ [32]) ++ (decimal c.size ++ newline :: 0 :: tail) := by
      simp only [chunkLine, List.append_assoc, List.cons_append, List.nil_append]
    rw [hsplit, List.drop_left' (by rw [List.length_append, length_code]; rfl)]
  unfold lineChunk
  rw [hcode, hdrop, cString_line (not_mem_decimal (by decide)), scanDecimal_newline,
    code2hash_hash2code, Fingerprint.ofBytes_bytes]
  rfl

private theorem chunkLine_not_fileEnd (c : InputChunk) :
    ¬ fileEndPrefix <+: chunkLine c ++ [newline] := by
  intro hprefix
  rw [chunkLine, List.append_assoc] at hprefix
  have hcut : fileEndPrefix <+: hash2code c.fp.bytes :=
    List.prefix_of_prefix_length_le hprefix (List.prefix_append _ _)
      (by rw [length_code]; decide)
  have hmem : (102 : UInt8) ∈ hash2code c.fp.bytes := hcut.subset (by decide)
  exact absurd (mem_hash2code hmem).2 (by decide)

private theorem readTrace_chunk (c : InputChunk) (hsize : c.size < 2 ^ 31) (fuel : Nat)
    (line rest : List UInt8) : ∃ line',
    readTrace stray (fuel + 1) true line (traceChunk c.toChunk ++ rest) =
      prepend [Chunk.normal c.fp c.size []] (readTrace stray fuel true line' rest) := by
  have htext : traceChunk c.toChunk ++ rest = chunkLine c ++ newline :: rest := by
    have htrace : traceChunk c.toChunk = chunkLine c ++ [newline] := rfl
    rw [htrace, List.append_assoc, List.singleton_append]
  have hdigits : (decimal (c.size : Int)).length ≤ 10 :=
    length_decimal_le (by decide) (by omega)
  have hfits : (chunkLine c).length + 1 < lineSize := by
    rw [chunkLine, List.length_append, length_code, List.length_cons, lineSize]
    omega
  have hfgets := fgets_newline line rest
    (chunkLine_not_mem c (b := newline) (by decide)) hfits
  have hstring := cString_line (chunkLine_not_mem c (by decide))
    (line.drop ((chunkLine c).length + 2))
  refine ⟨chunkLine c ++ newline :: 0 :: line.drop ((chunkLine c).length + 2), ?_⟩
  rw [htext, readTrace, hfgets]
  simp only [hstring, if_neg (chunkLine_not_fileEnd c), lineChunk_chunkLine]
  rfl

def eraseData (c : Chunk) : Chunk := if c.isNormal then { c with data := [] } else c

def tracedChunks (f : InputFile) : List Chunk := f.chunks.map fun c => Chunk.normal c.fp c.size []

theorem map_eraseData_stream (f : InputFile) :
    f.stream.map eraseData = Chunk.fileStart f.name :: (tracedChunks f ++ [Chunk.fileEnd]) := by
  have hchunks : (f.chunks.map InputChunk.toChunk).map eraseData = tracedChunks f := by
    rw [List.map_map]
    rfl
  rw [InputFile.stream, List.cons_append, List.map_cons, List.map_append, hchunks]
  rfl

/-- A trace that was read to its end is read in the same way with more fuel. -/
theorem readTrace_mono {inFile : Bool} (h : (readTrace stray fuel inFile line text).2 = .terminated)
    (k : Nat) : readTrace stray (fuel + k) inFile line text = readTrace stray fuel inFile line text := by
  induction fuel generalizing inFile line text with
  | zero => exact absurd h (by simp [readTrace])
  | succ fuel ih =>
      rw [Nat.add_right_comm]
      cases inFile with
      | true =>
          rw [readTrace] at h
          rw [readTrace, readTrace]
          generalize fgets lineSize line text = r at h ⊢
          obtain ⟨line', text'⟩ := r
          simp only at h ⊢
          by_cases hend : fileEndPrefix <+: cString line'
          · simp only [if_pos hend] at h ⊢
            rw [ih h]
          · simp only [if_neg hend] at h ⊢
            rw [ih h]
      | false =>
          rw [readTrace] at h
          rw [readTrace, readTrace]
          generalize fgets lineSize line text = r at h ⊢
          obtain ⟨line', text'⟩ := r
          simp only at h ⊢
          by_cases hend : cString line' = streamEnd
          · simp only [if_pos hend]
          · simp only [if_neg hend] at h ⊢
            by_cases hprefix : ¬ fileStartPrefix <+: cString line'
            · simp only [if_pos hprefix]
            · simp only [if_neg hprefix] at h ⊢
              cases hname : readFileName stray line' text' with
              | none => rfl
              | some found =>
                  simp only [hname] at h ⊢
                  rw [ih h]

private theorem readTrace_chunks (chunks : List InputChunk)
    (hsize : ∀ c ∈ chunks, c.size < 2 ^ 31) (fuel : Nat) (line rest : List UInt8) : ∃ line',
    readTrace stray (chunks.length + 1 + fuel) true line
        ((chunks.map InputChunk.toChunk ++ [Chunk.fileEnd]).flatMap traceChunk ++ rest) =
      prepend (chunks.map (fun c => Chunk.normal c.fp c.size []) ++ [Chunk.fileEnd])
        (readTrace stray fuel false line' rest) := by
  induction chunks generalizing line with
  | nil =>
      obtain ⟨line', hread⟩ := readTrace_fileEnd fuel line rest
      refine ⟨line', ?_⟩
      rw [Nat.add_comm] at hread
      simpa using hread
  | cons c chunks ih =>
      obtain ⟨hc, hchunks⟩ := List.forall_mem_cons.mp hsize
      obtain ⟨line₁, hread⟩ := readTrace_chunk c hc (chunks.length + 1 + fuel) line
        ((chunks.map InputChunk.toChunk ++ [Chunk.fileEnd]).flatMap traceChunk ++ rest)
      obtain ⟨line₂, hrest⟩ := ih hchunks line₁
      refine ⟨line₂, ?_⟩
      have hfuel : (c :: chunks).length + 1 + fuel = chunks.length + 1 + fuel + 1 := by
        rw [List.length_cons]
        omega
      rw [hfuel, List.map_cons, List.cons_append, List.flatMap_cons, List.append_assoc, hread,
        hrest]
      rfl

private theorem readTrace_file {f : InputFile} (h0 : 0 ∉ f.name)
    (hlen : f.name.length + 2 < 2 ^ 31) (hline : newline ∉ f.name)
    (hsize : ∀ c ∈ f.chunks, c.size < 2 ^ 31) (fuel : Nat) (line rest : List UInt8) : ∃ line',
    readTrace stray (f.stream.length + fuel) false line (f.stream.flatMap traceChunk ++ rest) =
      prepend (f.stream.map eraseData) (readTrace stray fuel false line' rest) := by
  generalize hchunks : (f.chunks.map InputChunk.toChunk ++ [Chunk.fileEnd]).flatMap traceChunk ++
    rest = chunks
  have hsplit : f.name ++ newline :: chunks = f.name ++ newline :: chunks := rfl
  obtain ⟨line₁, hstart⟩ := readTrace_fileStart h0 hlen hline (Nat.le_refl _) hsplit
    (f.chunks.length + 1 + fuel) line
  rw [← hchunks] at hstart
  obtain ⟨line₂, hrest⟩ := readTrace_chunks f.chunks hsize fuel line₁ rest
  refine ⟨line₂, ?_⟩
  have hfuel : f.stream.length + fuel = f.chunks.length + 1 + fuel + 1 := by
    simp only [InputFile.stream, List.length_append, List.length_cons, List.length_map,
      List.length_nil]
    omega
  have htext : f.stream.flatMap traceChunk ++ rest = traceChunk (Chunk.fileStart f.name) ++
      ((f.chunks.map InputChunk.toChunk ++ [Chunk.fileEnd]).flatMap traceChunk ++ rest) := by
    rw [InputFile.stream, List.cons_append, List.flatMap_cons, List.append_assoc]
  rw [hfuel, htext, hstart, hrest, List.take_left, map_eraseData_stream]
  rfl

private theorem chunk_before_ne {cs out out' : List Chunk} {c : Chunk}
    (hc : c.isNormal = true) (hcs : ∀ c ∈ cs, c.isNormal = true) :
    c :: (cs ++ Chunk.fileEnd :: out) ≠ cs ++ Chunk.fileEnd :: out' := by
  induction cs generalizing c with
  | nil =>
      intro h
      rw [(List.cons.inj h).1] at hc
      exact absurd hc (by decide)
  | cons c' cs ih =>
      intro h
      obtain ⟨hc', hcs'⟩ := List.forall_mem_cons.mp hcs
      exact ih hc' hcs' (List.cons.inj h).2

private theorem readTrace_blank (fuel : Nat) (line rest : List UInt8) : ∃ line',
    readTrace stray (fuel + 1) true line (newline :: rest) =
      prepend [lineChunk line'] (readTrace stray fuel true line' rest) := by
  have hline : newline ∉ ([] : List UInt8) := List.not_mem_nil
  have hfits : ([] : List UInt8).length + 1 < lineSize := by decide
  have hzero : (0 : UInt8) ∉ ([] : List UInt8) := List.not_mem_nil
  have hfgets := fgets_newline line rest hline hfits
  have hstring := cString_line hzero (line.drop 2)
  have hnotEnd : ¬ fileEndPrefix <+: [] ++ [newline] := by decide
  refine ⟨newline :: 0 :: line.drop 2, ?_⟩
  rw [List.nil_append] at hfgets
  rw [readTrace, hfgets]
  simp only [List.length_nil, Nat.zero_add, hstring, if_neg hnotEnd]
  rfl

private theorem readTrace_file_bad {f : InputFile} (h0 : 0 ∉ f.name)
    (hlen : f.name.length + 1 < 2 ^ 31) (hsize : ∀ c ∈ f.chunks, c.size < 2 ^ 31)
    (hbad : newline ∈ f.name ∨ 2 ^ 31 ≤ f.name.length + 2) {out : List Chunk} {rest : List UInt8}
    (h : readTrace stray fuel false line (f.stream.flatMap traceChunk ++ rest) =
      (f.stream.map eraseData ++ out, .terminated)) : False := by
  have htext : f.stream.flatMap traceChunk ++ rest = traceChunk (Chunk.fileStart f.name) ++
      ((f.chunks.map InputChunk.toChunk ++ [Chunk.fileEnd]).flatMap traceChunk ++ rest) := by
    rw [InputFile.stream, List.cons_append, List.flatMap_cons, List.append_assoc]
  -- more fuel than the file has lines
  have hmore := readTrace_mono (congrArg Prod.snd h) (f.chunks.length + 3)
  rw [h, show fuel + (f.chunks.length + 3) = f.chunks.length + 1 + fuel + 1 + 1 by omega,
    htext] at hmore
  by_cases hlong : 2 ^ 31 ≤ f.name.length + 2
  · rw [readTrace_fileStart_long h0 hlong hlen] at hmore
    exact absurd (congrArg Prod.snd hmore) (by simp)
  · obtain ⟨before, after, hname, hbefore⟩ :=
      List.eq_append_cons_of_mem (hbad.resolve_right hlong)
    have hle : before.length + 1 ≤ f.name.length := by
      rw [hname, List.length_append, List.length_cons]
      omega
    generalize hlines : (f.chunks.map InputChunk.toChunk ++ [Chunk.fileEnd]).flatMap traceChunk ++
      rest = lines at hmore
    have hsplit : f.name ++ newline :: lines = before ++ newline :: (after ++ newline :: lines) := by
      rw [hname, List.append_assoc, List.cons_append]
    obtain ⟨line₁, hstart⟩ := readTrace_fileStart h0 (by omega) hbefore (by omega) hsplit
      (f.chunks.length + 1 + fuel + 1) line
    rw [← hlines] at hmore hstart
    have htake : (before ++ [newline]).take f.name.length = before ++ [newline] :=
      List.take_of_length_le (by rw [List.length_append]; exact hle)
    rw [hstart, htake, map_eraseData_stream] at hmore
    have hchunks := congrArg Prod.fst hmore
    obtain ⟨hhead, htail⟩ := List.cons.inj hchunks
    have hsame : before ++ [newline] = f.name := congrArg Chunk.data hhead
    -- the end of the line after the name makes a chunk of its own
    have hafter : after = [] := by
      rw [hname, List.append_cancel_left_eq] at hsame
      exact (List.cons.inj hsame).2.symm
    rw [hafter, List.nil_append] at htail
    obtain ⟨line₂, hblank⟩ := readTrace_blank (f.chunks.length + 1 + fuel) line₁
      ((f.chunks.map InputChunk.toChunk ++ [Chunk.fileEnd]).flatMap traceChunk ++ rest)
    obtain ⟨line₃, hrest⟩ := readTrace_chunks f.chunks hsize fuel line₂ rest
    have hnormal : ∀ c ∈ tracedChunks f, c.isNormal = true := by
      intro c hc
      obtain ⟨c', -, rfl⟩ := List.mem_map.mp hc
      rfl
    have hfirst : (readTrace stray (f.chunks.length + 1 + fuel + 1) true line₁ (newline ::
        ((f.chunks.map InputChunk.toChunk ++ [Chunk.fileEnd]).flatMap traceChunk ++ rest))).1 =
        lineChunk line₂ :: (tracedChunks f ++ Chunk.fileEnd ::
          (readTrace stray fuel false line₃ rest).1) := by
      rw [hblank, hrest]
      simp [prepend, tracedChunks]
    exact chunk_before_ne (c := lineChunk line₂) rfl hnormal
      (hfirst.symm.trans (htail.trans (List.append_assoc _ [Chunk.fileEnd] out)))

private theorem readTrace_files {files : List InputFile}
    (h0 : ∀ f ∈ files, 0 ∉ f.name) (hline : ∀ f ∈ files, newline ∉ f.name)
    (hlen : ∀ f ∈ files, f.name.length + 2 < 2 ^ 31)
    (hsize : ∀ f ∈ files, ∀ c ∈ f.chunks, c.size < 2 ^ 31) (fuel : Nat)
    (line rest : List UInt8) : ∃ line',
    readTrace stray ((files.flatMap InputFile.stream).length + fuel) false line
        ((files.flatMap InputFile.stream).flatMap traceChunk ++ rest) =
      prepend ((files.flatMap InputFile.stream).map eraseData)
        (readTrace stray fuel false line' rest) := by
  induction files generalizing line with
  | nil => exact ⟨line, by simp [prepend]⟩
  | cons f files ih =>
      rw [List.forall_mem_cons] at h0 hline hlen hsize
      obtain ⟨line₁, hfile⟩ := readTrace_file h0.1 hlen.1 hline.1 hsize.1
        ((files.flatMap InputFile.stream).length + fuel) line
        ((files.flatMap InputFile.stream).flatMap traceChunk ++ rest)
      obtain ⟨line₂, hrest⟩ := ih h0.2 hline.2 hlen.2 hsize.2 line₁
      refine ⟨line₂, ?_⟩
      rw [List.flatMap_cons, List.length_append, Nat.add_assoc, List.flatMap_append,
        List.append_assoc, hfile, hrest, List.map_append]
      simp [prepend, List.append_assoc]

private theorem exists_first_not {α : Type} {P : α → Prop} {l : List α} (h : ¬ ∀ a ∈ l, P a) :
    ∃ before a after, l = before ++ a :: after ∧ (∀ b ∈ before, P b) ∧ ¬ P a := by
  induction l with
  | nil => exact absurd (by simp) h
  | cons b l ih =>
      by_cases hb : P b
      · obtain ⟨before, a, after, hl, hbefore, ha⟩ := ih fun hl => h fun c hc => by
          rcases List.mem_cons.mp hc with rfl | hc
          · exact hb
          · exact hl c hc
        exact ⟨b :: before, a, after, by rw [hl, List.cons_append],
          List.forall_mem_cons.mpr ⟨hb, hbefore⟩, ha⟩
      · exact ⟨[], b, l, rfl, by simp, hb⟩

/-- What `make_trace` prints, `read_trace_thread` reads back exactly when no file name contains the
end of a line or is so long that an `int` cannot count its buffer. -/
private theorem printed_round_trip_iff (stray : List UInt8 → Option Nat) (files : List InputFile)
    (line : List UInt8)
    (h0 : ∀ f ∈ files, 0 ∉ f.name) (hlen : ∀ f ∈ files, f.name.length + 1 < 2 ^ 31)
    (hsize : ∀ f ∈ files, ∀ c ∈ f.chunks, 0 < c.size ∧ c.size < 2 ^ 31) :
    (∃ fuel, readTrace stray fuel false line
        ((files.flatMap InputFile.stream).flatMap traceChunk ++ streamEnd) =
      ((files.flatMap InputFile.stream).map eraseData, .terminated)) ↔
      ∀ f ∈ files, newline ∉ f.name ∧ f.name.length + 2 < 2 ^ 31 := by
  constructor
  · rintro ⟨fuel, hread⟩
    by_contra hbad
    obtain ⟨good, f, files', rfl, hgood, hf⟩ := exists_first_not hbad
    have hmem : ∀ g ∈ good, g ∈ good ++ f :: files' := fun g hg => List.mem_append_left _ hg
    have hfmem : f ∈ good ++ f :: files' := List.mem_append_right _ List.mem_cons_self
    -- the files before the first bad one are read back
    have hmore := readTrace_mono (congrArg Prod.snd hread) (good.flatMap InputFile.stream).length
    obtain ⟨line', hfiles⟩ := readTrace_files (fun g hg => h0 g (hmem g hg))
      (fun g hg => (hgood g hg).1) (fun g hg => (hgood g hg).2)
      (fun g hg c hc => (hsize g (hmem g hg) c hc).2) fuel line
      (f.stream.flatMap traceChunk ++ ((files'.flatMap InputFile.stream).flatMap traceChunk ++
        streamEnd))
    have htext : ((good ++ f :: files').flatMap InputFile.stream).flatMap traceChunk ++ streamEnd =
        (good.flatMap InputFile.stream).flatMap traceChunk ++ (f.stream.flatMap traceChunk ++
          ((files'.flatMap InputFile.stream).flatMap traceChunk ++ streamEnd)) := by
      simp only [List.flatMap_append, List.flatMap_cons, List.append_assoc]
    rw [hread, Nat.add_comm, htext, hfiles] at hmore
    have hout : (readTrace stray fuel false line' (f.stream.flatMap traceChunk ++
        ((files'.flatMap InputFile.stream).flatMap traceChunk ++ streamEnd))).1 =
        f.stream.map eraseData ++ (files'.flatMap InputFile.stream).map eraseData := by
      have hfst := congrArg Prod.fst hmore
      simp only [prepend, List.flatMap_append, List.flatMap_cons, List.map_append] at hfst
      exact List.append_cancel_left hfst
    have hend : (readTrace stray fuel false line' (f.stream.flatMap traceChunk ++
        ((files'.flatMap InputFile.stream).flatMap traceChunk ++ streamEnd))).2 = .terminated :=
      congrArg Prod.snd hmore
    have hname : newline ∈ f.name ∨ 2 ^ 31 ≤ f.name.length + 2 := by
      by_cases hline : newline ∈ f.name
      · exact Or.inl hline
      · exact Or.inr (Nat.le_of_not_lt fun hlt => hf ⟨hline, hlt⟩)
    exact readTrace_file_bad (h0 f hfmem) (hlen f hfmem) (fun c hc => (hsize f hfmem c hc).2)
      hname (Prod.ext hout hend)
  · intro hgood
    obtain ⟨line', hfiles⟩ := readTrace_files h0 (fun f hf => (hgood f hf).1)
      (fun f hf => (hgood f hf).2) (fun f hf c hc => (hsize f hf c hc).2) 1 line streamEnd
    refine ⟨(files.flatMap InputFile.stream).length + 1, ?_⟩
    rw [hfiles, readTrace_streamEnd, prepend, List.append_nil]

/-- The verbosity of the `destor.config` of the repository, with a `vsnprintf` that comes back from
plain formats only. -/
def shippedLog : LogSettings where
  verbosity := .notice
  comesBack format := !asksArgument format
  comesBack_plain := by simp

/-- What `make_trace` writes, `read_trace_thread` reads back exactly when the log prints no name with
harm, and no name contains the end of a line or is so long that an `int` cannot count its buffer. -/
theorem trace_round_trip_iff (stray : List UInt8 → Option Nat) (log : LogSettings)
    (files : List InputFile) (line : List UInt8)
    (h0 : ∀ f ∈ files, 0 ∉ f.name) (hlen : ∀ f ∈ files, f.name.length + 1 < 2 ^ 31)
    (hsize : ∀ f ∈ files, ∀ c ∈ f.chunks, 0 < c.size ∧ c.size < 2 ^ 31) :
    (∃ text fuel, makeTrace log (files.flatMap InputFile.stream) = some text ∧
      readTrace stray fuel false line text =
        ((files.flatMap InputFile.stream).map eraseData, .terminated)) ↔
      ∀ f ∈ files, log.Logs f.name ∧ newline ∉ f.name ∧ f.name.length + 2 < 2 ^ 31 := by
  have hprinted := printed_round_trip_iff stray files line h0 hlen hsize
  constructor
  · rintro ⟨text, fuel, hmake, hread⟩
    obtain ⟨hlogs, rfl⟩ := makeTrace_eq_some_iff.mp hmake
    intro f hf
    exact ⟨(logs_of_files h0).mp hlogs f hf, hprinted.mp ⟨fuel, hread⟩ f hf⟩
  · intro hgood
    obtain ⟨fuel, hread⟩ := hprinted.mpr fun f hf => (hgood f hf).2
    have hlogs := (logs_of_files h0).mpr fun f hf => (hgood f hf).1
    exact ⟨_, fuel, makeTrace_eq_some_iff.mpr ⟨hlogs, rfl⟩, hread⟩

/-- A file named `a%%` with two chunks and one named `b`, at the verbosity of the repository. -/
theorem trace_round_trip_iff_two_files : ∃ text fuel,
    makeTrace shippedLog ([⟨[97, 37, 37], [⟨.fill 1, 5, []⟩, ⟨.fill 2, 70000, []⟩]⟩,
      ⟨[98], []⟩].flatMap InputFile.stream) = some text ∧
      readTrace (fun _ => none) fuel false [] text =
        (([⟨[97, 37, 37], [⟨.fill 1, 5, []⟩, ⟨.fill 2, 70000, []⟩]⟩,
          ⟨[98], []⟩].flatMap InputFile.stream).map eraseData, .terminated) := by
  have hround := trace_round_trip_iff (fun _ => none) shippedLog
    [⟨[97, 37, 37], [⟨.fill 1, 5, []⟩, ⟨.fill 2, 70000, []⟩]⟩, ⟨[98], []⟩] []
    (by simp) (by simp) (by simp)
  exact hround.mpr (by decide)

/-- A file whose name has two lines is not read back from any trace that lists it alone. -/
theorem trace_loses_newline : ¬ ∃ text fuel,
    makeTrace shippedLog ([⟨[97, 10, 98], []⟩].flatMap InputFile.stream) = some text ∧
      readTrace (fun _ => none) fuel false [] text =
        (([⟨[97, 10, 98], []⟩].flatMap InputFile.stream).map eraseData, .terminated) := by
  rintro ⟨text, fuel, hmake, hread⟩
  obtain ⟨-, rfl⟩ := makeTrace_eq_some_iff.mp hmake
  have hprinted := printed_round_trip_iff (fun _ => none) [⟨[97, 10, 98], []⟩] []
    (by simp) (by simp) (by simp)
  exact absurd (hprinted.mp ⟨fuel, hread⟩) (by decide)

/-- A name made of a conversion ends the program at that verbosity before its trace is written. -/
example : makeTrace shippedLog (InputFile.stream ⟨[37, 115], []⟩) = none := by decide

end Lines

end Destor
