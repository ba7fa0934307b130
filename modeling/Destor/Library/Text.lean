/- digest: Text of a C program: lines, strings that end at a zero byte, printed numbers. -/

import Destor.Library.Decimal
import Mathlib.Algebra.Group.Nat.Defs
import Mathlib.Data.List.TakeWhile

set_option autoImplicit false
set_option relaxedAutoImplicit false

namespace Destor.Library.Text

open Decimal

/-- The end of a line. -/
def newline : UInt8 := 10

def bytes (s : List Char) : List UInt8 := s.map fun c => UInt8.ofNat c.toNat

def chars (bs : List UInt8) : List Char := bs.map fun b => Char.ofNat b.toNat

def cString (buffer : List UInt8) : List UInt8 := buffer.takeWhile (· != 0)

def takeLine : Nat → List UInt8 → List UInt8 × List UInt8
  | 0, text => ([], text)
  | _, [] => ([], [])
  | n + 1, c :: text =>
      if c = newline then ([c], text)
      else (c :: (takeLine n text).1, (takeLine n text).2)

def fgets (n : Nat) (buffer text : List UInt8) : List UInt8 × List UInt8 :=
  if text = [] then (buffer, [])
  else
    let line := (takeLine (n - 1) text).1
    (line ++ 0 :: buffer.drop (line.length + 1), (takeLine (n - 1) text).2)

/-- A number as `%d` prints it. -/
def decimal (x : Int) : List UInt8 := bytes (render x)

/-- The number at the start of a string, if there is one. -/
def scanDecimal (s : List UInt8) : Option Int := (scan (chars s)).map Prod.fst

section Lines

variable {n : Nat} {line text buffer : List UInt8}

theorem takeLine_newline (hline : newline ∉ line) (hn : line.length < n) :
    takeLine n (line ++ newline :: text) = (line ++ [newline], text) := by
  induction line generalizing n with
  | nil =>
      obtain ⟨n, rfl⟩ := Nat.exists_eq_succ_of_ne_zero (Nat.ne_of_gt hn)
      simp [takeLine]
  | cons c line ih =>
      obtain ⟨n, rfl⟩ := Nat.exists_eq_succ_of_ne_zero (Nat.ne_of_gt (Nat.zero_lt_of_lt hn))
      obtain ⟨hc, hline⟩ := not_or.mp fun h => hline (List.mem_cons.mpr h)
      simp only [List.cons_append, takeLine, if_neg (Ne.symm hc),
        ih hline (Nat.lt_of_succ_lt_succ hn)]

theorem takeLine_end (hline : newline ∉ line) (hn : line.length ≤ n) :
    takeLine n line = (line, []) := by
  induction line generalizing n with
  | nil => cases n <;> rfl
  | cons c line ih =>
      obtain ⟨n, rfl⟩ := Nat.exists_eq_succ_of_ne_zero (Nat.ne_of_gt (Nat.zero_lt_of_lt hn))
      obtain ⟨hc, hline⟩ := not_or.mp fun h => hline (List.mem_cons.mpr h)
      simp only [takeLine, if_neg (Ne.symm hc), ih hline (Nat.le_of_succ_le_succ hn)]

/-- A line that fits is read into the buffer with its end and a zero byte. -/
theorem fgets_newline (buffer text : List UInt8) (hline : newline ∉ line) (hn : line.length + 1 < n) :
    fgets n buffer (line ++ newline :: text) =
      (line ++ newline :: 0 :: buffer.drop (line.length + 2), text) := by
  rw [fgets, if_neg (by simp), takeLine_newline hline (by omega)]
  simp

theorem fgets_end (buffer : List UInt8) (hne : line ≠ []) (hline : newline ∉ line)
    (hn : line.length < n) :
    fgets n buffer line = (line ++ 0 :: buffer.drop (line.length + 1), []) := by
  rw [fgets, if_neg hne, takeLine_end hline (by omega)]

theorem cString_append_zero (hline : 0 ∉ line) (text : List UInt8) :
    cString (line ++ 0 :: text) = line := by
  unfold cString
  rw [List.takeWhile_append_of_pos]
  · simp
  · intro b hb
    have hne : b ≠ 0 := by
      rintro rfl
      exact hline hb
    simpa using hne

theorem cString_of_not_mem (hline : 0 ∉ line) : cString line = line := by
  rw [cString, List.takeWhile_eq_self_iff]
  intro b hb
  have hne : b ≠ 0 := by
    rintro rfl
    exact hline hb
  simpa using hne

end Lines

section Numbers

theorem chars_append (s t : List UInt8) : chars (s ++ t) = chars s ++ chars t :=
  List.map_append

/-- Characters below 256 are one byte each. -/
theorem chars_bytes {s : List Char} (h : ∀ c ∈ s, c.toNat < 256) : chars (bytes s) = s := by
  induction s with
  | nil => rfl
  | cons c s ih =>
      obtain ⟨hc, hs⟩ := List.forall_mem_cons.mp h
      have hone : Char.ofNat (UInt8.ofNat c.toNat).toNat = c := by
        rw [UInt8.toNat_ofNat', Nat.mod_eq_of_lt hc, Char.ofNat_toNat]
      show Char.ofNat (UInt8.ofNat c.toNat).toNat :: chars (bytes s) = c :: s
      rw [hone, ih hs]

private theorem render_chars (x : Int) : ∀ c ∈ render x, c = '-' ∨ c.isDigit = true := by
  have hdigits : ∀ c ∈ Nat.toDigits 10 x.natAbs, c.isDigit = true := fun c hc =>
    Nat.isDigit_of_mem_toDigits (b := 10) (by decide) (by decide) hc
  intro c hc
  unfold render at hc
  split at hc
  · rcases List.mem_cons.mp hc with rfl | hc
    · exact Or.inl rfl
    · exact Or.inr (hdigits c hc)
  · exact Or.inr (hdigits c hc)

private theorem digit_toNat {c : Char} (h : c.isDigit = true) : 48 ≤ c.toNat ∧ c.toNat ≤ 57 := by
  simp only [Char.isDigit, Bool.and_eq_true, decide_eq_true_eq] at h
  exact ⟨h.1, h.2⟩

/-- What a printed number consists of. -/
theorem mem_decimal {x : Int} {b : UInt8} (h : b ∈ decimal x) : b = 45 ∨ 48 ≤ b ∧ b ≤ 57 := by
  obtain ⟨c, hc, rfl⟩ := List.mem_map.mp h
  rcases render_chars x c hc with rfl | hdigit
  · exact Or.inl rfl
  · obtain ⟨hlo, hhi⟩ := digit_toNat hdigit
    refine Or.inr ⟨?_, ?_⟩
    · rw [UInt8.le_iff_toNat_le, UInt8.toNat_ofNat', Nat.mod_eq_of_lt (by omega)]
      exact hlo
    · rw [UInt8.le_iff_toNat_le, UInt8.toNat_ofNat', Nat.mod_eq_of_lt (by omega)]
      exact hhi

theorem chars_decimal (x : Int) : chars (decimal x) = render x := by
  apply chars_bytes
  intro c hc
  rcases render_chars x c hc with rfl | hdigit
  · decide
  · have := digit_toNat hdigit
    omega

/-- A printed number is scanned back, up to a byte that is no digit. -/
theorem scanDecimal_decimal (x : Int) {rest : List UInt8} (h : EndsNumber (chars rest)) :
    scanDecimal (decimal x ++ rest) = some x := by
  rw [scanDecimal, chars_append, chars_decimal, scan_render x h]
  rfl

/-- A number below ten to the `k` is printed with at most `k` digits. -/
theorem length_decimal_le {n k : Nat} (hk : 0 < k) (h : n < 10 ^ k) :
    (decimal n).length ≤ k := by
  have hrender : render (n : Int) = Nat.toDigits 10 n := if_neg (by omega)
  rw [decimal, bytes, List.length_map, hrender]
  exact (Nat.length_toDigits_le_iff (by decide) hk).mpr h

/-- The same with a sign. -/
theorem length_decimal_int_le {x : Int} {k : Nat} (hk : 0 < k) (h : x.natAbs < 10 ^ k) :
    (decimal x).length ≤ k + 1 := by
  have hdigits := (Nat.length_toDigits_le_iff (b := 10) (by decide) hk).mpr h
  rw [decimal, bytes, List.length_map, render]
  split
  · rw [List.length_cons]
    omega
  · omega

end Numbers

end Destor.Library.Text
