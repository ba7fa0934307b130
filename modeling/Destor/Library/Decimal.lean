/- digest: Signed decimal numbers as formatted printing writes them and formatted input reads them. -/

import Mathlib.Data.List.Basic

set_option autoImplicit false
set_option relaxedAutoImplicit false

namespace Destor.Library.Decimal

/-- The characters that formatted input skips before a number. -/
def isSpace (c : Char) : Bool := c == ' ' || (9 ≤ c.toNat && c.toNat ≤ 13)

def render (x : Int) : List Char :=
  if x < 0 then '-' :: Nat.toDigits 10 x.natAbs else Nat.toDigits 10 x.natAbs

/-- Reads the digits at the front of the input; at least one is needed. -/
def scanNat (s : List Char) : Option (Nat × List Char) :=
  if s.takeWhile Char.isDigit = [] then none
  else some (Nat.ofDigitChars 10 (s.takeWhile Char.isDigit) 0, s.dropWhile Char.isDigit)

/-- Reads a signed number after optional white space. -/
def scan (s : List Char) : Option (Int × List Char) :=
  match s.dropWhile isSpace with
  | '-' :: rest => (scanNat rest).map fun r => (-(r.1 : Int), r.2)
  | '+' :: rest => (scanNat rest).map fun r => ((r.1 : Int), r.2)
  | rest => (scanNat rest).map fun r => ((r.1 : Int), r.2)

section RoundTrip

def EndsNumber (rest : List Char) : Prop := ∀ c ∈ rest.head?, c.isDigit = false

private theorem takeWhile_digits (digits rest : List Char) (hdigits : ∀ c ∈ digits, c.isDigit)
    (hrest : EndsNumber rest) :
    (digits ++ rest).takeWhile Char.isDigit = digits ∧
      (digits ++ rest).dropWhile Char.isDigit = rest := by
  induction digits with
  | nil =>
      cases rest with
      | nil => exact ⟨rfl, rfl⟩
      | cons c rest =>
          have hc : c.isDigit = false := hrest c rfl
          simp [hc]
  | cons d digits ih =>
      obtain ⟨hd, hdigits⟩ := List.forall_mem_cons.mp hdigits
      obtain ⟨htake, hdrop⟩ := ih hdigits
      simp [hd, htake, hdrop]

theorem scanNat_toDigits (n : Nat) {rest : List Char} (hrest : EndsNumber rest) :
    scanNat (Nat.toDigits 10 n ++ rest) = some (n, rest) := by
  obtain ⟨htake, hdrop⟩ := takeWhile_digits (Nat.toDigits 10 n) rest
    (fun c hc => Nat.isDigit_of_mem_toDigits (b := 10) (by decide) (by decide) hc) hrest
  rw [scanNat, htake, hdrop, if_neg Nat.toDigits_ne_nil,
    Nat.ofDigitChars_toDigits (by decide) (by decide)]

private theorem head_of_digits {n : Nat} : ∃ d rest, Nat.toDigits 10 n = d :: rest ∧
    d.isDigit = true := by
  obtain ⟨d, rest, h⟩ := List.exists_cons_of_ne_nil (Nat.toDigits_ne_nil (n := n) (b := 10))
  exact ⟨d, rest, h, Nat.isDigit_of_mem_toDigits (n := n) (b := 10) (by decide) (by decide)
    (h ▸ List.mem_cons_self)⟩

private theorem digit_facts {d : Char} (h : d.isDigit = true) :
    isSpace d = false ∧ d ≠ '-' ∧ d ≠ '+' := by
  refine ⟨?_, ?_, ?_⟩
  · have hlow : 48 ≤ d.toNat := by
      simp only [Char.isDigit, Bool.and_eq_true, decide_eq_true_eq] at h
      exact h.1
    have hne : d ≠ ' ' := by
      rintro rfl
      exact absurd h (by decide)
    simp only [isSpace, Bool.or_eq_false_iff, Bool.and_eq_false_iff, beq_eq_false_iff_ne,
      decide_eq_false_iff_not]
    exact ⟨hne, Or.inr (by omega)⟩
  · rintro rfl
    exact absurd h (by decide)
  · rintro rfl
    exact absurd h (by decide)

theorem endsNumber_of_not_digit {c : Char} (h : c.isDigit = false) (rest : List Char) :
    EndsNumber (c :: rest) := by
  intro d hd
  cases hd
  exact h

theorem endsNumber_of_space {c : Char} (h : isSpace c = true) (rest : List Char) :
    EndsNumber (c :: rest) := by
  apply endsNumber_of_not_digit
  by_contra hdigit
  have hspace := (digit_facts (by simpa using hdigit)).1
  exact absurd (h.symm.trans hspace) (by decide)

private theorem scan_digit {d : Char} {s : List Char} (h : d.isDigit = true) :
    scan (d :: s) = (scanNat (d :: s)).map fun r => ((r.1 : Int), r.2) := by
  obtain ⟨hspace, hminus, hplus⟩ := digit_facts h
  have hdrop : (d :: s).dropWhile isSpace = d :: s := by simp [hspace]
  unfold scan
  rw [hdrop]
  split
  · simp_all
  · simp_all
  · rfl

theorem scan_space {c : Char} {s : List Char} (h : isSpace c = true) :
    scan (c :: s) = scan s := by
  simp [scan, h]

/-- A printed number is read back, up to the first character that is not a digit. -/
theorem scan_render (x : Int) {rest : List Char} (hrest : EndsNumber rest) :
    scan (render x ++ rest) = some (x, rest) := by
  unfold render
  split
  · have hdrop : ('-' :: Nat.toDigits 10 x.natAbs ++ rest).dropWhile isSpace =
        '-' :: (Nat.toDigits 10 x.natAbs ++ rest) := by simp [isSpace]
    rw [scan, hdrop]
    simp only [scanNat_toDigits _ hrest, Option.map_some]
    congr 2
    omega
  · obtain ⟨d, digits, hdigits, hd⟩ := head_of_digits (n := x.natAbs)
    have hscan := scanNat_toDigits x.natAbs hrest
    rw [hdigits, List.cons_append] at hscan ⊢
    rw [scan_digit hd, hscan]
    simp only [Option.map_some]
    congr 2
    omega

end RoundTrip

end Destor.Library.Decimal
