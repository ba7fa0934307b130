/- digest: The rolling hash: polynomials over two elements in machine words, the two tables, and
   that sliding hashes the bytes of the window. -/

import Destor.Library.XorLinear
import Mathlib.Algebra.Group.Nat.Defs
import Mathlib.Data.List.Induction
import Mathlib.Logic.Function.Basic

set_option autoImplicit false
set_option relaxedAutoImplicit false

namespace Destor

open Library

abbrev UINT64 : Type := BitVec 64

def fingerprintPt : UINT64 := 0xbfe6b8a5bf378d83

def windowBytes : Nat := 48

section Polynomials

def bytemsb (b : Nat) : Nat := if b = 0 then 0 else Nat.log2 b + 1

def fls32 (v : BitVec 32) : Nat :=
  if v &&& 0xffff0000 ≠ 0 then
    if v &&& 0xff000000 ≠ 0 then 24 + bytemsb (v >>> 24).toNat
    else 16 + bytemsb (v >>> 16).toNat
  else if v &&& 0x0000ff00 ≠ 0 then 8 + bytemsb (v >>> 8).toNat
  else bytemsb v.toNat

def fls64 (v : UINT64) : Nat :=
  let h : BitVec 32 := (v >>> 32).setWidth 32
  if h ≠ 0 then 32 + fls32 h else fls32 (v.setWidth 32)

/-- The first loop of `polymod`, over the bits of the high word below `i`, from the top. -/
def reduceHigh (d : UINT64) : Nat → UINT64 → UINT64 → UINT64 × UINT64
  | 0, nh, nl => (nh, nl)
  | i + 1, nh, nl =>
      reduceHigh d i (if nh.getLsbD i then nh ^^^ d >>> (63 - i) else nh)
        (if nh.getLsbD i then nl ^^^ d <<< (i + 1) else nl)

/-- The second loop, over the bits of the low word below `i` and not below `k`. -/
def reduceLow (d : UINT64) (k : Nat) : Nat → UINT64 → UINT64
  | 0, nl => nl
  | i + 1, nl =>
      if i < k then nl else reduceLow d k i (if nl.getLsbD i then nl ^^^ d >>> (63 - i) else nl)

def polymod (nh nl d : UINT64) : UINT64 :=
  let k := fls64 d - 1
  let d := d <<< (63 - k)
  let r := if nh ≠ 0 then reduceHigh d 63 (if nh.getLsbD 63 then nh ^^^ d else nh) nl else (nh, nl)
  reduceLow d k 64 r.2

def multiplyBits (x y : UINT64) : Nat → UINT64 × UINT64
  | 0 => (0, if x.getLsbD 0 then y else 0)
  | i + 1 =>
      let p := multiplyBits x y i
      (if x.getLsbD (i + 1) then p.1 ^^^ y >>> (64 - (i + 1)) else p.1,
        if x.getLsbD (i + 1) then p.2 ^^^ y <<< (i + 1) else p.2)

/-- `polymult`: the product in two words. -/
def polymult (x y : UINT64) : UINT64 × UINT64 := multiplyBits x y 63

def polymmult (x y d : UINT64) : UINT64 :=
  let p := polymult x y
  polymod p.1 p.2 d

end Polynomials

section Tables

/-- What `chunkAlg_init` leaves in the global variables. -/
structure RabinTables where
  shift : Nat
  T : Nat → UINT64
  U : Nat → UINT64

/-- An entry of a table of 256 words; there is nothing to read beyond them. -/
def tableEntry (f : UINT64 → UINT64) (j : Nat) : UINT64 := if j < 256 then f (BitVec.ofNat 64 j) else 0

def calcT (poly j : UINT64) : UINT64 :=
  let xshift := fls64 poly - 1
  let t1 := polymod 0 (1 <<< xshift) poly
  polymmult j t1 poly ||| j <<< xshift

def byteWord (m : UInt8) : UINT64 := m.toBitVec.setWidth 64

def append8 (shift : Nat) (T : Nat → UINT64) (p : UINT64) (m : UInt8) : UINT64 :=
  (p <<< 8 ||| byteWord m) ^^^ T (p >>> shift).toNat

def windowInit (poly : UINT64) : RabinTables :=
  let shift := fls64 poly - 1 - 8
  let T := tableEntry (calcT poly)
  let sizeshift := (fun p => append8 shift T p 0)^[windowBytes - 1] 1
  { shift := shift, T := T, U := tableEntry fun i => polymmult i sizeshift poly }

def chunkAlgInit : RabinTables := windowInit fingerprintPt

end Tables

section Slide

/-- The variables of a chunker that `SLIDE` works on. -/
structure RabinWindow where
  fp : UINT64
  bufPos : Int
  buf : Nat → UInt8

def RabinWindow.empty : RabinWindow := { fp := 0, bufPos := -1, buf := fun _ => 0 }

namespace RabinWindow

variable (t : RabinTables)

/-- `++bufPos >= size`: the place of the next byte. -/
def nextPos (w : RabinWindow) : Nat :=
  if (windowBytes : Int) ≤ w.bufPos + 1 then 0 else (w.bufPos + 1).toNat

/-- The hash without the byte that leaves the window: `fp ^= U[om]`. -/
def dropped (w : RabinWindow) : UINT64 := w.fp ^^^ t.U (w.buf w.nextPos).toNat

def index (w : RabinWindow) : Nat := (w.dropped t >>> t.shift).toNat

def slide (w : RabinWindow) (m : UInt8) : RabinWindow where
  fp := (w.dropped t <<< 8 ||| byteWord m) ^^^ t.T (w.index t)
  bufPos := w.nextPos
  buf := Function.update w.buf w.nextPos m

def slideAll (s : List UInt8) : RabinWindow := s.foldl (slide t) empty

end RabinWindow

end Slide

section Linearity

variable {v : Nat} {f g : BitVec v → UINT64} {d : UINT64}

private theorem reduceHigh_linear (d : UINT64) (i : Nat) (hf : XorLinear f) (hg : XorLinear g) :
    XorLinear (fun x => (reduceHigh d i (f x) (g x)).2) := by
  induction i generalizing f g with
  | zero => exact hg
  | succ i ih =>
      exact ih (hf.addIf hf i _) (hf.addIf hg i _)

private theorem reduceHigh_zero (d : UINT64) (i : Nat) (nl : UINT64) :
    reduceHigh d i 0 nl = (0, nl) := by
  induction i with
  | zero => rfl
  | succ i ih =>
      have hbit : (0 : UINT64).getLsbD i = false := BitVec.getLsbD_zero
      rw [reduceHigh, hbit, if_neg Bool.false_ne_true, if_neg Bool.false_ne_true, ih]

private theorem reduceLow_linear (d : UINT64) (k i : Nat) (hf : XorLinear f) :
    XorLinear (fun x => reduceLow d k i (f x)) := by
  induction i generalizing f with
  | zero => exact hf
  | succ i ih =>
      by_cases hi : i < k
      · simp only [reduceLow, if_pos hi]
        exact hf
      · simp only [reduceLow, if_neg hi]
        exact ih (hf.addIf hf i _)

theorem polymod_linear (d : UINT64) (hf : XorLinear f) (hg : XorLinear g) :
    XorLinear (fun x => polymod (f x) (g x) d) := by
  have heq : (fun x => polymod (f x) (g x) d) = fun x =>
      reduceLow (d <<< (63 - (fls64 d - 1))) (fls64 d - 1) 64
        (reduceHigh (d <<< (63 - (fls64 d - 1))) 63
          (if (f x).getLsbD 63 then f x ^^^ d <<< (63 - (fls64 d - 1)) else f x) (g x)).2 := by
    funext x
    unfold polymod
    by_cases hzero : f x = 0
    · have hbit : (0 : UINT64).getLsbD 63 = false := BitVec.getLsbD_zero
      simp only [hzero, ne_eq, not_true_eq_false, if_false, hbit, Bool.false_eq_true,
        reduceHigh_zero]
    · simp only [ne_eq, hzero, not_false_eq_true, if_true]
  rw [heq]
  exact reduceLow_linear _ _ _ (reduceHigh_linear _ _ (hf.addIf hf 63 _) hg)

private theorem multiplyBits_linear (y : UINT64) (i : Nat) :
    XorLinear (fun x : UINT64 => (multiplyBits x y i).1) ∧
      XorLinear (fun x : UINT64 => (multiplyBits x y i).2) := by
  induction i with
  | zero => exact ⟨XorLinear.zero, XorLinear.id.select 0 y⟩
  | succ i ih => exact ⟨XorLinear.id.addIf ih.1 _ _, XorLinear.id.addIf ih.2 _ _⟩

/-- A product with a constant is linear. -/
theorem polymmult_linear (y d : UINT64) : XorLinear (fun x => polymmult x y d) :=
  polymod_linear d (multiplyBits_linear y 63).1 (multiplyBits_linear y 63).2

end Linearity

section Degree

private theorem fls64_fingerprintPt : fls64 fingerprintPt = 64 := by decide +kernel

private theorem chunkAlgInit_shift : chunkAlgInit.shift = 55 := by decide +kernel

private theorem polymod_top (nh nl : UINT64) : (polymod nh nl fingerprintPt).getLsbD 63 = false := by
  have htop : ∀ r : UINT64, (reduceLow fingerprintPt 63 64 r).getLsbD 63 = false := by
    intro r
    have hbit : fingerprintPt.getLsbD 63 = true := by decide +kernel
    have hstep : reduceLow fingerprintPt 63 64 r =
        if r.getLsbD 63 then r ^^^ fingerprintPt else r := by
      rw [reduceLow, if_neg (by omega), reduceLow, if_pos (by omega)]
      simp
    rw [hstep]
    cases hr : r.getLsbD 63 with
    | true => rw [if_pos rfl, BitVec.getLsbD_xor, hr, hbit]; rfl
    | false => rw [if_neg Bool.false_ne_true, hr]
  rw [polymod, fls64_fingerprintPt]
  show (reduceLow (fingerprintPt <<< 0) 63 64 _).getLsbD 63 = false
  rw [BitVec.shiftLeft_zero]
  exact htop _

/-- What `T` adds for the bits above place 55. -/
private def carry (x : UINT64) : UINT64 :=
  polymmult x (polymod 0 (1 <<< 63) fingerprintPt) fingerprintPt ^^^ x <<< 63

private theorem carry_linear : XorLinear carry :=
  (polymmult_linear _ _).xor (XorLinear.id.shiftLeft 63)

private theorem calcT_eq (x : UINT64) : calcT fingerprintPt x = carry x := by
  have hshift : fls64 fingerprintPt - 1 = 63 := by rw [fls64_fingerprintPt]
  rw [calcT, carry, hshift]
  show polymmult x (polymod 0 (1 <<< 63) fingerprintPt) fingerprintPt ||| x <<< 63 = _
  apply BitVec.eq_of_getLsbD_eq
  intro i hi
  rw [BitVec.getLsbD_or, BitVec.getLsbD_xor, BitVec.getLsbD_shiftLeft]
  by_cases h63 : i = 63
  · have hlow : (polymmult x (polymod 0 (1 <<< 63) fingerprintPt) fingerprintPt).getLsbD 63 = false :=
      polymod_top _ _
    rw [h63, hlow, Bool.false_or, Bool.false_xor]
  · have hlt : i < 63 := by omega
    simp [hlt]

/-- The hash of a window that moves on by a zero byte. -/
private def advance (p : UINT64) : UINT64 := p <<< 8 ^^^ carry (p >>> 55)

private theorem advance_linear : XorLinear advance :=
  (XorLinear.id.shiftLeft 8).xor (carry_linear.comp (XorLinear.id.ushiftRight 55))

private theorem advance_top (p : UINT64) : (advance p).getLsbD 63 = false := by
  have hlow : (polymmult (p >>> 55) (polymod 0 (1 <<< 63) fingerprintPt)
      fingerprintPt).getLsbD 63 = false := polymod_top _ _
  rw [advance, carry, BitVec.getLsbD_xor, BitVec.getLsbD_xor, hlow, BitVec.getLsbD_shiftLeft,
    BitVec.getLsbD_shiftLeft, BitVec.getLsbD_ushiftRight]
  simp

private theorem toNat_lt_of_top {p : UINT64} (h : p.getLsbD 63 = false) : p.toNat < 2 ^ 63 := by
  have hmsb : p.msb = false := by rw [BitVec.msb_eq_getLsbD_last]; exact h
  have hlt := BitVec.msb_eq_false_iff_two_mul_lt.mp hmsb
  omega

private theorem index_lt {p : UINT64} (h : p.getLsbD 63 = false) : (p >>> 55).toNat < 256 := by
  have hlt := toNat_lt_of_top h
  rw [BitVec.toNat_ushiftRight, Nat.shiftRight_eq_div_pow]
  omega

private theorem append8_eq {p : UINT64} (h : p.getLsbD 63 = false) (m : UInt8) :
    append8 chunkAlgInit.shift chunkAlgInit.T p m = advance p ^^^ byteWord m := by
  have hT : chunkAlgInit.T (p >>> 55).toNat = carry (p >>> 55) := by
    show tableEntry (calcT fingerprintPt) (p >>> 55).toNat = _
    rw [tableEntry, if_pos (index_lt h), calcT_eq]
    rw [BitVec.ofNat_toNat, BitVec.setWidth_eq]
  have hor : p <<< 8 ||| byteWord m = p <<< 8 ^^^ byteWord m := by
    apply BitVec.eq_of_getLsbD_eq
    intro i _
    rw [BitVec.getLsbD_or, BitVec.getLsbD_xor, BitVec.getLsbD_shiftLeft, byteWord,
      BitVec.getLsbD_setWidth]
    by_cases hi : i < 8
    · simp [hi]
    · have hge := BitVec.getLsbD_of_ge m.toBitVec i (by omega)
      simp [hge]
  rw [append8, chunkAlgInit_shift, hT, hor, advance, BitVec.xor_assoc, BitVec.xor_assoc,
    BitVec.xor_comm (byteWord m)]

end Degree

section Hash

/-- The remainder of the polynomial whose coefficients are the bits of some bytes. -/
private def rabinHash (s : List UInt8) : UINT64 := s.foldl (fun h m => advance h ^^^ byteWord m) 0

private theorem rabinHash_append (s : List UInt8) (m : UInt8) :
    rabinHash (s ++ [m]) = advance (rabinHash s) ^^^ byteWord m := by
  rw [rabinHash, List.foldl_append]
  rfl

private theorem byteWord_top (m : UInt8) : (byteWord m).getLsbD 63 = false := by
  rw [byteWord, BitVec.getLsbD_setWidth, BitVec.getLsbD_of_ge m.toBitVec 63 (by omega),
    Bool.and_false]

private theorem rabinHash_top (s : List UInt8) : (rabinHash s).getLsbD 63 = false := by
  induction s using List.reverseRecOn with
  | nil => exact BitVec.getLsbD_zero
  | append_singleton s m _ =>
      rw [rabinHash_append, BitVec.getLsbD_xor, advance_top, byteWord_top]
      rfl

private theorem rabinHash_cons (b : UInt8) (s : List UInt8) :
    rabinHash (b :: s) = advance^[s.length] (byteWord b) ^^^ rabinHash s := by
  induction s using List.reverseRecOn with
  | nil =>
      have hzero : advance 0 = 0 := advance_linear.map_zero
      show advance 0 ^^^ byteWord b = byteWord b ^^^ 0
      rw [hzero]
      exact BitVec.zero_xor.trans BitVec.xor_zero.symm
  | append_singleton s m ih =>
      rw [← List.cons_append, rabinHash_append, ih, advance_linear, rabinHash_append,
        List.length_append, List.length_singleton, Function.iterate_succ_apply', BitVec.xor_assoc]

/-- The words that `T` adds for the bits from place 55. -/
private def carryColumns : List UINT64 :=
  [0xbfe6b8a5bf378d83, 0x7fcd714b7e6f1b06, 0x407c5a3343e9bb8f, 0x3f1e0cc338e4fa9d,
    0x7e3c198671c9f53a, 0x439e8ba95ca467f7, 0x38dbaff7067f426d, 0x71b75fee0cfe84da,
    0x5c880779a6ca8437]

/-- The same in a form that is quick to evaluate. -/
private def advanceColumns (p : UINT64) : UINT64 :=
  p <<< 8 ^^^ XorLinear.columns 55 carryColumns p

private theorem advance_eq_columns (p : UINT64) : advance p = advanceColumns p := by
  have hlinear : XorLinear advanceColumns :=
    (XorLinear.id.shiftLeft 8).xor (XorLinear.columns_linear carryColumns 55)
  apply XorLinear.ext_bits advance_linear hlinear
  decide +kernel

private theorem sizeshift_eq (n : Nat) :
    (fun p => append8 chunkAlgInit.shift chunkAlgInit.T p 0)^[n] 1 = advanceColumns^[n] 1 ∧
      (advanceColumns^[n] 1).getLsbD 63 = false := by
  induction n with
  | zero => exact ⟨rfl, by decide⟩
  | succ n ih =>
      have hzero : byteWord 0 = 0 := rfl
      rw [Function.iterate_succ_apply', Function.iterate_succ_apply', ih.1, append8_eq ih.2, hzero,
        ← advance_eq_columns]
      exact ⟨BitVec.xor_zero, advance_top _⟩

private theorem U_eq (b : UInt8) : chunkAlgInit.U b.toNat = advance^[windowBytes - 1] (byteWord b) := by
  have hU : chunkAlgInit.U b.toNat =
      polymmult (b.toBitVec.setWidth 64) (advanceColumns^[windowBytes - 1] 1) fingerprintPt := by
    have hsize := (sizeshift_eq (windowBytes - 1)).1
    show tableEntry (fun i => polymmult i ((fun p => append8 chunkAlgInit.shift chunkAlgInit.T p 0)^[
      windowBytes - 1] 1) fingerprintPt) b.toNat = _
    rw [hsize, tableEntry, if_pos b.toNat_lt, ← UInt8.toNat_toBitVec, BitVec.ofNat_toNat]
  have hleft : XorLinear fun x : BitVec 8 =>
      polymmult (x.setWidth 64) (advanceColumns^[windowBytes - 1] 1) fingerprintPt :=
    (polymmult_linear _ _).comp (XorLinear.id.setWidth 64)
  have hright : XorLinear fun x : BitVec 8 => advance^[windowBytes - 1] (x.setWidth 64) :=
    (advance_linear.iterate _).comp (XorLinear.id.setWidth 64)
  rw [hU]
  refine XorLinear.ext_bits hleft hright ?_ b.toBitVec
  have hadvance : advance = advanceColumns := funext advance_eq_columns
  rw [hadvance]
  decide +kernel

end Hash

section Window

private def padded (s : List UInt8) : List UInt8 := List.replicate windowBytes 0 ++ s

private def windowOf (s : List UInt8) : List UInt8 := (padded s).drop s.length

private theorem padded_length (s : List UInt8) : (padded s).length = windowBytes + s.length := by
  rw [padded, List.length_append, List.length_replicate]

private theorem padded_append (s : List UInt8) (m : UInt8) : padded (s ++ [m]) = padded s ++ [m] := by
  rw [padded, padded, List.append_assoc]

/-- The window holds the last bytes, the byte of place `j` at `j` modulo the length. -/
private structure RabinWindow.Slid (s : List UInt8) (w : RabinWindow) : Prop where
  fp_eq : w.fp = rabinHash (windowOf s)
  nextPos_eq : w.nextPos = s.length % windowBytes
  buf_eq : ∀ i < windowBytes, (padded s)[s.length + i]? = some (w.buf ((s.length + i) % windowBytes))

private theorem windowOf_cons {s : List UInt8} {w : RabinWindow} (h : w.Slid s) :
    ∃ rest, windowOf s = w.buf w.nextPos :: rest ∧ rest.length = windowBytes - 1 ∧
      ∀ m, windowOf (s ++ [m]) = rest ++ [m] := by
  have hlen := padded_length s
  have hlt : s.length < (padded s).length := by rw [hlen, windowBytes]; omega
  have hfirst := h.buf_eq 0 (by decide)
  rw [Nat.add_zero, ← h.nextPos_eq, List.getElem?_eq_getElem hlt, Option.some.injEq] at hfirst
  refine ⟨(padded s).drop (s.length + 1), ?_, ?_, ?_⟩
  · rw [windowOf, List.drop_eq_getElem_cons hlt, hfirst]
  · rw [List.length_drop, hlen]
    omega
  · intro m
    rw [windowOf, padded_append, List.length_append, List.length_singleton,
      List.drop_append_of_le_length (by omega)]

private theorem slide_slid {s : List UInt8} {w : RabinWindow} (h : w.Slid s) (m : UInt8) :
    (w.slide chunkAlgInit m).Slid (s ++ [m]) ∧ (w.dropped chunkAlgInit).getLsbD 63 = false := by
  obtain ⟨rest, hwindow, hrest, hnext⟩ := windowOf_cons h
  have hdropped : w.dropped chunkAlgInit = rabinHash rest := by
    rw [RabinWindow.dropped, h.fp_eq, hwindow, rabinHash_cons, U_eq, hrest, BitVec.xor_comm,
      ← BitVec.xor_assoc, BitVec.xor_self]
    exact BitVec.zero_xor
  have htop : (w.dropped chunkAlgInit).getLsbD 63 = false := by
    rw [hdropped]
    exact rabinHash_top rest
  have hpos : w.nextPos = s.length % 48 := h.nextPos_eq
  refine ⟨⟨?_, ?_, ?_⟩, htop⟩
  · have hslide : (w.slide chunkAlgInit m).fp =
        append8 chunkAlgInit.shift chunkAlgInit.T (w.dropped chunkAlgInit) m := rfl
    rw [hslide, append8_eq htop, hdropped, hnext, rabinHash_append]
  · have hslide : (w.slide chunkAlgInit m).bufPos = w.nextPos := rfl
    rw [RabinWindow.nextPos, hslide, List.length_append, List.length_singleton, windowBytes]
    split <;> omega
  · intro i hi
    have hslide : (w.slide chunkAlgInit m).buf = Function.update w.buf w.nextPos m := rfl
    have hlen := padded_length s
    have hsize : windowBytes = 48 := rfl
    rw [hslide, List.length_append, List.length_singleton, padded_append]
    by_cases hlast : i = windowBytes - 1
    · have hplace : s.length + 1 + i = (padded s).length := by omega
      have hmod : (s.length + 1 + i) % windowBytes = w.nextPos := by
        rw [hsize]
        omega
      rw [hmod, Function.update_self, hplace, List.getElem?_concat_length]
    · have hplace : s.length + 1 + i = s.length + (i + 1) := by omega
      have hne : (s.length + (i + 1)) % windowBytes ≠ w.nextPos := by
        rw [hsize]
        omega
      rw [hplace, Function.update_of_ne hne, List.getElem?_append_left (by omega)]
      exact h.buf_eq (i + 1) (by omega)

private theorem slid_empty : RabinWindow.empty.Slid [] := by
  have hzero : rabinHash (windowOf []) = 0 := by decide +kernel
  refine ⟨hzero.symm, rfl, fun i hi => ?_⟩
  have hpad : padded [] = List.replicate windowBytes 0 := List.append_nil _
  rw [hpad, List.length_nil, Nat.zero_add, List.getElem?_replicate, if_pos hi]
  rfl

private theorem slideAll_slid (s : List UInt8) : (RabinWindow.slideAll chunkAlgInit s).Slid s := by
  induction s using List.reverseRecOn with
  | nil => exact slid_empty
  | append_singleton s m ih =>
      have hlast : RabinWindow.slideAll chunkAlgInit (s ++ [m]) =
          (RabinWindow.slideAll chunkAlgInit s).slide chunkAlgInit m := by
        rw [RabinWindow.slideAll, List.foldl_append]
        rfl
      rw [hlast]
      exact (slide_slid ih m).1

private theorem windowOf_last {s : List UInt8} (h : windowBytes ≤ s.length) :
    windowOf s = s.drop (s.length - windowBytes) := by
  rw [windowOf, padded, List.drop_append, List.drop_of_length_le, List.length_replicate,
    List.nil_append]
  rw [List.length_replicate]
  exact h

/-- After 48 bytes or more the hash is the hash of the last 48, and at every step it is below
`2^63` and the index that the next step computes is one of the table. -/
theorem rabin_window_hash (s : List UInt8) (h : windowBytes ≤ s.length) :
    (RabinWindow.slideAll chunkAlgInit s).fp =
        (RabinWindow.slideAll chunkAlgInit (s.drop (s.length - windowBytes))).fp ∧
      ∀ k, ((RabinWindow.slideAll chunkAlgInit (s.take k)).fp.toNat < 2 ^ 63 ∧
        ((RabinWindow.slideAll chunkAlgInit (s.take k)).fp >>> chunkAlgInit.shift).toNat < 256) ∧
        (RabinWindow.slideAll chunkAlgInit (s.take k)).index chunkAlgInit < 256 := by
  constructor
  · have hlen : (s.drop (s.length - windowBytes)).length = windowBytes := by
      rw [List.length_drop]
      omega
    rw [(slideAll_slid s).fp_eq, (slideAll_slid _).fp_eq, windowOf_last h,
      windowOf_last (Nat.le_of_eq hlen.symm), hlen, Nat.sub_self, List.drop_zero]
  · intro k
    have hslid := slideAll_slid (s.take k)
    have htop : (RabinWindow.slideAll chunkAlgInit (s.take k)).fp.getLsbD 63 = false := by
      rw [hslid.fp_eq]
      exact rabinHash_top _
    rw [RabinWindow.index, chunkAlgInit_shift]
    exact ⟨⟨toNat_lt_of_top htop, index_lt htop⟩, index_lt (slide_slid hslid 0).2⟩

theorem rabin_window_hash_ones :
    (RabinWindow.slideAll chunkAlgInit (List.replicate 49 1)).fp =
      (RabinWindow.slideAll chunkAlgInit (List.replicate 48 1)).fp :=
  (rabin_window_hash (List.replicate 49 1) (by decide)).1

end Window

end Destor
