/- digest: The chunkers that cut at break marks of the rolling hash: Rabin, normalized Rabin, and
   TTTD with its backup divisor. -/

import Destor.Basic
import Destor.Chunking.RabinHash
import Destor.Library.Scan

set_option autoImplicit false
set_option relaxedAutoImplicit false

namespace Destor

open Library

structure ChunkSizes where
  chunkAvgSize : Int
  chunkMinSize : Int
  chunkMaxSize : Int
deriving DecidableEq

def breakmarkValue : UINT64 := 0x78

def breakMark (mask : Int) (fp : UINT64) : Bool := fp &&& BitVec.ofInt 64 mask == breakmarkValue

def byteAt (p : List UInt8) (i : Int) : Except Abort UInt8 :=
  if 0 ≤ i then
    match p[i.toNat]? with
    | some m => .ok m
    | none => .error .chunkBuffer
  else .error .chunkBuffer

theorem byteAt_of_lt {p : List UInt8} {i : Nat} (h : i < p.length) :
    byteAt p i = .ok (p.get ⟨i, h⟩) := by
  rw [byteAt, if_pos (by omega), Int.toNat_natCast, List.getElem?_eq_getElem h]
  rfl

theorem byteAt_of_neg {p : List UInt8} {i : Int} (h : i < 0) : byteAt p i = .error .chunkBuffer :=
  if_neg (by omega)

/-- The loop of `rabin_chunk_data` and `normalized_rabin_chunk_data` over `k` more places from `i`,
with the test of the place that follows `SLIDE`. -/
def breakLoop (mark : Int → UINT64 → Bool) (p : List UInt8) :
    Nat → Int → RabinWindow → Except Abort Int
  | 0, i, _ => .ok i
  | k + 1, i, w => do
      let m ← byteAt p (i - 1)
      let w := w.slide chunkAlgInit m
      if mark i w.fp then .ok i else breakLoop mark p k (i + 1) w

/-- The loop of `tttd_chunk_data`; `m` is the last place of a backup mark. -/
def tttdLoop (rabinMask backMask : Int) (p : List UInt8) :
    Nat → Int → RabinWindow → Int → Except Abort Int
  | 0, i, _, m => .ok (if m ≠ 0 then m else i)
  | k + 1, i, w, m => do
      let b ← byteAt p (i - 1)
      let w := w.slide chunkAlgInit b
      if breakMark backMask w.fp then
        if breakMark rabinMask w.fp then .ok i else tttdLoop rabinMask backMask p k (i + 1) w i
      else tttdLoop rabinMask backMask p k (i + 1) w m

section Chunkers

variable (c : ChunkSizes)

def rabinMask : Int := c.chunkAvgSize - 1

def backMask : Int := Int.tdiv c.chunkAvgSize 2 - 1

def smallMask : Int := c.chunkAvgSize * 2 - 1

def largeMask : Int := Int.tdiv c.chunkAvgSize 2 - 1

def chunkEnd (n : Int) : Int := if c.chunkMaxSize < n then c.chunkMaxSize else n

def testedPlaces (n : Int) : Nat := (chunkEnd c n - c.chunkMinSize).toNat

def rabinChunkData (p : List UInt8) : Except Abort Int :=
  if (p.length : Int) ≤ c.chunkMinSize then .ok p.length
  else breakLoop (fun _ fp => breakMark (rabinMask c) fp) p (testedPlaces c p.length) c.chunkMinSize
    RabinWindow.empty

def normalizedRabinChunkData (p : List UInt8) : Except Abort Int :=
  if (p.length : Int) ≤ c.chunkMinSize then .ok p.length
  else breakLoop
    (fun i fp =>
      if i < c.chunkAvgSize then breakMark (smallMask c) fp else breakMark (largeMask c) fp)
    p (testedPlaces c p.length) c.chunkMinSize RabinWindow.empty

def tttdChunkData (p : List UInt8) : Except Abort Int :=
  if (p.length : Int) ≤ c.chunkMinSize then .ok p.length
  else tttdLoop (rabinMask c) (backMask c) p (testedPlaces c p.length) c.chunkMinSize
    RabinWindow.empty 0

end Chunkers

section Closed

/-- The hash that a loop from `lo` has at place `i`: of the bytes from the one before `lo` to the one
before `i`. -/
def rabinFp (p : List UInt8) (lo i : Nat) : UINT64 :=
  (RabinWindow.slideAll chunkAlgInit ((p.take i).drop (lo - 1))).fp

variable {p : List UInt8} {lo k i : Nat}

private theorem byteBefore_ok (hi : 1 ≤ i) (h : i ≤ p.length) :
    byteAt p ((i : Int) - 1) = .ok (p.get ⟨i - 1, by omega⟩) := by
  have hplace : (i : Int) - 1 = ((i - 1 : Nat) : Int) := by omega
  rw [hplace]
  exact byteAt_of_lt (by omega)

private theorem slideAll_next (hlo : 1 ≤ lo) (hi : lo ≤ i) (h : i ≤ p.length) :
    (RabinWindow.slideAll chunkAlgInit ((p.take (i - 1)).drop (lo - 1))).slide chunkAlgInit
        (p.get ⟨i - 1, by omega⟩) =
      RabinWindow.slideAll chunkAlgInit ((p.take i).drop (lo - 1)) := by
  have htake : p.take i = p.take (i - 1) ++ [p.get ⟨i - 1, by omega⟩] := by
    have hplace : i = i - 1 + 1 := by omega
    rw [List.get_eq_getElem]
    nth_rewrite 1 [hplace]
    rw [List.take_succ_eq_append_getElem (by omega)]
  have hlen : (p.take (i - 1)).length = i - 1 := List.length_take_of_le (by omega)
  rw [htake, List.drop_append_of_le_length (by omega), RabinWindow.slideAll, RabinWindow.slideAll,
    List.foldl_append]
  rfl

private theorem breakLoop_eq (mark : Int → UINT64 → Bool) (hlo : 1 ≤ lo) (hi : lo ≤ i)
    (h : i + k ≤ p.length + 1) :
    breakLoop mark p k i (RabinWindow.slideAll chunkAlgInit ((p.take (i - 1)).drop (lo - 1))) =
      .ok ((scanFirst (fun j => mark j (rabinFp p lo j)) k i).getD (i + k) : Nat) := by
  induction k generalizing i with
  | zero => rfl
  | succ k ih =>
      have hnext := ih (i := i + 1) (by omega) (by omega)
      rw [breakLoop, byteBefore_ok (by omega) (by omega), scanFirst]
      show (if mark i ((RabinWindow.slideAll chunkAlgInit ((p.take (i - 1)).drop (lo - 1))).slide
        chunkAlgInit (p.get ⟨i - 1, _⟩)).fp = true then _ else _) = _
      rw [slideAll_next hlo hi (by omega)]
      cases hmark : mark i (rabinFp p lo i) with
      | true =>
          have hfp : mark i (RabinWindow.slideAll chunkAlgInit ((p.take i).drop (lo - 1))).fp = true :=
            hmark
          rw [hfp, if_pos rfl, if_pos rfl]
          rfl
      | false =>
          have hfp : mark i (RabinWindow.slideAll chunkAlgInit ((p.take i).drop (lo - 1))).fp =
            false := hmark
          have hplace : i + 1 + k = i + (k + 1) := by omega
          rw [hfp, if_neg Bool.false_ne_true, if_neg Bool.false_ne_true, ← hplace]
          exact hnext

/-- The place of a backup mark that a loop has reached, as the variable `m`. -/
private def backupPlace (m : Option Nat) : Int := ((m.getD 0 : Nat) : Int)

private theorem tttdLoop_eq (rabinMask backMask : Int) {m : Option Nat} (hlo : 1 ≤ lo) (hi : lo ≤ i)
    (h : i + k ≤ p.length + 1) (hm : ∀ j, m = some j → j ≠ 0) :
    tttdLoop rabinMask backMask p k i
        (RabinWindow.slideAll chunkAlgInit ((p.take (i - 1)).drop (lo - 1))) (backupPlace m) =
      .ok (((scanFirst (fun j => breakMark backMask (rabinFp p lo j) &&
          breakMark rabinMask (rabinFp p lo j)) k i).or
        (scanLast (fun j => breakMark backMask (rabinFp p lo j)) k i m)).getD (i + k) : Nat) := by
  induction k generalizing i m with
  | zero =>
      rw [tttdLoop, backupPlace]
      cases m with
      | none => rfl
      | some j =>
          have hj : ((j : Nat) : Int) ≠ 0 := by
            have hne := hm j rfl
            omega
          rw [Option.getD_some, if_pos hj]
          rfl
  | succ k ih =>
      have hplace : i + 1 + k = i + (k + 1) := by omega
      rw [tttdLoop, byteBefore_ok (by omega) (by omega), scanFirst, scanLast]
      show (if breakMark backMask ((RabinWindow.slideAll chunkAlgInit
        ((p.take (i - 1)).drop (lo - 1))).slide chunkAlgInit (p.get ⟨i - 1, _⟩)).fp = true
          then _ else _) = _
      rw [slideAll_next hlo hi (by omega)]
      show (if breakMark backMask (rabinFp p lo i) = true then
        if breakMark rabinMask (rabinFp p lo i) = true then _ else _ else _) = _
      cases hback : breakMark backMask (rabinFp p lo i) with
      | true =>
          cases hmark : breakMark rabinMask (rabinFp p lo i) with
          | true => rfl
          | false =>
              have hnext := ih (i := i + 1) (m := some i) (by omega) (by omega)
                fun j hj => by cases hj; omega
              rw [hplace] at hnext
              rw [Bool.and_false, if_pos rfl, if_pos rfl, if_neg Bool.false_ne_true,
                if_neg Bool.false_ne_true]
              exact hnext
      | false =>
          have hnext := ih (i := i + 1) (m := m) (by omega) (by omega) hm
          rw [hplace] at hnext
          rw [Bool.false_and, if_neg Bool.false_ne_true, if_neg Bool.false_ne_true,
            if_neg Bool.false_ne_true]
          exact hnext

end Closed

section Cut

/-- The chunk sizes under which the loops of this module read no byte before the buffer. -/
structure ChunkSizes.Ordered (c : ChunkSizes) : Prop where
  min_pos : 1 ≤ c.chunkMinSize
  min_le_max : c.chunkMinSize ≤ c.chunkMaxSize

variable {c : ChunkSizes} (p : List UInt8)

/-- The hash that all three loops have at place `i`. -/
def fpAt (c : ChunkSizes) (i : Nat) : UINT64 := rabinFp p c.chunkMinSize.toNat i

def firstMark (c : ChunkSizes) (mark : Int → UINT64 → Bool) : Nat :=
  if (p.length : Int) ≤ c.chunkMinSize then p.length
  else (scanFirst (fun j => mark j (fpAt p c j)) (testedPlaces c p.length) c.chunkMinSize.toNat).getD
    (chunkEnd c p.length).toNat

/-- The cut of TTTD. -/
def backupMark (c : ChunkSizes) : Nat :=
  if (p.length : Int) ≤ c.chunkMinSize then p.length
  else ((scanFirst (fun j => breakMark (backMask c) (fpAt p c j) && breakMark (rabinMask c) (fpAt p c j))
      (testedPlaces c p.length) c.chunkMinSize.toNat).or
    (scanLast (fun j => breakMark (backMask c) (fpAt p c j))
      (testedPlaces c p.length) c.chunkMinSize.toNat none)).getD (chunkEnd c p.length).toNat

private theorem chunkEnd_le (c : ChunkSizes) (n : Int) : chunkEnd c n ≤ n := by
  rw [chunkEnd]
  split <;> omega

private theorem testedPlaces_eq (hc : c.Ordered) {n : Int} (hn : c.chunkMinSize < n) :
    c.chunkMinSize.toNat + testedPlaces c n = (chunkEnd c n).toNat ∧ 1 ≤ c.chunkMinSize.toNat ∧
      (c.chunkMinSize.toNat : Int) = c.chunkMinSize := by
  have hmin := hc.min_pos
  have hmax := hc.min_le_max
  rw [testedPlaces, chunkEnd]
  split <;> omega

private theorem breakLoop_cut (hc : c.Ordered) (mark : Int → UINT64 → Bool) :
    (if (p.length : Int) ≤ c.chunkMinSize then Except.ok (p.length : Int)
      else breakLoop mark p (testedPlaces c p.length) c.chunkMinSize RabinWindow.empty) =
    .ok (firstMark p c mark : Int) := by
  rw [firstMark]
  split
  · rfl
  · rename_i hn
    obtain ⟨hend, hlo, hmin⟩ := testedPlaces_eq hc (n := p.length) (by omega)
    have hle := chunkEnd_le c p.length
    have hloop := breakLoop_eq (p := p) (k := testedPlaces c p.length) mark hlo (Nat.le_refl _)
      (by omega)
    have hempty : (p.take (c.chunkMinSize.toNat - 1)).drop (c.chunkMinSize.toNat - 1) = [] :=
      List.drop_eq_nil_of_le (List.length_take_le _ _)
    rw [hempty, hmin, hend] at hloop
    exact hloop

theorem rabinChunkData_eq (hc : c.Ordered) :
    rabinChunkData c p = .ok (firstMark p c fun _ fp => breakMark (rabinMask c) fp : Int) :=
  breakLoop_cut p hc _

theorem normalizedRabinChunkData_eq (hc : c.Ordered) :
    normalizedRabinChunkData c p = .ok (firstMark p c fun i fp =>
      if i < c.chunkAvgSize then breakMark (smallMask c) fp else breakMark (largeMask c) fp : Int) :=
  breakLoop_cut p hc _

theorem tttdChunkData_eq (hc : c.Ordered) : tttdChunkData c p = .ok (backupMark p c : Int) := by
  rw [tttdChunkData, backupMark]
  split
  · rfl
  · rename_i hn
    obtain ⟨hend, hlo, hmin⟩ := testedPlaces_eq hc (n := p.length) (by omega)
    have hle := chunkEnd_le c p.length
    have hloop := tttdLoop_eq (p := p) (k := testedPlaces c p.length) (m := none) (rabinMask c)
      (backMask c) hlo (Nat.le_refl _) (by omega) (fun j hj => by cases hj)
    have hempty : (p.take (c.chunkMinSize.toNat - 1)).drop (c.chunkMinSize.toNat - 1) = [] :=
      List.drop_eq_nil_of_le (List.length_take_le _ _)
    rw [hempty, hmin, hend] at hloop
    exact hloop

/-- Without a positive minimum size the loops read before the buffer. -/
theorem breakLoop_of_min_le_zero (mark : Int → UINT64 → Bool) (k : Nat) {i : Int} (hi : i ≤ 0)
    (w : RabinWindow) : breakLoop mark p (k + 1) i w = .error .chunkBuffer := by
  rw [breakLoop, byteAt_of_neg (by omega)]
  rfl

theorem tttdLoop_of_min_le_zero (rabinMask backMask : Int) (k : Nat) {i : Int} (hi : i ≤ 0)
    (w : RabinWindow) (m : Int) :
    tttdLoop rabinMask backMask p (k + 1) i w m = .error .chunkBuffer := by
  rw [tttdLoop, byteAt_of_neg (by omega)]
  rfl

private theorem testedPlaces_bounds (hc : c.Ordered) {n : Int} (hn : c.chunkMinSize < n) :
    c.chunkMinSize ≤ (chunkEnd c n).toNat ∧ 1 ≤ (chunkEnd c n).toNat ∧
      ((chunkEnd c n).toNat : Int) ≤ n ∧ ((chunkEnd c n).toNat : Int) ≤ c.chunkMaxSize := by
  have hmin := hc.min_pos
  have hmax := hc.min_le_max
  rw [chunkEnd]
  split <;> omega

/-- A cut lies between the minimum and the maximum size, or takes the few bytes there are. -/
theorem firstMark_bounds (hc : c.Ordered) (hp : p ≠ []) (mark : Int → UINT64 → Bool) :
    1 ≤ firstMark p c mark ∧ firstMark p c mark ≤ p.length ∧
      (firstMark p c mark : Int) ≤ c.chunkMaxSize ∧
      (c.chunkMinSize ≤ firstMark p c mark ∨ firstMark p c mark = p.length) := by
  have hlen := List.length_pos_iff.mpr hp
  have hmax := hc.min_le_max
  rw [firstMark]
  split
  · exact ⟨hlen, Nat.le_refl _, by omega, .inr rfl⟩
  · rename_i hn
    have hplaces := testedPlaces_eq hc (n := p.length) (by omega)
    have hend := testedPlaces_bounds hc (n := p.length) (by omega)
    cases hscan : scanFirst (fun j => mark j (fpAt p c j)) (testedPlaces c p.length)
        c.chunkMinSize.toNat with
    | none => rw [Option.getD_none]; omega
    | some r =>
        have hr := scanFirst_eq_some_iff.mp hscan
        rw [Option.getD_some]
        omega

theorem backupMark_bounds (hc : c.Ordered) (hp : p ≠ []) :
    1 ≤ backupMark p c ∧ backupMark p c ≤ p.length ∧ (backupMark p c : Int) ≤ c.chunkMaxSize ∧
      (c.chunkMinSize ≤ backupMark p c ∨ backupMark p c = p.length) := by
  have hlen := List.length_pos_iff.mpr hp
  have hmax := hc.min_le_max
  rw [backupMark]
  split
  · exact ⟨hlen, Nat.le_refl _, by omega, .inr rfl⟩
  · rename_i hn
    have hplaces := testedPlaces_eq hc (n := p.length) (by omega)
    have hend := testedPlaces_bounds hc (n := p.length) (by omega)
    cases hscan : scanFirst (fun j => breakMark (backMask c) (fpAt p c j) &&
        breakMark (rabinMask c) (fpAt p c j)) (testedPlaces c p.length) c.chunkMinSize.toNat with
    | some r =>
        have hr := scanFirst_eq_some_iff.mp hscan
        rw [Option.some_or, Option.getD_some]
        omega
    | none =>
        rw [Option.none_or]
        obtain hnone | ⟨r, hr, hlt, hhit, hafter⟩ := last_or_none
          (fun j => breakMark (backMask c) (fpAt p c j)) (testedPlaces c p.length)
          c.chunkMinSize.toNat
        · rw [scanLast_eq_of_none hnone, Option.getD_none]
          omega
        · rw [scanLast_eq_of_last hr hlt hhit hafter, Option.getD_some]
          omega

private theorem fpAt_take {m i : Nat} (h : i ≤ m) : fpAt (p.take m) c i = fpAt p c i := by
  rw [fpAt, fpAt, rabinFp, rabinFp, List.take_take, Nat.min_eq_left h]

private theorem cut_take (hc : c.Ordered) (h : c.chunkMaxSize < p.length) :
    ((p.take c.chunkMaxSize.toNat).length : Int) = c.chunkMaxSize ∧
      (chunkEnd c p.length).toNat = (chunkEnd c c.chunkMaxSize).toNat ∧
      testedPlaces c p.length = testedPlaces c c.chunkMaxSize ∧
      ∀ j, j < c.chunkMinSize.toNat + testedPlaces c p.length →
        fpAt (p.take c.chunkMaxSize.toNat) c j = fpAt p c j := by
  have hmin := hc.min_pos
  have hmax := hc.min_le_max
  have hplaces := testedPlaces_eq hc (n := p.length) (by omega)
  have hend : chunkEnd c p.length = chunkEnd c c.chunkMaxSize := by
    rw [chunkEnd, chunkEnd, if_pos h, if_neg (by omega)]
  have hbound := testedPlaces_bounds hc (n := p.length) (by omega)
  refine ⟨?_, by rw [hend], by rw [testedPlaces, testedPlaces, hend], fun j hj => ?_⟩
  · rw [List.length_take_of_le (by omega)]
    omega
  · exact fpAt_take p (by omega)

private theorem cut_take_short (hc : c.Ordered) (h : c.chunkMaxSize < p.length)
    (hle : c.chunkMaxSize ≤ c.chunkMinSize) : testedPlaces c p.length = 0 ∧
      (p.take c.chunkMaxSize.toNat).length = (chunkEnd c p.length).toNat := by
  have hmin := hc.min_pos
  have hend : chunkEnd c p.length = c.chunkMaxSize := if_pos h
  constructor
  · rw [testedPlaces, hend]
    omega
  · rw [hend, List.length_take_of_le (by omega)]

/-- A cut depends on the bytes up to the maximum size only. -/
theorem firstMark_take (hc : c.Ordered) (mark : Int → UINT64 → Bool)
    (h : c.chunkMaxSize ≤ p.length) :
    firstMark (p.take c.chunkMaxSize.toNat) c mark = firstMark p c mark := by
  have hmin := hc.min_pos
  have hmax := hc.min_le_max
  by_cases heq : c.chunkMaxSize = p.length
  · rw [List.take_of_length_le (by omega)]
  · obtain ⟨hlen, hend, hplaces, hfp⟩ := cut_take p hc (by omega)
    rw [firstMark, firstMark, if_neg (by omega : ¬ (p.length : Int) ≤ _), hlen, ← hend, ← hplaces]
    have hbound := testedPlaces_eq hc (n := p.length) (by omega)
    have hscan : scanFirst (fun j => mark j (fpAt (p.take c.chunkMaxSize.toNat) c j))
          (testedPlaces c p.length) c.chunkMinSize.toNat =
        scanFirst (fun j => mark j (fpAt p c j)) (testedPlaces c p.length) c.chunkMinSize.toNat :=
      scanFirst_congr fun j _ hj => by rw [hfp j hj]
    split
    · obtain ⟨hzero, hnat⟩ := cut_take_short p hc (by omega) (by omega)
      rw [hzero, hnat]
      rfl
    · rw [hscan]

theorem backupMark_take (hc : c.Ordered) (h : c.chunkMaxSize ≤ p.length) :
    backupMark (p.take c.chunkMaxSize.toNat) c = backupMark p c := by
  have hmin := hc.min_pos
  have hmax := hc.min_le_max
  by_cases heq : c.chunkMaxSize = p.length
  · rw [List.take_of_length_le (by omega)]
  · obtain ⟨hlen, hend, hplaces, hfp⟩ := cut_take p hc (by omega)
    rw [backupMark, backupMark, if_neg (by omega : ¬ (p.length : Int) ≤ _), hlen, ← hend, ← hplaces]
    have hscan : scanFirst (fun j => breakMark (backMask c) (fpAt (p.take c.chunkMaxSize.toNat) c j) &&
            breakMark (rabinMask c) (fpAt (p.take c.chunkMaxSize.toNat) c j))
          (testedPlaces c p.length) c.chunkMinSize.toNat =
        scanFirst (fun j => breakMark (backMask c) (fpAt p c j) &&
          breakMark (rabinMask c) (fpAt p c j)) (testedPlaces c p.length) c.chunkMinSize.toNat :=
      scanFirst_congr fun j _ hj => by rw [hfp j hj]
    have hlast : scanLast (fun j => breakMark (backMask c) (fpAt (p.take c.chunkMaxSize.toNat) c j))
          (testedPlaces c p.length) c.chunkMinSize.toNat none =
        scanLast (fun j => breakMark (backMask c) (fpAt p c j))
          (testedPlaces c p.length) c.chunkMinSize.toNat none :=
      scanLast_congr fun j _ hj => by rw [hfp j hj]
    split
    · obtain ⟨hzero, hnat⟩ := cut_take_short p hc (by omega) (by omega)
      rw [hzero, hnat]
      rfl
    · rw [hscan, hlast]

end Cut

section Masks

variable {c : ChunkSizes} {p : List UInt8}

private theorem breakMark_two_pow {e : Nat} (he : e ≤ 63) (fp : UINT64) :
    breakMark (2 ^ e - 1) fp = decide (fp.toNat % 2 ^ e = 120) := by
  have hle : 2 ^ e ≤ 2 ^ 63 := Nat.pow_le_pow_right (by omega) he
  have hpos : 0 < 2 ^ e := Nat.two_pow_pos e
  have hmask : (BitVec.ofInt 64 (2 ^ e - 1)).toNat = 2 ^ e - 1 := by
    have hcast : ((2 : Int) ^ e - 1) = ((2 ^ e - 1 : Nat) : Int) := by
      rw [Int.ofNat_sub hpos]
      push_cast
      rfl
    rw [hcast, BitVec.ofInt_natCast, BitVec.toNat_ofNat]
    omega
  have hiff : fp &&& BitVec.ofInt 64 (2 ^ e - 1) = breakmarkValue ↔ fp.toNat % 2 ^ e = 120 := by
    rw [← BitVec.toNat_inj, BitVec.toNat_and, hmask, Nat.and_two_pow_sub_one_eq_mod]
    rfl
  rw [breakMark, Bool.eq_iff_iff, beq_iff_eq, decide_eq_true_iff]
  exact hiff

/-- A main mark is a backup mark, unless the average is 128: the backup mask then has fewer bits than
the break value. -/
private theorem backup_of_main {e : Nat} (he : e ≤ 63) (havg : c.chunkAvgSize = 2 ^ e)
    (hne : c.chunkAvgSize ≠ 128) {fp : UINT64} (h : breakMark (rabinMask c) fp = true) :
    breakMark (backMask c) fp = true := by
  have hmask : rabinMask c = 2 ^ e - 1 := by rw [rabinMask, havg]
  rw [hmask, breakMark_two_pow he, decide_eq_true_iff] at h
  obtain hsmall | heq | hlarge : e < 7 ∨ e = 7 ∨ 7 < e := by omega
  · have hle : 2 ^ e ≤ 2 ^ 6 := Nat.pow_le_pow_right (by omega) (by omega)
    have hlt := Nat.mod_lt fp.toNat (Nat.two_pow_pos e)
    omega
  · rw [havg, heq] at hne
    exact absurd rfl hne
  · obtain ⟨d, rfl⟩ := Nat.exists_eq_add_of_lt hlarge
    have hhalf : 7 + d + 1 = (7 + d) + 1 := rfl
    have hback : backMask c = 2 ^ (7 + d) - 1 := by
      rw [backMask, havg, hhalf, Int.pow_succ, Int.mul_tdiv_cancel _ (by decide)]
    have hdvd : 2 ^ (7 + d) ∣ 2 ^ (7 + d + 1) := Nat.pow_dvd_pow 2 (by omega)
    have hle : 2 ^ 7 ≤ 2 ^ (7 + d) := Nat.pow_le_pow_right (by omega) (by omega)
    rw [hback, breakMark_two_pow (by omega), decide_eq_true_iff, ← Nat.mod_mod_of_dvd _ hdvd, h]
    exact Nat.mod_eq_of_lt (by omega)

private theorem no_backup_of_avg (havg : c.chunkAvgSize = 128) (fp : UINT64) :
    breakMark (backMask c) fp = false := by
  have hback : backMask c = 2 ^ 6 - 1 := by
    rw [backMask, havg]
    rfl
  have hlt := Nat.mod_lt fp.toNat (Nat.two_pow_pos 6)
  rw [hback, breakMark_two_pow (by omega), decide_eq_false_iff_not]
  omega

end Masks

section Refines

variable (c : ChunkSizes) (p : List UInt8)

def Tested (i : Nat) : Prop := c.chunkMinSize ≤ i ∧ (i : Int) < chunkEnd c p.length

def MainMark (i : Nat) : Prop := Tested c p i ∧ breakMark (rabinMask c) (fpAt p c i) = true

def BackupMark (i : Nat) : Prop := Tested c p i ∧ breakMark (backMask c) (fpAt p c i) = true

/-- TTTD cuts where Rabin stops at a break mark, else at the last backup mark, else as Rabin does,
and never behind Rabin. -/
def TttdRefinesRabin : Prop :=
  ∃ r t : Nat, rabinChunkData c p = .ok (r : Int) ∧ tttdChunkData c p = .ok (t : Int) ∧ t ≤ r ∧
    (MainMark c p r → t = r) ∧
    (¬ MainMark c p r → (BackupMark c p t ∧ ∀ i, BackupMark c p i → i ≤ t) ∨
      ((∀ i, ¬ BackupMark c p i) ∧ t = r))

variable {c p}

private theorem tested_iff (hc : c.Ordered) (hn : c.chunkMinSize < p.length) (i : Nat) :
    Tested c p i ↔ c.chunkMinSize.toNat ≤ i ∧
      i < c.chunkMinSize.toNat + testedPlaces c p.length := by
  have hplaces := testedPlaces_eq hc hn
  rw [Tested]
  omega

private theorem not_tested (hn : (p.length : Int) ≤ c.chunkMinSize) (i : Nat) : ¬ Tested c p i := by
  have hle := chunkEnd_le c p.length
  rintro ⟨hmin, hend⟩
  omega

private theorem refines_of_no_main (hc : c.Ordered) (hn : c.chunkMinSize < p.length)
    (h : ∀ i, ¬ MainMark c p i) : TttdRefinesRabin c p := by
  obtain ⟨hend, hlo, hmin⟩ := testedPlaces_eq hc hn
  have htested := tested_iff hc hn
  have hnomain : ∀ j, c.chunkMinSize.toNat ≤ j →
      j < c.chunkMinSize.toNat + testedPlaces c p.length →
      breakMark (rabinMask c) (fpAt p c j) = false := by
    intro j hj hlt
    cases hmark : breakMark (rabinMask c) (fpAt p c j) with
    | false => rfl
    | true => exact absurd ⟨(htested j).mpr ⟨hj, hlt⟩, hmark⟩ (h j)
  have hrabin : firstMark p c (fun _ fp => breakMark (rabinMask c) fp) =
      (chunkEnd c p.length).toNat := by
    rw [firstMark, if_neg (by omega), scanFirst_eq_none_iff.mpr hnomain]
    rfl
  have hboth : scanFirst (fun j => breakMark (backMask c) (fpAt p c j) &&
      breakMark (rabinMask c) (fpAt p c j)) (testedPlaces c p.length) c.chunkMinSize.toNat = none := by
    rw [scanFirst_eq_none_iff]
    intro j hj hlt
    rw [hnomain j hj hlt, Bool.and_false]
  have htttd : backupMark p c = ((scanLast (fun j => breakMark (backMask c) (fpAt p c j))
      (testedPlaces c p.length) c.chunkMinSize.toNat none).getD (chunkEnd c p.length).toNat) := by
    rw [backupMark, if_neg (by omega), hboth, Option.none_or]
  have hlast := last_or_none (fun j => breakMark (backMask c) (fpAt p c j))
    (testedPlaces c p.length) c.chunkMinSize.toNat
  refine ⟨_, _, rabinChunkData_eq p hc, tttdChunkData_eq p hc, ?_⟩
  rw [hrabin, htttd]
  obtain hnone | ⟨r, hr, hlt, hhit, hafter⟩ := hlast
  · rw [scanLast_eq_of_none hnone]
    refine ⟨Nat.le_refl _, fun hmain => absurd hmain (h _), fun _ => .inr ⟨fun i hback => ?_, rfl⟩⟩
    obtain ⟨hplace, hmark⟩ := hback
    have hrange := (htested i).mp hplace
    rw [hnone i hrange.1 hrange.2] at hmark
    cases hmark
  · rw [scanLast_eq_of_last hr hlt hhit hafter, Option.getD_some]
    refine ⟨by omega, fun hmain => absurd hmain (h _),
      fun _ => .inl ⟨⟨(htested r).mpr ⟨hr, hlt⟩, hhit⟩, fun i hback => ?_⟩⟩
    obtain ⟨hplace, hmark⟩ := hback
    have hrange := (htested i).mp hplace
    by_contra hri
    rw [hafter i (by omega) hrange.2] at hmark
    cases hmark

private theorem refines_of_avg {e : Nat} (hc : c.Ordered) (he : e ≤ 63)
    (havg : c.chunkAvgSize = 2 ^ e) (hne : c.chunkAvgSize ≠ 128)
    (hn : c.chunkMinSize < p.length) : TttdRefinesRabin c p := by
  have htested := tested_iff hc hn
  cases hscan : scanFirst (fun j => breakMark (rabinMask c) (fpAt p c j)) (testedPlaces c p.length)
      c.chunkMinSize.toNat with
  | none =>
      apply refines_of_no_main hc hn
      intro i hmain
      obtain ⟨hplace, hmark⟩ := hmain
      have hrange := (htested i).mp hplace
      rw [scanFirst_eq_none_iff.mp hscan i hrange.1 hrange.2] at hmark
      cases hmark
  | some r =>
      obtain ⟨hr, hlt, hhit, hbefore⟩ := scanFirst_eq_some_iff.mp hscan
      have hboth : scanFirst (fun j => breakMark (backMask c) (fpAt p c j) &&
          breakMark (rabinMask c) (fpAt p c j)) (testedPlaces c p.length)
          c.chunkMinSize.toNat = some r := by
        refine scanFirst_eq_some_iff.mpr ⟨hr, hlt, ?_, fun j hj hjr => ?_⟩
        · rw [backup_of_main he havg hne hhit, hhit, Bool.and_self]
        · rw [hbefore j hj hjr, Bool.and_false]
      have hrabin : firstMark p c (fun _ fp => breakMark (rabinMask c) fp) = r := by
        rw [firstMark, if_neg (by omega), hscan]
        rfl
      have htttd : backupMark p c = r := by
        rw [backupMark, if_neg (by omega), hboth]
        rfl
      have hmain : MainMark c p r := ⟨(htested r).mpr ⟨hr, hlt⟩, hhit⟩
      refine ⟨_, _, rabinChunkData_eq p hc, tttdChunkData_eq p hc, ?_⟩
      rw [hrabin, htttd]
      exact ⟨Nat.le_refl r, fun _ => rfl, fun h => absurd hmain h⟩

/-- TTTD refines Rabin unless the average is 128 and a place with a break mark is tested. -/
theorem tttdRefinesRabin_iff {e : Nat} (hc : c.Ordered) (he : e ≤ 63)
    (havg : c.chunkAvgSize = 2 ^ e) :
    TttdRefinesRabin c p ↔ c.chunkAvgSize ≠ 128 ∨ ∀ i, ¬ MainMark c p i := by
  by_cases hn : c.chunkMinSize < p.length
  · constructor
    · rintro ⟨r, t, hr, ht, _, hmain, _⟩
      by_contra hcond
      push Not at hcond
      obtain ⟨h128, i, hi⟩ := hcond
      have htested := tested_iff hc hn
      obtain ⟨hend, hlo, hmin⟩ := testedPlaces_eq hc hn
      have hrange := (htested i).mp hi.1
      -- no backup mark: TTTD runs to `end`, past the mark
      have htttd : backupMark p c = (chunkEnd c p.length).toNat := by
        have hboth : scanFirst (fun j => breakMark (backMask c) (fpAt p c j) &&
            breakMark (rabinMask c) (fpAt p c j)) (testedPlaces c p.length)
            c.chunkMinSize.toNat = none := by
          rw [scanFirst_eq_none_iff]
          intro j _ _
          rw [no_backup_of_avg h128, Bool.false_and]
        rw [backupMark, if_neg (by omega), hboth, Option.none_or,
          scanLast_eq_of_none fun j _ _ => no_backup_of_avg h128 _]
        rfl
      rw [tttdChunkData_eq p hc, htttd] at ht
      rw [rabinChunkData_eq p hc, firstMark, if_neg (by omega)] at hr
      cases hscan : scanFirst (fun j => breakMark (rabinMask c) (fpAt p c j)) (testedPlaces c p.length)
          c.chunkMinSize.toNat with
      | none =>
          have hmark := hi.2
          rw [scanFirst_eq_none_iff.mp hscan i hrange.1 hrange.2] at hmark
          cases hmark
      | some s =>
          obtain ⟨hs, hlt, hhit, _⟩ := scanFirst_eq_some_iff.mp hscan
          rw [hscan, Option.getD_some, Except.ok.injEq] at hr
          rw [Except.ok.injEq] at ht
          have hsr : r = s := by omega
          have heq := hmain (hsr ▸ ⟨(htested s).mpr ⟨hs, hlt⟩, hhit⟩)
          omega
    · rintro (hne | hno)
      · exact refines_of_avg hc he havg hne hn
      · exact refines_of_no_main hc hn hno
  · refine iff_of_true ?_ (.inr fun i hmain => not_tested (by omega) i hmain.1)
    have hle : (p.length : Int) ≤ c.chunkMinSize := by omega
    refine ⟨p.length, p.length, ?_, ?_, Nat.le_refl _, fun _ => rfl,
      fun _ => .inr ⟨fun i hback => not_tested hle i hback.1, rfl⟩⟩
    · rw [rabinChunkData, if_pos hle]
    · rw [tttdChunkData, if_pos hle]

end Refines

end Destor
