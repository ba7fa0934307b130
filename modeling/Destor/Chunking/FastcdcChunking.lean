/- digest: The FastCDC chunker: its start-up, its two loops over the gear hash, and their cut. -/

import Destor.Chunking.RabinChunking
import Destor.Library.Outcome

set_option autoImplicit false
set_option relaxedAutoImplicit false

namespace Destor

open Library Library.Outcome

def conditionMask : List UINT64 :=
  [0x00001803110, 0x00001803110, 0x00001803110, 0x00001803110, 0x00001803110, 0x00001803110,
    0x00001803110, 0x000018035100, 0x00001800035300, 0x000019000353000, 0x0000590003530000,
    0x0000d90003530000, 0x0000d90103530000, 0x0000d90303530000, 0x0000d90313530000,
    0x0000d90f03530000, 0x0000d90303537000, 0x0000d90703537000]

/-- The global variables of the chunker. -/
structure FastcdcParams where
  minSize : Nat
  maxSize : Nat
  expectSize : Nat
  maskS : UINT64
  maskL : UINT64

def toUint32 (x : Int) : Nat := (x % 2 ^ 32).toNat

/-- `fastcdc_init`; the integer part of `log2` of zero is no index. -/
def fastcdcInit (c : ChunkSizes) : Except Abort FastcdcParams := do
  let index := Nat.log2 (toUint32 c.chunkAvgSize)
  require (6 < index) .chunkSizeAssert
  require (index < 17) .chunkSizeAssert
  return {
    minSize := toUint32 c.chunkMinSize
    maxSize := toUint32 c.chunkMaxSize
    expectSize := toUint32 c.chunkAvgSize
    maskS := conditionMask.getD (index + 1) 0
    maskL := conditionMask.getD (index - 1) 0 }

section Chunker

variable (gear : UInt8 → UINT64)

/-- One of the two loops, over `k` more places from `i`: whether it returns, and the variables
`i` and `fingerprint`. -/
def gearLoop (mask : UINT64) (p : List UInt8) :
    Nat → Int → UINT64 → Except Abort (Bool × Int × UINT64)
  | 0, i, fp => .ok (false, i, fp)
  | k + 1, i, fp => do
      let b ← byteAt p i
      let fp := (fp <<< 1) + gear b
      if fp &&& mask = 0 then .ok (true, i, fp) else gearLoop mask p k (i + 1) fp

/-- `fastcdc_chunk_data` on the bytes of the buffer; `gear` is `g_gear_matrix`. -/
def fastcdcChunkData (f : FastcdcParams) (p : List UInt8) : Except Abort Int :=
  let i := toInt32 f.minSize
  if p.length ≤ f.minSize then .ok p.length
  else
    let n := if f.maxSize < p.length then toInt32 f.maxSize else p.length
    let mid := if ¬ f.maxSize < p.length ∧ (p.length : Int) < toInt32 f.expectSize then
      (p.length : Int) else toInt32 f.expectSize
    do
      let s ← gearLoop gear f.maskS p (mid - i).toNat i 0
      if s.1 then .ok s.2.1
      else
        let l ← gearLoop gear f.maskL p (n - s.2.1).toNat s.2.1 s.2.2
        .ok l.2.1

end Chunker

section Closed

variable (gear : UInt8 → UINT64)

/-- The hash at place `i` of a scan from `lo`: of the bytes from the one at `lo` to the one at `i`. -/
def gearFp (p : List UInt8) (lo i : Nat) : UINT64 :=
  ((p.take i).drop lo).foldl (fun fp b => (fp <<< 1) + gear b) 0

variable {gear} {p : List UInt8} {lo i k : Nat}

private theorem gearFp_next (hlo : lo ≤ i) (h : i < p.length) :
    (gearFp gear p lo i <<< 1) + gear (p.get ⟨i, h⟩) = gearFp gear p lo (i + 1) := by
  have hlen : (p.take i).length = i := List.length_take_of_le (by omega)
  rw [gearFp, gearFp, List.take_succ_eq_append_getElem h, List.drop_append_of_le_length (by omega),
    List.foldl_append]
  rfl

private theorem gearLoop_eq (gear : UInt8 → UINT64) (mask : UINT64) (hlo : lo ≤ i)
    (h : i + k ≤ p.length) :
    gearLoop gear mask p k i (gearFp gear p lo i) =
      .ok (match scanFirst (fun j => gearFp gear p lo (j + 1) &&& mask == 0) k i with
        | some r => (true, (r : Int), gearFp gear p lo (r + 1))
        | none => (false, ((i + k : Nat) : Int), gearFp gear p lo (i + k))) := by
  induction k generalizing i with
  | zero => rfl
  | succ k ih =>
      have hnext := ih (i := i + 1) (by omega) (by omega)
      have hplace : i + 1 + k = i + (k + 1) := by omega
      rw [hplace] at hnext
      rw [gearLoop, byteAt_of_lt (by omega), scanFirst]
      show (if (gearFp gear p lo i <<< 1) + gear (p.get ⟨i, _⟩) &&& mask = 0 then _ else _) = _
      rw [gearFp_next hlo (by omega)]
      by_cases hzero : gearFp gear p lo (i + 1) &&& mask = 0
      · rw [if_pos hzero, if_pos (beq_iff_eq.mpr hzero)]
      · rw [if_neg hzero, if_neg fun h => hzero (beq_iff_eq.mp h)]
        exact hnext

private theorem gearLoop_two (gear : UInt8 → UINT64) (maskS maskL : UINT64) {mid n : Nat}
    (hmid : lo ≤ mid) (hn : mid ≤ n) (h : n ≤ p.length) :
    (do
      let s ← gearLoop gear maskS p (mid - lo) lo 0
      if s.1 then Except.ok s.2.1
      else
        let l ← gearLoop gear maskL p (n - s.2.1).toNat s.2.1 s.2.2
        .ok l.2.1) =
      (.ok ((scanFirst (fun j => gearFp gear p lo (j + 1) &&& (if j < mid then maskS else maskL) == 0)
        (n - lo) lo).getD n : Nat) : Except Abort Int) := by
  have hzero : gearFp gear p lo lo = 0 := by
    rw [gearFp, List.drop_eq_nil_of_le (List.length_take_le _ _)]
    rfl
  have hfirst := gearLoop_eq (k := mid - lo) gear maskS (Nat.le_refl lo)
    (by omega : lo + (mid - lo) ≤ p.length)
  have hscanS : scanFirst (fun j => gearFp gear p lo (j + 1) &&& maskS == 0) (mid - lo) lo =
      scanFirst (fun j => gearFp gear p lo (j + 1) &&& (if j < mid then maskS else maskL) == 0)
        (mid - lo) lo := by
    apply scanFirst_congr
    intro j _ hj
    rw [if_pos (by omega)]
  have hplace : lo + (mid - lo) = mid := by omega
  rw [hzero, hscanS, hplace] at hfirst
  rw [hfirst]
  cases hscan : scanFirst (fun j => gearFp gear p lo (j + 1) &&& (if j < mid then maskS else maskL) == 0)
      (mid - lo) lo with
  | some r =>
      have hr := scanFirst_eq_some_iff.mp hscan
      have hall : scanFirst
          (fun j => gearFp gear p lo (j + 1) &&& (if j < mid then maskS else maskL) == 0)
          (n - lo) lo = some r :=
        scanFirst_eq_some_iff.mpr ⟨hr.1, by omega, hr.2.2⟩
      rw [hall]
      rfl
  | none =>
      have hsecond := gearLoop_eq (k := n - mid) gear maskL hmid
        (by omega : mid + (n - mid) ≤ p.length)
      have hcount : ((n : Int) - mid).toNat = n - mid := by omega
      have hend : mid + (n - mid) = n := by omega
      have hscanL : scanFirst (fun j => gearFp gear p lo (j + 1) &&& maskL == 0) (n - mid) mid =
          scanFirst (fun j => gearFp gear p lo (j + 1) &&& (if j < mid then maskS else maskL) == 0)
            (n - lo) lo := by
        have hsum : n - lo = (mid - lo) + (n - mid) := by omega
        rw [hsum, scanFirst_skip (scanFirst_eq_none_iff.mp hscan), hplace]
        apply scanFirst_congr
        intro j hj _
        rw [if_neg (by omega)]
      rw [hscanL, hend] at hsecond
      show (do
        let l ← gearLoop gear maskL p ((n : Int) - mid).toNat mid (gearFp gear p lo mid)
        .ok l.2.1) = _
      rw [hcount, hsecond]
      cases scanFirst (fun j => gearFp gear p lo (j + 1) &&& (if j < mid then maskS else maskL) == 0)
        (n - lo) lo <;> rfl

end Closed

section Cut

variable (gear : UInt8 → UINT64) (f : FastcdcParams) (p : List UInt8)

/-- The hash vanishes under the mask of the place. -/
def gearMark (i : Nat) : Bool :=
  gearFp gear p f.minSize (i + 1) &&& (if i < f.expectSize then f.maskS else f.maskL) == 0

def gearCut : Nat :=
  if p.length ≤ f.minSize then p.length
  else (scanFirst (gearMark gear f p) (min p.length f.maxSize - f.minSize) f.minSize).getD
    (max f.minSize (min p.length f.maxSize))

variable {gear f p}

private theorem gearLoop_zero (mask : UINT64) {count : Int} (h : count ≤ 0) (i : Int) (fp : UINT64) :
    gearLoop gear mask p count.toNat i fp = .ok (false, i, fp) := by
  rw [Int.toNat_of_nonpos h]
  rfl

private theorem mid_count (lo e n : Nat) :
    (((min e n : Nat) : Int) - lo).toNat = max lo (min e n) - lo := by omega

private theorem lt_mid_iff {lo e n m j : Nat} (hlo : lo ≤ j) (hj : j < lo + (min n m - lo)) :
    j < max lo (min e n) ↔ j < e := by omega

theorem fastcdcChunkData_eq (hexpect : f.expectSize ≤ f.maxSize) (hmax : f.maxSize < 2 ^ 31)
    (hp : p.length < 2 ^ 31) : fastcdcChunkData gear f p = .ok (gearCut gear f p : Int) := by
  rw [fastcdcChunkData, gearCut]
  split
  · rfl
  · rename_i hlen
    have hmin : toInt32 f.minSize = f.minSize := toInt32_eq (by omega) (by omega)
    have hn : (if f.maxSize < p.length then toInt32 f.maxSize else (p.length : Int)) =
        (min p.length f.maxSize : Nat) := by
      rw [toInt32_eq (by omega) (by omega)]
      split <;> omega
    have hmid : (if ¬ f.maxSize < p.length ∧ (p.length : Int) < toInt32 f.expectSize then
        (p.length : Int) else toInt32 f.expectSize) = (min f.expectSize p.length : Nat) := by
      rw [toInt32_eq (by omega) (by omega)]
      split <;> omega
    rw [hmin, hn, hmid]
    clear hmin hn hmid hmax hp
    dsimp only
    by_cases hend : min p.length f.maxSize ≤ f.minSize
    · have hzero : min p.length f.maxSize - f.minSize = 0 := by omega
      rw [gearLoop_zero _ (by omega), hzero, scanFirst, Option.getD_none, Nat.max_eq_left hend]
      show (do
        let l ← gearLoop gear f.maskL p _ _ _
        .ok l.2.1) = _
      rw [gearLoop_zero _ (by show ((min p.length f.maxSize : Nat) : Int) - f.minSize ≤ 0; omega)]
      rfl
    · have hmid : f.minSize ≤ max f.minSize (min f.expectSize p.length) := by omega
      have hn : max f.minSize (min f.expectSize p.length) ≤ min p.length f.maxSize := by omega
      have hloops := gearLoop_two gear f.maskS f.maskL hmid hn (Nat.min_le_left _ _)
      have hscan : scanFirst (fun j => gearFp gear p f.minSize (j + 1) &&&
            (if j < max f.minSize (min f.expectSize p.length) then f.maskS else f.maskL) == 0)
          (min p.length f.maxSize - f.minSize) f.minSize =
          scanFirst (gearMark gear f p) (min p.length f.maxSize - f.minSize) f.minSize := by
        apply scanFirst_congr
        intro j hj hlt
        rw [gearMark]
        simp only [lt_mid_iff hj hlt]
      rw [hscan] at hloops
      rw [mid_count, Nat.max_eq_right (by omega : f.minSize ≤ min p.length f.maxSize)]
      exact hloops

/-- Without a minimum size a byte whose value vanishes under the first mask gives an empty chunk. -/
theorem gearCut_zero (hmin : f.minSize = 0) (hmax : 1 ≤ f.maxSize) (hexpect : 1 ≤ f.expectSize)
    {b : UInt8} (hb : gear b &&& f.maskS = 0) : gearCut gear f [b] = 0 := by
  have hmark : gearMark gear f [b] 0 = true := by
    have hfp : gearFp gear [b] f.minSize (0 + 1) = gear b := by
      rw [gearFp, hmin]
      exact BitVec.zero_add _
    rw [gearMark, hfp, if_pos (by omega), hb, beq_self_eq_true]
  have hplaces : min [b].length f.maxSize - 0 = 1 := by
    rw [List.length_singleton]
    omega
  rw [gearCut, hmin, hplaces, scanFirst, hmark]
  rfl

/-- A cut has a byte at least, if there is a minimum size or no byte vanishes under the mask. -/
theorem gearCut_bounds (gear : UInt8 → UINT64) (hp : p ≠ [])
    (hexpect : 1 ≤ f.expectSize) (hmax : 1 ≤ f.maxSize)
    (hpos : f.minSize ≠ 0 ∨ ∀ b, gear b &&& f.maskS ≠ 0) :
    1 ≤ gearCut gear f p ∧ gearCut gear f p ≤ p.length ∧
      (f.minSize ≤ gearCut gear f p ∨ gearCut gear f p = p.length) ∧
      (f.minSize ≤ f.maxSize → gearCut gear f p ≤ f.maxSize) := by
  have hlen := List.length_pos_iff.mpr hp
  rw [gearCut]
  split
  · exact ⟨hlen, Nat.le_refl _, .inr rfl, by omega⟩
  · cases hscan : scanFirst (gearMark gear f p) (min p.length f.maxSize - f.minSize) f.minSize with
    | none => rw [Option.getD_none]; omega
    | some r =>
        obtain ⟨hr, hlt, hhit, _⟩ := scanFirst_eq_some_iff.mp hscan
        rw [Option.getD_some]
        have hone : 1 ≤ r := by
          by_contra hzero
          have hr0 : r = 0 := by omega
          have hmin : f.minSize = 0 := by omega
          obtain hne | hgear := hpos
          · exact hne hmin
          · have hfp : gearFp gear p f.minSize (0 + 1) = gear (p.head hp) := by
              obtain ⟨b, rest, rfl⟩ := List.exists_cons_of_ne_nil hp
              rw [gearFp, hmin]
              exact BitVec.zero_add _
            rw [hr0, gearMark, hfp, if_pos (by omega), beq_iff_eq] at hhit
            exact hgear _ hhit
        omega

/-- A cut depends on the bytes up to the maximum size only. -/
theorem gearCut_take (hle : f.minSize ≤ f.maxSize) (h : f.maxSize ≤ p.length) :
    gearCut gear f (p.take f.maxSize) = gearCut gear f p := by
  by_cases heq : f.maxSize = p.length
  · rw [heq, List.take_length]
  · have hlen : (p.take f.maxSize).length = f.maxSize := List.length_take_of_le h
    have hmark : scanFirst (gearMark gear f (p.take f.maxSize)) (f.maxSize - f.minSize) f.minSize =
        scanFirst (gearMark gear f p) (f.maxSize - f.minSize) f.minSize := by
      apply scanFirst_congr
      intro j hj hlt
      have htake : (p.take f.maxSize).take (j + 1) = p.take (j + 1) := by
        rw [List.take_take, Nat.min_eq_left (by omega)]
      rw [gearMark, gearMark, gearFp, gearFp, htake]
    rw [gearCut, gearCut, hlen, Nat.min_self, Nat.min_eq_right h, if_neg (by omega : ¬ p.length ≤ _),
      hmark]
    split
    · have hzero : f.maxSize - f.minSize = 0 := by omega
      rw [hzero, scanFirst, Option.getD_none]
      omega
    · rfl

end Cut

section Init

variable {c : ChunkSizes} {f : FastcdcParams}

/-- What the assertions leave: an average from 128 to 131071. -/
theorem fastcdcInit_ok (havg : c.chunkAvgSize < 2 ^ 31) (hlow : -2 ^ 31 ≤ c.chunkAvgSize)
    (h : fastcdcInit c = .ok f) :
    128 ≤ c.chunkAvgSize ∧ c.chunkAvgSize < 131072 ∧ f.minSize = toUint32 c.chunkMinSize ∧
      f.maxSize = toUint32 c.chunkMaxSize ∧ (f.expectSize : Int) = c.chunkAvgSize := by
  rw [fastcdcInit, bind_ok_iff] at h
  obtain ⟨_, hindex, h⟩ := h
  rw [bind_ok_iff] at h
  obtain ⟨_, hindex', h⟩ := h
  have hlo := require_ok_iff.mp hindex
  have hhi := require_ok_iff.mp hindex'
  cases h
  have hne : toUint32 c.chunkAvgSize ≠ 0 := by
    intro hzero
    rw [hzero] at hlo
    exact absurd hlo (by decide)
  have hle := (Nat.le_log2 hne).mp hlo
  have hlt := (Nat.log2_lt hne).mp hhi
  unfold toUint32 at *
  refine ⟨by omega, by omega, rfl, rfl, ?_⟩
  show ((c.chunkAvgSize % 2 ^ 32).toNat : Int) = c.chunkAvgSize
  omega

end Init

end Destor
