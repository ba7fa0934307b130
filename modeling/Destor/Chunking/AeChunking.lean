/- digest: The asymmetric extremum chunker, and exactly when its cut respects the maximum size. -/

import Destor.Library.Scan

set_option autoImplicit false
set_option relaxedAutoImplicit false

namespace Destor

open Library

/-- The eight bytes at `i` as a number, the first byte the most significant. -/
def windowValue (p : List UInt8) (i : Nat) : Nat :=
  ((p.drop i).take 8).foldl (fun v b => 256 * v + b.toNat) 0

/-- `my_memcmp`; equal windows count as smaller. -/
def myMemcmp (p : List UInt8) (x y : Nat) : Int := if windowValue p y < windowValue p x then 1 else -1

/-- The loop of `ae_chunk_data` over `k` more places from `curr`; `max` is the place of the
extremum. -/
def aeLoop (windowSize chunkMaxSize : Int) (p : List UInt8) : Nat → Nat → Nat → Int
  | 0, _, _ => p.length
  | k + 1, curr, max =>
      if myMemcmp p curr max < 0 then aeLoop windowSize chunkMaxSize p k (curr + 1) curr
      else if curr = max + windowSize ∨ (curr : Int) = chunkMaxSize then curr
      else aeLoop windowSize chunkMaxSize p k (curr + 1) max

def aeChunkData (windowSize chunkMaxSize : Int) (p : List UInt8) : Int :=
  if (p.length : Int) ≤ windowSize + 8 then p.length
  else aeLoop windowSize chunkMaxSize p (p.length - 8) 1 0

section Extremum

variable (w : Nat → Nat)

/-- The last place up to `i` with the least value. -/
def lastMin : Nat → Nat
  | 0 => 0
  | i + 1 => if w (i + 1) ≤ w (lastMin i) then i + 1 else lastMin i

/-- A place whose value is not above those before it and below those after it up to `i`. -/
def IsLastMin (m i : Nat) : Prop := m ≤ i ∧ ∀ j ≤ i, w m ≤ w j ∧ (m < j → w m < w j)

theorem lastMin_spec (i : Nat) : IsLastMin w (lastMin w i) i := by
  induction i with
  | zero =>
      refine ⟨Nat.le_refl 0, fun j hj => ?_⟩
      have hzero : j = 0 := by omega
      rw [hzero]
      exact ⟨Nat.le_refl _, fun h => absurd h (Nat.lt_irrefl 0)⟩
  | succ i ih =>
      rw [lastMin]
      split
      · rename_i hle
        refine ⟨Nat.le_refl _, fun j hj => ⟨?_, fun h => absurd h (by omega)⟩⟩
        by_cases heq : j = i + 1
        · exact Nat.le_of_eq (by rw [heq])
        · exact Nat.le_trans hle (ih.2 j (by omega)).1
      · rename_i hlt
        refine ⟨Nat.le_succ_of_le ih.1, fun j hj => ?_⟩
        by_cases heq : j = i + 1
        · rw [heq]
          exact ⟨by omega, fun _ => by omega⟩
        · exact ih.2 j (by omega)

theorem lastMin_unique {m i : Nat} (h : IsLastMin w m i) : lastMin w i = m := by
  have hspec := lastMin_spec w i
  by_contra hne
  have hm := h.2 _ hspec.1
  have hlast := hspec.2 m h.1
  omega

end Extremum

section Bound

variable {windowSize chunkMaxSize : Int} {p : List UInt8}

/-- The loop stops here: the window is above the extremum, and the place is `windowSize` behind it or
the maximum size. -/
private def aeStops (windowSize chunkMaxSize : Int) (p : List UInt8) (i : Nat) : Bool :=
  let max := lastMin (windowValue p) (i - 1)
  decide (windowValue p max < windowValue p i) &&
    decide ((i : Int) = max + windowSize ∨ (i : Int) = chunkMaxSize)

private theorem aeLoop_eq (k i : Nat) (hi : 1 ≤ i) :
    aeLoop windowSize chunkMaxSize p k i (lastMin (windowValue p) (i - 1)) =
      ((scanFirst (aeStops windowSize chunkMaxSize p) k i).getD p.length : Nat) := by
  induction k generalizing i with
  | zero => rfl
  | succ k ih =>
      have hnext := ih (i + 1) (by omega)
      have hplace : i = i - 1 + 1 := by omega
      have hmin : lastMin (windowValue p) (i + 1 - 1) =
          if windowValue p i ≤ windowValue p (lastMin (windowValue p) (i - 1)) then i
          else lastMin (windowValue p) (i - 1) := by
        rw [Nat.add_sub_cancel]
        nth_rewrite 1 [hplace]
        rw [lastMin, ← hplace]
      rw [aeLoop, scanFirst, myMemcmp]
      by_cases hlt : windowValue p (lastMin (windowValue p) (i - 1)) < windowValue p i
      · rw [hmin, if_neg (Nat.not_le.mpr hlt)] at hnext
        rw [if_pos hlt, if_neg (by decide), hnext]
        by_cases hstop : (i : Int) = (lastMin (windowValue p) (i - 1) : Nat) + windowSize ∨
            (i : Int) = chunkMaxSize
        · have hhit : aeStops windowSize chunkMaxSize p i = true := by
            rw [aeStops, decide_eq_true hlt, decide_eq_true hstop, Bool.and_self]
          rw [if_pos hstop, hhit, if_pos rfl]
          rfl
        · have hhit : aeStops windowSize chunkMaxSize p i = false := by
            rw [aeStops, decide_eq_false hstop, Bool.and_false]
          rw [if_neg hstop, hhit, if_neg Bool.false_ne_true]
      · rw [hmin, if_pos (Nat.not_lt.mp hlt)] at hnext
        have hhit : aeStops windowSize chunkMaxSize p i = false := by
          rw [aeStops, decide_eq_false hlt, Bool.false_and]
        rw [if_neg hlt, if_pos (by decide), hnext, hhit, if_neg Bool.false_ne_true]

private theorem aeChunkData_eq (windowSize chunkMaxSize : Int) (p : List UInt8) :
    aeChunkData windowSize chunkMaxSize p =
      if (p.length : Int) ≤ windowSize + 8 then (p.length : Int)
      else ((scanFirst (aeStops windowSize chunkMaxSize p) (p.length - 8) 1).getD p.length : Nat) := by
  rw [aeChunkData]
  split
  · rfl
  · exact aeLoop_eq (p.length - 8) 1 (Nat.le_refl 1)

/-- A cut is at least one byte and never beyond the bytes there are. -/
theorem aeChunkData_bounds (hp : p ≠ []) :
    1 ≤ aeChunkData windowSize chunkMaxSize p ∧ aeChunkData windowSize chunkMaxSize p ≤ p.length := by
  have hlen := List.length_pos_iff.mpr hp
  rw [aeChunkData_eq]
  split
  · omega
  · cases hscan : scanFirst (aeStops windowSize chunkMaxSize p) (p.length - 8) 1 with
    | none => rw [Option.getD_none]; omega
    | some r =>
        have hr := scanFirst_eq_some_iff.mp hscan
        rw [Option.getD_some]
        omega

/-- What makes the loop stop by the maximum size: a window below the `windowSize` windows behind it
and not above those before it, or a window at the maximum size above one before it. -/
def AeStopsInTime (windowSize chunkMaxSize : Int) (p : List UInt8) : Prop :=
  (∃ m : Nat, m + windowSize ≤ chunkMaxSize ∧ m + windowSize + 8 ≤ p.length ∧
    (∀ j < m, windowValue p m ≤ windowValue p j) ∧
      ∀ j : Nat, m < j → j ≤ m + windowSize → windowValue p m < windowValue p j) ∨
  (chunkMaxSize + 8 ≤ p.length ∧
    ∃ j : Nat, j < chunkMaxSize ∧ windowValue p j < windowValue p chunkMaxSize.toNat)

private theorem aeStopsInTime_iff (hwindow : 0 < windowSize) :
    AeStopsInTime windowSize chunkMaxSize p ↔ ∃ i : Nat, 1 ≤ i ∧ i < 1 + (p.length - 8) ∧
      (i : Int) ≤ chunkMaxSize ∧ aeStops windowSize chunkMaxSize p i = true := by
  have hstops : ∀ i : Nat, aeStops windowSize chunkMaxSize p i = true ↔
      windowValue p (lastMin (windowValue p) (i - 1)) < windowValue p i ∧
        ((i : Int) = lastMin (windowValue p) (i - 1) + windowSize ∨ (i : Int) = chunkMaxSize) := by
    intro i
    simp only [aeStops, Bool.and_eq_true, decide_eq_true_eq]
  constructor
  · rintro (⟨m, hmax, hlen, hbefore, hafter⟩ | ⟨hlen, j, hj, hlt⟩)
    · obtain ⟨ws, rfl⟩ := Int.eq_ofNat_of_zero_le (Int.le_of_lt hwindow)
      have hlast : IsLastMin (windowValue p) m (m + ws - 1) := by
        refine ⟨by omega, fun j hj => ?_⟩
        by_cases hmj : m < j
        · have hlt := hafter j hmj (by omega)
          exact ⟨Nat.le_of_lt hlt, fun _ => hlt⟩
        · refine ⟨?_, fun h => absurd h hmj⟩
          by_cases heq : j = m
          · exact Nat.le_of_eq (by rw [heq])
          · exact hbefore j (by omega)
      refine ⟨m + ws, by omega, by omega, by omega, (hstops _).mpr ?_⟩
      rw [lastMin_unique _ hlast]
      exact ⟨hafter _ (by omega) (by omega), .inl (by omega)⟩
    · refine ⟨chunkMaxSize.toNat, by omega, by omega, by omega, (hstops _).mpr ⟨?_, .inr (by omega)⟩⟩
      have hmin := (lastMin_spec (windowValue p) (chunkMaxSize.toNat - 1)).2 j (by omega)
      omega
  · rintro ⟨i, hi, hlen, hmax, hhit⟩
    obtain ⟨hlt, hplace | hplace⟩ := (hstops i).mp hhit
    · have hmin := lastMin_spec (windowValue p) (i - 1)
      refine .inl ⟨lastMin (windowValue p) (i - 1), by omega, by omega, fun j hj => ?_,
        fun j hmj hj => ?_⟩
      · exact (hmin.2 j (by omega)).1
      · by_cases heq : j = i
        · rw [heq]
          exact hlt
        · exact (hmin.2 j (by omega)).2 hmj
    · have hmin := lastMin_spec (windowValue p) (i - 1)
      have hnat : chunkMaxSize.toNat = i := by omega
      have hbefore := hmin.1
      refine .inr ⟨by omega, lastMin (windowValue p) (i - 1), by omega, ?_⟩
      rw [hnat]
      exact hlt

/-- The cut respects the maximum size exactly if there are no more bytes, or the loop stops by it. -/
theorem aeChunkData_le_iff (hwindow : 0 < windowSize) :
    aeChunkData windowSize chunkMaxSize p ≤ chunkMaxSize ↔
      (p.length : Int) ≤ chunkMaxSize ∨
        (windowSize + 8 < p.length ∧ AeStopsInTime windowSize chunkMaxSize p) := by
  rw [aeChunkData_eq, aeStopsInTime_iff hwindow]
  split
  · constructor
    · exact .inl
    · rintro (h | ⟨h, _⟩)
      · exact h
      · omega
  · cases hscan : scanFirst (aeStops windowSize chunkMaxSize p) (p.length - 8) 1 with
    | none =>
        rw [Option.getD_none]
        constructor
        · exact .inl
        · rintro (h | ⟨_, i, hi, hlen, _, hhit⟩)
          · exact h
          · rw [scanFirst_eq_none_iff.mp hscan i hi hlen] at hhit
            cases hhit
    | some r =>
        have hr := scanFirst_eq_some_iff.mp hscan
        rw [Option.getD_some]
        constructor
        · intro h
          by_cases hall : (p.length : Int) ≤ chunkMaxSize
          · exact .inl hall
          · exact .inr ⟨by omega, r, hr.1, hr.2.1, h, hr.2.2.1⟩
        · rintro (h | ⟨_, i, hi, hlen, him, hhit⟩)
          · omega
          · by_contra hlt
            rw [hr.2.2.2 i hi (by omega)] at hhit
            cases hhit

end Bound

end Destor
