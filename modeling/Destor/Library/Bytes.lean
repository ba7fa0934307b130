/- digest: Byte images with positioned reads and writes, and fixed-width integer codecs. -/

import Mathlib.Data.List.GetD
import Mathlib.Tactic.Ring

set_option autoImplicit false
set_option relaxedAutoImplicit false

namespace Destor.Library.Bytes

/-- The content of a buffer or a file: the byte at each offset. -/
abbrev Image := Nat → UInt8

/-- A buffer cleared by `calloc` or `memset`. -/
def zeros : Image := fun _ => 0

def write (m : Image) (off : Nat) (bs : List UInt8) : Image := fun i =>
  if off ≤ i ∧ i < off + bs.length then bs.getD (i - off) 0 else m i

def read (m : Image) (off n : Nat) : List UInt8 :=
  (List.range n).map fun i => m (off + i)

def copy (m : Image) (off : Nat) (src : Image) (n : Nat) : Image := fun i =>
  if off ≤ i ∧ i < off + n then src (i - off) else m i

def fromOffset (m : Image) (off : Nat) : Image := fun i => m (off + i)

section ReadWrite

variable {m : Image} {off off' n : Nat} {bs : List UInt8}

@[simp] theorem length_read (m : Image) (off n : Nat) : (read m off n).length = n := by
  simp [read]

theorem write_apply_of_lt {i : Nat} (h : i < off) : write m off bs i = m i :=
  if_neg fun hi => by omega

theorem write_apply_of_le {i : Nat} (h : off + bs.length ≤ i) : write m off bs i = m i :=
  if_neg fun hi => by omega

/-- Reading back exactly what was written. -/
theorem read_write_self (m : Image) (off : Nat) (bs : List UInt8) :
    read (write m off bs) off bs.length = bs := by
  apply List.ext_getElem
  · simp
  · intro i hi hi'
    have hlt : i < bs.length := hi'
    simp [read, write, hlt]

/-- A write leaves every range that it does not meet. -/
theorem read_write_of_disjoint (h : off' + n ≤ off ∨ off + bs.length ≤ off') :
    read (write m off bs) off' n = read m off' n := by
  apply List.map_congr_left
  intro i hi
  have hi : i < n := List.mem_range.mp hi
  rcases h with h | h
  · exact write_apply_of_lt (by omega)
  · exact write_apply_of_le (by omega)

/-- A range is read piece by piece. -/
theorem read_add (m : Image) (off n k : Nat) :
    read m off (n + k) = read m off n ++ read m (off + n) k := by
  simp [read, List.range_add, Nat.add_assoc]

/-- Reading inside a copied range reads the source. -/
theorem read_copy_inside {src : Image} {pos k : Nat} (h : pos + k ≤ n) :
    read (copy m off src n) (off + pos) k = read src pos k := by
  apply List.map_congr_left
  intro i hi
  have hi : i < k := List.mem_range.mp hi
  have hcond : off ≤ off + pos + i ∧ off + pos + i < off + n := by omega
  have hsub : off + pos + i - off = pos + i := by omega
  rw [copy, if_pos hcond, hsub]

/-- A copy leaves every byte that it does not cover. -/
theorem copy_apply_of_disjoint {src : Image} {i : Nat} (h : i < off ∨ off + n ≤ i) :
    copy m off src n i = m i :=
  if_neg fun hi => by omega

theorem read_fromOffset (m : Image) (off pos n : Nat) :
    read (fromOffset m off) pos n = read m (off + pos) n := by
  simp [read, fromOffset, Nat.add_assoc]

theorem read_congr {m' : Image} (h : ∀ i, off ≤ i → i < off + n → m i = m' i) :
    read m off n = read m' off n := by
  apply List.map_congr_left
  intro i hi
  have hi : i < n := List.mem_range.mp hi
  exact h _ (by omega) (by omega)

/-- A read of a concatenation, split at the end of the first part. -/
theorem read_append {bs' : List UInt8}
    (h : read m off (bs ++ bs').length = bs ++ bs') :
    read m off bs.length = bs ∧ read m (off + bs.length) bs'.length = bs' := by
  rw [List.length_append, read_add] at h
  exact List.append_inj h (length_read m off _)

end ReadWrite

section LittleEndian

/-- The `w` low bytes of `x`, least significant first. -/
def leBytes : Nat → Nat → List UInt8
  | 0, _ => []
  | w + 1, x => UInt8.ofNat x :: leBytes w (x / 256)

/-- The number whose bytes are given, least significant first. -/
def leNat : List UInt8 → Nat
  | [] => 0
  | b :: bs => b.toNat + 256 * leNat bs

@[simp] theorem length_leBytes (w x : Nat) : (leBytes w x).length = w := by
  induction w generalizing x with
  | zero => rfl
  | succ w ih => simp [leBytes, ih]

theorem leNat_leBytes (w x : Nat) : leNat (leBytes w x) = x % 256 ^ w := by
  induction w generalizing x with
  | zero => simp [leBytes, leNat, Nat.mod_one]
  | succ w ih =>
      simp only [leBytes, leNat, ih, UInt8.toNat_ofNat']
      rw [show (256 : Nat) ^ (w + 1) = 256 * 256 ^ w by rw [Nat.pow_succ, Nat.mul_comm],
        Nat.mod_mul]

/-- The bytes of a signed machine integer of width `w`. -/
def leInt (w : Nat) (x : Int) : List UInt8 := leBytes w (x % (256 ^ w : Nat)).toNat

/-- The signed machine integer of the given bytes, read in two's complement. -/
def ofLeInt (bs : List UInt8) : Int := Int.bmod (leNat bs) (256 ^ bs.length)

@[simp] theorem length_leInt (w : Nat) (x : Int) : (leInt w x).length = w := length_leBytes w _

/-- What comes back of a signed integer: it wraps at its width. -/
theorem ofLeInt_leInt_bmod (w : Nat) (x : Int) : ofLeInt (leInt w x) = Int.bmod x (256 ^ w) := by
  have hpos : (0 : Int) < ((256 ^ w : Nat) : Int) := by exact_mod_cast Nat.pow_pos (by decide)
  have hnonneg : 0 ≤ x % ((256 ^ w : Nat) : Int) := Int.emod_nonneg _ (by omega)
  have hlt : x % ((256 ^ w : Nat) : Int) < (256 ^ w : Nat) := Int.emod_lt_of_pos _ hpos
  unfold ofLeInt leInt
  rw [leNat_leBytes, length_leBytes]
  have hcast : (((x % ((256 ^ w : Nat) : Int)).toNat % 256 ^ w : Nat) : Int) =
      x % ((256 ^ w : Nat) : Int) := by
    rw [Nat.mod_eq_of_lt (by omega)]
    exact Int.toNat_of_nonneg hnonneg
  rw [hcast, Int.emod_bmod]

/-- A signed integer that fits its width survives encoding. -/
theorem ofLeInt_leInt {w : Nat} {x : Int} (hw : 0 < w) (hlo : -(256 ^ w / 2 : Nat) ≤ x)
    (hhi : x < (256 ^ w / 2 : Nat)) : ofLeInt (leInt w x) = x := by
  have heven : 256 ^ w % 2 = 0 := by
    obtain ⟨k, rfl⟩ : ∃ k, w = k + 1 := ⟨w - 1, by omega⟩
    omega
  rw [ofLeInt_leInt_bmod]
  exact Int.bmod_eq_of_le_mul_two (by omega) (by omega)

end LittleEndian

end Destor.Library.Bytes
