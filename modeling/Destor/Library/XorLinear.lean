/- digest: Maps of bit vectors that respect exclusive or: linear over the field of two elements. -/

import Mathlib.Logic.Function.Iterate

set_option autoImplicit false
set_option relaxedAutoImplicit false

namespace Destor.Library

variable {u v w : Nat}

/-- A map that respects exclusive or. -/
def XorLinear (f : BitVec v → BitVec w) : Prop := ∀ x y, f (x ^^^ y) = f x ^^^ f y

namespace XorLinear

variable {f g : BitVec v → BitVec w}

private theorem xor_xor_xor_comm (a b c d : BitVec w) :
    a ^^^ b ^^^ (c ^^^ d) = a ^^^ c ^^^ (b ^^^ d) := by
  rw [BitVec.xor_assoc, ← BitVec.xor_assoc b, BitVec.xor_comm b c, BitVec.xor_assoc c,
    ← BitVec.xor_assoc]

protected theorem id : XorLinear (fun x : BitVec w => x) := fun _ _ => rfl

protected theorem zero : XorLinear (fun _ : BitVec v => (0 : BitVec w)) :=
  fun _ _ => (BitVec.xor_self).symm

theorem comp {h : BitVec u → BitVec v} (hf : XorLinear f) (hh : XorLinear h) :
    XorLinear (fun x => f (h x)) := by
  intro x y
  show f (h (x ^^^ y)) = f (h x) ^^^ f (h y)
  rw [hh x y, hf]

/-- The sum of two linear maps. -/
theorem xor (hf : XorLinear f) (hg : XorLinear g) : XorLinear (fun x => f x ^^^ g x) := by
  intro x y
  show f (x ^^^ y) ^^^ g (x ^^^ y) = f x ^^^ g x ^^^ (f y ^^^ g y)
  rw [hf x y, hg x y, xor_xor_xor_comm]

theorem shiftLeft (hf : XorLinear f) (n : Nat) : XorLinear (fun x => f x <<< n) := by
  intro x y
  show f (x ^^^ y) <<< n = f x <<< n ^^^ f y <<< n
  rw [hf x y, BitVec.shiftLeft_xor_distrib]

theorem ushiftRight (hf : XorLinear f) (n : Nat) : XorLinear (fun x => f x >>> n) := by
  intro x y
  show f (x ^^^ y) >>> n = f x >>> n ^^^ f y >>> n
  rw [hf x y, BitVec.ushiftRight_xor_distrib]

theorem setWidth (hf : XorLinear f) (n : Nat) : XorLinear (fun x => (f x).setWidth n) := by
  intro x y
  show (f (x ^^^ y)).setWidth n = (f x).setWidth n ^^^ (f y).setWidth n
  rw [hf x y, BitVec.setWidth_xor]

/-- A constant that enters if a bit is set. -/
theorem select (hf : XorLinear f) (i : Nat) (c : BitVec u) :
    XorLinear (fun x => if (f x).getLsbD i then c else 0) := by
  intro x y
  simp only [hf x y, BitVec.getLsbD_xor]
  cases (f x).getLsbD i <;> cases (f y).getLsbD i <;> simp

/-- A constant that is added if a bit is set. -/
theorem addIf {h : BitVec v → BitVec u} (hf : XorLinear f) (hh : XorLinear h) (i : Nat)
    (c : BitVec u) : XorLinear (fun x => if (f x).getLsbD i then h x ^^^ c else h x) := by
  have heq : (fun x => if (f x).getLsbD i then h x ^^^ c else h x) =
      fun x => h x ^^^ if (f x).getLsbD i then c else 0 := by
    funext x
    cases (f x).getLsbD i <;> simp
  rw [heq]
  exact hh.xor (hf.select i c)

theorem iterate {h : BitVec w → BitVec w} (hh : XorLinear h) (n : Nat) : XorLinear h^[n] := by
  induction n with
  | zero => exact XorLinear.id
  | succ n ih =>
      rw [Function.iterate_succ]
      exact ih.comp hh

theorem map_zero (hf : XorLinear f) : f 0 = 0 := by
  have hself := hf 0 0
  rw [BitVec.xor_self, BitVec.xor_self] at hself
  exact hself

def columns (i : Nat) : List (BitVec w) → BitVec v → BitVec w
  | [], _ => 0
  | c :: cs, x => (if x.getLsbD i then c else 0) ^^^ columns (i + 1) cs x

theorem columns_linear (cs : List (BitVec w)) (i : Nat) :
    XorLinear (columns i cs : BitVec v → BitVec w) := by
  induction cs generalizing i with
  | nil => exact XorLinear.zero
  | cons c cs ih => exact (XorLinear.id.select i c).xor (ih (i + 1))

/-- Linear maps that agree on the single bits agree. -/
theorem ext_bits (hf : XorLinear f) (hg : XorLinear g)
    (h : ∀ i < v, f (BitVec.twoPow v i) = g (BitVec.twoPow v i)) (x : BitVec v) : f x = g x := by
  have hlow : ∀ k ≤ v, ∀ x : BitVec v, (∀ i, k ≤ i → x.getLsbD i = false) → f x = g x := by
    intro k
    induction k with
    | zero =>
        intro _ x hx
        have hzero : x = 0 := by
          apply BitVec.eq_of_getLsbD_eq
          intro i _
          rw [hx i (Nat.zero_le i)]
          simp
        rw [hzero, hf.map_zero, hg.map_zero]
    | succ k ih =>
        intro hk x hx
        have hcleared : ∀ i, k ≤ i →
            (x ^^^ if x.getLsbD k then BitVec.twoPow v k else 0).getLsbD i = false := by
          intro i hi
          by_cases heq : i = k
          · subst heq
            have hlt : i < v := by omega
            cases hbit : x.getLsbD i with
            | false =>
                rw [if_neg Bool.false_ne_true, BitVec.getLsbD_xor, hbit]
                exact (Bool.false_xor _).trans BitVec.getLsbD_zero
            | true =>
                rw [if_pos rfl, BitVec.getLsbD_xor, hbit, BitVec.getLsbD_twoPow]
                simp [hlt]
          · have hbit := hx i (by omega)
            cases x.getLsbD k <;> simp [hbit, Ne.symm heq]
        have hrest := ih (by omega) _ hcleared
        have hbit : f (if x.getLsbD k then BitVec.twoPow v k else 0) =
            g (if x.getLsbD k then BitVec.twoPow v k else 0) := by
          split
          · exact h k (by omega)
          · rw [hf.map_zero, hg.map_zero]
        rw [hf, hg, hbit, BitVec.xor_left_inj] at hrest
        exact hrest
  apply hlow v (Nat.le_refl v) x
  intro i hi
  exact BitVec.getLsbD_of_ge x i hi

end XorLinear

end Destor.Library
