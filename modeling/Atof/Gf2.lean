import Mathlib.Algebra.Field.ZMod
import Mathlib.Algebra.Polynomial.Div
import Mathlib.Tactic

/-!
# Words as polynomials over the field with two elements

Bit `i` of a word is the coefficient of `X ^ i`, so words of a width are the
polynomials of smaller degree, exclusive or is their sum, and they stand for the
classes modulo a polynomial of this degree. Multiplication by `X` modulo
`X ^ w + r` is a shift, with `r` fed back when a bit is shifted out.
-/
namespace Atof.Gf2
open Polynomial

variable {w : ℕ}

noncomputable def poly (b : BitVec w) : (ZMod 2)[X] :=
  ∑ i ∈ Finset.range w, if b.getLsbD i then X ^ i else 0

/-- The word a polynomial belongs to. -/
noncomputable def word (w : ℕ) : (ZMod 2)[X] → BitVec w := Function.invFun poly

theorem coeff_poly (b : BitVec w) (i : ℕ) : (poly b).coeff i = if b.getLsbD i then 1 else 0 := by
  have hterm (k : ℕ) : (if b.getLsbD k then (X ^ k : (ZMod 2)[X]) else 0).coeff i =
      if i = k then (if b.getLsbD k then 1 else 0) else 0 := by
    cases b.getLsbD k <;> simp [coeff_X_pow]
  simp only [poly, finsetSum_coeff, hterm, Finset.sum_ite_eq, Finset.mem_range]
  split
  · rfl
  · next hi => rw [BitVec.getLsbD_of_ge b i (not_lt.mp hi), if_neg Bool.false_ne_true]

theorem degree_poly_lt (b : BitVec w) : (poly b).degree < w := by
  rw [degree_lt_iff_coeff_zero]
  intro i hi
  rw [coeff_poly, BitVec.getLsbD_of_ge b i hi, if_neg Bool.false_ne_true]

theorem poly_xor (a b : BitVec w) : poly (a ^^^ b) = poly a + poly b := by
  ext i
  rw [coeff_add, coeff_poly, coeff_poly, coeff_poly, BitVec.getLsbD_xor]
  cases a.getLsbD i <;> cases b.getLsbD i <;> decide

@[simp] theorem poly_zero : poly 0#w = 0 := by
  ext i
  simp [coeff_poly]

theorem poly_twoPow {i : ℕ} (h : i < w) : poly (BitVec.twoPow w i) = X ^ i := by
  ext k
  rw [coeff_poly, BitVec.getLsbD_twoPow, coeff_X_pow]
  simp [h, eq_comm]

theorem poly_injective : Function.Injective (poly : BitVec w → (ZMod 2)[X]) := by
  intro a b h
  apply BitVec.eq_of_getLsbD_eq
  intro i _
  have hi := congrArg (fun p => p.coeff i) h
  simp only [coeff_poly] at hi
  cases ha : a.getLsbD i <;> cases hb : b.getLsbD i <;> simp_all

theorem word_poly (b : BitVec w) : word w (poly b) = b :=
  Function.leftInverse_invFun poly_injective b

/-! ## Multiplication by `X` -/

section
variable (r : BitVec w)

noncomputable def modulus : (ZMod 2)[X] := X ^ w + poly r

theorem modulus_monic : (modulus r).Monic := monic_X_pow_add (degree_poly_lt r)

theorem degree_modulus : (modulus r).degree = w := by
  have hlt : (poly r).degree < (X ^ w : (ZMod 2)[X]).degree := by
    rw [degree_X_pow]
    exact degree_poly_lt r
  rw [modulus, degree_add_eq_left_of_degree_lt hlt, degree_X_pow]

/-- A shift by one, and the feedback of the bit that goes out. -/
def timesX (b : BitVec w) : BitVec w := b <<< 1 ^^^ if b.msb then r else 0#w

/-- What a shift leaves of the product with `X`. -/
theorem X_mul_poly (b : BitVec w) :
    X * poly b = poly (b <<< 1) + if b.msb then X ^ w else 0 := by
  ext i
  cases i with
  | zero =>
      rw [coeff_X_mul_zero, coeff_add, coeff_poly, BitVec.getLsbD_shiftLeft]
      cases hmsb : b.msb with
      | false => simp
      | true =>
          have hw : w ≠ 0 := fun hw => by simp [BitVec.msb, BitVec.getMsbD, hw] at hmsb
          simp [coeff_X_pow, hw.symm]
  | succ i =>
      have htop : (if b.msb then (X ^ w : (ZMod 2)[X]) else 0).coeff (i + 1) =
          if i + 1 = w ∧ b.msb = true then 1 else 0 := by
        cases b.msb <;> simp [coeff_X_pow]
      rw [coeff_X_mul, coeff_add, coeff_poly, coeff_poly, htop, BitVec.getLsbD_shiftLeft]
      rcases lt_trichotomy (i + 1) w with hlt | heq | hgt
      · simp [hlt, hlt.ne]
      · -- the bit that is shifted out
        have hmsb : b.msb = b.getLsbD i := by
          rw [BitVec.msb_eq_getLsbD_last, show w - 1 = i by omega]
        simp [heq, hmsb]
      · rw [BitVec.getLsbD_of_ge b i (by omega)]
        simp [hgt.ne', hgt.not_gt]

theorem poly_timesX (b : BitVec w) : poly (timesX r b) = (X * poly b) %ₘ modulus r := by
  have hdegree : (poly (timesX r b)).degree < (modulus r).degree := by
    rw [degree_modulus]
    exact degree_poly_lt _
  refine ((div_modByMonic_unique (if b.msb then 1 else 0) _ (modulus_monic r) ⟨?_,hdegree⟩).2).symm
  rw [X_mul_poly, timesX, poly_xor, add_assoc]
  cases b.msb with
  | false => simp
  | true =>
      have htwo : poly r + poly r = 0 := CharTwo.add_self_eq_zero _
      simp only [if_true, mul_one, modulus]
      rw [add_comm (X ^ w), ← add_assoc (poly r), htwo, zero_add]

theorem poly_iterate_timesX (i : ℕ) (b : BitVec w) :
    poly ((timesX r)^[i] b) = (X ^ i * poly b) %ₘ modulus r := by
  induction i with
  | zero =>
      rw [pow_zero, one_mul, Function.iterate_zero_apply]
      refine ((modByMonic_eq_self_iff (modulus_monic r)).mpr ?_).symm
      rw [degree_modulus]
      exact degree_poly_lt b
  | succ i ih =>
      rw [Function.iterate_succ_apply', poly_timesX, ih]
      refine modByMonic_eq_of_dvd_sub (modulus_monic r) ?_
      have hdvd := (dvd_modByMonic_sub (X ^ i * poly b) (modulus r)).mul_left X
      rwa [mul_sub, ← mul_assoc, ← pow_succ'] at hdvd

/-- The words are closed under multiplication by powers of `X`. -/
theorem word_X_pow_mul (i : ℕ) (b : BitVec w) :
    word w ((X ^ i * poly b) %ₘ modulus r) = (timesX r)^[i] b := by
  rw [← poly_iterate_timesX, word_poly]

end
end Atof.Gf2
