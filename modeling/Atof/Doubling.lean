import Atof.Ocb

/-!
# Doubling of offsets

Bit `i` of a doubled block is bit `i - 1` of the block, with the top bit fed back
at positions 0, 1, 2 and 7. Doubling is linear over exclusive or, and neither it
nor its sum with the identity sends a nonzero block to zero.
-/
namespace Atof.Doubling
open Rust Ocb

/-- Where the top bit is fed back besides the bottom, to which it is rotated. -/
theorem getLsbD_feedback {i : ℕ} (hi : i < 128) :
    (0x86#128).getLsbD i = decide (i = 1 ∨ i = 2 ∨ i = 7) := by
  have hfeed : ∀ k : Fin 128,
      (0x86#128).getLsbD k = decide (k.val = 1 ∨ k.val = 2 ∨ k.val = 7) := by decide
  exact hfeed ⟨i,hi⟩

theorem getLsbD_s2 (a : U128) {i : ℕ} (hi : i < 128) : (s2 a).getLsbD i =
    ((if i = 0 then a.getLsbD 127 else a.getLsbD (i - 1)) ^^
      (a.getLsbD 127 && decide (i = 1 ∨ i = 2 ∨ i = 7))) := by
  have hrot : (a.rotateLeft 1).getLsbD i =
      if i = 0 then a.getLsbD 127 else a.getLsbD (i - 1) := by
    rw [BitVec.getLsbD_rotateLeft]
    by_cases h : i = 0 <;> simp [h, hi]
  have hcarry : a.rotateLeft 1 &&& 1#128 = if a.getLsbD 127 then 1#128 else 0#128 := by
    apply BitVec.eq_of_getLsbD_eq
    intro j hj
    rw [BitVec.getLsbD_and, BitVec.getLsbD_rotateLeft]
    by_cases hj0 : j = 0
    · subst hj0
      cases a.getLsbD 127 <;> simp
    · cases a.getLsbD 127 <;> simp [hj0, BitVec.getLsbD_one]
  rw [s2, BitVec.getLsbD_xor, hrot, hcarry]
  cases a.getLsbD 127 with
  | false => simp
  | true =>
      simp only [if_true, BitVec.one_mul, Bool.true_and]
      rw [getLsbD_feedback hi]

/-- The rotation leaves the bit that goes out at the bottom, where it is fed back too. -/
theorem s2_eq_shift (a : U128) : s2 a = a <<< 1 ^^^ if a.getLsbD 127 then 0x87#128 else 0 := by
  have hfeed : 0x87#128 = 0x86#128 ^^^ 1#128 := by decide
  apply BitVec.eq_of_getLsbD_eq
  intro i hi
  rw [getLsbD_s2 a hi, BitVec.getLsbD_xor, BitVec.getLsbD_shiftLeft]
  cases a.getLsbD 127 with
  | false => by_cases h0 : i = 0 <;> simp [h0, hi]
  | true =>
      rw [if_pos rfl, hfeed, BitVec.getLsbD_xor, getLsbD_feedback hi, BitVec.getLsbD_one]
      by_cases h0 : i = 0 <;> simp [h0, hi]

@[simp] theorem s2_xor (a b : U128) : s2 (a ^^^ b) = s2 a ^^^ s2 b := by
  apply BitVec.eq_of_getLsbD_eq
  intro i hi
  rw [BitVec.getLsbD_xor, getLsbD_s2 _ hi, getLsbD_s2 _ hi, getLsbD_s2 _ hi]
  simp only [BitVec.getLsbD_xor]
  split_ifs <;> cases a.getLsbD 127 <;> cases b.getLsbD 127 <;>
    simp [Bool.xor_comm, Bool.xor_left_comm]

@[simp] theorem s2_zero : s2 0 = 0 := by decide

theorem s2_eq_zero {a : U128} (h : s2 a = 0) : a = 0 := by
  have hbit : ∀ i, i < 128 → (s2 a).getLsbD i = false := fun i _ => by simp [h]
  have htop : a.getLsbD 127 = false := by
    have h0 := hbit 0 (by omega)
    rwa [getLsbD_s2 a (by omega), if_pos rfl, show decide (0 = 1 ∨ 0 = 2 ∨ 0 = 7) = false from rfl,
      Bool.and_false, Bool.xor_false] at h0
  apply BitVec.eq_of_getLsbD_eq
  intro i hi
  by_cases hi' : i = 127
  · rw [hi', htop]
    exact BitVec.getLsbD_zero.symm
  · have hi1 := hbit (i + 1) (by omega)
    rw [getLsbD_s2 a (by omega), if_neg (by omega), htop] at hi1
    simpa using hi1

theorem s2_injective : Function.Injective s2 := fun a b h => by
  have hz : s2 (a ^^^ b) = 0 := by rw [s2_xor, h, BitVec.xor_self]; rfl
  exact BitVec.xor_eq_zero_iff.mp (s2_eq_zero hz)

/-- Position 7 is where the top bit stops when it is fed back, so if the bits come
back unchanged those from there to the top are clear, and with them the others. -/
theorem bits_clear {b : ℕ → Bool} (h0 : b 0 = b 127)
    (hstep : ∀ i, i < 127 → b (i + 1) = (b i ^^ (b 127 && decide (i = 0 ∨ i = 1 ∨ i = 6)))) :
    ∀ i, i ≤ 127 → b i = false := by
  have h1 : b 1 = false := by simp [hstep 0, h0]
  have hlow : ∀ i, i ≤ 4 → b (i + 2) = b 127 := by
    intro i
    induction i with
    | zero => simp [hstep 1, h1]
    | succ i ih =>
        intro hi
        rw [hstep (i + 2) (by omega), ih (by omega), decide_eq_false (by omega), Bool.and_false,
          Bool.xor_false]
  have hhigh : ∀ i, i ≤ 120 → b (i + 7) = false := by
    intro i
    induction i with
    | zero => simp [hstep 6, hlow 4]
    | succ i ih =>
        intro hi
        rw [hstep (i + 7) (by omega), ih (by omega), decide_eq_false (by omega), Bool.and_false,
          Bool.xor_false]
  have htop : b 127 = false := hhigh 120 le_rfl
  intro i hi
  match i with
  | 0 => rw [h0, htop]
  | 1 => exact h1
  | i + 2 =>
      by_cases hi' : i ≤ 4
      · rw [hlow i hi', htop]
      · rw [show i + 2 = (i - 5) + 7 by omega, hhigh (i - 5) (by omega)]

/-- A nonzero block is not its own double. -/
theorem eq_zero_of_s2_eq {a : U128} (h : s2 a = a) : a = 0 := by
  have hbit : ∀ i, i < 128 → a.getLsbD i =
      ((if i = 0 then a.getLsbD 127 else a.getLsbD (i - 1)) ^^
        (a.getLsbD 127 && decide (i = 1 ∨ i = 2 ∨ i = 7))) := fun i hi => by
    rw [← getLsbD_s2 a hi, h]
  generalize hb : a.getLsbD = b at hbit
  have hclear := bits_clear (b := b) (by simpa using hbit 0 (by omega)) fun i hi => by
    simpa using hbit (i + 1) (by omega)
  apply BitVec.eq_of_getLsbD_eq
  intro i hi
  rw [hb, hclear i (by omega)]
  exact BitVec.getLsbD_zero.symm

end Atof.Doubling
