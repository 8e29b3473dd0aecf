import Mathlib.Tactic

/-!
# Big-endian byte strings of bit vectors

A word of any width is written most significant byte first, and a byte string of
any length is read back into a word of any width. Both directions are recursive
on the byte count, so a word that is assembled byte by byte in a program is this
function unfolded. Reading what was written keeps the bytes that were written;
writing what was read is exact while the string fits in the word. Exclusive or
acts bytewise, and a common tail cancels to zeros.
-/
namespace Atof.BigEndian

variable {w : ℕ}

/-- The `n` least significant bytes of `x`, most significant first. -/
def toBytes : ℕ → BitVec w → List (BitVec 8)
  | 0, _ => []
  | n + 1, x => (x >>> (8 * n)).setWidth 8 :: toBytes n x

/-- The word with the given bytes, most significant first. -/
def ofBytes (w : ℕ) : List (BitVec 8) → BitVec w
  | [] => 0
  | b :: bs => b.setWidth w <<< (8 * bs.length) ||| ofBytes w bs

@[simp] theorem length_toBytes (n : ℕ) (x : BitVec w) : (toBytes n x).length = n := by
  induction n with
  | zero => rfl
  | succ n ih => simp [toBytes, ih]

theorem getLsbD_ofBytes_of_le (bs : List (BitVec 8)) {i : ℕ} (h : 8 * bs.length ≤ i) :
    (ofBytes w bs).getLsbD i = false := by
  induction bs with
  | nil => simp [ofBytes]
  | cons b bs ih =>
      simp only [List.length_cons] at h
      simp only [ofBytes, BitVec.getLsbD_or, BitVec.getLsbD_shiftLeft, BitVec.getLsbD_setWidth,
        ih (by omega), Bool.or_false]
      rw [BitVec.getLsbD_of_ge b _ (by omega)]
      simp

theorem getLsbD_ofBytes_cons (b : BitVec 8) (bs : List (BitVec 8)) (i : ℕ) (hi : i < w) :
    (ofBytes w (b :: bs)).getLsbD i =
      if i < 8 * bs.length then (ofBytes w bs).getLsbD i else b.getLsbD (i - 8 * bs.length) := by
  simp only [ofBytes, BitVec.getLsbD_or, BitVec.getLsbD_shiftLeft, BitVec.getLsbD_setWidth]
  split_ifs with h
  · simp [h]
  · rw [getLsbD_ofBytes_of_le bs (by omega)]
    simp [h, hi, show i - 8 * bs.length < w by omega]

theorem getLsbD_ofBytes_toBytes (n : ℕ) (x : BitVec w) {i : ℕ} (hi : i < w) :
    (ofBytes w (toBytes n x)).getLsbD i = (decide (i < 8 * n) && x.getLsbD i) := by
  induction n with
  | zero => simp [toBytes, ofBytes]
  | succ n ih =>
      rw [toBytes, getLsbD_ofBytes_cons _ _ _ hi, length_toBytes]
      split_ifs with h
      · rw [ih]
        simp [h, show i < 8 * (n + 1) by omega]
      · simp only [BitVec.getLsbD_setWidth, BitVec.getLsbD_ushiftRight,
          Nat.add_sub_cancel' (Nat.le_of_not_lt h)]
        congr 1
        exact decide_eq_decide.mpr (by omega)

/-- Enough bytes determine the word. -/
theorem ofBytes_toBytes {n : ℕ} (h : w ≤ 8 * n) (x : BitVec w) : ofBytes w (toBytes n x) = x := by
  apply BitVec.eq_of_getLsbD_eq
  intro i hi
  rw [getLsbD_ofBytes_toBytes n x hi]
  simp [show i < 8 * n by omega]

/-- A small word is determined by its low bytes. -/
theorem ofBytes_toBytes_of_lt {n : ℕ} {x : BitVec w} (h : x.toNat < 2 ^ (8 * n)) :
    ofBytes w (toBytes n x) = x := by
  apply BitVec.eq_of_getLsbD_eq
  intro i hi
  rw [getLsbD_ofBytes_toBytes n x hi]
  by_cases hn : i < 8 * n
  · simp [hn]
  · have hx : x.getLsbD i = false :=
      Nat.testBit_lt_two_pow (lt_of_lt_of_le h (Nat.pow_le_pow_right (by norm_num) (by omega)))
    simp [hn, hx]

/-- Only the low bytes of a word are written. -/
theorem toBytes_congr {n : ℕ} {x y : BitVec w}
    (h : ∀ i < 8 * n, x.getLsbD i = y.getLsbD i) : toBytes n x = toBytes n y := by
  induction n with
  | zero => rfl
  | succ n ih =>
      simp only [toBytes]
      congr 1
      · apply BitVec.eq_of_getLsbD_eq
        intro i hi
        simp only [BitVec.getLsbD_setWidth, BitVec.getLsbD_ushiftRight, h (8 * n + i) (by omega)]
      · exact ih fun i hi => h i (by omega)

theorem toBytes_ofBytes {bs : List (BitVec 8)} (h : 8 * bs.length ≤ w) :
    toBytes bs.length (ofBytes w bs) = bs := by
  induction bs with
  | nil => rfl
  | cons b bs ih =>
      simp only [List.length_cons] at h
      simp only [List.length_cons, toBytes]
      congr 1
      · apply BitVec.eq_of_getLsbD_eq
        intro i hi
        simp only [BitVec.getLsbD_setWidth, BitVec.getLsbD_ushiftRight, hi, decide_true,
          Bool.true_and]
        rw [getLsbD_ofBytes_cons _ _ _ (by omega), if_neg (by omega), Nat.add_sub_cancel_left]
      · refine Eq.trans (toBytes_congr fun i hi => ?_) (ih (by omega))
        rw [getLsbD_ofBytes_cons _ _ _ (by omega), if_pos hi]

theorem toBytes_xor (n : ℕ) (x y : BitVec w) :
    toBytes n (x ^^^ y) = List.zipWith (· ^^^ ·) (toBytes n x) (toBytes n y) := by
  induction n with
  | zero => rfl
  | succ n ih =>
      simp only [toBytes, List.zipWith_cons_cons, ih]
      congr 1
      apply BitVec.eq_of_getLsbD_eq
      intro i hi
      simp [hi]

theorem toBytes_zero (n : ℕ) : toBytes n (0#w) = List.replicate n 0#8 := by
  induction n with
  | zero => rfl
  | succ n ih => simp [toBytes, ih, List.replicate_succ]

theorem ofBytes_injective {as bs : List (BitVec 8)} (hl : as.length = bs.length)
    (hw : 8 * as.length ≤ w) (h : ofBytes w as = ofBytes w bs) : as = bs := by
  calc as = toBytes as.length (ofBytes w as) := (toBytes_ofBytes hw).symm
    _ = toBytes bs.length (ofBytes w bs) := by rw [hl, h]
    _ = bs := toBytes_ofBytes (hl ▸ hw)

theorem toBytes_injective {n : ℕ} (hw : w ≤ 8 * n) :
    Function.Injective (toBytes n : BitVec w → List (BitVec 8)) := by
  intro x y h
  rw [← ofBytes_toBytes hw x, ← ofBytes_toBytes hw y, h]

end Atof.BigEndian
