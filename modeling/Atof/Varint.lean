import Atof.Rust
import Atof.BigEndian

/-!
# Variable-length integers

The reader branches on masks of the first byte and assembles the value from the
bytes that follow; the complement form reads another varint and inverts it. The
writer tests the value from the top range downwards, so the two sides meet only
in the leading bits of the first byte. Every assembled value is a big-endian
byte string, which makes the round trip one argument for all lengths.
-/
namespace Atof.Varint
open Rust BigEndian

/-- `read_varint` on the unread bytes of its source. -/
def readVarint : Bytes → Io (U64 × Bytes)
  | [] => .error .failedToFill
  | b0 :: rest =>
    if b0 &&& 0b11111100#8 = 0b11111000#8 then do
      let (value, rest) ← readVarint rest
      return (~~~value, rest)
    else if b0 &&& 0b11111100#8 = 0b11111100#8 then
      return (~~~(b0 &&& 0x03#8).setWidth 64, rest)
    else if b0 &&& 0b10000000#8 = 0#8 then
      return ((b0 &&& 0b01111111#8).setWidth 64, rest)
    else do
      let (b1, rest) ← readU8 rest
      if b0 &&& 0b01000000#8 = 0#8 then
        return ((b0 &&& 0b00111111#8).setWidth 64 <<< 8 ||| b1.setWidth 64, rest)
      let (b2, rest) ← readU8 rest
      if b0 &&& 0b00100000#8 = 0#8 then
        return ((b0 &&& 0b00011111#8).setWidth 64 <<< 16 ||| b1.setWidth 64 <<< 8 |||
          b2.setWidth 64, rest)
      let (b3, rest) ← readU8 rest
      if b0 &&& 0b00010000#8 = 0#8 then
        return ((b0 &&& 0x0F#8).setWidth 64 <<< 24 ||| b1.setWidth 64 <<< 16 |||
          b2.setWidth 64 <<< 8 ||| b3.setWidth 64, rest)
      let (b4, rest) ← readU8 rest
      if b0 &&& 0b00000100#8 = 0#8 then
        return (b1.setWidth 64 <<< 24 ||| b2.setWidth 64 <<< 16 ||| b3.setWidth 64 <<< 8 |||
          b4.setWidth 64, rest)
      let (b5, rest) ← readU8 rest
      let (b6, rest) ← readU8 rest
      let (b7, rest) ← readU8 rest
      let (b8, rest) ← readU8 rest
      return (b1.setWidth 64 <<< 56 ||| b2.setWidth 64 <<< 48 ||| b3.setWidth 64 <<< 40 |||
        b4.setWidth 64 <<< 32 ||| b5.setWidth 64 <<< 24 ||| b6.setWidth 64 <<< 16 |||
        b7.setWidth 64 <<< 8 ||| b8.setWidth 64, rest)

/-- The sign test of the writer. -/
theorem and_top_eq (value : U64) :
    value &&& 0x8000000000000000#64 = 0x8000000000000000#64 ↔ 2 ^ 63 ≤ value.toNat := by
  have hm : 0x8000000000000000#64 = BitVec.twoPow 64 63 := by decide
  have hb : value.getLsbD 63 = decide (2 ^ 63 ≤ value.toNat) := by
    rw [show value.getLsbD 63 = value.msb from (BitVec.msb_eq_getLsbD_last value).symm,
      BitVec.msb_eq_decide]
  rw [hm, BitVec.and_twoPow, hb]
  by_cases h : 2 ^ 63 ≤ value.toNat
  · simp only [h, decide_true, if_true]
  · simp only [h, decide_false, Bool.false_eq_true, if_false, iff_false]
    decide

/-- The mask with only the two low bits clear. -/
theorem getLsbD_low_clear {i : ℕ} (hi : i < 64) :
    (0xfffffffffffffffc#64).getLsbD i = decide (2 ≤ i) := by
  have h : ∀ i : Fin 64, (0xfffffffffffffffc#64).getLsbD i = decide (2 ≤ i.val) := by decide
  exact h ⟨i,hi⟩

/-- The writer's first test picks the four largest values. -/
theorem and_low_clear_eq (value : U64) :
    value &&& 0xfffffffffffffffc#64 = 0xfffffffffffffffc#64 ↔ (~~~value).toNat < 4 := by
  rw [show (4 : ℕ) = 2 ^ 2 from rfl, BitVec.toNat_lt_iff_getLsbD_eq_false 2 (by norm_num)]
  constructor
  · intro h k
    by_cases hk : 2 + k < 64
    · have hb := congrArg (fun x : U64 => x.getLsbD (2 + k)) h
      simp only [BitVec.getLsbD_and, getLsbD_low_clear hk] at hb
      simpa [hk] using hb
    · exact BitVec.getLsbD_of_ge _ _ (by omega)
  · intro h
    apply BitVec.eq_of_getLsbD_eq
    intro i hi
    rw [BitVec.getLsbD_and, getLsbD_low_clear hi]
    by_cases h2 : 2 ≤ i
    · have hb := h (i - 2)
      rw [Nat.add_sub_cancel' h2, BitVec.getLsbD_not] at hb
      simpa [hi, h2] using hb
    · simp [h2]

/-- `write_varint`; the bytes it emits. -/
def writeVarint (value : U64) : Bytes :=
  if value &&& 0xfffffffffffffffc#64 = 0xfffffffffffffffc#64 then
    [0b11111100#8 ||| (~~~value).setWidth 8]
  else if value &&& 0x8000000000000000#64 = 0x8000000000000000#64 then
    0b11111000#8 :: writeVarint (~~~value)
  else if value > 0xffffffff#64 then
    [0b11110100#8, (value >>> 56).setWidth 8, (value >>> 48).setWidth 8,
      (value >>> 40).setWidth 8, (value >>> 32).setWidth 8, (value >>> 24).setWidth 8,
      (value >>> 16).setWidth 8, (value >>> 8).setWidth 8, value.setWidth 8]
  else if value > 0x0fffffff#64 then
    [0b11110000#8, (value >>> 24).setWidth 8, (value >>> 16).setWidth 8,
      (value >>> 8).setWidth 8, value.setWidth 8]
  else if value > 0x001fffff#64 then
    [0b11100000#8 ||| (value >>> 24).setWidth 8, (value >>> 16).setWidth 8,
      (value >>> 8).setWidth 8, value.setWidth 8]
  else if value > 0x00003fff#64 then
    [0b11000000#8 ||| (value >>> 16).setWidth 8, (value >>> 8).setWidth 8, value.setWidth 8]
  else if value > 0x0000007f#64 then
    [0b10000000#8 ||| (value >>> 8).setWidth 8, value.setWidth 8]
  else
    [value.setWidth 8]
termination_by value.toNat
decreasing_by
  have ht := (and_top_eq value).mp ‹_›
  rw [BitVec.toNat_not]
  omega

/-! The reader on each form the writer emits. The leading byte carries its marker
and, in the short forms, the high bits `k` of the value. -/

theorem readVarint_inverted {k : U8} (hk : k < 4#8) (rest : Bytes) :
    readVarint ((0b11111100#8 ||| k) :: rest) = .ok (~~~k.setWidth 64, rest) := by
  have h : ∀ k : U8, k < 4#8 →
      (0b11111100#8 ||| k) &&& 0b11111100#8 ≠ 0b11111000#8 ∧
      (0b11111100#8 ||| k) &&& 0b11111100#8 = 0b11111100#8 ∧
      (0b11111100#8 ||| k) &&& 0x03#8 = k := by decide
  obtain ⟨t1,t2,t3⟩ := h k hk
  simp only [readVarint, if_neg t1, if_pos t2, t3]
  rfl

theorem readVarint_one {k : U8} (hk : k < 128#8) (rest : Bytes) :
    readVarint (k :: rest) = .ok (ofBytes 64 [k], rest) := by
  have h : ∀ k : U8, k < 128#8 →
      k &&& 0b11111100#8 ≠ 0b11111000#8 ∧ k &&& 0b11111100#8 ≠ 0b11111100#8 ∧
      k &&& 0b10000000#8 = 0#8 ∧ k &&& 0b01111111#8 = k := by decide
  obtain ⟨t1,t2,t3,t4⟩ := h k hk
  simp only [readVarint, if_neg t1, if_neg t2, if_pos t3, t4]
  simp [ofBytes, pure, Except.pure]

theorem readVarint_two {k : U8} (hk : k < 64#8) (b1 : U8) (rest : Bytes) :
    readVarint ((0b10000000#8 ||| k) :: b1 :: rest) = .ok (ofBytes 64 [k,b1], rest) := by
  have h : ∀ k : U8, k < 64#8 →
      (0b10000000#8 ||| k) &&& 0b11111100#8 ≠ 0b11111000#8 ∧
      (0b10000000#8 ||| k) &&& 0b11111100#8 ≠ 0b11111100#8 ∧
      (0b10000000#8 ||| k) &&& 0b10000000#8 ≠ 0#8 ∧
      (0b10000000#8 ||| k) &&& 0b01000000#8 = 0#8 ∧
      (0b10000000#8 ||| k) &&& 0b00111111#8 = k := by decide
  obtain ⟨t1,t2,t3,t4,t5⟩ := h k hk
  simp only [readVarint, readU8, if_neg t1, if_neg t2, if_neg t3, if_pos t4, t5, bind, Except.bind]
  simp [ofBytes, pure, Except.pure]

theorem readVarint_three {k : U8} (hk : k < 32#8) (b1 b2 : U8) (rest : Bytes) :
    readVarint ((0b11000000#8 ||| k) :: b1 :: b2 :: rest) =
      .ok (ofBytes 64 [k,b1,b2], rest) := by
  have h : ∀ k : U8, k < 32#8 →
      (0b11000000#8 ||| k) &&& 0b11111100#8 ≠ 0b11111000#8 ∧
      (0b11000000#8 ||| k) &&& 0b11111100#8 ≠ 0b11111100#8 ∧
      (0b11000000#8 ||| k) &&& 0b10000000#8 ≠ 0#8 ∧
      (0b11000000#8 ||| k) &&& 0b01000000#8 ≠ 0#8 ∧
      (0b11000000#8 ||| k) &&& 0b00100000#8 = 0#8 ∧
      (0b11000000#8 ||| k) &&& 0b00011111#8 = k := by decide
  obtain ⟨t1,t2,t3,t4,t5,t6⟩ := h k hk
  simp only [readVarint, readU8, if_neg t1, if_neg t2, if_neg t3, if_neg t4, if_pos t5, t6,
    bind, Except.bind]
  simp [ofBytes, pure, Except.pure, BitVec.or_assoc]

theorem readVarint_four {k : U8} (hk : k < 16#8) (b1 b2 b3 : U8) (rest : Bytes) :
    readVarint ((0b11100000#8 ||| k) :: b1 :: b2 :: b3 :: rest) =
      .ok (ofBytes 64 [k,b1,b2,b3], rest) := by
  have h : ∀ k : U8, k < 16#8 →
      (0b11100000#8 ||| k) &&& 0b11111100#8 ≠ 0b11111000#8 ∧
      (0b11100000#8 ||| k) &&& 0b11111100#8 ≠ 0b11111100#8 ∧
      (0b11100000#8 ||| k) &&& 0b10000000#8 ≠ 0#8 ∧
      (0b11100000#8 ||| k) &&& 0b01000000#8 ≠ 0#8 ∧
      (0b11100000#8 ||| k) &&& 0b00100000#8 ≠ 0#8 ∧
      (0b11100000#8 ||| k) &&& 0b00010000#8 = 0#8 ∧
      (0b11100000#8 ||| k) &&& 0x0F#8 = k := by decide
  obtain ⟨t1,t2,t3,t4,t5,t6,t7⟩ := h k hk
  simp only [readVarint, readU8, if_neg t1, if_neg t2, if_neg t3, if_neg t4, if_neg t5,
    if_pos t6, t7, bind, Except.bind]
  simp [ofBytes, pure, Except.pure, BitVec.or_assoc]

theorem readVarint_five (b1 b2 b3 b4 : U8) (rest : Bytes) :
    readVarint (0b11110000#8 :: b1 :: b2 :: b3 :: b4 :: rest) =
      .ok (ofBytes 64 [b1,b2,b3,b4], rest) := by
  simp [readVarint, readU8, ofBytes, pure, Except.pure, bind, Except.bind, BitVec.or_assoc]

theorem readVarint_nine (b1 b2 b3 b4 b5 b6 b7 b8 : U8) (rest : Bytes) :
    readVarint (0b11110100#8 :: b1 :: b2 :: b3 :: b4 :: b5 :: b6 :: b7 :: b8 :: rest) =
      .ok (ofBytes 64 [b1,b2,b3,b4,b5,b6,b7,b8], rest) := by
  simp [readVarint, readU8, ofBytes, pure, Except.pure, bind, Except.bind, BitVec.or_assoc]

/-- Failing the writer's range test bounds the value. -/
theorem small_of_not_gt {value : U64} (n : ℕ) (hn : n < 64)
    (h : ¬ value > BitVec.ofNat 64 (2 ^ n - 1)) : value.toNat < 2 ^ n := by
  have hp : 2 ^ n < 2 ^ 64 := Nat.pow_lt_pow_right (by norm_num) hn
  have h0 := Nat.two_pow_pos n
  rw [gt_iff_lt, BitVec.lt_def, BitVec.toNat_ofNat, Nat.mod_eq_of_lt (by omega)] at h
  omega

/-- The leading byte of a short value is small. -/
theorem leading_byte_lt {value : U64} (n k : ℕ) (hk : k < 8)
    (h : value.toNat < 2 ^ (n + k)) :
    (value >>> n).setWidth 8 < BitVec.ofNat 8 (2 ^ k) := by
  have hp : 2 ^ k < 2 ^ 8 := Nat.pow_lt_pow_right (by norm_num) hk
  rw [BitVec.lt_def, BitVec.toNat_ofNat, Nat.mod_eq_of_lt hp, BitVec.toNat_setWidth,
    BitVec.toNat_ushiftRight, Nat.shiftRight_eq_div_pow]
  refine lt_of_le_of_lt (Nat.mod_le _ _) (Nat.div_lt_of_lt_mul ?_)
  rwa [← pow_add]

/-- Reading what was written returns the value and leaves what followed. -/
theorem readVarint_writeVarint (value : U64) (rest : Bytes) :
    readVarint (writeVarint value ++ rest) = .ok (value, rest) := by
  fun_induction writeVarint value with
  | case1 value h =>
      have hk := (and_low_clear_eq value).mp h
      have hw : ((~~~value).setWidth 8).setWidth 64 = ~~~value := by
        apply BitVec.eq_of_toNat_eq
        simp only [BitVec.toNat_setWidth]
        omega
      rw [List.singleton_append, readVarint_inverted, hw, BitVec.not_not]
      rw [BitVec.lt_def, BitVec.toNat_setWidth]
      exact lt_of_le_of_lt (Nat.mod_le _ _) hk
  | case2 value h1 h2 ih =>
      simp [readVarint, ih]
  | case3 value h1 h2 h3 =>
      have hj := ofBytes_toBytes (n := 8) le_rfl value
      simp only [toBytes, Nat.reduceMul, BitVec.ushiftRight_zero] at hj
      simp only [List.cons_append, List.nil_append, readVarint_nine, hj]
  | case4 value h1 h2 h3 h4 =>
      have hj := ofBytes_toBytes_of_lt (n := 4) (small_of_not_gt 32 (by norm_num) h3)
      simp only [toBytes, Nat.reduceMul, BitVec.ushiftRight_zero] at hj
      simp only [List.cons_append, List.nil_append, readVarint_five, hj]
  | case5 value h1 h2 h3 h4 h5 =>
      have hv := small_of_not_gt 28 (by norm_num) h4
      have hj := ofBytes_toBytes_of_lt (n := 4) (lt_trans hv (by norm_num))
      simp only [toBytes, Nat.reduceMul, BitVec.ushiftRight_zero] at hj
      simp only [List.cons_append, List.nil_append,
        readVarint_four (leading_byte_lt 24 4 (by norm_num) hv), hj]
  | case6 value h1 h2 h3 h4 h5 h6 =>
      have hv := small_of_not_gt 21 (by norm_num) h5
      have hj := ofBytes_toBytes_of_lt (n := 3) (lt_trans hv (by norm_num))
      simp only [toBytes, Nat.reduceMul, BitVec.ushiftRight_zero] at hj
      simp only [List.cons_append, List.nil_append,
        readVarint_three (leading_byte_lt 16 5 (by norm_num) hv), hj]
  | case7 value h1 h2 h3 h4 h5 h6 h7 =>
      have hv := small_of_not_gt 14 (by norm_num) h6
      have hj := ofBytes_toBytes_of_lt (n := 2) (lt_trans hv (by norm_num))
      simp only [toBytes, Nat.reduceMul, BitVec.ushiftRight_zero] at hj
      simp only [List.cons_append, List.nil_append,
        readVarint_two (leading_byte_lt 8 6 (by norm_num) hv), hj]
  | case8 value h1 h2 h3 h4 h5 h6 h7 =>
      have hv := small_of_not_gt 7 (by norm_num) h7
      have hj := ofBytes_toBytes_of_lt (n := 1) (lt_trans hv (by norm_num))
      have hb := leading_byte_lt 0 7 (by norm_num) hv
      simp only [toBytes, Nat.reduceMul, BitVec.ushiftRight_zero] at hj hb
      simp only [List.cons_append, List.nil_append, readVarint_one hb, hj]

end Atof.Varint
