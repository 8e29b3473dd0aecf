import Atof.VarintGrammar

/-!
# The shortest forms of variable-length integers

A value has many forms. The writer tests the top bit first and inverts whenever it is set, so a
value whose inverse does not fit in a word gets ten bytes where nine are enough. In every other
case no form is shorter than what is written.
-/
namespace Atof.Varint
open Rust BigEndian

/-- How long a value is without inversion. -/
def plainLength (value : U64) : ℕ :=
  if value.toNat < 2 ^ 7 then 1
  else if value.toNat < 2 ^ 14 then 2
  else if value.toNat < 2 ^ 21 then 3
  else if value.toNat < 2 ^ 28 then 4
  else if value.toNat < 2 ^ 32 then 5
  else 9

/-- The length of the shortest form. -/
def leastLength (value : U64) : ℕ :=
  if (~~~value).toNat < 4 then 1 else min (plainLength value) (plainLength (~~~value) + 1)

/-- The writer inverts, and then needs a double word. -/
def Wide (value : U64) : Prop := 2 ^ 63 ≤ value.toNat ∧ 2 ^ 32 ≤ (~~~value).toNat

instance (value : U64) : Decidable (Wide value) := inferInstanceAs (Decidable (_ ∧ _))

/-! ## No form is shorter -/

theorem toNat_ofBytes_cons_lt {b : U8} {bs : Bytes} {k : ℕ} (hb : b.toNat < 2 ^ k) :
    (ofBytes 64 (b :: bs)).toNat < 2 ^ (8 * bs.length + k) := by
  apply Nat.lt_pow_two_of_testBit
  intro i hi
  by_cases h64 : i < 64
  · have hbit := getLsbD_ofBytes_cons (w := 64) b bs i h64
    rw [if_neg (by omega)] at hbit
    refine hbit.trans (Nat.testBit_lt_two_pow (hb.trans_le ?_))
    exact Nat.pow_le_pow_right (by decide) (by omega)
  · exact BitVec.getLsbD_of_ge _ _ (by omega)

theorem toNat_ofBytes_lt (bs : Bytes) : (ofBytes 64 bs).toNat < 2 ^ (8 * bs.length) := by
  apply Nat.lt_pow_two_of_testBit
  exact fun i hi => getLsbD_ofBytes_of_le bs hi

theorem and_toNat_lt {b mask : U8} {k : ℕ} (h : mask.toNat < 2 ^ k) : (b &&& mask).toNat < 2 ^ k :=
  (BitVec.toNat_and b mask ▸ Nat.and_le_right).trans_lt h

theorem plainLength_pos (value : U64) : 1 ≤ plainLength value := by
  unfold plainLength
  split_ifs <;> decide

theorem leastLength_le_plain (value : U64) : leastLength value ≤ plainLength value := by
  have hpos := plainLength_pos value
  unfold leastLength
  split_ifs
  · exact hpos
  · exact min_le_left ..

/-- One more inversion costs a byte. -/
theorem leastLength_not (value : U64) : leastLength (~~~value) ≤ leastLength value + 1 := by
  have hpos := plainLength_pos value
  have hnot : (~~~value).toNat < 4 → plainLength (~~~value) = 1 := fun h =>
    if_pos (h.trans (by decide))
  unfold leastLength
  rw [BitVec.not_not]
  split_ifs <;> omega

theorem plainLength_le (value : U64) :
    (value.toNat < 2 ^ 7 → plainLength value ≤ 1) ∧ (value.toNat < 2 ^ 14 → plainLength value ≤ 2) ∧
    (value.toNat < 2 ^ 21 → plainLength value ≤ 3) ∧ (value.toNat < 2 ^ 28 → plainLength value ≤ 4) ∧
    (value.toNat < 2 ^ 32 → plainLength value ≤ 5) ∧ plainLength value ≤ 9 := by
  unfold plainLength
  split_ifs <;> omega

theorem toNat_small_lead : ∀ b : U8, b &&& 0b10000000#8 = 0#8 → b.toNat < 2 ^ 7 := by decide

theorem IsVarint.leastLength_le {bs : Bytes} {value : U64} (h : IsVarint bs value) :
    leastLength value ≤ bs.length := by
  induction h with
  | @one b0 lead =>
      exact (leastLength_le_plain _).trans
        ((plainLength_le _).1 (toNat_ofBytes_cons_lt (toNat_small_lead b0 lead)))
  | two lead =>
      exact (leastLength_le_plain _).trans
        ((plainLength_le _).2.1 (toNat_ofBytes_cons_lt (k := 6) (and_toNat_lt (by decide))))
  | three lead =>
      exact (leastLength_le_plain _).trans
        ((plainLength_le _).2.2.1 (toNat_ofBytes_cons_lt (k := 5) (and_toNat_lt (by decide))))
  | four lead =>
      exact (leastLength_le_plain _).trans
        ((plainLength_le _).2.2.2.1 (toNat_ofBytes_cons_lt (k := 4) (and_toNat_lt (by decide))))
  | @word b0 bs lead whole =>
      have hbits := toNat_ofBytes_lt bs
      rw [whole] at hbits
      rw [List.length_cons, whole]
      exact (leastLength_le_plain _).trans ((plainLength_le _).2.2.2.2.1 hbits)
  | long lead whole =>
      rw [List.length_cons, whole]
      exact (leastLength_le_plain _).trans (plainLength_le _).2.2.2.2.2
  | inverted lead inner ih =>
      rw [List.length_cons]
      exact (leastLength_not _).trans (Nat.add_le_add_right ih 1)
  | @small b0 lead =>
      have hbits : (ofBytes 64 [b0 &&& 0b00000011#8]).toNat < 4 :=
        toNat_ofBytes_cons_lt (k := 2) (and_toNat_lt (by decide))
      rw [leastLength, BitVec.not_not, if_pos hbits]
      exact le_rfl

/-! ## What is written -/

theorem length_writeVarint_plain {value : U64} (h : value.toNat < 2 ^ 63) :
    (writeVarint value).length = plainLength value := by
  have htop : ¬ value &&& 0x8000000000000000#64 = 0x8000000000000000#64 := by
    rw [and_top_eq]
    omega
  have hlow : ¬ value &&& 0xfffffffffffffffc#64 = 0xfffffffffffffffc#64 := by
    rw [and_low_clear_eq, BitVec.toNat_not]
    omega
  rw [writeVarint, if_neg hlow, if_neg htop, plainLength]
  simp only [gt_iff_lt, BitVec.lt_def, BitVec.toNat_ofNat]
  split_ifs <;> first | rfl | omega

/-- The writer's form is a byte longer than the shortest where it is wide, and a shortest
elsewhere. -/
theorem length_writeVarint (value : U64) :
    (writeVarint value).length = leastLength value + if Wide value then 1 else 0 := by
  have hnot := BitVec.toNat_not (x := value)
  by_cases hlow : (~~~value).toNat < 4
  · have hwide : ¬ Wide value := fun hw => by have := hw.2; omega
    rw [writeVarint, if_pos ((and_low_clear_eq value).mpr hlow), leastLength, if_pos hlow,
      if_neg hwide]
    rfl
  by_cases htop : value.toNat < 2 ^ 63
  · have hwide : ¬ Wide value := fun hw => by have := hw.1; omega
    have hinverse : plainLength (~~~value) = 9 := by
      unfold plainLength
      split_ifs <;> omega
    have hle : plainLength value ≤ 10 := (plainLength_le _).2.2.2.2.2.trans (by decide)
    rw [length_writeVarint_plain htop, leastLength, if_neg hlow, if_neg hwide, hinverse,
      min_eq_left hle]
    rfl
  · have hinner : (~~~value).toNat < 2 ^ 63 := by omega
    have hplain : plainLength value = 9 := by
      unfold plainLength
      split_ifs <;> omega
    have hwritten : (writeVarint value).length = plainLength (~~~value) + 1 := by
      rw [writeVarint, if_neg (mt (and_low_clear_eq value).mp hlow),
        if_pos ((and_top_eq value).mpr (not_lt.mp htop)), List.length_cons,
        length_writeVarint_plain hinner]
    rw [hwritten, leastLength, if_neg hlow, hplain]
    by_cases hwide : 2 ^ 32 ≤ (~~~value).toNat
    · have hinverse : plainLength (~~~value) = 9 := by
        unfold plainLength
        split_ifs <;> omega
      rw [if_pos (show Wide value from ⟨not_lt.mp htop,hwide⟩), hinverse]
      rfl
    · have hinverse := (plainLength_le (~~~value)).2.2.2.2.1 (not_le.mp hwide)
      rw [if_neg (show ¬ Wide value from fun hw => hwide hw.2), min_eq_right (by omega)]

/-- What is written is a shortest form that is read as the value; only where it is wide, one
byte more than that. -/
theorem writeVarint_shortest (value : U64) :
    (∀ bs, readVarint bs = .ok (value,[]) →
      (writeVarint value).length ≤ bs.length + if Wide value then 1 else 0) ∧
    (Wide value → ∃ bs, readVarint bs = .ok (value,[]) ∧ bs.length + 1 = (writeVarint value).length) := by
  constructor
  · intro bs h
    obtain ⟨form,rfl,hform⟩ := read_iff_isVarint.mp h
    rw [length_writeVarint, List.append_nil]
    exact Nat.add_le_add_right hform.leastLength_le _
  · intro hwide
    obtain ⟨htop,hinner⟩ := hwide
    have hplain : plainLength value = 9 := by
      unfold plainLength
      split_ifs <;> omega
    have hinverse : plainLength (~~~value) = 9 := by
      unfold plainLength
      split_ifs <;> omega
    have hlow : ¬ (~~~value).toNat < 4 := by omega
    have hform : IsVarint (0b11110100#8 :: toBytes 8 value) value := by
      have h := @IsVarint.long 0b11110100#8 _ (by decide) (length_toBytes 8 value)
      rwa [ofBytes_toBytes (by decide)] at h
    refine ⟨_,read_iff_isVarint.mpr ⟨_,(List.append_nil _).symm,hform⟩,?_⟩
    rw [length_writeVarint, if_pos ⟨htop,hinner⟩, leastLength, if_neg hlow, hplain, hinverse,
      List.length_cons, length_toBytes]
    rfl

end Atof.Varint
