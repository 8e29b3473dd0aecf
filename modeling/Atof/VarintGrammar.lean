import Atof.Varint

/-!
# The grammar of variable-length integers

The leading bits say how long an integer is, or that another one follows which is
to be inverted. The reader accepts the byte strings that start so and no others;
many are longer than what the writer would have written for the value, and one form
is shorter.
-/
namespace Atof.Varint
open Rust BigEndian

/-- The complete integers with their values, by the leading bits. -/
inductive IsVarint : Bytes → U64 → Prop
  | one {b0 : U8} (lead : b0 &&& 0b10000000#8 = 0#8) : IsVarint [b0] (ofBytes 64 [b0])
  | two {b0 b1 : U8} (lead : b0 &&& 0b11000000#8 = 0b10000000#8) :
      IsVarint [b0,b1] (ofBytes 64 [b0 &&& 0b00111111#8,b1])
  | three {b0 b1 b2 : U8} (lead : b0 &&& 0b11100000#8 = 0b11000000#8) :
      IsVarint [b0,b1,b2] (ofBytes 64 [b0 &&& 0b00011111#8,b1,b2])
  | four {b0 b1 b2 b3 : U8} (lead : b0 &&& 0b11110000#8 = 0b11100000#8) :
      IsVarint [b0,b1,b2,b3] (ofBytes 64 [b0 &&& 0b00001111#8,b1,b2,b3])
  | word {b0 : U8} {bs : Bytes} (lead : b0 &&& 0b11111100#8 = 0b11110000#8)
      (whole : bs.length = 4) : IsVarint (b0 :: bs) (ofBytes 64 bs)
  | long {b0 : U8} {bs : Bytes} (lead : b0 &&& 0b11111100#8 = 0b11110100#8)
      (whole : bs.length = 8) : IsVarint (b0 :: bs) (ofBytes 64 bs)
  | inverted {b0 : U8} {bs : Bytes} {value : U64} (lead : b0 &&& 0b11111100#8 = 0b11111000#8)
      (inner : IsVarint bs value) : IsVarint (b0 :: bs) (~~~value)
  | small {b0 : U8} (lead : b0 &&& 0b11111100#8 = 0b11111100#8) :
      IsVarint [b0] (~~~ofBytes 64 [b0 &&& 0b00000011#8])

/-- The reader's tests on the leading bits of the two widest forms. -/
theorem tests_wide : ∀ b0 : U8,
    b0 &&& 0b11111100#8 = 0b11110000#8 ∨ b0 &&& 0b11111100#8 = 0b11110100#8 →
      b0 &&& 0b11111100#8 ≠ 0b11111000#8 ∧ b0 &&& 0b11111100#8 ≠ 0b11111100#8 ∧
      b0 &&& 0b10000000#8 ≠ 0#8 ∧ b0 &&& 0b01000000#8 ≠ 0#8 ∧ b0 &&& 0b00100000#8 ≠ 0#8 ∧
      b0 &&& 0b00010000#8 ≠ 0#8 ∧
      (b0 &&& 0b00000100#8 = 0#8 ↔ b0 &&& 0b11111100#8 = 0b11110000#8) := by decide

theorem readVarint_word {b0 : U8} (lead : b0 &&& 0b11111100#8 = 0b11110000#8) (b1 b2 b3 b4 : U8)
    (rest : Bytes) :
    readVarint (b0 :: b1 :: b2 :: b3 :: b4 :: rest) = .ok (ofBytes 64 [b1,b2,b3,b4],rest) := by
  obtain ⟨t1,t2,t3,t4,t5,t6,t7⟩ := tests_wide b0 (Or.inl lead)
  simp only [readVarint, readU8, if_neg t1, if_neg t2, if_neg t3, if_neg t4, if_neg t5, if_neg t6,
    if_pos (t7.mpr lead), bind, Except.bind]
  simp [ofBytes, pure, Except.pure, BitVec.or_assoc]

theorem readVarint_long {b0 : U8} (lead : b0 &&& 0b11111100#8 = 0b11110100#8)
    (b1 b2 b3 b4 b5 b6 b7 b8 : U8) (rest : Bytes) :
    readVarint (b0 :: b1 :: b2 :: b3 :: b4 :: b5 :: b6 :: b7 :: b8 :: rest) =
      .ok (ofBytes 64 [b1,b2,b3,b4,b5,b6,b7,b8],rest) := by
  obtain ⟨t1,t2,t3,t4,t5,t6,t7⟩ := tests_wide b0 (Or.inr lead)
  have t7 := mt t7.mp (by rw [lead]; decide)
  simp only [readVarint, readU8, if_neg t1, if_neg t2, if_neg t3, if_neg t4, if_neg t5, if_neg t6,
    if_neg t7, bind, Except.bind]
  simp [ofBytes, pure, Except.pure, BitVec.or_assoc]

/-- The leading bits and the bits below them. -/
theorem lead_bits : ∀ b0 : U8,
    (b0 &&& 0b10000000#8 = 0#8 → b0 < 128#8) ∧
    (b0 &&& 0b11000000#8 = 0b10000000#8 →
      b0 &&& 0b00111111#8 < 64#8 ∧ 0b10000000#8 ||| b0 &&& 0b00111111#8 = b0) ∧
    (b0 &&& 0b11100000#8 = 0b11000000#8 →
      b0 &&& 0b00011111#8 < 32#8 ∧ 0b11000000#8 ||| b0 &&& 0b00011111#8 = b0) ∧
    (b0 &&& 0b11110000#8 = 0b11100000#8 →
      b0 &&& 0b00001111#8 < 16#8 ∧ 0b11100000#8 ||| b0 &&& 0b00001111#8 = b0) ∧
    (b0 &&& 0b11111100#8 = 0b11111100#8 →
      b0 &&& 0b00000011#8 < 4#8 ∧ 0b11111100#8 ||| b0 &&& 0b00000011#8 = b0) := by decide

theorem ofBytes_single (b : U8) : ofBytes 64 [b] = b.setWidth 64 := by simp [ofBytes]

/-- A complete integer is read off, whatever follows. -/
theorem IsVarint.read {bs : Bytes} {value : U64} (h : IsVarint bs value) (rest : Bytes) :
    readVarint (bs ++ rest) = .ok (value,rest) := by
  induction h with
  | @one b0 lead => exact readVarint_one ((lead_bits b0).1 lead) rest
  | @two b0 b1 lead =>
      obtain ⟨hk,hb⟩ := (lead_bits b0).2.1 lead
      have h := readVarint_two hk b1 rest
      rwa [hb] at h
  | @three b0 b1 b2 lead =>
      obtain ⟨hk,hb⟩ := (lead_bits b0).2.2.1 lead
      have h := readVarint_three hk b1 b2 rest
      rwa [hb] at h
  | @four b0 b1 b2 b3 lead =>
      obtain ⟨hk,hb⟩ := (lead_bits b0).2.2.2.1 lead
      have h := readVarint_four hk b1 b2 b3 rest
      rwa [hb] at h
  | @word b0 bs lead whole =>
      match bs, whole with
      | [b1,b2,b3,b4], _ => exact readVarint_word lead b1 b2 b3 b4 rest
  | @long b0 bs lead whole =>
      match bs, whole with
      | [b1,b2,b3,b4,b5,b6,b7,b8], _ => exact readVarint_long lead b1 b2 b3 b4 b5 b6 b7 b8 rest
  | @inverted b0 bs value lead inner ih =>
      rw [List.cons_append, readVarint, if_pos lead, ih]
      rfl
  | @small b0 lead =>
      obtain ⟨hk,hb⟩ := (lead_bits b0).2.2.2.2 lead
      have h := readVarint_inverted hk rest
      rwa [hb, ← ofBytes_single] at h

theorem readU8_bind {α : Type} {buf : Bytes} {f : U8 × Bytes → Io α} {r : α} :
    (readU8 buf >>= f) = .ok r ↔ ∃ b rest, buf = b :: rest ∧ f (b,rest) = .ok r := by
  cases buf with
  | nil => simp [readU8, bind, Except.bind]
  | cons b buf => simp [readU8, bind, Except.bind]

/-- One test of the reader, and the byte it reads if there is more to come. -/
theorem ite_readU8_bind {α : Type} {c : Prop} [Decidable c] {buf : Bytes} {stop : Io α}
    {f : U8 × Bytes → Io α} {r : α} : (if c then stop else readU8 buf >>= f) = .ok r ↔
      (c ∧ stop = .ok r) ∨ (¬ c ∧ ∃ b rest, buf = b :: rest ∧ f (b,rest) = .ok r) := by
  split
  · next h => simp only [h, true_and, not_true_eq_false, false_and, or_false]
  · next h => simp only [h, false_and, not_false_eq_true, true_and, false_or, readU8_bind]

/-- The reader's tests, one after another, leave these leading bits. -/
theorem tests_lead : ∀ b0 : U8, b0 &&& 0b11111100#8 ≠ 0b11111000#8 →
    b0 &&& 0b11111100#8 ≠ 0b11111100#8 → b0 &&& 0b10000000#8 ≠ 0#8 →
    (b0 &&& 0b01000000#8 = 0#8 → b0 &&& 0b11000000#8 = 0b10000000#8) ∧
    (b0 &&& 0b01000000#8 ≠ 0#8 →
      (b0 &&& 0b00100000#8 = 0#8 → b0 &&& 0b11100000#8 = 0b11000000#8) ∧
      (b0 &&& 0b00100000#8 ≠ 0#8 →
        (b0 &&& 0b00010000#8 = 0#8 → b0 &&& 0b11110000#8 = 0b11100000#8) ∧
        (b0 &&& 0b00010000#8 ≠ 0#8 →
          (b0 &&& 0b00000100#8 = 0#8 → b0 &&& 0b11111100#8 = 0b11110000#8) ∧
          (b0 &&& 0b00000100#8 ≠ 0#8 → b0 &&& 0b11111100#8 = 0b11110100#8)))) := by decide

/-- Where the rest is known, forward reading gives the value. -/
theorem isVarint_of_shape {bs buf rest : Bytes} {value v : U64}
    (h : readVarint buf = .ok (value,rest)) (hbuf : buf = bs ++ rest) (hv : IsVarint bs v) :
    ∃ bs, buf = bs ++ rest ∧ IsVarint bs value := by
  have hr := hv.read rest
  rw [← hbuf, h] at hr
  cases hr
  exact ⟨bs,hbuf,hv⟩

/-- Whatever the reader reads is a complete integer. -/
theorem isVarint_of_read {buf rest : Bytes} {value : U64}
    (h : readVarint buf = .ok (value,rest)) : ∃ bs, buf = bs ++ rest ∧ IsVarint bs value := by
  induction buf generalizing value with
  | nil => cases h
  | cons b0 buf ih =>
      have hread := h
      by_cases t1 : b0 &&& 0b11111100#8 = 0b11111000#8
      · rw [readVarint, if_pos t1] at h
        obtain ⟨⟨v,rest'⟩,hv,h⟩ := bind_eq_ok.mp h
        cases h
        obtain ⟨bs,rfl,hbs⟩ := ih hv
        exact ⟨b0 :: bs,rfl,.inverted t1 hbs⟩
      by_cases t2 : b0 &&& 0b11111100#8 = 0b11111100#8
      · rw [readVarint, if_neg t1, if_pos t2] at h
        cases h
        exact isVarint_of_shape hread rfl (.small t2)
      by_cases t3 : b0 &&& 0b10000000#8 = 0#8
      · rw [readVarint, if_neg t1, if_neg t2, if_pos t3] at h
        cases h
        exact isVarint_of_shape hread rfl (.one t3)
      obtain ⟨l2,l3⟩ := tests_lead b0 t1 t2 t3
      rw [readVarint, if_neg t1, if_neg t2, if_neg t3] at h
      obtain ⟨b1,r1,rfl,h1⟩ := readU8_bind.mp h
      rcases ite_readU8_bind.mp h1 with ⟨t4,h2⟩ | ⟨t4,b2,r2,rfl,h2⟩
      · cases h2
        exact isVarint_of_shape hread rfl (.two (l2 t4))
      obtain ⟨l3,l4⟩ := l3 t4
      rcases ite_readU8_bind.mp h2 with ⟨t5,h3⟩ | ⟨t5,b3,r3,rfl,h3⟩
      · cases h3
        exact isVarint_of_shape hread rfl (.three (l3 t5))
      obtain ⟨l4,l5⟩ := l4 t5
      rcases ite_readU8_bind.mp h3 with ⟨t6,h4⟩ | ⟨t6,b4,r4,rfl,h4⟩
      · cases h4
        exact isVarint_of_shape hread rfl (.four (l4 t6))
      obtain ⟨l5,l9⟩ := l5 t6
      rcases ite_readU8_bind.mp h4 with ⟨t7,h5⟩ | ⟨t7,b5,r5,rfl,h5⟩
      · cases h5
        exact isVarint_of_shape hread rfl (@IsVarint.word b0 [b1,b2,b3,b4] (l5 t7) rfl)
      obtain ⟨b6,r6,rfl,h6⟩ := readU8_bind.mp h5
      obtain ⟨b7,r7,rfl,h7⟩ := readU8_bind.mp h6
      obtain ⟨b8,r8,rfl,h8⟩ := readU8_bind.mp h7
      cases h8
      exact isVarint_of_shape hread rfl (@IsVarint.long b0 [b1,b2,b3,b4,b5,b6,b7,b8] (l9 t7) rfl)

theorem read_iff_isVarint {buf rest : Bytes} {value : U64} :
    readVarint buf = .ok (value,rest) ↔ ∃ bs, buf = bs ++ rest ∧ IsVarint bs value :=
  ⟨isVarint_of_read,fun ⟨_,hbuf,h⟩ => hbuf ▸ h.read rest⟩

theorem isVarint_writeVarint (value : U64) : IsVarint (writeVarint value) value := by
  obtain ⟨bs,hbs,h⟩ := isVarint_of_read (readVarint_writeVarint value [])
  rwa [List.append_cancel_right hbs]

/-- An integer ends where it ends. -/
theorem IsVarint.unique {bs bs' rest rest' : Bytes} {v v' : U64} (h : IsVarint bs v)
    (h' : IsVarint bs' v') (heq : bs ++ rest = bs' ++ rest') : bs = bs' ∧ v = v' ∧ rest = rest' := by
  have hr := h.read rest
  rw [heq, h'.read rest'] at hr
  cases hr
  exact ⟨List.append_cancel_right heq,rfl,rfl⟩

end Atof.Varint
