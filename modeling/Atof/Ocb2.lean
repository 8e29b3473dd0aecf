import Atof.Doubling
import Atof.Gf2
import Atof.OcbBlocks

/-!
# The mode as it is defined

OCB2 masks the blocks with multiples of the encrypted nonce in the field with `2 ^ 128`
elements, where doubling is multiplication by `x`. The definition names each multiple
by its exponent, and the tag is over the last ciphertext block padded with zeros and
the pad. The loop carries one offset, which it doubles by a rotation, and a checksum,
into which the last block goes with the pad's tail.
-/
namespace Atof.Ocb2
open Rust BigEndian Ocb Doubling OcbBlocks Gf2 Polynomial

/-- `2 ^ i * d` modulo `x ^ 128 + x ^ 7 + x ^ 2 + x + 1`. -/
noncomputable def times (i : ℕ) (d : U128) : U128 :=
  word 128 ((X ^ i * poly d) %ₘ (X ^ 128 + X ^ 7 + X ^ 2 + X + 1))

def littleEndian (x : U128) : Bytes := (List.range 16).map fun i => (x >>> (8 * i)).setWidth 8

section
variable (E : U128 → U128)

/-- The pad of the last block, the `m`-th. -/
noncomputable def pad (d : U128) (m : ℕ) (last : Bytes) : U128 :=
  E (BitVec.ofNat 128 (8 * last.length) ^^^ times m d)

noncomputable def cipherBlocks (d : U128) (ms : List U128) : List U128 :=
  ms.mapIdx fun i m => times (i + 1) d ^^^ E (m ^^^ times (i + 1) d)

noncomputable def cipherLast (d : U128) (m : ℕ) (last : Bytes) : Bytes :=
  List.zipWith (· ^^^ ·) last ((toBytes 16 (pad E d m last)).take last.length)

noncomputable def tag (d : U128) (ms : List U128) (last : Bytes) : U128 :=
  let m := ms.length + 1
  let padded := cipherLast E d m last ++ List.replicate (16 - last.length) 0#8
  E ((times m d ^^^ times (m + 1) d) ^^^ xorAll ms ^^^ ofBytes 128 padded ^^^ pad E d m last)

/-- What encryption writes, and the tag, for the whole blocks `ms` and the last block. -/
noncomputable def ocb2 (nonce : U128) (ms : List U128) (last : Bytes) : Bytes × U128 :=
  let d := E nonce
  (words (cipherBlocks E d ms) ++ cipherLast E d (ms.length + 1) last,tag E d ms last)

end

/-! ## Doubling -/

theorem modulus_eq : modulus 0x87#128 = X ^ 128 + X ^ 7 + X ^ 2 + X + 1 := by
  have hbits : 0x87#128 = BitVec.twoPow 128 7 ^^^ BitVec.twoPow 128 2 ^^^ BitVec.twoPow 128 1 ^^^
      BitVec.twoPow 128 0 := by decide
  rw [modulus, hbits, poly_xor, poly_xor, poly_xor, poly_twoPow (by norm_num),
    poly_twoPow (by norm_num), poly_twoPow (by norm_num), poly_twoPow (by norm_num)]
  ring

theorem s2_eq_timesX (d : U128) : s2 d = timesX 0x87#128 d := by
  rw [s2_eq_shift, timesX, BitVec.msb_eq_getLsbD_last]
  rfl

theorem times_eq_iterate (i : ℕ) (d : U128) : times i d = s2^[i] d := by
  rw [times, ← modulus_eq, word_X_pow_mul, funext s2_eq_timesX]

theorem times_zero (d : U128) : times 0 d = d := times_eq_iterate 0 d

theorem times_succ (i : ℕ) (d : U128) : times (i + 1) d = times i (s2 d) := by
  rw [times_eq_iterate, times_eq_iterate, Function.iterate_succ_apply]

theorem littleEndian_eq (x : U128) : littleEndian x = (toBytes 16 x).reverse := by
  simp [littleEndian, toBytes, List.range_succ]

/-! ## Encryption -/

variable {aes : Equiv.Perm U128}

theorem cipherBlocks_cons (E : U128 → U128) (d m : U128) (ms : List U128) :
    cipherBlocks E d (m :: ms) = (s2 d ^^^ E (m ^^^ s2 d)) :: cipherBlocks E (s2 d) ms := by
  simp only [cipherBlocks, List.mapIdx_cons, times_succ, times_zero]

/-- The offset is doubled before each block. -/
theorem enciphers_cipherBlocks (ms : List U128) (d : U128) :
    Enciphers aes d ms (cipherBlocks aes d ms) := by
  induction ms generalizing d with
  | nil => trivial
  | cons m ms ih =>
      rw [cipherBlocks_cons]
      refine ⟨?_,ih (s2 d)⟩
      rw [xor_cancel_left, BitVec.xor_comm]

/-- The last block on its own: what the pad's tail is glued to is the pad against the
ciphertext padded with zeros. -/
theorem encryptLast_eq {d checksum : U128} {m : ℕ} {last : Bytes} (h : last.length ≤ 16) :
    encryptLast aes (s2^[m] d) checksum last = (cipherLast aes d (m + 1) last,
      aes (times (m + 1) d ^^^ times (m + 2) d ^^^ (checksum ^^^ (ofBytes 128
        (cipherLast aes d (m + 1) last ++ List.replicate (16 - last.length) 0#8) ^^^
          pad aes d (m + 1) last)))) := by
  have hpad : aes (BitVec.ofNat 128 (last.length * 8) ^^^ s2 (s2^[m] d)) = pad aes d (m + 1) last := by
    rw [pad, times_eq_iterate, Function.iterate_succ_apply', Nat.mul_comm]
  simp only [encryptLast, hpad]
  generalize hp : pad aes d (m + 1) last = p
  have hlast : (toBytes 16 (p ^^^ ofBytes 128 (last ++ (toBytes 16 p).drop last.length))).take
      last.length = cipherLast aes d (m + 1) last := by
    rw [cipherLast, hp, toBytes_xor, toBytes_glued h, List.take_zipWith, List.take_left]
    exact List.zipWith_comm_of_comm fun x y => BitVec.xor_comm x y
  rw [← hlast, last_block_zeros h, xor_xor_cancel]
  simp only [times_eq_iterate, Function.iterate_succ_apply']

/-- A plaintext is `ms`, and then `last`, which is empty only if all of it is. -/
def Splits (buf : Bytes) (ms : List U128) (last : Bytes) : Prop :=
  buf = words ms ++ last ∧ Last ms last

/-- Every plaintext is split, and however it is, encryption is the mode as defined, under the
nonce as a little-endian byte string. -/
theorem ocbEncrypt_eq_ocb2 (aes : Equiv.Perm U128) (nonce : U128) (buf : Bytes) :
    (∃ ms last, Splits buf ms last) ∧ ∀ ms last, Splits buf ms last →
      ocbEncrypt aes nonce buf = ocb2 aes (ofBytes 128 (littleEndian nonce)) ms last := by
  refine ⟨exists_words buf,?_⟩
  rintro ms last ⟨rfl,hl⟩
  have hnonce : aes (toBe nonce) = aes (ofBytes 128 (littleEndian nonce)) := by
    rw [littleEndian_eq, toBe]
  have hzero (x : U128) : 0 ^^^ x = x := BitVec.zero_xor
  rw [ocbEncrypt, hnonce, encryptBlocks_words 0 hl (enciphers_cipherBlocks ms _),
    encryptLast_eq hl.1, ocb2, tag]
  simp only [BitVec.xor_assoc, hzero]

end Atof.Ocb2
