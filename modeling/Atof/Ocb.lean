import Atof.Rust
import Atof.BigEndian
import Mathlib.Logic.Equiv.Basic

/-!
# OCB2 over a block permutation

The block cipher under a fixed key is a permutation of 128-bit words, read as
big-endian blocks. Encryption and decryption are separate loops over the buffer;
both keep an offset and a checksum, and both leave the loop with at most one
block, which takes its own path. The two loops are shown to run in lock step from
any offset and checksum, so the induction needs no property of the nonce.
-/
namespace Atof.Ocb
open Rust BigEndian

def blockSize : ℕ := 16

/-- `u128::to_be` on a little-endian host. -/
def toBe (x : U128) : U128 := ofBytes 128 (toBytes 16 x).reverse

/-- Doubling of an offset. -/
def s2 (block : U128) : U128 :=
  let rot := block.rotateLeft 1
  let carry := rot &&& 1#128
  rot ^^^ carry * 0x86#128

variable (aes : Equiv.Perm U128)

/-- After the loop: the last block is padded with the tail of its own pad. -/
def encryptLast (offset checksum : U128) (buf : Bytes) : Bytes × U128 :=
  let offset := s2 offset
  let len := buf.length
  let pad := aes (BitVec.ofNat 128 (len * 8) ^^^ offset)
  let plain := ofBytes 128 (buf ++ (toBytes 16 pad).drop len)
  let encrypted := pad ^^^ plain
  let checksum := checksum ^^^ plain
  ((toBytes 16 encrypted).take len, aes (offset ^^^ s2 offset ^^^ checksum))

def encryptBlocks (offset checksum : U128) (buf : Bytes) : Bytes × U128 :=
  if buf.length > blockSize then
    let chunk := buf.take blockSize
    let offset := s2 offset
    let plain := ofBytes 128 chunk
    let encrypted := aes (offset ^^^ plain) ^^^ offset
    let r := encryptBlocks offset (checksum ^^^ plain) (buf.drop blockSize)
    (toBytes 16 encrypted ++ r.1, r.2)
  else encryptLast aes offset checksum buf
termination_by buf.length
decreasing_by simp only [List.length_drop, blockSize] at *; omega

/-- The buffer after encryption and the tag. -/
def ocbEncrypt (nonce : U128) (buf : Bytes) : Bytes × U128 :=
  encryptBlocks aes (aes (toBe nonce)) 0 buf

/-- After the loop: the last block is padded with zeros. -/
def decryptLast (offset checksum : U128) (buf : Bytes) : Bytes × U128 :=
  let offset := s2 offset
  let len := buf.length
  let pad := aes (BitVec.ofNat 128 (len * 8) ^^^ offset)
  let plain := ofBytes 128 (buf ++ List.replicate (16 - len) 0#8) ^^^ pad
  let checksum := checksum ^^^ plain
  ((toBytes 16 plain).take len, aes (offset ^^^ s2 offset ^^^ checksum))

def decryptBlocks (offset checksum : U128) (buf : Bytes) : Bytes × U128 :=
  if buf.length > blockSize then
    let chunk := buf.take blockSize
    let offset := s2 offset
    let encrypted := ofBytes 128 chunk
    let plain := aes.symm (offset ^^^ encrypted) ^^^ offset
    let r := decryptBlocks offset (checksum ^^^ plain) (buf.drop blockSize)
    (toBytes 16 plain ++ r.1, r.2)
  else decryptLast aes offset checksum buf
termination_by buf.length
decreasing_by simp only [List.length_drop, blockSize] at *; omega

/-- The buffer after decryption and the tag; the caller compares the tag. -/
def ocbDecrypt (nonce : U128) (buf : Bytes) : Bytes × U128 :=
  decryptBlocks aes (aes (toBe nonce)) 0 buf

/-! ## Decryption inverts encryption -/

theorem length_encryptBlocks (offset checksum : U128) (buf : Bytes) :
    (encryptBlocks aes offset checksum buf).1.length = buf.length := by
  fun_induction encryptBlocks aes offset checksum buf with
  | case1 offset checksum buf h chunk offset' plain encrypted r ih =>
      simp only [List.length_append, length_toBytes, r, ih, List.length_drop]
      simp only [blockSize] at *
      omega
  | case2 offset checksum buf h =>
      simp only [encryptLast, List.length_take, length_toBytes]
      simp only [blockSize] at *
      omega

/-- The block that the last plaintext bytes and the pad's tail make up. -/
theorem toBytes_glued {pad : U128} {buf : Bytes} (h : buf.length ≤ 16) :
    toBytes 16 (ofBytes 128 (buf ++ (toBytes 16 pad).drop buf.length)) =
      buf ++ (toBytes 16 pad).drop buf.length := by
  have hl : (buf ++ (toBytes 16 pad).drop buf.length).length = 16 := by
    simp only [List.length_append, List.length_drop, length_toBytes]
    omega
  have hb := toBytes_ofBytes (w := 128)
    (show 8 * (buf ++ (toBytes 16 pad).drop buf.length).length ≤ 128 by rw [hl])
  rwa [hl] at hb

/-- Padded with zeros, the last ciphertext block is the whole masked block: the
pad's tail cancels against itself. -/
theorem last_block_zeros {pad : U128} {buf : Bytes} (h : buf.length ≤ 16) :
    ofBytes 128 ((toBytes 16 (pad ^^^ ofBytes 128 (buf ++ (toBytes 16 pad).drop buf.length))).take
      buf.length ++ List.replicate (16 - buf.length) 0#8) =
      pad ^^^ ofBytes 128 (buf ++ (toBytes 16 pad).drop buf.length) := by
  generalize hx : pad ^^^ ofBytes 128 (buf ++ (toBytes 16 pad).drop buf.length) = x
  have hdrop : (toBytes 16 x).drop buf.length = List.replicate (16 - buf.length) 0#8 := by
    rw [← hx, toBytes_xor, toBytes_glued h, List.drop_zipWith, List.drop_left, List.zipWith_self]
    simp only [BitVec.xor_self, List.map_const', List.length_drop, length_toBytes]
  rw [← hdrop, List.take_append_drop, ofBytes_toBytes (by norm_num)]

theorem decryptLast_encryptLast (offset checksum : U128) {buf : Bytes} (h : buf.length ≤ 16) :
    decryptLast aes offset checksum (encryptLast aes offset checksum buf).1 =
      (buf, (encryptLast aes offset checksum buf).2) := by
  have hl : (encryptLast aes offset checksum buf).1.length = buf.length := by
    simp [encryptLast, h]
  generalize hpad : aes (BitVec.ofNat 128 (buf.length * 8) ^^^ s2 offset) = pad
  simp only [decryptLast, hl, hpad]
  simp only [encryptLast, hpad]
  rw [last_block_zeros h]
  generalize hp : ofBytes 128 (buf ++ (toBytes 16 pad).drop buf.length) = plain
  have hx : pad ^^^ plain ^^^ pad = plain := by
    rw [BitVec.xor_comm pad, BitVec.xor_assoc, BitVec.xor_self, BitVec.xor_zero]
  rw [hx, ← hp, toBytes_glued h, List.take_left, hp]

/-- Both loops run in lock step from any offset and checksum. -/
theorem decryptBlocks_encryptBlocks (offset checksum : U128) (buf : Bytes) :
    decryptBlocks aes offset checksum (encryptBlocks aes offset checksum buf).1 =
      (buf, (encryptBlocks aes offset checksum buf).2) := by
  fun_induction encryptBlocks aes offset checksum buf with
  | case1 offset checksum buf h chunk offset' plain encrypted r ih =>
      have hr : r.1.length = buf.length - 16 := by
        simp only [r, length_encryptBlocks, List.length_drop, blockSize]
      have hlen : (toBytes 16 encrypted ++ r.1).length > blockSize := by
        simp only [List.length_append, length_toBytes, hr]
        simp only [blockSize] at *
        omega
      have htake : (toBytes 16 encrypted ++ r.1).take blockSize = toBytes 16 encrypted :=
        List.take_left' (length_toBytes 16 encrypted)
      have hdrop : (toBytes 16 encrypted ++ r.1).drop blockSize = r.1 :=
        List.drop_left' (length_toBytes 16 encrypted)
      have hplain : aes.symm (offset' ^^^ encrypted) ^^^ offset' = plain := by
        have hx : offset' ^^^ encrypted = aes (offset' ^^^ plain) := by
          rw [BitVec.xor_comm, BitVec.xor_assoc, BitVec.xor_self, BitVec.xor_zero]
        rw [hx, Equiv.symm_apply_apply, BitVec.xor_comm offset', BitVec.xor_assoc,
          BitVec.xor_self, BitVec.xor_zero]
      have hchunk : toBytes 16 plain = chunk := by
        have hl : chunk.length = 16 := List.length_take_of_le (Nat.le_of_lt h)
        exact hl ▸ toBytes_ofBytes (w := 128) (show 8 * chunk.length ≤ 128 by rw [hl])
      rw [decryptBlocks, if_pos hlen]
      simp only [htake, hdrop, ofBytes_toBytes (w := 128) (n := 16) le_rfl]
      rw [hplain, ih, hchunk, List.take_append_drop]
  | case2 offset checksum buf h =>
      have hl : (encryptLast aes offset checksum buf).1.length = buf.length := by
        have := length_encryptBlocks aes offset checksum buf
        rwa [encryptBlocks, if_neg h] at this
      rw [decryptBlocks, if_neg (by rwa [hl]), decryptLast_encryptLast aes offset checksum]
      exact Nat.le_of_not_lt h

theorem ocbDecrypt_ocbEncrypt (nonce : U128) (buf : Bytes) :
    ocbDecrypt aes nonce (ocbEncrypt aes nonce buf).1 = (buf, (ocbEncrypt aes nonce buf).2) :=
  decryptBlocks_encryptBlocks aes _ 0 buf

/-- Under the nonce it was encrypted with a buffer of any length is restored, the ciphertext is
as long, and the tags agree. -/
theorem ocb_restores (nonce : U128) (buf : Bytes) :
    (ocbDecrypt aes nonce (ocbEncrypt aes nonce buf).1).1 = buf ∧
    (ocbEncrypt aes nonce buf).1.length = buf.length ∧
    (ocbDecrypt aes nonce (ocbEncrypt aes nonce buf).1).2 = (ocbEncrypt aes nonce buf).2 := by
  have hlength := length_encryptBlocks aes (aes (toBe nonce)) 0 buf
  rw [ocbDecrypt, ocbEncrypt, decryptBlocks_encryptBlocks]
  exact ⟨rfl,hlength,rfl⟩

end Atof.Ocb
