import Atof.Ocb
import Mathlib.Data.LawfulXor.Basic

/-!
# The two loops block by block

A buffer is some whole blocks and a last piece of at most one block, empty only if
there are no blocks before it. On the whole blocks both loops do one thing: under
each offset in turn the cipher relates a plaintext block to a ciphertext block.
Given these relations the loops are run through, and what remains is the last
piece under the offset doubled once for each block.
-/
namespace Atof.OcbBlocks
open Rust BigEndian Ocb

/-- Whole blocks, written out. -/
def words (ms : List U128) : Bytes := ms.flatMap (toBytes 16)

@[simp] theorem words_nil : words [] = [] := rfl

@[simp] theorem words_cons (m : U128) (ms : List U128) : words (m :: ms) = toBytes 16 m ++ words ms :=
  rfl

@[simp] theorem length_words (ms : List U128) : (words ms).length = 16 * ms.length := by
  induction ms with
  | nil => rfl
  | cons m ms ih =>
      rw [words_cons, List.length_append, length_toBytes, ih, List.length_cons]
      omega

theorem words_append (ms ns : List U128) : words (ms ++ ns) = words ms ++ words ns :=
  List.flatMap_append

/-- What can follow whole blocks. -/
def Last (ms : List U128) (last : Bytes) : Prop := last.length ≤ 16 ∧ (last = [] → ms = [])

theorem exists_words (buf : Bytes) : ∃ ms last, buf = words ms ++ last ∧ Last ms last := by
  induction h : buf.length using Nat.strong_induction_on generalizing buf with
  | _ n ih =>
      by_cases hn : buf.length ≤ 16
      · exact ⟨[],buf,rfl,hn,fun _ => rfl⟩
      obtain ⟨ms,last,hbuf,hlast⟩ := ih (n - 16) (by omega) (buf.drop 16)
        (by rw [List.length_drop, h])
      have hchunk : toBytes 16 (ofBytes 128 (buf.take 16)) = buf.take 16 := by
        have hl : (buf.take 16).length = 16 := List.length_take_of_le (by omega)
        have hb := toBytes_ofBytes (w := 128) (show 8 * (buf.take 16).length ≤ 128 by rw [hl])
        rwa [hl] at hb
      refine ⟨ofBytes 128 (buf.take 16) :: ms,last,?_,hlast.1,fun hnil => ?_⟩
      · rw [words_cons, hchunk, List.append_assoc, ← hbuf, List.take_append_drop]
      · -- the rest is not empty, so neither is the last piece
        rw [hlast.2 hnil, hnil] at hbuf
        have := congrArg List.length hbuf
        simp only [List.length_drop, words_nil, List.append_nil, List.length_nil] at this
        omega

/-- Exclusive or of blocks. -/
def xorAll (ms : List U128) : U128 := ms.foldr (· ^^^ ·) 0

@[simp] theorem xorAll_nil : xorAll [] = 0 := rfl

@[simp] theorem xorAll_cons (m : U128) (ms : List U128) : xorAll (m :: ms) = m ^^^ xorAll ms := rfl

variable {aes : Equiv.Perm U128}

/-- Under each offset in turn the cipher takes a block of `ms` to one of `cs`. -/
def Enciphers (aes : Equiv.Perm U128) : U128 → List U128 → List U128 → Prop
  | _, [], [] => True
  | offset, m :: ms, c :: cs =>
      aes (s2 offset ^^^ m) = s2 offset ^^^ c ∧ Enciphers aes (s2 offset) ms cs
  | _, _, _ => False

theorem xor_xor_cancel (a b : U128) : a ^^^ b ^^^ a = b := by
  rw [BitVec.xor_comm, xor_cancel_left]

theorem xor_left_comm (a b c : U128) : a ^^^ (b ^^^ c) = b ^^^ (a ^^^ c) := by
  rw [← BitVec.xor_assoc, BitVec.xor_comm a, BitVec.xor_assoc]

theorem chunk_cons (m : U128) (buf : Bytes) : ofBytes 128 ((toBytes 16 m ++ buf).take blockSize) = m := by
  rw [List.take_left' (i := blockSize) (length_toBytes 16 m), ofBytes_toBytes (by norm_num)]

theorem rest_cons (m : U128) (buf : Bytes) : (toBytes 16 m ++ buf).drop blockSize = buf :=
  List.drop_left' (length_toBytes 16 m)

theorem length_cons {m : U128} {ms : List U128} {last : Bytes} (h : Last (m :: ms) last) :
    (toBytes 16 m ++ (words ms ++ last)).length > blockSize := by
  have hne : last ≠ [] := fun hnil => absurd (h.2 hnil) (List.cons_ne_nil m ms)
  have := List.length_pos_of_ne_nil hne
  simp only [List.length_append, length_toBytes, blockSize]
  omega

theorem Last.tail {m : U128} {ms : List U128} {last : Bytes} (h : Last (m :: ms) last) :
    Last ms last := ⟨h.1,fun hnil => absurd (h.2 hnil) (List.cons_ne_nil m ms)⟩

theorem encryptBlocks_words {ms cs : List U128} {offset : U128} (checksum : U128) {last : Bytes}
    (hl : Last ms last) (h : Enciphers aes offset ms cs) :
    encryptBlocks aes offset checksum (words ms ++ last) =
      (words cs ++ (encryptLast aes (s2^[ms.length] offset) (checksum ^^^ xorAll ms) last).1,
        (encryptLast aes (s2^[ms.length] offset) (checksum ^^^ xorAll ms) last).2) := by
  induction ms generalizing cs offset checksum with
  | nil =>
      cases cs with
      | cons c cs => exact h.elim
      | nil =>
          rw [encryptBlocks, if_neg (by simpa [blockSize] using hl.1)]
          simp
  | cons m ms ih =>
      cases cs with
      | nil => exact h.elim
      | cons c cs =>
          obtain ⟨hm,hms⟩ := h
          have hc : aes (s2 offset ^^^ m) ^^^ s2 offset = c := by rw [hm, xor_xor_cancel]
          rw [words_cons, List.append_assoc, encryptBlocks, if_pos (length_cons hl)]
          simp only [chunk_cons, rest_cons, ih _ hl.tail hms, hc, List.length_cons,
            Function.iterate_succ_apply, xorAll_cons, words_cons, List.append_assoc,
            BitVec.xor_assoc]

theorem decryptBlocks_words {ms cs : List U128} {offset : U128} (checksum : U128) {last : Bytes}
    (hl : Last cs last) (h : Enciphers aes offset ms cs) :
    decryptBlocks aes offset checksum (words cs ++ last) =
      (words ms ++ (decryptLast aes (s2^[cs.length] offset) (checksum ^^^ xorAll ms) last).1,
        (decryptLast aes (s2^[cs.length] offset) (checksum ^^^ xorAll ms) last).2) := by
  induction cs generalizing ms offset checksum with
  | nil =>
      cases ms with
      | cons m ms => exact h.elim
      | nil =>
          rw [decryptBlocks, if_neg (by simpa [blockSize] using hl.1)]
          simp
  | cons c cs ih =>
      cases ms with
      | nil => exact h.elim
      | cons m ms =>
          obtain ⟨hm,hms⟩ := h
          have hplain : aes.symm (s2 offset ^^^ c) ^^^ s2 offset = m := by
            rw [← hm, Equiv.symm_apply_apply, xor_xor_cancel]
          rw [words_cons, List.append_assoc, decryptBlocks, if_pos (length_cons hl)]
          simp only [chunk_cons, rest_cons, ih _ hl.tail hms, hplain, List.length_cons,
            Function.iterate_succ_apply, xorAll_cons, words_cons, List.append_assoc,
            BitVec.xor_assoc]

end Atof.OcbBlocks
