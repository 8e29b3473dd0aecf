import Atof.OcbBlocks
import Atof.Crypt

/-!
# Forgeries from one datagram

A forger sees a plaintext, its ciphertext and three bytes of its tag, and no part of
the cipher or the nonce. It forges if what it returns is another ciphertext whose
tag under the same nonce starts with the bytes it returns.

The pad of the last piece is the cipher at the piece's length under its offset,
and a full block under that offset may be equal to a length. Then the ciphertext
of that block is the pad of a shorter buffer, and its tag is the pad of the longer
one, of which as many bytes are known as the last piece has.
-/
namespace Atof.Forgery
open Rust BigEndian Ocb OcbBlocks

/-- The bytes of a tag that are sent. -/
def tagBytes (tag : U128) : Bytes := (toBytes 16 tag).take 3

/-- From the plaintext, the ciphertext and the tag bytes another ciphertext with tag
bytes of its own. -/
abbrev Forger := Bytes → Bytes → Bytes → Bytes × Bytes

/-- The forged buffer is new, fits in memory and passes the comparison. -/
def Forges (aes : Equiv.Perm U128) (nonce : U128) (plain : Bytes) (F : Forger) : Prop :=
  let sent := ocbEncrypt aes nonce plain
  let forged := F plain sent.1 (tagBytes sent.2)
  forged.1 ≠ sent.1 ∧ forged.1.length < 2 ^ 63 ∧
    tagBytes (ocbDecrypt aes nonce forged.1).2 = forged.2

/-- The comparison is the one `decrypt` makes. -/
theorem tagMatches_iff {encodeDst decodeDst : Voice.VoicePacketDst}
    (aes : Crypt.Key → Equiv.Perm U128) (s : Crypt.CryptState encodeDst decodeDst) (nonce : U128)
    (tag body : Bytes) :
    s.tagMatches aes nonce tag body = true ↔
      tagBytes (ocbDecrypt (aes s.key) nonce body).2 = tag := by
  rw [Crypt.CryptState.tagMatches, beq_iff_eq, tagBytes]

/-- The number that a piece's pad is made from. -/
def lenBlock (buf : Bytes) : U128 := BitVec.ofNat 128 (buf.length * 8)

/-- The last whole block is the length of a block in bits, and all tag bytes of the
last piece's pad are known. -/
def Exposed (plain : Bytes) : Prop :=
  ∃ ms last, plain = words (ms ++ [128#128]) ++ last ∧ 3 ≤ last.length ∧ last.length ≤ 16

theorem decryptLast_tag (aes : Equiv.Perm U128) (offset checksum : U128) (buf : Bytes) :
    (decryptLast aes offset checksum buf).2 =
      aes (s2 offset ^^^ s2 (s2 offset) ^^^ (checksum ^^^
        (ofBytes 128 (buf ++ List.replicate (16 - buf.length) 0#8) ^^^
          aes (lenBlock buf ^^^ s2 offset)))) := rfl

/-! ## The forgery -/

theorem exists_enciphers (aes : Equiv.Perm U128) (offset : U128) (ms : List U128) :
    ∃ cs, cs.length = ms.length ∧ Enciphers aes offset ms cs := by
  induction ms generalizing offset with
  | nil => exact ⟨[],rfl,trivial⟩
  | cons m ms ih =>
      obtain ⟨cs,hl,hcs⟩ := ih (s2 offset)
      refine ⟨(s2 offset ^^^ aes (s2 offset ^^^ m)) :: cs,by simp [hl],?_,hcs⟩
      rw [xor_cancel_left]

theorem enciphers_append {aes : Equiv.Perm U128} {offset : U128} {ms ms' cs cs' : List U128}
    (h : Enciphers aes offset ms cs) (h' : Enciphers aes (s2^[ms.length] offset) ms' cs') :
    Enciphers aes offset (ms ++ ms') (cs ++ cs') := by
  induction ms generalizing offset cs with
  | nil =>
      cases cs with
      | nil => exact h'
      | cons c cs => exact h.elim
  | cons m ms ih =>
      cases cs with
      | nil => exact h.elim
      | cons c cs => exact ⟨h.1,ih h.2 h'⟩

/-- The last whole block becomes the last piece, changed so that the tag is the pad
of the old last piece. -/
def splice (ms : List U128) (last : Bytes) : Forger := fun _ cipher _ =>
  let front := cipher.take (16 * ms.length)
  let block := ofBytes 128 ((cipher.drop (16 * ms.length)).take 16)
  let rest := cipher.drop (16 * ms.length + 16)
  (front ++ toBytes 16 (block ^^^ xorAll ms ^^^ lenBlock last),
    List.zipWith (· ^^^ ·) (last.take 3) (rest.take 3))

/-- What the forger reads off a ciphertext. -/
theorem splice_words (ms cs : List U128) (c : U128) (last rest plain tag : Bytes)
    (hcs : cs.length = ms.length) :
    splice ms last plain (words (cs ++ [c]) ++ rest) tag =
      (words cs ++ toBytes 16 (c ^^^ xorAll ms ^^^ lenBlock last),
        List.zipWith (· ^^^ ·) (last.take 3) (rest.take 3)) := by
  have hlen : (words cs).length = 16 * ms.length := by rw [length_words, hcs]
  have hlen' : (words cs ++ toBytes 16 c).length = 16 * ms.length + 16 := by
    rw [List.length_append, hlen, length_toBytes]
  have hsplit : words (cs ++ [c]) ++ rest = words cs ++ (toBytes 16 c ++ rest) := by
    rw [words_append, words_cons, words_nil, List.append_nil, List.append_assoc]
  have hrest : (words (cs ++ [c]) ++ rest).drop (16 * ms.length + 16) = rest := by
    rw [hsplit, ← List.append_assoc, List.drop_left' hlen']
  simp only [splice, hrest]
  rw [hsplit, List.take_left' hlen, List.drop_left' hlen, List.take_left' (length_toBytes 16 c),
    ofBytes_toBytes (by norm_num)]

/-- The known bytes of the last piece give as many bytes of its pad. -/
theorem pad_known {pad : U128} {last : Bytes} (hlast : last.length ≤ 16) (h3 : 3 ≤ last.length) :
    List.zipWith (· ^^^ ·) (last.take 3)
      (((toBytes 16 (pad ^^^ ofBytes 128 (last ++ (toBytes 16 pad).drop last.length))).take
        last.length).take 3) = tagBytes pad := by
  have htake : (last ++ (toBytes 16 pad).drop last.length).take 3 = last.take 3 :=
    List.take_append_of_le_length h3
  have hcancel : ∀ xs ys : Bytes, xs.length = ys.length →
      List.zipWith (· ^^^ ·) xs (List.zipWith (· ^^^ ·) ys xs) = ys := by
    intro xs
    induction xs with
    | nil => intro ys h; simpa using (List.length_eq_zero_iff.mp h.symm).symm
    | cons x xs ih =>
        intro ys h
        cases ys with
        | nil => simp at h
        | cons y ys =>
            rw [List.zipWith_cons_cons, List.zipWith_cons_cons, ih ys (by simpa using h),
              BitVec.xor_comm y, ← BitVec.xor_assoc, BitVec.xor_self, BitVec.zero_xor]
  rw [List.take_take, Nat.min_eq_left h3, toBytes_xor, toBytes_glued hlast, List.take_zipWith, htake]
  refine hcancel _ _ ?_
  rw [List.length_take, List.length_take, length_toBytes]
  omega

theorem forges_splice (aes : Equiv.Perm U128) (nonce : U128) {ms : List U128} {last : Bytes}
    (h3 : 3 ≤ last.length) (hlast : last.length ≤ 16)
    (hm : (words (ms ++ [128#128]) ++ last).length < 2 ^ 63) :
    Forges aes nonce (words (ms ++ [128#128]) ++ last) (splice ms last) := by
  obtain ⟨cs,hcs,hms⟩ := exists_enciphers aes (aes (toBe nonce)) ms
  generalize hd : s2^[ms.length] (aes (toBe nonce)) = d at *
  generalize hc : s2 d ^^^ aes (s2 d ^^^ 128#128) = c
  have hblock : aes (s2 d ^^^ 128#128) = s2 d ^^^ c := by rw [← hc, xor_cancel_left]
  have hall : Enciphers aes (aes (toBe nonce)) (ms ++ [128#128]) (cs ++ [c]) :=
    enciphers_append hms ⟨by rw [hd, hblock],trivial⟩
  have hne : last ≠ [] := fun h => by simp [h] at h3
  generalize hpad : aes (lenBlock last ^^^ s2 (s2 d)) = pad
  have henc := encryptBlocks_words 0 ⟨hlast,fun h => absurd h hne⟩ hall
  have hoffset : s2^[(ms ++ [128#128]).length] (aes (toBe nonce)) = s2 d := by
    rw [List.length_append, List.length_singleton, Function.iterate_succ_apply', hd]
  rw [hoffset] at henc
  have hrest : ∀ checksum, (encryptLast aes (s2 d) checksum last).1 =
      (toBytes 16 (pad ^^^ ofBytes 128 (last ++ (toBytes 16 pad).drop last.length))).take
        last.length := fun _ => by rw [← hpad]; rfl
  -- the length under the offset of the last whole block is that block
  have hdec := decryptBlocks_words 0
    (show Last cs (toBytes 16 (c ^^^ xorAll ms ^^^ lenBlock last)) from
      ⟨by simp,fun h => by simp [toBytes] at h⟩) hms
  rw [hcs, hd] at hdec
  have htag : (decryptLast aes d (0 ^^^ xorAll ms) (toBytes 16 (c ^^^ xorAll ms ^^^ lenBlock last))).2 =
      pad := by
    rw [decryptLast_tag, length_toBytes, Nat.sub_self, List.replicate_zero, List.append_nil,
      ofBytes_toBytes (by norm_num), show lenBlock (toBytes 16 (c ^^^ xorAll ms ^^^ lenBlock last)) =
        128#128 by rw [lenBlock, length_toBytes], BitVec.xor_comm 128#128, hblock, ← hpad]
    congr 1
    simp only [BitVec.xor_assoc, BitVec.xor_comm, xor_left_comm, xor_cancel_left,
      LawfulXor.xor_self, xor_zero, zero_xor]
  simp only [Forges, ocbEncrypt, ocbDecrypt, henc, hrest, splice_words ms cs c last _ _ _ hcs,
    hdec, pad_known hlast h3, htag]
  refine ⟨fun h => ?_,?_,trivial⟩
  · have := congrArg List.length h
    simp [hcs] at this
    omega
  · simp only [List.length_append, length_words, length_toBytes, List.length_singleton] at hm ⊢
    omega

/-- A block that is equal to a length is enough, whatever comes after it. -/
theorem forged_block : ¬ ∀ (plain : Bytes) (F : Forger), plain.length < 2 ^ 63 →
    ¬ ∀ aes nonce, Forges aes nonce plain F := by
  intro h
  refine h (words [128#128] ++ [1,2,3]) (splice [] [1,2,3]) (by decide) fun aes nonce => ?_
  exact forges_splice aes nonce (by decide) (by decide) (by decide)

end Atof.Forgery
