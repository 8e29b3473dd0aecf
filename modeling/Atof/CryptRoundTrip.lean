import Atof.Crypt
import Atof.VoiceRoundTrip

/-!
# Encrypted round trip

A sealed packet is four header bytes and the ciphertext. The receiver recovers
the sender's nonce when the two differ by what a signed byte can say; the tag
then matches and the packet inside is decoded. Which nonce it keeps depends on
whether the sender is ahead.
-/
namespace Atof.CryptRoundTrip
open Rust BigEndian Voice Ocb Crypt CryptState

/-- The datagram for a packet under a nonce. -/
def sealed {dst : VoicePacketDst} (aes : Equiv.Perm U128) (nonce : U128)
    (packet : VoicePacket dst) : Bytes :=
  let r := ocbEncrypt aes nonce (encode packet [])
  nonce.setWidth 8 :: (toBytes 16 r.2).take 3 ++ r.1

variable {encodeDst decodeDst dst : VoicePacketDst} {aes : Key → Equiv.Perm U128}

/-- `encrypt` panics on no buffer, whatever is in it. -/
theorem encrypt_eq (s : CryptState encodeDst decodeDst) (packet : VoicePacket encodeDst)
    (buf : Bytes) : encrypt aes s packet buf =
      .ok ({ s with encryptNonce := s.encryptNonce + 1 },
        sealed (aes s.key) (s.encryptNonce + 1) packet) := by
  have hlen := BytesMut.length_resize buf 4 0
  have hsplit : BytesMut.splitOff (BytesMut.resize buf 4 0) 4 = .ok (BytesMut.resize buf 4 0,[]) := by
    rw [BytesMut.splitOff_of_le hlen.ge, List.take_of_length_le hlen.le,
      List.drop_of_length_le hlen.le]
  simp only [encrypt, hsplit]
  change Except.ok _ = Except.ok _
  rw [List.drop_left' hlen]
  rfl

/-! ## The nonce -/

/-- A nonce that a signed byte away is resolved to itself. -/
theorem lead_setWidth (s : CryptState encodeDst decodeDst) (nonce : U128)
    (hlo : -128 ≤ (nonce - s.decryptNonce).toInt) (hhi : (nonce - s.decryptNonce).toInt ≤ 127) :
    s.lead (nonce.setWidth 8) = (nonce - s.decryptNonce).toInt := by
  have hdiff : s.diff (nonce.setWidth 8) = (nonce - s.decryptNonce).setWidth 8 := by
    rw [diff, sub_eq_iff_eq_add, ← BitVec.setWidth_add _ _ (by norm_num), sub_add_cancel]
  generalize nonce - s.decryptNonce = x at *
  rw [lead, hdiff, BitVec.toInt_setWidth]
  have hx := BitVec.toInt_eq_toNat_cond x
  have hlt := x.isLt
  norm_num [Int.bmod_def] at *
  split_ifs at hx ⊢ <;> omega

theorem nonceAt_setWidth (s : CryptState encodeDst decodeDst) (nonce : U128)
    (hlo : -128 ≤ (nonce - s.decryptNonce).toInt) (hhi : (nonce - s.decryptNonce).toInt ≤ 127) :
    s.nonceAt (nonce.setWidth 8) = nonce := by
  rw [nonceAt, lead_setWidth s nonce hlo hhi, BitVec.ofInt_toInt, add_sub_cancel]

/-! ## The tag and the packet -/

/-- Under the nonce it was made with a datagram authenticates. -/
theorem tagMatches_sealed (aes : Key → Equiv.Perm U128) (s : CryptState encodeDst decodeDst) (nonce : U128)
    (packet : VoicePacket dst) :
    s.tagMatches aes nonce ((sealed (aes s.key) nonce packet).tail.take 3)
      ((sealed (aes s.key) nonce packet).tail.drop 3) = true := by
  have hlen : ((toBytes 16 (ocbEncrypt (aes s.key) nonce (encode packet [])).2).take 3).length =
      3 := by
    rw [List.length_take, length_toBytes]
    rfl
  simp only [sealed, List.cons_append, List.tail_cons]
  rw [List.take_left' hlen, List.drop_left' hlen, tagMatches, ocbDecrypt_ocbEncrypt, beq_self_eq_true]

/-- No counter passes its limit on one more packet; `lost` is counted signed. -/
def HasRoom (s : CryptState encodeDst decodeDst) : Prop :=
  s.good.toNat + 1 < 2 ^ 32 ∧ s.late.toNat + 1 < 2 ^ 32 ∧
    -2 ^ 31 < s.lost.toInt ∧ s.lost.toInt + 126 < 2 ^ 31

instance (s : CryptState encodeDst decodeDst) : Decidable (HasRoom s) :=
  inferInstanceAs (Decidable (_ ∧ _))

/-- The additions that one packet makes do not panic. -/
def Counts (mode : Overflow) (s : CryptState encodeDst decodeDst) (lost : U32) : Prop :=
  mode.addU32 s.good 1 = .ok (s.good + 1) ∧ mode.addU32 s.late 1 = .ok (s.late + 1) ∧
    mode.addI32 s.lost lost = .ok (s.lost + lost)

theorem HasRoom.counts {mode : Overflow} {s : CryptState encodeDst decodeDst} {lost : U32}
    (h : mode = .panic → HasRoom s) (hlo : -1 ≤ lost.toInt) (hhi : lost.toInt ≤ 126) :
    Counts mode s lost := by
  cases mode with
  | wrap => exact ⟨rfl,rfl,rfl⟩
  | panic =>
      obtain ⟨hgood,hlate,hl,hh⟩ := h rfl
      exact ⟨Overflow.addU32_of_lt _ hgood,Overflow.addU32_of_lt _ hlate,
        Overflow.addI32_of_bounds _ (by omega) (by omega)⟩

/-- A datagram whose nonce is resolved is accepted and its packet returned. -/
theorem decrypt_sealed (mode : Overflow) {s : CryptState encodeDst decodeDst} {nonce : U128}
    {packet : VoicePacket decodeDst} {attempt : Attempt} {plain : Bytes}
    (hcodec : decode decodeDst (encode packet []) = .ok (.ok (some packet),plain))
    (ha : s.resolve (nonce.setWidth 8) = .ok attempt) (hn : attempt.nonce = nonce)
    (hcounts : Counts mode s attempt.lost) :
    decrypt mode aes s (sealed (aes s.key) nonce packet) =
      .ok (.ok (.ok packet),
        s.accept (nonce.setWidth 8) attempt (s.good + 1)
          (if attempt.late then s.late + 1 else s.late) (s.lost + attempt.lost),plain) := by
  obtain ⟨hgood,hlate,hlost⟩ := hcounts
  have htag := tagMatches_sealed aes s nonce packet
  obtain ⟨t₀,t₁,t₂,ht⟩ : ∃ t₀ t₁ t₂, (toBytes 16 (ocbEncrypt (aes s.key) nonce
      (encode packet [])).2).take 3 = [t₀,t₁,t₂] :=
    List.length_eq_three.mp (by rw [List.length_take, length_toBytes]; rfl)
  have hplain := congrArg Prod.fst
    (ocbDecrypt_ocbEncrypt (aes s.key) nonce (encode packet []))
  have hlate' : (if attempt.late then mode.addU32 s.late 1 else .ok s.late) =
      Except.ok (if attempt.late then s.late + 1 else s.late) := by
    split
    · exact hlate
    · rfl
  simp only [sealed, ht, List.cons_append, List.nil_append, List.tail_cons, List.take_succ_cons,
    List.take_zero, List.drop_succ_cons, List.drop_zero] at htag ⊢
  simp only [decrypt, ha, hn, htag, hplain, Bool.not_true, Bool.false_eq_true, if_false,
    hgood, hlate', hlost]
  change (Voice.decode decodeDst (encode packet []) >>= _) = _
  rw [hcodec]
  rfl

/-- How far the sender's nonce is ahead of the receiver's, modulo `2 ^ 128`. -/
def ahead {senderDst receiverDst : VoicePacketDst} (sender : CryptState dst senderDst)
    (receiver : CryptState receiverDst dst) : ℤ :=
  (sender.encryptNonce - receiver.decryptNonce).toInt

/-- Decryption inverts encryption on the whole window. -/
theorem decrypt_encrypt {senderDst receiverDst : VoicePacketDst} (mode : Overflow)
    (aes : Key → Equiv.Perm U128) (sender : CryptState dst senderDst)
    (receiver : CryptState receiverDst dst) (packet : VoicePacket dst) (buf plain : Bytes)
    (hkey : receiver.key = sender.key)
    (hcodec : decode dst (encode packet []) = .ok (.ok (some packet),plain))
    (hroom : mode = .panic → HasRoom receiver) :
    ∃ sender' datagram, encrypt aes sender packet buf = .ok (sender',datagram) ∧
      (1 ≤ ahead sender' receiver → ahead sender' receiver ≤ 127 →
        ∃ receiver', decrypt mode aes receiver datagram = .ok (.ok (.ok packet),receiver',plain) ∧
          receiver'.decryptNonce = sender'.encryptNonce) ∧
      (-29 ≤ ahead sender' receiver → ahead sender' receiver ≤ 0 →
        receiver.decryptHistory (sender'.encryptNonce.setWidth 8) ≠ mark sender'.encryptNonce →
        ∃ receiver', decrypt mode aes receiver datagram = .ok (.ok (.ok packet),receiver',plain) ∧
          receiver'.decryptNonce = receiver.decryptNonce) := by
  refine ⟨_,_,encrypt_eq sender packet buf,?_,?_⟩
  all_goals
    simp only [ahead, ← hkey]
    generalize sender.encryptNonce + 1 = nonce
  · intro h₁ h₂
    have hlead := lead_setWidth receiver nonce (by omega) h₂
    have hn := nonceAt_setWidth receiver nonce (by omega) h₂
    have ha := resolve_ahead (show 0 < receiver.lead (nonce.setWidth 8) by omega)
    have hlost : (BitVec.ofInt 32 (receiver.lead (nonce.setWidth 8) - 1)).toInt =
        receiver.lead (nonce.setWidth 8) - 1 := by
      rw [BitVec.toInt_ofInt, Int.bmod_eq_of_le (by omega) (by omega)]
    have hcounts : Counts mode receiver
        (BitVec.ofInt 32 (receiver.lead (nonce.setWidth 8) - 1)) :=
      HasRoom.counts hroom (by omega) (by omega)
    exact ⟨_,decrypt_sealed mode hcodec ha hn hcounts,hn⟩
  · intro h₁ h₂ hmark
    have hlead := lead_setWidth receiver nonce (by omega) (by omega)
    have hn := nonceAt_setWidth receiver nonce (by omega) (by omega)
    have ha := resolve_behind (show -30 < receiver.lead (nonce.setWidth 8) by omega) (by omega)
    rw [hn, if_neg hmark] at ha
    have hcounts : Counts mode receiver (-1) := HasRoom.counts hroom (by decide) (by decide)
    exact ⟨_,decrypt_sealed mode hcodec ha rfl hcounts,rfl⟩

/-- A ping from a sender at nonce 255 to a receiver at 254, across a multiple of 256. -/
theorem decrypt_encrypt_ping :
    let zero : Vector U8 16 := Vector.replicate 16 0
    let sender : CryptState .serverbound .clientbound := newFrom zero (zero.set 0 255) zero
    let receiver : CryptState .clientbound .serverbound := newFrom zero zero (zero.set 0 254)
    ∃ sender' datagram receiver',
      encrypt (fun _ => Equiv.refl _) sender (.ping 1) [] = .ok (sender',datagram) ∧
      decrypt .panic (fun _ => Equiv.refl _) receiver datagram =
        .ok (.ok (.ok (.ping 1)),receiver',[0x20,1]) ∧
      receiver'.decryptNonce = 256 := by
  intro zero sender receiver
  obtain ⟨sender',datagram,henc,hahead,-⟩ := decrypt_encrypt .panic (fun _ => Equiv.refl _)
    sender receiver (.ping 1) [] [0x20,1] rfl (by decide +kernel) fun _ => (by decide)
  have hs' : sender'.encryptNonce = 256 := by
    rw [encrypt_eq] at henc
    cases henc
    decide +kernel
  have hk : ahead sender' receiver = 2 := by
    rw [ahead, hs']
    decide +kernel
  obtain ⟨receiver',hdec,hn⟩ := hahead (by omega) (by omega)
  exact ⟨sender',datagram,receiver',henc,hdec,hn.trans hs'⟩

end Atof.CryptRoundTrip
