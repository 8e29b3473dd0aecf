import Atof.Crypt
import Atof.Doubling

/-!
# A cipher under which tags bind

With three bytes of tag and `2 ^ 128` nonces it takes a special cipher for a tag to
be accepted under one nonce only. Under `y ↦ y + 2y + 9` every nonce gives a
datagram with two bytes after its header the same tag. Stirring the words that end
in the number two beforehand changes the tag for at most 256 nonces, and for each
of them differently.
-/
namespace Atof.BindingCipher
open Rust BigEndian Voice Ocb Doubling Crypt CryptState

/-- Doubling of a byte, in the field of 256 elements. -/
def xtime (b : U8) : U8 := b <<< 1 ^^^ if b.msb then 0x1b#8 else 0#8

def lead8 (y : U128) : U8 := (y >>> 120).setWidth 8

/-- What stirring adds to a word with the given leading byte. -/
def swirl (b : U8) : U128 := (b ^^^ xtime b).setWidth 128 <<< 120

def stir (y : U128) : U128 := if y.setWidth 120 = 2#120 then y ^^^ swirl (lead8 y) else y

def pour (y : U128) : U128 := stir y ^^^ s2 (stir y) ^^^ 9#128

theorem word_ext {y z : U128} (hlow : y.setWidth 120 = z.setWidth 120)
    (hhigh : lead8 y = lead8 z) : y = z := by
  apply BitVec.eq_of_getLsbD_eq
  intro i hi
  by_cases h : i < 120
  · simpa [BitVec.getLsbD_setWidth, h] using congrArg (·.getLsbD i) hlow
  · have := congrArg (·.getLsbD (i - 120)) hhigh
    simpa [lead8, BitVec.getLsbD_setWidth, show i - 120 < 8 by omega,
      show 120 + (i - 120) = i by omega] using this

theorem setWidth_swirl (b : U8) : (swirl b).setWidth 120 = 0#120 := by
  apply BitVec.eq_of_getLsbD_eq
  intro i hi
  simp [swirl, hi]

theorem lead8_xor_swirl (y : U128) : lead8 (y ^^^ swirl (lead8 y)) = xtime (lead8 y) := by
  have hs : lead8 (swirl (lead8 y)) = lead8 y ^^^ xtime (lead8 y) := by
    apply BitVec.eq_of_getLsbD_eq
    intro i hi
    generalize lead8 y = b
    simp only [lead8, swirl, BitVec.getLsbD_setWidth, BitVec.getLsbD_ushiftRight,
      BitVec.getLsbD_shiftLeft]
    simp [hi, show 120 + i < 128 by omega, show i < 128 by omega]
  have hx : lead8 (y ^^^ swirl (lead8 y)) = lead8 y ^^^ lead8 (swirl (lead8 y)) := by
    simp only [lead8, BitVec.ushiftRight_xor_distrib, BitVec.setWidth_xor]
  rw [hx, hs, ← BitVec.xor_assoc, BitVec.xor_self, BitVec.zero_xor]

def halve (b : U8) : U8 :=
  if b.getLsbD 0 then (b ^^^ 0x1b#8) >>> 1 ||| 0x80#8 else b >>> 1

theorem halve_xtime : ∀ b : U8, halve (xtime b) = b := by decide

theorem xtime_injective : Function.Injective xtime :=
  Function.LeftInverse.injective halve_xtime

theorem stir_injective : Function.Injective stir := by
  have hlow : ∀ y, (stir y).setWidth 120 = y.setWidth 120 := by
    intro y
    unfold stir
    split
    · rw [BitVec.setWidth_xor, setWidth_swirl, BitVec.xor_zero]
    · rfl
  intro y z h
  have hyz : y.setWidth 120 = z.setWidth 120 := by rw [← hlow y, h, hlow z]
  unfold stir at h
  rw [← hyz] at h
  split at h
  · have hx := congrArg lead8 h
    rw [lead8_xor_swirl, lead8_xor_swirl] at hx
    exact word_ext hyz (xtime_injective hx)
  · exact h

theorem pour_injective : Function.Injective pour := by
  intro y z h
  have h' : stir y ^^^ s2 (stir y) = stir z ^^^ s2 (stir z) := (BitVec.xor_left_inj _).mp h
  have hx : s2 (stir y ^^^ stir z) = stir y ^^^ stir z := by
    rw [s2_xor, ← BitVec.xor_eq_zero_iff]
    rw [← BitVec.xor_eq_zero_iff] at h'
    rw [← h']
    ac_rfl
  exact stir_injective (BitVec.xor_eq_zero_iff.mp (eq_zero_of_s2_eq hx))

instance finite_bitVec {w : ℕ} : Finite (BitVec w) :=
  Finite.of_injective BitVec.toFin BitVec.toFin_injective

theorem card_bitVec (w : ℕ) : Nat.card (BitVec w) = 2 ^ w := by
  rw [Nat.card_congr BitVec.equivFin.toEquiv, Nat.card_fin]

noncomputable def poured (_ : Key) : Equiv.Perm U128 :=
  Equiv.ofBijective pour (Finite.injective_iff_bijective.mp pour_injective)

theorem poured_apply (key : Key) (y : U128) : poured key y = pour y := rfl

/-- The tag of a one-block datagram depends on the nonce through what stirring adds. -/
theorem tag_poured (key : Key) (nonce : U128) {body : Bytes} (h : body.length = 2) :
    (ocbDecrypt (poured key) nonce body).2 =
      pour (ofBytes 128 (body ++ List.replicate 14 0#8) ^^^ 57#128 ^^^
        ((16#128 ^^^ s2 (pour (toBe nonce))) ^^^ stir (16#128 ^^^ s2 (pour (toBe nonce)))) ^^^
        s2 ((16#128 ^^^ s2 (pour (toBe nonce))) ^^^ stir (16#128 ^^^ s2 (pour (toBe nonce))))) := by
  have hlast : ocbDecrypt (poured key) nonce body =
      decryptLast (poured key) (pour (toBe nonce)) 0 body := by
    rw [ocbDecrypt, decryptBlocks, if_neg (by rw [h]; decide), poured_apply]
  rw [hlast]
  simp only [decryptLast, h, poured_apply]
  generalize pour (toBe nonce) = d
  generalize ofBytes 128 (body ++ List.replicate (16 - 2) 0#8) = c
  change pour _ = pour _
  congr 1
  change s2 d ^^^ s2 (s2 d) ^^^ (0 ^^^ (c ^^^ pour (16#128 ^^^ s2 d))) = _
  unfold pour
  generalize hz : stir (16#128 ^^^ s2 d) = z
  simp only [s2_xor]
  rw [show s2 16#128 = 32#128 by decide, show (57#128 : U128) = 16#128 ^^^ 32#128 ^^^ 9#128 by decide]
  have h0 : (0 : U128) = 16#128 ^^^ 16#128 ^^^ 32#128 ^^^ 32#128 := by decide
  rw [h0]
  ac_rfl

/-- The word that is stirred under a nonce. -/
def stirred (nonce : U128) : U128 := 16#128 ^^^ s2 (pour (toBe nonce))

theorem stirred_injective : Function.Injective stirred := by
  intro m n h
  have h' := pour_injective (s2_injective ((BitVec.xor_right_inj _).mp h))
  have hb := ofBytes_injective (by simp) (by simp) h'
  exact toBytes_injective (by norm_num) (List.reverse_injective hb)

theorem xor_stir (u : U128) :
    ∃ b, u ^^^ stir u = swirl b ∧ (b ≠ 0 → u.setWidth 120 = 2#120 ∧ lead8 u = b) := by
  by_cases h : u.setWidth 120 = 2#120
  · refine ⟨lead8 u,?_,fun _ => ⟨h,rfl⟩⟩
    rw [stir, if_pos h, ← BitVec.xor_assoc, BitVec.xor_self, BitVec.zero_xor]
  · refine ⟨0,?_,fun hb => absurd rfl hb⟩
    rw [stir, if_neg h, BitVec.xor_self]
    decide

/-- Only what the nonce itself adds gives the tag of a datagram with two more bytes. -/
def Told (datagram : Bytes) (nonce : U128) : Prop :=
  (datagram.tail.drop 3).length = 2 ∧ ∀ b : U8,
    lead8 (pour (ofBytes 128 (datagram.tail.drop 3 ++ List.replicate 14 0#8) ^^^ 57#128 ^^^
      swirl b ^^^ s2 (swirl b))) = (datagram.tail.take 3).headD 0 →
    b ≠ 0 ∧ (stirred nonce).setWidth 120 = 2#120 ∧ lead8 (stirred nonce) = b

instance (datagram : Bytes) (nonce : U128) : Decidable (Told datagram nonce) :=
  inferInstanceAs (Decidable (_ ∧ ∀ _ : U8, _ → _))

theorem Told.binds {encodeDst decodeDst : VoicePacketDst} {s : CryptState encodeDst decodeDst}
    {datagram : Bytes} {nonce : U128}
    (h : Told datagram nonce) (n : U128) (hn : n ≠ nonce) :
    s.tagMatches poured n (datagram.tail.take 3) (datagram.tail.drop 3) = false := by
  obtain ⟨hlen,htold⟩ := h
  rw [tagMatches, tag_poured _ _ hlen, beq_eq_false_iff_ne]
  obtain ⟨b,hb,hword⟩ := xor_stir (stirred n)
  change (toBytes 16 (pour (_ ^^^ (stirred n ^^^ stir (stirred n)) ^^^
    s2 (stirred n ^^^ stir (stirred n))))).take 3 ≠ _
  rw [hb]
  intro htag
  obtain ⟨hb0,hlow,hhigh⟩ := htold b (by rw [← htag]; rfl)
  obtain ⟨hlow',hhigh'⟩ := hword hb0
  exact hn (stirred_injective (word_ext (hlow'.trans hlow.symm) (hhigh'.trans hhigh.symm)))

end Atof.BindingCipher
