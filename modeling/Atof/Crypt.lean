import Atof.Voice
import Atof.Ocb
import Mathlib.Data.BitVec
import Mathlib.Logic.Function.Basic

/-!
# Encrypted voice datagrams

A datagram carries the low byte of its nonce and three bytes of its tag. The
receiver rebuilds the nonce from its own by the signed difference of the low
bytes; `resolve` is that decision, with the nonce it leaves behind when it
refuses. Packets ahead move the receiver's nonce for good, late packets only for
the time of the tag check. The history holds one byte per low nonce byte.

The cipher is a family of permutations of 128-bit words, one for each key.
-/
namespace Atof.Crypt
open Rust BigEndian Voice Ocb

abbrev Key := Vector U8 16

/-- `u128::from_le_bytes`. -/
def fromLeBytes (bytes : Vector U8 16) : U128 := ofBytes 128 bytes.toList.reverse

/-- `decrypt_history` is indexed by a byte, so an array of 256 is a function. -/
structure CryptState (encodeDst decodeDst : VoicePacketDst) where
  key : Key
  encryptNonce : U128
  decryptNonce : U128
  decryptHistory : U8 → U8
  good : U32
  late : U32
  lost : U32

inductive DecryptError where
  | eof
  | repeated
  | late
  | mac
  deriving DecidableEq, Repr

variable {encodeDst decodeDst : VoicePacketDst}

/-- The key of `generate_new` is drawn at random; here it is the argument. -/
def generateNew (key : Key) : CryptState encodeDst decodeDst :=
  { key, encryptNonce := 0, decryptNonce := 1#128 <<< 127, decryptHistory := fun _ => 0#8,
    good := 0, late := 0, lost := 0 }

def newFrom (key : Key) (encryptNonce decryptNonce : Vector U8 16) :
    CryptState encodeDst decodeDst :=
  { key, encryptNonce := fromLeBytes encryptNonce, decryptNonce := fromLeBytes decryptNonce,
    decryptHistory := fun _ => 0#8, good := 0, late := 0, lost := 0 }

/-- The nonce to try, whether the packet is late, and the change of `lost`. -/
structure Attempt where
  nonce : U128
  late : Bool
  lost : U32
  deriving DecidableEq, Repr

namespace CryptState

def setDecryptNonce (s : CryptState encodeDst decodeDst) (nonce : Vector U8 16) :
    CryptState encodeDst decodeDst :=
  { s with decryptNonce := fromLeBytes nonce }

/-- The difference of the low bytes, as the bits of an `i8`. -/
def diff (s : CryptState encodeDst decodeDst) (nonce0 : U8) : U8 :=
  nonce0 - s.decryptNonce.setWidth 8

/-- The first half of `decrypt`. A refusal also says which nonce it leaves in
`decrypt_nonce`: the repeat branch restores the saved one, the late branch does
not. -/
def resolve (s : CryptState encodeDst decodeDst) (nonce0 : U8) :
    Except (DecryptError × U128) Attempt :=
  if (s.decryptNonce + 1).setWidth 8 = nonce0 then
    .ok ⟨s.decryptNonce + 1, false, 0⟩
  else
    let diff := s.diff nonce0
    let nonce := s.decryptNonce + diff.signExtend 128
    if 0 < diff.toInt then .ok ⟨nonce, false, (diff - 1).signExtend 32⟩
    else if -30 < diff.toInt then
      if s.decryptHistory nonce0 = (nonce >>> 8).setWidth 8 then
        .error (.repeated, s.decryptNonce)
      else .ok ⟨nonce, true, -1⟩
    else .error (.late, nonce)

/-- The state after an accepted packet; the additions are checked by the caller. -/
def accept (s : CryptState encodeDst decodeDst) (nonce0 : U8) (attempt : Attempt)
    (good late lost : U32) : CryptState encodeDst decodeDst :=
  { s with
    decryptHistory :=
      Function.update s.decryptHistory nonce0 ((attempt.nonce >>> 8).setWidth 8)
    decryptNonce := if attempt.late then s.decryptNonce else attempt.nonce
    good, late, lost }

/-- The tag is compared in its three leading bytes. -/
def tagMatches (aes : Key → Equiv.Perm U128) (s : CryptState encodeDst decodeDst) (nonce : U128)
    (tag body : Bytes) : Bool :=
  (toBytes 16 (ocbDecrypt (aes s.key) nonce body).2).take 3 == tag

/-- `CryptState::decrypt`: the outcome, the state and what is left of the buffer.
The four header bytes are the ones `split_to` takes. -/
def decrypt (mode : Overflow) (aes : Key → Equiv.Perm U128)
    (s : CryptState encodeDst decodeDst) :
    Bytes → Checked (Except DecryptError (Io (VoicePacket decodeDst)) ×
      CryptState encodeDst decodeDst × Bytes)
  | nonce0 :: tag0 :: tag1 :: tag2 :: buf =>
      match s.resolve nonce0 with
      | .error (e, nonce) => .ok (.error e, { s with decryptNonce := nonce }, buf)
      | .ok attempt => do
          let plain := (ocbDecrypt (aes s.key) attempt.nonce buf).1
          if !s.tagMatches aes attempt.nonce [tag0, tag1, tag2] buf then
            return (.error .mac, s, plain)
          let good ← mode.addU32 s.good 1
          let late ← (if attempt.late then mode.addU32 s.late 1 else .ok s.late)
          let lost ← mode.addI32 s.lost attempt.lost
          let s := s.accept nonce0 attempt good late lost
          match ← decode decodeDst plain with
          | (.error e, buf) => return (.ok (.error e), s, buf)
          | (.ok (some packet), buf) => return (.ok (.ok packet), s, buf)
          | (.ok none, _) => .error .explicit
  | buf => .ok (.error .eof, s, buf)

/-- `CryptState::encrypt`. The header is written over the four bytes set aside. -/
def encrypt (aes : Key → Equiv.Perm U128) (s : CryptState encodeDst decodeDst)
    (packet : VoicePacket encodeDst) (dst : Bytes) :
    Checked (CryptState encodeDst decodeDst × Bytes) := do
  let s := { s with encryptNonce := s.encryptNonce + 1 }
  let (dst, inner) ← BytesMut.splitOff (BytesMut.resize dst 4 0) 4
  let (inner, tag) := ocbEncrypt (aes s.key) s.encryptNonce (encode packet inner)
  return (s, s.encryptNonce.setWidth 8 :: (toBytes 16 tag).take 3 ++ (dst ++ inner).drop 4)

/-! ## What one call can do -/

/-- The signed distance of a datagram's low byte from the receiver's. -/
def lead (s : CryptState encodeDst decodeDst) (nonce0 : U8) : ℤ := (s.diff nonce0).toInt

/-- The nonce that a header byte stands for, the `lead` away from the receiver's. -/
def nonceAt (s : CryptState encodeDst decodeDst) (nonce0 : U8) : U128 :=
  s.decryptNonce + BitVec.ofInt 128 (s.lead nonce0)

/-- The byte of a nonce that the history stores. -/
def mark (nonce : U128) : U8 := (nonce >>> 8).setWidth 8

theorem lead_bounds (s : CryptState encodeDst decodeDst) (nonce0 : U8) :
    -128 ≤ s.lead nonce0 ∧ s.lead nonce0 ≤ 127 := by
  have h₁ := BitVec.le_toInt (s.diff nonce0)
  have h₂ := BitVec.toInt_lt (x := s.diff nonce0)
  norm_num at h₁ h₂
  exact ⟨h₁,by unfold lead; omega⟩

theorem inOrder_iff (s : CryptState encodeDst decodeDst) (nonce0 : U8) :
    (s.decryptNonce + 1).setWidth 8 = nonce0 ↔ s.lead nonce0 = 1 := by
  have h1 : s.lead nonce0 = 1 ↔ s.diff nonce0 = 1#8 :=
    ⟨fun h => BitVec.eq_of_toInt_eq h,fun h => by rw [lead, h]; decide⟩
  rw [h1, diff, BitVec.setWidth_add _ _ (by norm_num), eq_comm, ← sub_eq_iff_eq_add']
  rfl

/-- The resolved nonce carries the header byte. -/
theorem setWidth_nonceAt (s : CryptState encodeDst decodeDst) (nonce0 : U8) :
    (s.nonceAt nonce0).setWidth 8 = nonce0 := by
  have h : ((s.diff nonce0).signExtend 128).setWidth 8 = s.diff nonce0 := by
    apply BitVec.eq_of_getLsbD_eq
    intro i hi
    simp only [BitVec.getLsbD_setWidth, BitVec.getLsbD_signExtend, hi, decide_true, Bool.true_and,
      if_true, show i < 128 by omega]
  change (s.decryptNonce + (s.diff nonce0).signExtend 128).setWidth 8 = nonce0
  rw [BitVec.setWidth_add _ _ (by norm_num), h, diff, add_sub_cancel]

/-- The in-order case is a lead of one, so packets ahead are one case. -/
theorem resolve_ahead {s : CryptState encodeDst decodeDst} {nonce0 : U8}
    (h : 0 < s.lead nonce0) :
    s.resolve nonce0 = .ok ⟨s.nonceAt nonce0,false,BitVec.ofInt 32 (s.lead nonce0 - 1)⟩ := by
  have hb := s.lead_bounds nonce0
  unfold resolve
  split_ifs with h1
  · have hl := (s.inOrder_iff nonce0).mp h1
    rw [nonceAt, hl]
    rfl
  · have hlost : (s.diff nonce0 - 1).toInt = s.lead nonce0 - 1 := by
      rw [BitVec.toInt_sub, Int.bmod_eq_of_le]
      · rfl
      · change _ ≤ s.lead nonce0 - 1
        omega
      · change s.lead nonce0 - 1 < _
        omega
    have hl : (s.diff nonce0 - 1).signExtend 32 = BitVec.ofInt 32 (s.lead nonce0 - 1) := by
      rw [BitVec.signExtend, hlost]
    simp only [hl]
    exact if_pos h

theorem resolve_behind {s : CryptState encodeDst decodeDst} {nonce0 : U8}
    (h₁ : -30 < s.lead nonce0) (h₂ : s.lead nonce0 ≤ 0) :
    s.resolve nonce0 = if s.decryptHistory nonce0 = mark (s.nonceAt nonce0) then
      .error (.repeated,s.decryptNonce) else .ok ⟨s.nonceAt nonce0,true,-1⟩ := by
  have h1 : (s.decryptNonce + 1).setWidth 8 ≠ nonce0 := by
    rw [ne_eq, s.inOrder_iff nonce0]
    omega
  rw [resolve, if_neg h1]
  exact (if_neg (not_lt.mpr h₂)).trans (if_pos h₁)

theorem resolve_tooLate {s : CryptState encodeDst decodeDst} {nonce0 : U8}
    (h : s.lead nonce0 ≤ -30) : s.resolve nonce0 = .error (.late,s.nonceAt nonce0) := by
  have h1 : (s.decryptNonce + 1).setWidth 8 ≠ nonce0 := by
    rw [ne_eq, s.inOrder_iff nonce0]
    omega
  have h2 : ¬ 0 < s.lead nonce0 := by omega
  rw [resolve, if_neg h1]
  exact (if_neg h2).trans (if_neg (not_lt.mpr h))

/-- The exits of `decrypt`, each with what it requires and what it changes. -/
inductive Decrypts (aes : Key → Equiv.Perm U128) (s : CryptState encodeDst decodeDst) :
    Bytes → Except DecryptError (Io (VoicePacket decodeDst)) →
      CryptState encodeDst decodeDst → Prop
  | eof {buf : Bytes} (short : buf.length < 4) : Decrypts aes s buf (.error .eof) s
  | repeated {nonce0 : U8} {buf : Bytes} (whole : 3 ≤ buf.length)
      (near : -30 < s.lead nonce0) (behind : s.lead nonce0 ≤ 0)
      (marked : s.decryptHistory nonce0 = mark (s.nonceAt nonce0)) :
      Decrypts aes s (nonce0 :: buf) (.error .repeated) s
  | late {nonce0 : U8} {buf : Bytes} (whole : 3 ≤ buf.length) (far : s.lead nonce0 ≤ -30) :
      Decrypts aes s (nonce0 :: buf) (.error .late)
        { s with decryptNonce := s.nonceAt nonce0 }
  | mac {nonce0 : U8} {buf : Bytes} (whole : 3 ≤ buf.length) (near : -30 < s.lead nonce0)
      (mismatch : s.tagMatches aes (s.nonceAt nonce0) (buf.take 3) (buf.drop 3) = false) :
      Decrypts aes s (nonce0 :: buf) (.error .mac) s
  | ahead {nonce0 : U8} {buf : Bytes} {result : Io (VoicePacket decodeDst)}
      (whole : 3 ≤ buf.length) (lead : 0 < s.lead nonce0)
      (authentic : s.tagMatches aes (s.nonceAt nonce0) (buf.take 3) (buf.drop 3) = true) :
      Decrypts aes s (nonce0 :: buf) (.ok result)
        (s.accept nonce0 ⟨s.nonceAt nonce0,false,BitVec.ofInt 32 (s.lead nonce0 - 1)⟩
          (s.good + 1) s.late (s.lost + BitVec.ofInt 32 (s.lead nonce0 - 1)))
  | behind {nonce0 : U8} {buf : Bytes} {result : Io (VoicePacket decodeDst)}
      (whole : 3 ≤ buf.length) (near : -30 < s.lead nonce0) (behind : s.lead nonce0 ≤ 0)
      (unmarked : s.decryptHistory nonce0 ≠ mark (s.nonceAt nonce0))
      (authentic : s.tagMatches aes (s.nonceAt nonce0) (buf.take 3) (buf.drop 3) = true) :
      Decrypts aes s (nonce0 :: buf) (.ok result)
        (s.accept nonce0 ⟨s.nonceAt nonce0,true,-1⟩ (s.good + 1) (s.late + 1) (s.lost + -1))

/-- What follows a resolved nonce: a tag mismatch, or an accepted packet. -/
theorem decrypt_attempt {mode : Overflow} {aes : Key → Equiv.Perm U128}
    {s s' : CryptState encodeDst decodeDst} {nonce0 tag0 tag1 tag2 : U8} {body rest : Bytes}
    {attempt : Attempt} {r : Except DecryptError (Io (VoicePacket decodeDst))}
    (ha : s.resolve nonce0 = .ok attempt)
    (h : decrypt mode aes s (nonce0 :: tag0 :: tag1 :: tag2 :: body) = .ok (r,s',rest)) :
    (s.tagMatches aes attempt.nonce [tag0,tag1,tag2] body = false ∧ r = .error .mac ∧ s' = s) ∨
    (s.tagMatches aes attempt.nonce [tag0,tag1,tag2] body = true ∧ (∃ result, r = .ok result) ∧
      s' = s.accept nonce0 attempt (s.good + 1) (if attempt.late then s.late + 1 else s.late)
        (s.lost + attempt.lost)) := by
  simp only [decrypt, ha] at h
  cases ht : s.tagMatches aes attempt.nonce [tag0,tag1,tag2] body with
  | false =>
      simp only [ht, Bool.not_false, if_true] at h
      cases h
      exact Or.inl ⟨rfl,rfl,rfl⟩
  | true =>
      simp only [ht, Bool.not_true, Bool.false_eq_true, if_false] at h
      obtain ⟨good,hgood,h⟩ := bind_eq_ok.mp h
      obtain ⟨late,hlate,h⟩ := bind_eq_ok.mp h
      obtain ⟨lost,hlost,h⟩ := bind_eq_ok.mp h
      obtain ⟨⟨result,left⟩,-,h⟩ := bind_eq_ok.mp h
      have hl : late = if attempt.late then s.late + 1 else s.late := by
        split at hlate
        · next hb => rw [if_pos hb, Overflow.addU32_eq hlate]
        · next hb =>
            cases hlate
            rw [if_neg hb]
      rw [Overflow.addU32_eq hgood, Overflow.addI32_eq hlost, hl] at h
      refine Or.inr ⟨rfl,?_⟩
      rcases result with e | _ | packet
      · cases h
        exact ⟨⟨_,rfl⟩,rfl⟩
      · cases h
      · cases h
        exact ⟨⟨_,rfl⟩,rfl⟩

theorem decrypt_spec {mode : Overflow} {aes : Key → Equiv.Perm U128}
    {s s' : CryptState encodeDst decodeDst} {buf rest : Bytes}
    {r : Except DecryptError (Io (VoicePacket decodeDst))}
    (h : decrypt mode aes s buf = .ok (r,s',rest)) : Decrypts aes s buf r s' := by
  match buf, h with
  | nonce0 :: tag0 :: tag1 :: tag2 :: body, h =>
      have hw : 3 ≤ (tag0 :: tag1 :: tag2 :: body).length := by simp
      by_cases hahead : 0 < s.lead nonce0
      · rcases decrypt_attempt (resolve_ahead hahead) h with ⟨ht,rfl,rfl⟩ | ⟨ht,⟨result,rfl⟩,rfl⟩
        · exact .mac hw (by omega) ht
        · exact .ahead hw hahead ht
      by_cases hnear : -30 < s.lead nonce0
      · have hr := resolve_behind hnear (by omega)
        by_cases hm : s.decryptHistory nonce0 = mark (s.nonceAt nonce0)
        · rw [if_pos hm] at hr
          simp only [decrypt, hr] at h
          cases h
          exact .repeated hw hnear (by omega) hm
        · rw [if_neg hm] at hr
          rcases decrypt_attempt hr h with ⟨ht,rfl,rfl⟩ | ⟨ht,⟨result,rfl⟩,rfl⟩
          · exact .mac hw hnear ht
          · exact .behind hw hnear (by omega) hm ht
      · have hr := resolve_tooLate (by omega : s.lead nonce0 ≤ -30)
        simp only [decrypt, hr] at h
        cases h
        exact .late hw (by omega)
  | [], h => cases h; exact .eof (by simp)
  | [_], h => cases h; exact .eof (by simp)
  | [_,_], h => cases h; exact .eof (by simp)
  | [_,_,_], h => cases h; exact .eof (by simp)

end CryptState
end Atof.Crypt
