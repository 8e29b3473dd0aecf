import Atof.VoiceGrammar
import Atof.Conversion
import Atof.Crypt

/-!
# The buffer of the voice decoder

Header fields are read through a cursor, which leaves the buffer as it is, and each kind
of audio advances the buffer in its own place. A ping is read through the cursor only, so
its bytes stay and are decoded again. Every position and length is checked before it is
used, so nothing in the decoder panics, and what its callers expect of it holds.
-/
namespace Atof.Voice
open Rust Ocb Crypt CryptState Control

variable {encodeDst dst : VoicePacketDst} {buf : Bytes}

/-! ## What is left -/

/-- A packet that is returned is out of the buffer, and not returned again. -/
def Consumes (dst : VoicePacketDst) (buf : Bytes) : Prop :=
  ∀ packet rest, decode dst buf = .ok (.ok (some packet),rest) →
    rest = [] ∧ ∀ rest', decode dst rest ≠ .ok (.ok (some packet),rest')

/-- An audio packet takes everything with it. -/
theorem rest_of_decode_audio {rest : Bytes} {target : U8} {sessionId : dst.SessionId}
    {seqNum : U64} {payload : VoicePacketPayload} {positionInfo : Option Bytes}
    (h : decode dst buf =
      .ok (.ok (some (.audio target sessionId seqNum payload positionInfo)),rest)) : rest = [] := by
  obtain ⟨x,rfl,hx⟩ := isAudio_of_decode h
  rw [hx.decode] at h
  cases h
  rfl

theorem consumes_iff (dst : VoicePacketDst) (buf : Bytes) :
    Consumes dst buf ↔ ¬ ∃ timestamp, IsPing buf timestamp := by
  constructor
  · rintro h ⟨timestamp,hping⟩
    exact (h _ _ hping.decode).2 buf (by rw [hping.decode])
  · intro hping packet rest h
    cases packet with
    | ping timestamp =>
        exact absurd ⟨timestamp,(decode_ping_iff dst buf timestamp).mp ⟨rest,h⟩⟩ hping
    | audio target sessionId seqNum payload positionInfo =>
        obtain rfl := rest_of_decode_audio h
        refine ⟨rfl,fun rest' h' => ?_⟩
        cases h'

/-- A ping with timestamp 5. -/
theorem not_consumes : ¬ ∀ dst buf, Consumes dst buf := by
  intro h
  obtain ⟨hrest,-⟩ := h .serverbound [0x20,5] (.ping 5) [0x20,5] rfl
  cases hrest

/-! ## Panics -/

theorem voiceTryFrom_returns (dst : VoicePacketDst) (bytes : Bytes) :
    ∃ r, voiceTryFrom dst bytes = .ok r := by
  obtain ⟨answer,rest,h,hne⟩ := decode_returns dst bytes
  rw [voiceTryFrom, h]
  rcases answer with e | _ | packet
  · exact ⟨_,rfl⟩
  · exact absurd rfl hne
  · exact ⟨_,rfl⟩

/-- A sum of counters is the one thing in `decrypt` that can fail. -/
theorem decrypt_returns (mode : Overflow) (aes : Key → Equiv.Perm U128)
    (s : CryptState encodeDst dst) (buf : Bytes) : mode.Sums (decrypt mode aes s buf) := by
  match buf with
  | [] | [_] | [_,_] | [_,_,_] => exact Or.inl ⟨_,rfl⟩
  | nonce0 :: tag0 :: tag1 :: tag2 :: body =>
      rw [decrypt]
      split
      · exact Or.inl ⟨_,rfl⟩
      next attempt hattempt =>
      cases ht : s.tagMatches aes attempt.nonce [tag0,tag1,tag2] body with
      | false => exact Or.inl ⟨_,rfl⟩
      | true =>
          simp only [Bool.not_true, Bool.false_eq_true, if_false]
          refine (mode.sums_addU32 s.good 1).bind fun good => ?_
          have hlate : mode.Sums (if attempt.late then mode.addU32 s.late 1 else .ok s.late) := by
            split
            · exact mode.sums_addU32 s.late 1
            · exact Or.inl ⟨_,rfl⟩
          refine hlate.bind fun late => (mode.sums_addI32 s.lost attempt.lost).bind fun lost => ?_
          obtain ⟨answer,rest,hdecode,hne⟩ :=
            decode_returns dst (ocbDecrypt (aes s.key) attempt.nonce body).1
          rw [hdecode]
          rcases answer with e | _ | packet
          · exact Or.inl ⟨_,rfl⟩
          · exact absurd rfl hne
          · exact Or.inl ⟨_,rfl⟩

/-- The decoder returns a packet or an error on every byte string, so the conversion of
tunnelled packets returns, and `decrypt` but for its counters. -/
theorem never_panics (dst : VoicePacketDst) :
    (∀ buf, ∃ answer rest, decode dst buf = .ok (answer,rest) ∧ answer ≠ .ok none) ∧
    (∀ bytes, ∃ r, voiceTryFrom dst bytes = .ok r) ∧
    ∀ (encodeDst : VoicePacketDst) (mode : Overflow) (aes : Key → Equiv.Perm U128)
      (s : CryptState encodeDst dst) (buf : Bytes), (∃ r, decrypt mode aes s buf = .ok r) ∨
        mode = .panic ∧ decrypt mode aes s buf = .error .overflow :=
  ⟨decode_returns dst,voiceTryFrom_returns dst,fun _ => decrypt_returns⟩

end Atof.Voice
