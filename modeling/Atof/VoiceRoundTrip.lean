import Atof.Voice

/-!
# Voice codec round trip

The encoder truncates silently wherever a field is wider than its place on the
wire, so it is inverted on a subset of the packets. `Representable` names that
subset field by field. Decoding an encoding returns the packet on the subset;
every decoded packet lies in it, so outside of it nothing is returned unchanged.
-/
namespace Atof.Voice
open Rust BigEndian Varint

/-- Frame lists are nonempty with lengths of seven bits; an Opus length leaves
bit 13 to the termination flag. A length is a `usize` of 64 bits. -/
def VoicePacketPayload.Representable : VoicePacketPayload → Prop
  | .celtAlpha frames | .celtBeta frames | .speex frames =>
      frames ≠ [] ∧ ∀ frame ∈ frames, frame.length ≤ 127
  | .opus frame _ => frame.length < 2 ^ 64 ∧ frame.length.testBit 13 = false

def VoicePacket.Representable {dst : VoicePacketDst} : VoicePacket dst → Prop
  | .ping _ => True
  | .audio target _ _ payload positionInfo =>
      target ≤ 31#8 ∧ positionInfo ≠ some [] ∧ payload.Representable

/-! ## Length words -/

/-- The length byte of a frame, with and without its continuation bit. -/
theorem frame_header : ∀ k : U8, k ≤ 127#8 →
    (0#8 ||| k) &&& ~~~0x80#8 = k ∧ (0x80#8 ||| k) &&& ~~~0x80#8 = k ∧
    (0#8 ||| k) &&& 0x80#8 ≠ 0x80#8 ∧ (0x80#8 ||| k) &&& 0x80#8 = 0x80#8 := by decide

theorem frame_len_le : ∀ header : U8, (header &&& ~~~0x80#8).toNat ≤ 127 := by decide

theorem getLsbD_bit13 {i : ℕ} (hi : i < 64) : (0x2000#64).getLsbD i = decide (i = 13) := by
  have h : ∀ i : Fin 64, (0x2000#64).getLsbD i = decide (i.val = 13) := by decide
  exact h ⟨i,hi⟩

/-- Masking returns the length when its bit 13 is clear. -/
theorem clear_bit13 {len : U64} (flag : Bool) (h : len.getLsbD 13 = false) :
    ((if flag then 0x2000#64 else 0#64) ||| len) &&& ~~~0x2000#64 = len := by
  apply BitVec.eq_of_getLsbD_eq
  intro i hi
  have hf : (if flag then 0x2000#64 else 0#64).getLsbD i = (flag && decide (i = 13)) := by
    cases flag <;> simp [getLsbD_bit13 hi]
  rw [BitVec.getLsbD_and, BitVec.getLsbD_or, BitVec.getLsbD_not, hf, getLsbD_bit13 hi]
  by_cases h13 : i = 13
  · subst i
    simp only [h, decide_true, Bool.not_true, Bool.and_false]
  · simp only [h13, decide_false, Bool.and_false, Bool.false_or, Bool.not_false, Bool.and_true, hi,
      decide_true]

/-- Masking returns the flag under the same condition. -/
theorem test_bit13 {len : U64} (flag : Bool) (h : len.getLsbD 13 = false) :
    decide (((if flag then 0x2000#64 else 0#64) ||| len) &&& 0x2000#64 = 0x2000#64) = flag := by
  rw [show 0x2000#64 = BitVec.twoPow 64 13 from rfl, BitVec.and_twoPow]
  cases flag with
  | false =>
      simp only [Bool.false_eq_true, if_false, BitVec.getLsbD_or, h, Bool.or_false,
        BitVec.getLsbD_zero]
      decide
  | true =>
      have hb : (BitVec.twoPow 64 13 ||| len).getLsbD 13 = true := by
        rw [BitVec.getLsbD_or, BitVec.getLsbD_twoPow]
        rfl
      simp only [if_true, hb, decide_true]

theorem testBit_cleared (header : U64) : (header &&& ~~~0x2000#64).toNat.testBit 13 = false := by
  rw [BitVec.testBit_toNat, BitVec.getLsbD_and, BitVec.getLsbD_not,
    getLsbD_bit13 (by norm_num)]
  simp

/-! ## Frame lists -/

/-- One round of the loop on a complete frame. -/
theorem readFrames_frame {header : U8} {frame : Bytes} (acc : List Bytes) (rest : Bytes)
    (h : (header &&& ~~~0x80#8).toNat = frame.length) :
    readFrames (header :: (frame ++ rest)) acc =
      if header &&& 0x80#8 ≠ 0x80#8 then .ok (.ok (acc ++ [frame]), rest)
      else readFrames rest (acc ++ [frame]) := by
  have hs : BytesMut.splitTo (frame ++ rest) frame.length = .ok (frame,rest) := by
    rw [BytesMut.splitTo_of_le (by simp), List.take_left, List.drop_left]
  rw [readFrames, h, if_neg (by simp)]
  split
  · next he => rw [hs] at he; cases he
  · next he =>
      rw [hs] at he
      cases he
      rfl

/-- The loop stops after the last frame, wherever the buffer goes on. -/
theorem readFrames_writeFrames (frames : List Bytes) (acc : List Bytes) (rest : Bytes)
    (hne : frames ≠ []) (hlen : ∀ frame ∈ frames, frame.length ≤ 127) :
    readFrames (writeFrames frames ++ rest) acc = .ok (.ok (acc ++ frames), rest) := by
  induction frames generalizing acc with
  | nil => exact absurd rfl hne
  | cons frame frames ih =>
      have hf : frame.length ≤ 127 := hlen frame (by simp)
      have hk : (BitVec.ofNat 8 frame.length).toNat = frame.length := by
        rw [BitVec.toNat_ofNat]
        omega
      obtain ⟨t1,t2,t3,t4⟩ := frame_header (BitVec.ofNat 8 frame.length)
        (by rw [BitVec.le_def, hk]; exact hf)
      rw [writeFrames, List.cons_append, List.append_assoc]
      cases frames with
      | nil =>
          simp only [List.isEmpty_nil, if_true]
          rw [readFrames_frame acc _ (by rw [t1, hk]), if_pos t3]
          rfl
      | cons next frames =>
          have hr := ih (acc ++ [frame]) (by simp) fun f hf => hlen f (by simp [hf])
          simp only [List.isEmpty_cons, Bool.false_eq_true, if_false]
          rw [readFrames_frame acc _ (by rw [t2, hk]), if_neg (not_not.mpr t4), hr,
            List.append_assoc, List.singleton_append]

/-- Whatever the loop returns is a nonempty list of short frames. -/
theorem readFrames_image {buf rest : Bytes} {acc out : List Bytes}
    (h : readFrames buf acc = .ok (.ok out, rest)) :
    ∃ frames, frames ≠ [] ∧ out = acc ++ frames ∧ ∀ frame ∈ frames, frame.length ≤ 127 := by
  fun_induction readFrames buf acc with
  | case1 => cases h
  | case2 => cases h
  | case3 => cases h
  | case4 acc header buf len hl frame rest' hs hr hlast =>
      cases h
      refine ⟨[frame],by simp,rfl,?_⟩
      obtain ⟨hle,rfl,-⟩ := BytesMut.splitTo_eq hs
      intro f hf
      rw [List.mem_singleton.mp hf, List.length_take_of_le hle]
      exact frame_len_le header
  | case5 acc header buf len hl frame rest' hs hr hmore ih =>
      obtain ⟨frames,hne,rfl,hlen⟩ := ih h
      obtain ⟨hle,rfl,-⟩ := BytesMut.splitTo_eq hs
      refine ⟨buf.take len :: frames,by simp,by simp,?_⟩
      intro f hf
      rcases List.mem_cons.mp hf with rfl | hf
      · rw [List.length_take_of_le hle]
        exact frame_len_le header
      · exact hlen f hf

/-! ## Payloads -/

/-- Advancing to the cursor's position leaves what the cursor has not read. -/
theorem advance_cursor (front rest : Bytes) :
    BytesMut.advance (front ++ rest) ((front ++ rest).length - rest.length) = .ok rest := by
  rw [List.length_append, Nat.add_sub_cancel, BytesMut.advance_of_le (by simp), List.drop_left]

/-- A payload is read back from behind whatever header the cursor has passed. -/
theorem decodePayload_writePayload {payload : VoicePacketPayload} (header rest : Bytes)
    (h : payload.Representable) :
    decodePayload payload.kind (writePayload payload ++ rest)
      (header ++ (writePayload payload ++ rest)) = .ok (.ok payload, rest) := by
  cases payload with
  | celtAlpha frames =>
      have hf := readFrames_writeFrames frames [] rest h.1 h.2
      rw [decodePayload, if_pos (by simp [VoicePacketPayload.kind])]
      simp only [writePayload, advance_cursor, bind, Except.bind, hf]
      rfl
  | celtBeta frames =>
      have hf := readFrames_writeFrames frames [] rest h.1 h.2
      rw [decodePayload, if_pos (by simp [VoicePacketPayload.kind])]
      simp only [writePayload, advance_cursor, bind, Except.bind, hf]
      rfl
  | speex frames =>
      have hf := readFrames_writeFrames frames [] rest h.1 h.2
      rw [decodePayload, if_pos (by simp [VoicePacketPayload.kind])]
      simp only [writePayload, advance_cursor, bind, Except.bind, hf]
      rfl
  | opus frame flag =>
      obtain ⟨hlen,h13⟩ := h
      have hk : (BitVec.ofNat 64 frame.length).toNat = frame.length := by
        rw [BitVec.toNat_ofNat, Nat.mod_eq_of_lt hlen]
      have hb : (BitVec.ofNat 64 frame.length).getLsbD 13 = false := by
        rw [← BitVec.testBit_toNat, hk, h13]
      generalize hw : (if flag then 0x2000#64 else 0#64) ||| BitVec.ofNat 64 frame.length = word
      have ht : decide (word &&& 0x2000#64 = 0x2000#64) = flag := hw ▸ test_bit13 flag hb
      have hl : (word &&& ~~~0x2000#64).toNat = frame.length := by
        rw [← hw, clear_bit13 flag hb, hk]
      have hs : BytesMut.splitTo (frame ++ rest) frame.length = .ok (frame,rest) := by
        rw [BytesMut.splitTo_of_le (by simp), List.take_left, List.drop_left]
      rw [decodePayload, if_neg (by simp [VoicePacketPayload.kind]),
        if_pos (show VoicePacketPayload.kind (.opus frame flag) = 4#8 from rfl)]
      simp only [writePayload, hw, List.append_assoc, readVarint_writeVarint]
      rw [← List.append_assoc header, advance_cursor]
      simp only [bind, Except.bind, ht, hl, hs]
      rw [if_neg (by simp)]
      rfl

/-- The kind byte of a payload in the header, beside the target. -/
theorem header_fields : ∀ target : U8, target ≤ 31#8 →
    ∀ kind ∈ [0#8,2#8,3#8,4#8], (kind <<< 5 ||| target &&& 0b11111#8) >>> 5 = kind ∧
      (kind <<< 5 ||| target &&& 0b11111#8) &&& 0b11111#8 = target := by decide +kernel

theorem kind_mem (payload : VoicePacketPayload) : payload.kind ∈ [0#8,2#8,3#8,4#8] := by
  cases payload <;> simp [VoicePacketPayload.kind]

theorem readSessionId_writeSessionId (dst : VoicePacketDst) (sessionId : dst.SessionId)
    (rest : Bytes) :
    readSessionId dst (writeSessionId dst sessionId ++ rest) = .ok (sessionId,rest) := by
  cases dst with
  | serverbound => rfl
  | clientbound =>
      simp only [readSessionId, writeSessionId, readVarint_writeVarint, bind, Except.bind]
      exact congrArg (fun id => Except.ok (id,rest))
        (BitVec.setWidth_setWidth_of_le sessionId (by norm_num))

/-- Decoding an audio packet, given what its pieces decode to. -/
theorem decode_encode_audio {dst : VoicePacketDst} (target : U8) (sessionId : dst.SessionId)
    (seqNum : U64) (payload : VoicePacketPayload) (positionInfo : Option Bytes)
    (ht : target ≤ 31#8) (hp : payload.Representable) (hpos : positionInfo ≠ some []) :
    decode dst (encode (.audio target sessionId seqNum payload positionInfo) []) =
      .ok (.ok (some (.audio target sessionId seqNum payload positionInfo)),[]) := by
  obtain ⟨hkind,htarget⟩ := header_fields target ht payload.kind (kind_mem payload)
  have hk1 : payload.kind ≠ 1#8 := by cases payload <;> simp [VoicePacketPayload.kind]
  have hinfo : (if (positionInfo.getD []).isEmpty then none else some (positionInfo.getD [])) =
      positionInfo := by
    rcases positionInfo with _ | _ | ⟨b,bs⟩ <;> simp_all
  have hdec := decodePayload_writePayload
    ((payload.kind <<< 5 ||| target &&& 0b11111#8) ::
      (writeSessionId dst sessionId ++ writeVarint seqNum)) (positionInfo.getD []) hp
  simp only [List.cons_append, List.append_assoc] at hdec
  simp only [encode, List.nil_append, decode, readU8, hkind, htarget, if_neg hk1,
    readSessionId_writeSessionId, readVarint_writeVarint, hdec, bind, Except.bind, hinfo]
  rfl

/-- Representable packets survive the round trip. -/
theorem decode_encode {dst : VoicePacketDst} {p : VoicePacket dst} (h : p.Representable) :
    ∃ rest, decode dst (encode p []) = .ok (.ok (some p),rest) := by
  cases p with
  | ping timestamp =>
      have hr := readVarint_writeVarint timestamp []
      rw [List.append_nil] at hr
      refine ⟨0x20#8 :: writeVarint timestamp,?_⟩
      simp only [encode, List.nil_append, decode, readU8, hr]
      rfl
  | audio target sessionId seqNum payload positionInfo =>
      exact ⟨[],decode_encode_audio target sessionId seqNum payload positionInfo h.1 h.2.2 h.2.1⟩

/-- A decoded payload has only short frames, or a length without bit 13. -/
theorem decodePayload_image {kind : U8} {cursor buf rest : Bytes} {payload : VoicePacketPayload}
    (h : decodePayload kind cursor buf = .ok (.ok payload,rest)) : payload.Representable := by
  unfold decodePayload at h
  split at h
  · obtain ⟨buf',-,h⟩ := bind_eq_ok.mp h
    obtain ⟨⟨result,buf''⟩,hf,h⟩ := bind_eq_ok.mp h
    cases result with
    | error e => cases h
    | ok frames =>
        obtain ⟨fs,hne,rfl,hlen⟩ := readFrames_image hf
        simp only at h
        split_ifs at h <;> cases h <;> exact ⟨hne,hlen⟩
  · split at h
    · split at h
      · cases h
      · obtain ⟨buf',-,h⟩ := bind_eq_ok.mp h
        simp only at h
        split at h
        · cases h
        · obtain ⟨⟨frame,buf''⟩,hs,h⟩ := bind_eq_ok.mp h
          obtain ⟨hle,rfl,-⟩ := BytesMut.splitTo_eq hs
          cases h
          rw [VoicePacketPayload.Representable, List.length_take_of_le hle]
          exact ⟨BitVec.isLt _,testBit_cleared _⟩
    · cases h

theorem target_le : ∀ header : U8, header &&& 0b11111#8 ≤ 31#8 := by decide

/-- Only representable packets are ever decoded. -/
theorem decode_image {dst : VoicePacketDst} {buf rest : Bytes} {p : VoicePacket dst}
    (h : decode dst buf = .ok (.ok (some p),rest)) : p.Representable := by
  unfold decode at h
  split at h
  · cases h
  next header cursor _ =>
    simp only at h
    split at h
    · split at h <;> cases h
      trivial
    · split at h
      · cases h
      split at h
      · cases h
      obtain ⟨⟨result,left⟩,hp,h⟩ := bind_eq_ok.mp h
      cases result with
      | error e => cases h
      | ok payload =>
          cases h
          refine ⟨target_le header,?_,decodePayload_image hp⟩
          cases left <;> simp

/-- The round trip returns exactly the representable packets, and nothing else is
ever decoded. -/
theorem decode_encode_iff_representable (dst : VoicePacketDst) :
    (∀ p : VoicePacket dst,
      (∃ rest, decode dst (encode p []) = .ok (.ok (some p),rest)) ↔ p.Representable) ∧
    ∀ (buf rest : Bytes) (p : VoicePacket dst),
      decode dst buf = .ok (.ok (some p),rest) → p.Representable :=
  ⟨fun _ => ⟨fun ⟨_,h⟩ => decode_image h,decode_encode⟩,fun _ _ _ h => decode_image h⟩

end Atof.Voice
