import Atof.VoiceGrammar

/-!
# What becomes of frames that do not fit

The encoder never fails, and a length that is wider than its place spills into the
flag beside it or loses its high bits. The decoder then follows length bytes that
are none: it takes the rest of the frame, and whatever comes behind it, for more
frames. Where that chain of frames is complete another packet is returned, and
where it runs past the end an error.
-/
namespace Atof.Voice
open Rust Varint

variable {dst : VoicePacketDst}

/-- Empty position information and none are the same. -/
def VoicePacket.plain : VoicePacket dst → VoicePacket dst
  | .ping timestamp => .ping timestamp
  | .audio target sessionId seqNum payload positionInfo =>
      .audio target sessionId seqNum payload (some (positionInfo.getD []))

/-- The target is one of those that can be serialized. -/
def VoicePacket.HasTarget : VoicePacket dst → Prop
  | .ping _ => True
  | .audio target _ _ _ _ => target ≤ 31#8

/-- What is written for a packet is refused or read as the packet. -/
def NeverCorrupted (p : VoicePacket dst) : Prop :=
  ∃ answer rest, decode dst (encode p []) = .ok (answer,rest) ∧
    ((∃ e, answer = .error e) ∨ ∃ q, answer = .ok (some q) ∧ q.plain = p.plain)

/-- A complete chain of frames, and anything behind it. -/
def StartsWithFrames (buf : Bytes) : Prop :=
  ∃ bs frames rest, buf = bs ++ rest ∧ IsFrames bs frames

/-- After a frame of more than 127 bytes, of which the decoder takes as many as the low
seven bits of the length say, it goes on in the middle of the frame, unless the frame is
the last and bit 7 of its length is clear. What it finds there is no chain of frames.
Without any frame it looks at what follows the payload. -/
def Derails : List Bytes → Bytes → Prop
  | [], tail => ¬ StartsWithFrames tail
  | frame :: later, tail =>
      if frame.length ≤ 127 then later ≠ [] ∧ Derails later tail
      else (later ≠ [] ∨ frame.length.testBit 7 = true) ∧
        ¬ StartsWithFrames (frame.drop (frame.length % 128) ++ (writeFrames later ++ tail))

/-- An Opus length is never longer than what is there. -/
def VoicePacketPayload.Derails (tail : Bytes) : VoicePacketPayload → Prop
  | .celtAlpha frames | .celtBeta frames | .speex frames => Voice.Derails frames tail
  | .opus _ _ => False

/-- The payload is as the wire has it, or the decoder comes to a halt in it. -/
def VoicePacket.Safe : VoicePacket dst → Prop
  | .ping _ => True
  | .audio _ _ _ payload positionInfo =>
      payload.Representable ∨ payload.Derails (positionInfo.getD [])

/-! ## Chains of frames -/

theorem startsWithFrames_iff {buf : Bytes} :
    StartsWithFrames buf ↔ ∃ frames rest, readFrames buf [] = .ok (.ok frames,rest) := by
  constructor
  · rintro ⟨bs,frames,rest,rfl,h⟩
    exact ⟨_,rest,h.read [] rest⟩
  · rintro ⟨out,rest,h⟩
    obtain ⟨bs,frames,hbuf,hbs,-⟩ := isFrames_of_read h
    exact ⟨bs,frames,rest,hbuf,hbs⟩

theorem not_startsWithFrames_nil : ¬ StartsWithFrames [] := by
  rintro ⟨bs,frames,rest,h,hbs⟩
  cases hbs <;> cases h

/-- A length byte, as many bytes, and another length byte if its bit 7 says so. -/
theorem startsWithFrames_cons {header : U8} {frame buf : Bytes}
    (whole : (header &&& ~~~0x80#8).toNat = frame.length) :
    StartsWithFrames (header :: (frame ++ buf)) ↔
      header &&& 0x80#8 ≠ 0x80#8 ∨ StartsWithFrames buf := by
  by_cases hlast : header &&& 0x80#8 = 0x80#8
  · rw [or_iff_right (not_not.mpr hlast)]
    constructor
    · rintro ⟨bs,frames,rest,heq,hbs⟩
      cases hbs with
      | last ends whole' =>
          rw [List.cons_append] at heq
          obtain ⟨rfl,-⟩ := List.cons_eq_cons.mp heq
          exact absurd hlast ends
      | @more header' frame' bs frames goesOn whole' next =>
          rw [List.cons_append, List.append_assoc] at heq
          obtain ⟨rfl,hrest⟩ := List.cons_eq_cons.mp heq
          obtain ⟨-,rfl⟩ := List.append_inj hrest (whole.symm.trans whole')
          exact ⟨bs,frames,rest,rfl,next⟩
    · rintro ⟨bs,frames,rest,rfl,hbs⟩
      exact ⟨_,_,rest,by simp,.more hlast whole hbs⟩
  · exact iff_of_true ⟨_,_,buf,by simp,.last hlast whole⟩ (Or.inl hlast)

/-- The length byte of a frame of any length. -/
theorem length_byte : ∀ k : U8,
    ((0#8 ||| k) &&& ~~~0x80#8).toNat = k.toNat % 128 ∧
    ((0x80#8 ||| k) &&& ~~~0x80#8).toNat = k.toNat % 128 ∧
    ((0#8 ||| k) &&& 0x80#8 = 0x80#8 ↔ k.toNat.testBit 7 = true) ∧
    (0x80#8 ||| k) &&& 0x80#8 = 0x80#8 := by decide

theorem startsWithFrames_writeFrames (frame : Bytes) (later : List Bytes) (tail : Bytes) :
    StartsWithFrames (writeFrames (frame :: later) ++ tail) ↔
      ¬ (later ≠ [] ∨ frame.length.testBit 7 = true) ∨
        StartsWithFrames (frame.drop (frame.length % 128) ++ (writeFrames later ++ tail)) := by
  have hbyte := length_byte (BitVec.ofNat 8 frame.length)
  rw [BitVec.toNat_ofNat, Nat.mod_mod_of_dvd _ (show 128 ∣ 2 ^ 8 by decide),
    Nat.testBit_mod_two_pow, decide_eq_true (show 7 < 8 by decide), Bool.true_and] at hbyte
  obtain ⟨hlast,hmore,hbit,hgoes⟩ := hbyte
  have htake : (frame.take (frame.length % 128)).length = frame.length % 128 :=
    List.length_take_of_le (Nat.mod_le _ _)
  have hsplit : frame ++ (writeFrames later ++ tail) = frame.take (frame.length % 128) ++
      (frame.drop (frame.length % 128) ++ (writeFrames later ++ tail)) := by
    rw [← List.append_assoc (frame.take _), List.take_append_drop]
  rw [writeFrames, List.cons_append, List.append_assoc, hsplit]
  cases later with
  | nil =>
      rw [startsWithFrames_cons (by rw [htake]; exact hlast)]
      simp only [List.isEmpty_nil, if_true, ne_eq, hbit, not_true, false_or]
  | cons next later =>
      rw [startsWithFrames_cons (by rw [htake]; exact hmore)]
      simp [hgoes]

/-- Unless all frames fit, the decoder fails just where it derails. -/
theorem derails_iff {frames : List Bytes} (tail : Bytes)
    (h : ¬ (frames ≠ [] ∧ ∀ frame ∈ frames, frame.length ≤ 127)) :
    Derails frames tail ↔ ¬ StartsWithFrames (writeFrames frames ++ tail) := by
  induction frames with
  | nil => rfl
  | cons frame later ih =>
      rw [startsWithFrames_writeFrames, Derails, not_or, not_not]
      split
      · next hfits =>
          -- a short frame is read whole, and the chain goes on behind it
          have hlater : later ≠ [] := by
            rintro rfl
            exact h ⟨List.cons_ne_nil _ _,by simpa using hfits⟩
          have hmod : frame.length % 128 = frame.length := Nat.mod_eq_of_lt (by omega)
          rw [hmod, List.drop_length, List.nil_append, ih fun hall => h ⟨List.cons_ne_nil _ _,by
            simpa [hfits] using hall.2⟩]
          simp [hlater]
      · rfl

/-! ## Payloads and packets -/

/-- Reading a payload that was written fails on a chain that does not end. -/
theorem decodePayload_frames {payload : VoicePacketPayload} {frames : List Bytes}
    (hwrite : writePayload payload = writeFrames frames)
    (hkind : payload.kind = 0#8 ∨ payload.kind = 2#8 ∨ payload.kind = 3#8) (front tail : Bytes) :
    (∃ e rest, decodePayload payload.kind (writePayload payload ++ tail)
      (front ++ (writePayload payload ++ tail)) = .ok (.error e,rest)) ↔
      ¬ StartsWithFrames (writeFrames frames ++ tail) := by
  rw [startsWithFrames_iff, decodePayload, if_pos hkind, hwrite, advance_cursor]
  obtain ⟨⟨result,left⟩,hf⟩ := readFrames_returns (writeFrames frames ++ tail) []
  simp only [bind, Except.bind, hf]
  cases result with
  | error e => simp [pure, Except.pure]
  | ok frames => rcases hkind with hk | hk | hk <;> simp [hk, pure, Except.pure]

theorem decodePayload_opus (frame : Bytes) (flag : Bool) (front tail : Bytes) :
    ¬ ∃ e rest, decodePayload 4#8 (writePayload (.opus frame flag) ++ tail)
      (front ++ (writePayload (.opus frame flag) ++ tail)) = .ok (.error e,rest) := by
  rintro ⟨e,rest,h⟩
  generalize hw : (if flag then 0x2000#64 else 0#64) ||| BitVec.ofNat 64 frame.length = word at *
  have hlen : (word &&& ~~~0x2000#64).toNat ≤ frame.length := by
    have hmask : word &&& ~~~0x2000#64 = BitVec.ofNat 64 frame.length &&& ~~~0x2000#64 := by
      rw [← hw]
      cases flag with
      | false => rw [if_neg (by decide), BitVec.zero_or]
      | true => rw [if_pos rfl, BitVec.and_comm, BitVec.and_or_distrib_left,
          BitVec.and_comm _ (BitVec.ofNat 64 frame.length), show ~~~0x2000#64 &&& 0x2000#64 = 0#64 by
          decide, BitVec.zero_or]
    rw [hmask, BitVec.toNat_and, BitVec.toNat_ofNat]
    exact Nat.and_le_left.trans (Nat.mod_le _ _)
  rw [decodePayload, if_neg (by decide), if_pos rfl] at h
  simp only [writePayload, hw, List.append_assoc, readVarint_writeVarint] at h
  rw [← List.append_assoc front, advance_cursor] at h
  simp only [bind, Except.bind] at h
  rw [if_neg (by rw [List.length_append]; omega), BytesMut.splitTo_of_le (by
    rw [List.length_append]; omega)] at h
  cases h

/-- The header of an audio packet is read as it was written, so decoding fails where the
payload's does. -/
theorem decode_encode_fails {target : U8} (sessionId : dst.SessionId) (seqNum : U64)
    (payload : VoicePacketPayload) (positionInfo : Option Bytes) (ht : target ≤ 31#8) :
    ∃ front, (∃ e rest, decode dst (encode (.audio target sessionId seqNum payload positionInfo) []) =
      .ok (.error e,rest)) ↔
      ∃ e rest, decodePayload payload.kind (writePayload payload ++ positionInfo.getD [])
        (front ++ (writePayload payload ++ positionInfo.getD [])) = .ok (.error e,rest) := by
  obtain ⟨hkind,-⟩ := header_fields target ht payload.kind (kind_mem payload)
  have hk1 : payload.kind ≠ 1#8 := by cases payload <;> simp [VoicePacketPayload.kind]
  refine ⟨(payload.kind <<< 5 ||| target &&& 0b11111#8) ::
    (writeSessionId dst sessionId ++ writeVarint seqNum),?_⟩
  simp only [encode, List.nil_append, decode, readU8, hkind, if_neg hk1,
    readSessionId_writeSessionId, readVarint_writeVarint, List.cons_append, List.append_assoc]
  rcases decodePayload payload.kind (writePayload payload ++ positionInfo.getD []) _ with
    panic | ⟨e | decoded,left⟩ <;> simp [bind, Except.bind, pure, Except.pure]

theorem VoicePacketPayload.derails_iff {payload : VoicePacketPayload} (front tail : Bytes)
    (h : ¬ payload.Representable) : payload.Derails tail ↔
      ∃ e rest, decodePayload payload.kind (writePayload payload ++ tail)
        (front ++ (writePayload payload ++ tail)) = .ok (.error e,rest) := by
  cases payload with
  | celtAlpha frames | speex frames | celtBeta frames =>
      rw [decodePayload_frames rfl (by simp [kind])]
      exact Voice.derails_iff tail h
  | opus frame flag => exact iff_of_false id (decodePayload_opus frame flag front tail)

/-- A packet that fits is decoded, one that does not is refused if the decoder derails,
and otherwise another packet comes out. -/
theorem neverCorrupted_iff (p : VoicePacket dst) (h : p.HasTarget) : NeverCorrupted p ↔ p.Safe := by
  cases p with
  | ping timestamp =>
      obtain ⟨rest,hd⟩ := decode_encode (show (VoicePacket.ping timestamp).Representable from trivial)
      exact iff_of_true ⟨_,rest,hd,Or.inr ⟨_,rfl,rfl⟩⟩ trivial
  | audio target sessionId seqNum payload positionInfo =>
      by_cases hp : payload.Representable
      · refine iff_of_true ?_ (Or.inl hp)
        have hplain : encode (.audio target sessionId seqNum payload positionInfo) [] =
            encode (.audio target sessionId seqNum payload
              (if positionInfo = some [] then none else positionInfo)) [] := by
          split
          · next hempty => rw [hempty]; rfl
          · rfl
        have hrep : (VoicePacket.audio target sessionId seqNum payload
            (if positionInfo = some [] then none else positionInfo)).Representable :=
          ⟨h,by split <;> simp_all,hp⟩
        obtain ⟨rest,hd⟩ := decode_encode hrep
        refine ⟨_,rest,hplain ▸ hd,Or.inr ⟨_,rfl,?_⟩⟩
        split
        · next hempty => rw [hempty]; rfl
        · rfl
      obtain ⟨front,hfails⟩ := decode_encode_fails sessionId seqNum payload positionInfo h
      have hderails := VoicePacketPayload.derails_iff front (positionInfo.getD []) hp
      rw [VoicePacket.Safe, or_iff_right hp, hderails, ← hfails]
      constructor
      · rintro ⟨answer,rest,hd,⟨e,rfl⟩ | ⟨q,rfl,hq⟩⟩
        · exact ⟨e,rest,hd⟩
        · -- only representable packets are decoded
          have himage := decode_image hd
          cases q with
          | ping timestamp => cases hq
          | audio target' sessionId' seqNum' payload' positionInfo' =>
              obtain ⟨-,-,-,rfl,-⟩ := VoicePacket.audio.inj hq
              exact absurd himage.2.2 hp
      · rintro ⟨e,rest,hd⟩
        exact ⟨_,rest,hd,Or.inl ⟨e,rfl⟩⟩

/-- A packet without position information. -/
def withFrames (frames : List Bytes) : VoicePacket .serverbound :=
  .audio 0 () 1 (.celtAlpha frames) none

/-- After 127 of 255 bytes the decoder finds another frame of 127, and then nothing. -/
theorem safe_ones {frame : Bytes} (h : frame = List.replicate 255 0xff#8) :
    (withFrames [frame]).Safe := by
  have hlength : frame.length = 255 := h ▸ List.length_replicate
  have hrest : frame.drop 127 = 0xff#8 :: (List.replicate 127 0xff#8 ++ []) := by
    rw [h, List.drop_replicate, List.append_nil, ← List.replicate_succ]
  have hderails : Derails [frame] [] := by
    rw [Derails, hlength, if_neg (by decide)]
    refine ⟨Or.inr (by decide),?_⟩
    change ¬ StartsWithFrames (frame.drop 127 ++ [])
    rw [List.append_nil, hrest, startsWithFrames_cons (by rw [List.length_replicate]; decide)]
    rintro (hgoes | hframes)
    · exact hgoes (by decide)
    · exact not_startsWithFrames_nil hframes
  exact Or.inr hderails

/-- A frame of 255 ones is too long, and it is refused. -/
theorem neverCorrupted_ones : ∃ frame : Bytes, frame = List.replicate 255 0xff#8 ∧
    NeverCorrupted (withFrames [frame]) := by
  obtain ⟨frame,hframe⟩ : ∃ frame : Bytes, frame = List.replicate 255 0xff#8 := ⟨_,rfl⟩
  exact ⟨frame,hframe,(neverCorrupted_iff (withFrames [frame])
    (show (0 : U8) ≤ 31#8 by decide)).mpr (safe_ones hframe)⟩

/-- What is written for a frame of 128 zeros, as the decoder takes it to pieces. -/
def zeros : Pieces := ⟨0,[],writeVarint 1,[0x80,0],List.replicate 127 0⟩

theorem encode_zeros : encode (withFrames [List.replicate 128 0]) [] = zeros.bytes := by
  have hpayload : writePayload (.celtAlpha [List.replicate 128 0]) =
      [0x80,0] ++ List.replicate 127 0 := by decide +kernel
  simp only [withFrames, encode, hpayload]
  rfl

theorem isAudio_zeros : zeros.IsAudio
    (.audio 0 () 1 (.celtAlpha [[],[]]) (some (List.replicate 127 0)) : VoicePacket .serverbound) := by
  have hframes : IsFrames [0x80,0] [[],[]] := @IsFrames.more _ [] _ _ (by decide) rfl
    (.last (by decide) rfl)
  have hbody : IsPayload (zeros.header >>> 5) zeros.body (.celtAlpha [[],[]]) := by
    rw [show zeros.header >>> 5 = 0#8 by decide]
    exact .celtAlpha hframes
  exact Pieces.IsAudio.mk (show IsSessionId .serverbound zeros.session () from rfl)
    (isVarint_writeVarint 1) hbody

/-- It is read as two empty frames and 127 bytes of position information. -/
theorem corrupted : ¬ ∀ p : VoicePacket .serverbound, p.HasTarget → NeverCorrupted p := by
  intro h
  obtain ⟨answer,rest,hd,hanswer⟩ := h (withFrames [List.replicate 128 0])
    (show (0 : U8) ≤ 31#8 by decide)
  rw [encode_zeros, isAudio_zeros.decode] at hd
  cases hd
  rcases hanswer with ⟨e,he⟩ | ⟨q,hq,hplain⟩
  · cases he
  · cases hq
    cases hplain

end Atof.Voice
