import Atof.VoiceRoundTrip
import Atof.VarintGrammar

/-!
# The grammar of voice packets

The wire format is described by the pieces that packets are put together from. The
decoder, which works on a cursor and on the buffer in turn, accepts the byte strings
of the grammar and no others, never panics and never asks for more. Every piece is
found where it ends, so a byte string is put together in one way.
-/
namespace Atof.Voice
open Rust BigEndian Varint

/-! ## Pieces -/

/-- Frames behind their length bytes; bit 7 of a length byte says that another frame
follows. -/
inductive IsFrames : Bytes → List Bytes → Prop
  | last {header : U8} {frame : Bytes} (ends : header &&& 0x80#8 ≠ 0x80#8)
      (whole : (header &&& ~~~0x80#8).toNat = frame.length) : IsFrames (header :: frame) [frame]
  | more {header : U8} {frame bs : Bytes} {frames : List Bytes}
      (goesOn : header &&& 0x80#8 = 0x80#8)
      (whole : (header &&& ~~~0x80#8).toNat = frame.length) (next : IsFrames bs frames) :
      IsFrames (header :: (frame ++ bs)) (frame :: frames)

/-- The session id is on client-bound packets only, and of a complete integer the low
32 bits. -/
def IsSessionId : (dst : VoicePacketDst) → Bytes → dst.SessionId → Prop
  | .serverbound, bs, _ => bs = []
  | .clientbound, bs, sessionId => ∃ value, IsVarint bs value ∧ sessionId = value.setWidth 32

/-- A payload by its kind: frames, or for Opus an integer with the termination flag in
bit 13 and the length in the others, and so many bytes. -/
inductive IsPayload : U8 → Bytes → VoicePacketPayload → Prop
  | celtAlpha {bs : Bytes} {frames : List Bytes} (body : IsFrames bs frames) :
      IsPayload 0#8 bs (.celtAlpha frames)
  | speex {bs : Bytes} {frames : List Bytes} (body : IsFrames bs frames) :
      IsPayload 2#8 bs (.speex frames)
  | celtBeta {bs : Bytes} {frames : List Bytes} (body : IsFrames bs frames) :
      IsPayload 3#8 bs (.celtBeta frames)
  | opus {bs frame : Bytes} {header : U64} (head : IsVarint bs header)
      (whole : (header &&& ~~~0x2000#64).toNat = frame.length) :
      IsPayload 4#8 (bs ++ frame) (.opus frame (decide (header &&& 0x2000#64 = 0x2000#64)))

/-- The pieces of an audio packet after its header byte. -/
structure Pieces where
  header : U8
  session : Bytes
  seq : Bytes
  body : Bytes
  rest : Bytes

def Pieces.bytes (x : Pieces) : Bytes :=
  x.header :: (x.session ++ (x.seq ++ (x.body ++ x.rest)))

/-- The packet that pieces stand for. -/
inductive Pieces.IsAudio {dst : VoicePacketDst} (x : Pieces) : VoicePacket dst → Prop
  | mk {sessionId : dst.SessionId} {seqNum : U64} {payload : VoicePacketPayload}
      (session : IsSessionId dst x.session sessionId) (seq : IsVarint x.seq seqNum)
      (body : IsPayload (x.header >>> 5) x.body payload) :
      x.IsAudio (.audio (x.header &&& 0b11111#8) sessionId seqNum payload
        (if x.rest = [] then none else some x.rest))

/-- A ping is a header and a complete integer; what follows is ignored. -/
def IsPing (buf : Bytes) (timestamp : U64) : Prop :=
  ∃ header bs rest, buf = header :: (bs ++ rest) ∧ header >>> 5 = 1#8 ∧ IsVarint bs timestamp

/-! ## Frames -/

theorem IsFrames.read {bs : Bytes} {frames : List Bytes} (h : IsFrames bs frames)
    (acc : List Bytes) (rest : Bytes) :
    readFrames (bs ++ rest) acc = .ok (.ok (acc ++ frames),rest) := by
  induction h generalizing acc with
  | last ends whole => rw [List.cons_append, readFrames_frame acc rest whole, if_pos ends]
  | more goesOn whole next ih =>
      rw [List.cons_append, List.append_assoc, readFrames_frame acc _ whole,
        if_neg (not_not.mpr goesOn), ih, List.append_assoc, List.singleton_append]

theorem isFrames_of_read {buf rest : Bytes} {acc out : List Bytes}
    (h : readFrames buf acc = .ok (.ok out,rest)) :
    ∃ bs frames, buf = bs ++ rest ∧ IsFrames bs frames ∧ out = acc ++ frames := by
  fun_induction readFrames buf acc with
  | case1 => cases h
  | case2 => cases h
  | case3 => cases h
  | case4 acc header buf len hl frame rest' hs hr hlast =>
      cases h
      obtain ⟨hle,rfl,rfl⟩ := BytesMut.splitTo_eq hs
      refine ⟨header :: buf.take len,[buf.take len],?_,.last hlast ?_,rfl⟩
      · rw [List.cons_append, List.take_append_drop]
      · exact (List.length_take_of_le hle).symm
  | case5 acc header buf len hl frame rest' hs hr hmore ih =>
      obtain ⟨hle,rfl,rfl⟩ := BytesMut.splitTo_eq hs
      obtain ⟨bs,frames,hbuf,hbs,rfl⟩ := ih h
      refine ⟨header :: (buf.take len ++ bs),buf.take len :: frames,?_,
        .more (not_not.mp hmore) (List.length_take_of_le hle).symm hbs,by simp⟩
      rw [List.cons_append, List.append_assoc, ← hbuf, List.take_append_drop]

/-- The loop checks before it takes. -/
theorem readFrames_returns (buf : Bytes) (acc : List Bytes) :
    ∃ r, readFrames buf acc = .ok r := by
  fun_induction readFrames buf acc with
  | case1 => exact ⟨_,rfl⟩
  | case2 => exact ⟨_,rfl⟩
  | case3 acc header buf len hl panic hs =>
      rw [BytesMut.splitTo_of_le (Nat.le_of_not_lt hl)] at hs
      cases hs
  | case4 => exact ⟨_,rfl⟩
  | case5 acc header buf len hl frame rest hs hr hmore ih => exact ih

/-! ## Payloads -/

theorem IsPayload.read {kind : U8} {body : Bytes} {payload : VoicePacketPayload}
    (h : IsPayload kind body payload) (front rest : Bytes) :
    decodePayload kind (body ++ rest) (front ++ (body ++ rest)) = .ok (.ok payload,rest) := by
  cases h with
  | celtAlpha hb | speex hb | celtBeta hb =>
      rw [decodePayload, if_pos (by decide)]
      simp only [advance_cursor, bind, Except.bind, hb.read [] rest]
      rfl
  | @opus bs frame header head whole =>
      have hs : BytesMut.splitTo (frame ++ rest) frame.length = .ok (frame,rest) := by
        rw [BytesMut.splitTo_of_le (by simp), List.take_left, List.drop_left]
      rw [decodePayload, if_neg (by decide), if_pos rfl, List.append_assoc]
      simp only [head.read, ← List.append_assoc front, advance_cursor, bind, Except.bind, whole, hs]
      rw [if_neg (by simp)]
      rfl

theorem isPayload_of_read {kind : U8} {front cursor rest : Bytes} {payload : VoicePacketPayload}
    (h : decodePayload kind cursor (front ++ cursor) = .ok (.ok payload,rest)) :
    ∃ body, cursor = body ++ rest ∧ IsPayload kind body payload := by
  unfold decodePayload at h
  split at h
  · next hkind =>
      rw [advance_cursor] at h
      obtain ⟨buf,hb,h⟩ := bind_eq_ok.mp h
      cases hb
      obtain ⟨⟨result,left⟩,hf,h⟩ := bind_eq_ok.mp h
      cases result with
      | error e => cases h
      | ok out =>
          obtain ⟨bs,frames,hbuf,hbs,rfl⟩ := isFrames_of_read hf
          simp only at h
          split_ifs at h with h0 h2 h3
          all_goals cases h
          · exact ⟨bs,hbuf,h0 ▸ .celtAlpha hbs⟩
          · exact ⟨bs,hbuf,h2 ▸ .speex hbs⟩
          · exact ⟨bs,hbuf,h3 ▸ .celtBeta hbs⟩
  · split at h
    · next h4 =>
        split at h
        · cases h
        · next header cursor' hv =>
            obtain ⟨bs,rfl,hbs⟩ := isVarint_of_read hv
            rw [← List.append_assoc, advance_cursor] at h
            simp only [bind, Except.bind] at h
            split at h
            · cases h
            · next hlen =>
                rw [BytesMut.splitTo_of_le (Nat.le_of_not_lt hlen)] at h
                cases h
                refine ⟨bs ++ cursor'.take (header &&& ~~~0x2000#64).toNat,?_,
                  h4 ▸ .opus hbs (List.length_take_of_le (Nat.le_of_not_lt hlen)).symm⟩
                rw [List.append_assoc, List.take_append_drop]
    · cases h

theorem decodePayload_returns (kind : U8) (front cursor : Bytes) :
    ∃ r, decodePayload kind cursor (front ++ cursor) = .ok r := by
  unfold decodePayload
  split
  · next hkind =>
      obtain ⟨⟨result,left⟩,hf⟩ := readFrames_returns cursor []
      simp only [advance_cursor, bind, Except.bind, hf]
      cases result with
      | error e => exact ⟨_,rfl⟩
      | ok frames =>
          rcases hkind with rfl | rfl | rfl <;> exact ⟨_,rfl⟩
  · split
    · split
      · exact ⟨_,rfl⟩
      · next header cursor' hv =>
          obtain ⟨bs,rfl,hbs⟩ := isVarint_of_read hv
          simp only [← List.append_assoc, advance_cursor, bind, Except.bind]
          split
          · exact ⟨_,rfl⟩
          · next hlen =>
              rw [BytesMut.splitTo_of_le (Nat.le_of_not_lt hlen)]
              exact ⟨_,rfl⟩
    · exact ⟨_,rfl⟩

/-! ## Packets -/

theorem IsSessionId.read {dst : VoicePacketDst} {bs : Bytes} {sessionId : dst.SessionId}
    (h : IsSessionId dst bs sessionId) (rest : Bytes) :
    readSessionId dst (bs ++ rest) = .ok (sessionId,rest) := by
  cases dst with
  | serverbound =>
      change bs = [] at h
      rw [h]
      rfl
  | clientbound =>
      obtain ⟨value,hv,rfl⟩ := h
      simp only [readSessionId, hv.read, bind, Except.bind]
      rfl

theorem isSessionId_of_read {dst : VoicePacketDst} {buf rest : Bytes} {sessionId : dst.SessionId}
    (h : readSessionId dst buf = .ok (sessionId,rest)) :
    ∃ bs, buf = bs ++ rest ∧ IsSessionId dst bs sessionId := by
  cases dst with
  | serverbound =>
      cases h
      exact ⟨[],rfl,rfl⟩
  | clientbound =>
      obtain ⟨⟨value,rest'⟩,hv,h⟩ := bind_eq_ok.mp h
      cases h
      obtain ⟨bs,hbuf,hbs⟩ := isVarint_of_read hv
      exact ⟨bs,hbuf,value,hbs,rfl⟩

/-- The kind of a payload is none of a ping. -/
theorem IsPayload.kind_ne {kind : U8} {body : Bytes} {payload : VoicePacketPayload}
    (h : IsPayload kind body payload) : kind ≠ 1#8 := by
  cases h <;> decide

theorem Pieces.IsAudio.decode {dst : VoicePacketDst} {x : Pieces} {packet : VoicePacket dst}
    (h : x.IsAudio packet) : Voice.decode dst x.bytes = .ok (.ok (some packet),[]) := by
  obtain ⟨session,seq,body⟩ := h
  have hfront : x.bytes = (x.header :: (x.session ++ x.seq)) ++ (x.body ++ x.rest) := by
    simp [bytes]
  have hpayload := body.read (x.header :: (x.session ++ x.seq)) x.rest
  rw [← hfront] at hpayload
  rw [Voice.decode, bytes]
  simp only [readU8, if_neg body.kind_ne, session.read, seq.read]
  rw [← bytes, hpayload]
  cases hrest : x.rest <;> rfl

theorem isAudio_of_decode {dst : VoicePacketDst} {buf rest : Bytes} {target : U8}
    {sessionId : dst.SessionId} {seqNum : U64} {payload : VoicePacketPayload}
    {positionInfo : Option Bytes} (h : decode dst buf =
      .ok (.ok (some (.audio target sessionId seqNum payload positionInfo)),rest)) :
    ∃ x : Pieces, x.bytes = buf ∧
      x.IsAudio (VoicePacket.audio target sessionId seqNum payload positionInfo : VoicePacket dst) := by
  cases buf with
  | nil => cases h
  | cons header cursor =>
      simp only [decode, readU8] at h
      split at h
      · split at h <;> cases h
      split at h
      · cases h
      next session cursor₁ hsession =>
      split at h
      · cases h
      next seq cursor₂ hseq =>
      obtain ⟨bs,rfl,hbs⟩ := isSessionId_of_read hsession
      obtain ⟨bs',rfl,hbs'⟩ := isVarint_of_read hseq
      obtain ⟨⟨result,left⟩,hp,h⟩ := bind_eq_ok.mp h
      cases result with
      | error e => cases h
      | ok payload =>
          cases h
          rw [← List.append_assoc, ← List.cons_append] at hp
          obtain ⟨body,rfl,hbody⟩ := isPayload_of_read hp
          refine ⟨⟨header,bs,bs',body,left⟩,rfl,?_⟩
          have hmk := Pieces.IsAudio.mk (x := ⟨header,bs,bs',body,left⟩) hbs hbs' hbody
          cases left <;> exact hmk

theorem decode_returns (dst : VoicePacketDst) (buf : Bytes) :
    ∃ answer rest, decode dst buf = .ok (answer,rest) ∧ answer ≠ .ok none := by
  cases buf with
  | nil => exact ⟨_,_,rfl,by simp⟩
  | cons header cursor =>
      simp only [decode, readU8]
      split
      · split
        · exact ⟨_,_,rfl,by simp⟩
        · exact ⟨_,_,rfl,by simp⟩
      split
      · exact ⟨_,_,rfl,by simp⟩
      next session cursor₁ hsession =>
      split
      · exact ⟨_,_,rfl,by simp⟩
      next seq cursor₂ hseq =>
      obtain ⟨bs,rfl,hbs⟩ := isSessionId_of_read hsession
      obtain ⟨bs',rfl,hbs'⟩ := isVarint_of_read hseq
      rw [← List.append_assoc, ← List.cons_append]
      obtain ⟨⟨result,left⟩,hp⟩ := decodePayload_returns (header >>> 5)
        (header :: (bs ++ bs')) cursor₂
      rw [hp]
      cases result with
      | error e => exact ⟨_,_,rfl,by simp⟩
      | ok payload => exact ⟨_,_,rfl,by simp⟩

theorem IsPing.decode {buf : Bytes} {timestamp : U64} (h : IsPing buf timestamp) :
    Voice.decode dst buf = .ok (.ok (some (.ping timestamp)),buf) := by
  obtain ⟨header,bs,rest,rfl,hkind,hbs⟩ := h
  simp only [Voice.decode, readU8, if_pos hkind, hbs.read]

theorem decode_ping_iff (dst : VoicePacketDst) (buf : Bytes) (timestamp : U64) :
    (∃ rest, decode dst buf = .ok (.ok (some (.ping timestamp)),rest)) ↔ IsPing buf timestamp := by
  constructor
  · rintro ⟨rest,h⟩
    cases buf with
    | nil => cases h
    | cons header cursor =>
        simp only [decode, readU8] at h
        split at h
        · next hkind =>
            split at h
            · cases h
            · next hv =>
                cases h
                obtain ⟨bs,rfl,hbs⟩ := isVarint_of_read hv
                exact ⟨header,bs,_,rfl,hkind,hbs⟩
        · split at h
          · cases h
          split at h
          · cases h
          obtain ⟨⟨result,left⟩,hp,h⟩ := bind_eq_ok.mp h
          cases result <;> cases h
  · exact fun hping => ⟨buf,hping.decode⟩

theorem IsSessionId.unique {dst : VoicePacketDst} {bs bs' rest rest' : Bytes}
    {sessionId sessionId' : dst.SessionId} (h : IsSessionId dst bs sessionId)
    (h' : IsSessionId dst bs' sessionId') (heq : bs ++ rest = bs' ++ rest') :
    bs = bs' ∧ sessionId = sessionId' ∧ rest = rest' := by
  have hr := h.read rest
  rw [heq, h'.read rest'] at hr
  cases hr
  exact ⟨List.append_cancel_right heq,rfl,rfl⟩

theorem IsPayload.unique {kind : U8} {bs bs' rest rest' : Bytes}
    {payload payload' : VoicePacketPayload} (h : IsPayload kind bs payload)
    (h' : IsPayload kind bs' payload') (heq : bs ++ rest = bs' ++ rest') :
    bs = bs' ∧ payload = payload' ∧ rest = rest' := by
  have hr := h.read [] rest
  rw [heq, h'.read [] rest'] at hr
  cases hr
  exact ⟨List.append_cancel_right heq,rfl,rfl⟩

/-- Two ways of putting a byte string together are one. -/
theorem Pieces.IsAudio.unique {dst : VoicePacketDst} {x x' : Pieces} {packet packet' : VoicePacket dst}
    (h : x.IsAudio packet) (h' : x'.IsAudio packet') (heq : x.bytes = x'.bytes) :
    x = x' ∧ packet = packet' := by
  obtain ⟨header,session,seq,body,rest⟩ := x
  obtain ⟨header',session',seq',body',rest'⟩ := x'
  obtain ⟨hsession,hseq,hbody⟩ := h
  obtain ⟨hsession',hseq',hbody'⟩ := h'
  obtain ⟨rfl,heq⟩ := List.cons_eq_cons.mp heq
  obtain ⟨rfl,rfl,heq⟩ := hsession.unique hsession' heq
  obtain ⟨rfl,rfl,heq⟩ := hseq.unique hseq' heq
  obtain ⟨rfl,rfl,rfl⟩ := hbody.unique hbody' heq
  exact ⟨rfl,rfl⟩

/-- The decoder returns a ping or an audio packet exactly on the byte strings that the
grammar puts together so, in one way each, and an error on all others. -/
theorem decode_grammar (dst : VoicePacketDst) (buf : Bytes) :
    (∀ timestamp, (∃ rest, decode dst buf = .ok (.ok (some (.ping timestamp)),rest)) ↔
      IsPing buf timestamp) ∧
    (∀ (target : U8) (sessionId : dst.SessionId) (seqNum : U64) (payload : VoicePacketPayload)
      (positionInfo : Option Bytes), (∃ rest, decode dst buf =
        .ok (.ok (some (.audio target sessionId seqNum payload positionInfo)),rest)) ↔
      ∃ x : Pieces, x.bytes = buf ∧
        x.IsAudio (VoicePacket.audio target sessionId seqNum payload positionInfo : VoicePacket dst)) ∧
    (∀ (x x' : Pieces) (packet packet' : VoicePacket dst), x.bytes = buf → x'.bytes = buf →
      x.IsAudio packet → x'.IsAudio packet' → x = x' ∧ packet = packet') ∧
    ((∃ e rest, decode dst buf = .ok (.error e,rest)) ↔
      (∀ timestamp, ¬ IsPing buf timestamp) ∧
        ∀ (x : Pieces) (packet : VoicePacket dst), x.bytes = buf → ¬ x.IsAudio packet) := by
  refine ⟨fun _ => decode_ping_iff dst buf _,fun _ _ _ _ _ => ⟨fun ⟨_,h⟩ => isAudio_of_decode h,?_⟩,?_,?_,?_⟩
  · rintro ⟨x,rfl,hx⟩
    exact ⟨[],hx.decode⟩
  · intro x x' packet packet' hx hx' h h'
    exact h.unique h' (hx.trans hx'.symm)
  · rintro ⟨e,rest,h⟩
    refine ⟨fun timestamp hping => ?_,fun x packet hx haudio => ?_⟩
    · obtain ⟨rest',h'⟩ := (decode_ping_iff dst buf timestamp).mpr hping
      rw [h] at h'
      cases h'
    · have h' := haudio.decode
      rw [hx, h] at h'
      cases h'
  · rintro ⟨hping,haudio⟩
    obtain ⟨answer,rest,h,hne⟩ := decode_returns dst buf
    rcases answer with e | _ | packet
    · exact ⟨e,rest,h⟩
    · exact absurd rfl hne
    · cases packet with
      | ping timestamp => exact absurd ((decode_ping_iff dst buf timestamp).mp ⟨rest,h⟩) (hping timestamp)
      | audio target sessionId seqNum payload positionInfo =>
          obtain ⟨x,hx,hxa⟩ := isAudio_of_decode h
          exact absurd hxa (haudio x _ hx)

end Atof.Voice
