import Atof.ControlCodec
import Atof.Tasks

/-!
# From one client to another

A session task hands the voice packets and text messages of its client to the
routing task, which rebuilds each for its recipients: audio gets the session id, a
text message its actor. Audio reaches the recipient's decoder as it left the
sender's. Its frame need not: the encoder writes frames of any size, and the decoder
refuses those above the limit.
-/
namespace Atof.Server
open Rust BigEndian Varint Voice Control

/-- What a session task hands to the routing task. -/
def forwarded (sessionId : SessionID) : ControlPacket .serverbound → Option RoutingMessage
  | .udpTunnel voicePacket => some (.voice sessionId voicePacket)
  | .textMessage textMessage => some (.text sessionId textMessage)
  | _ => none

/-- Audio is rebuilt with the session id, and nothing else about it changes. -/
theorem mem_handleRouting_audio {sessionId : SessionID} {target : U8} {seqNum : U64}
    {payload : VoicePacketPayload} {positionInfo : Option Bytes} {rtbl : RoutingTable}
    {routing : Channel RoutingMessage} {d : Delivery}
    (h : d ∈ (handleRouting (.voice sessionId (.audio target () seqNum payload positionInfo))
      rtbl routing).1) :
    d.packet = .udpTunnel (.audio target sessionId seqNum payload positionInfo) := by
  simp only [handleRouting] at h
  split at h
  · cases h
  · cases h
  · obtain ⟨peer,-,rfl⟩ := List.mem_map.mp h
    rfl

theorem mem_handleRouting_text {sessionId : SessionID} {message : TextMessage} {rtbl : RoutingTable}
    {routing : Channel RoutingMessage} {d : Delivery}
    (h : d ∈ (handleRouting (.text sessionId message) rtbl routing).1) :
    d.packet = .textMessage (message.setActor sessionId) := by
  obtain ⟨peer,-,rfl⟩ := List.mem_map.mp h
  rfl

/-- Whatever a body is decoded to on the server, each recipient's body is decoded to on
the client, with the sender's session id. -/
theorem relayed_audio (P : Protobuf) (rtbl : RoutingTable) (routing : Channel RoutingMessage)
    (sessionId : SessionID) (b : Bytes) (seqNum : U64) (payload : VoicePacketPayload)
    (positionInfo : Option Bytes) (d : Delivery)
    (hb : tryFrom P .serverbound ⟨PacketType.id .udpTunnel,b⟩ =
      .ok (.ok (.udpTunnel (.audio 0 () seqNum payload positionInfo))))
    (hd : d ∈ (handleRouting (.voice sessionId (.audio 0 () seqNum payload positionInfo))
      rtbl routing).1) :
    (intoRaw P d.packet).id = PacketType.id .udpTunnel ∧
    tryFrom P .clientbound (intoRaw P d.packet) =
      .ok (.ok (.udpTunnel (.audio 0 sessionId seqNum payload positionInfo))) := by
  rw [mem_handleRouting_audio hd]
  refine ⟨rfl,tryFrom_iff.mpr ?_⟩
  cases tryFrom_iff.mp hb with
  | voice id decoded =>
      obtain ⟨ht,hpos,hpayload⟩ := decode_image decoded
      let relayed : VoicePacket .clientbound := .audio 0 sessionId seqNum payload positionInfo
      have hrelayed : relayed.Representable := ⟨ht,hpos,hpayload⟩
      obtain ⟨rest,hrest⟩ := decode_encode hrelayed
      exact .voice rfl hrest

/-- Two sessions in the same room. -/
def pair : RoutingTable :=
  ((∅ : RoutingTable).enrollSession 0 [] ⟨0⟩).enrollSession 300 [] ⟨300⟩

/-- A sequence number of three bytes where one is enough, an empty frame before one of
two bytes, and a position; from a session whose id takes two bytes. -/
theorem relayed_audio_pair :
    let d : Delivery := ⟨⟨0⟩,.udpTunnel (.audio 0 300#32 9 (.speex [[],[7,8]]) (some [1,2,3]))⟩
    (intoRaw blank d.packet).id = PacketType.id .udpTunnel ∧
    tryFrom blank .clientbound (intoRaw blank d.packet) =
      .ok (.ok (.udpTunnel (.audio 0 300#32 9 (.speex [[],[7,8]]) (some [1,2,3])))) := by
  intro d
  have hb : Voice.decode .serverbound [0x40,0xc0,0,9,0x80,2,7,8,1,2,3] =
      .ok (.ok (some (.audio 0 () 9 (.speex [[],[7,8]]) (some [1,2,3]))),[]) := by decide +kernel
  exact relayed_audio blank pair ⟨[],true⟩ 300 [0x40,0xc0,0,9,0x80,2,7,8,1,2,3] 9
    (.speex [[],[7,8]]) (some [1,2,3]) d (tryFrom_iff.mpr (.voice rfl hb)) (by decide +kernel)

/-! ## Sizes -/

/-- The bytes of an integer that is not inverted. -/
def sizeBelow (n : ℕ) : ℕ :=
  if n < 2 ^ 7 then 1 else if n < 2 ^ 14 then 2 else if n < 2 ^ 21 then 3
  else if n < 2 ^ 28 then 4 else if n < 2 ^ 32 then 5 else 9

/-- The bytes of an integer as the writer writes it: the four largest take one, and
above the half the inverse is written after a marker. -/
def varintSize (value : U64) : ℕ :=
  if (~~~value).toNat < 4 then 1
  else if 2 ^ 63 ≤ value.toNat then 1 + sizeBelow (~~~value).toNat
  else sizeBelow value.toNat

/-- Below the half nothing is inverted. -/
theorem length_writeVarint_below {value : U64} (h : value.toNat < 2 ^ 63) :
    (writeVarint value).length = sizeBelow value.toNat := by
  have hlow : ¬ (~~~value).toNat < 4 := by
    rw [BitVec.toNat_not]
    omega
  rw [writeVarint, if_neg ((and_low_clear_eq value).not.mpr hlow),
    if_neg ((and_top_eq value).not.mpr (by omega))]
  simp only [sizeBelow, gt_iff_lt, BitVec.lt_def, BitVec.toNat_ofNat]
  norm_num
  split_ifs <;> first | rfl | omega

theorem length_writeVarint (value : U64) : (writeVarint value).length = varintSize value := by
  unfold varintSize
  split
  · next hlow => rw [writeVarint, if_pos ((and_low_clear_eq value).mpr hlow), List.length_singleton]
  next hlow =>
  split
  · next htop =>
      rw [writeVarint, if_neg ((and_low_clear_eq value).not.mpr hlow),
        if_pos ((and_top_eq value).mpr htop), List.length_cons, length_writeVarint_below, add_comm]
      rw [BitVec.toNat_not]
      omega
  · next htop => exact length_writeVarint_below (by omega)

def payloadSize : VoicePacketPayload → ℕ
  | .celtAlpha frames | .celtBeta frames | .speex frames =>
      (frames.map fun frame => 1 + frame.length).sum
  | .opus frame terminationBit =>
      varintSize ((if terminationBit then 0x2000#64 else 0#64) ||| BitVec.ofNat 64 frame.length) +
        frame.length

/-- The body of the frame that is relayed: of audio with the session id in it, of a text
message with the actor set. -/
def relayedSize (P : Protobuf) (sessionId : SessionID) : ControlPacket .serverbound → ℕ
  | .udpTunnel (.audio _ _ seqNum payload positionInfo) =>
      1 + varintSize (sessionId.setWidth 64) + varintSize seqNum + payloadSize payload +
        (positionInfo.getD []).length
  | .textMessage message => (P.writeText (message.setActor sessionId)).length
  | _ => 0

theorem length_writeFrames (frames : List Bytes) :
    (writeFrames frames).length = (frames.map fun frame => 1 + frame.length).sum := by
  induction frames with
  | nil => rfl
  | cons frame frames ih =>
      rw [writeFrames, List.length_cons, List.length_append, ih, List.map_cons, List.sum_cons]
      omega

theorem length_writePayload (payload : VoicePacketPayload) :
    (writePayload payload).length = payloadSize payload := by
  cases payload with
  | celtAlpha frames | celtBeta frames | speex frames => exact length_writeFrames frames
  | opus frame terminationBit =>
      simp only [writePayload, List.length_append, length_writeVarint, payloadSize]

theorem length_encode_audio {dst : VoicePacketDst} (target : U8) (sessionId : dst.SessionId)
    (seqNum : U64) (payload : VoicePacketPayload) (positionInfo : Option Bytes) :
    (Voice.encode (.audio target sessionId seqNum payload positionInfo) []).length =
      1 + (writeSessionId dst sessionId).length + varintSize seqNum + payloadSize payload +
        (positionInfo.getD []).length := by
  simp only [Voice.encode, List.nil_append, List.length_cons, List.length_append,
    length_writeVarint, length_writePayload]
  omega

/-- What the routing task pushes for a client has the size worked out from the client's
packet. -/
theorem length_intoRaw_relayed (P : Protobuf) {rtbl : RoutingTable}
    {routing : Channel RoutingMessage} {sessionId : SessionID} {c : ControlPacket .serverbound}
    {message : RoutingMessage} {d : Delivery} (hm : forwarded sessionId c = some message)
    (hd : d ∈ (handleRouting message rtbl routing).1) :
    (intoRaw P d.packet).bytes.length = relayedSize P sessionId c := by
  match c, hm with
  | .udpTunnel (.audio target _ seqNum payload positionInfo), hm =>
      cases hm
      rw [mem_handleRouting_audio hd, relayedSize, ← length_writeVarint (sessionId.setWidth 64)]
      exact @length_encode_audio .clientbound target sessionId seqNum payload positionInfo
  | .udpTunnel (.ping _), hm =>
      cases hm
      cases hd
  | .textMessage m, hm =>
      cases hm
      rw [mem_handleRouting_text hd]
      rfl

/-! ## Refused frames -/

/-- The decoder refuses the frame in front. It leaves the buffer as it is, which it does
not where a body fails to convert. -/
def TooLong (P : Protobuf) (buf : Bytes) : Prop :=
  controlDecode P .clientbound buf = .ok (.error packetTooLong,buf)

theorem tooLong_iff {P : Protobuf} {buf : Bytes} :
    TooLong P buf ↔ 6 ≤ buf.length ∧ maxLen < lenField buf := by
  rw [TooLong, controlDecode]
  rcases decode_cases buf with ⟨hd,hshort⟩ | ⟨hd,h6,hlong⟩ | ⟨hd,h6,hfits,-⟩
  · rw [hd]
    refine iff_of_false (fun h => by cases h) ?_
    omega
  · rw [hd]
    exact iff_of_true rfl ⟨h6,hlong⟩
  · refine iff_of_false (fun h => ?_) (by omega)
    have hrest := decode_consumes hd
    obtain ⟨answer,hd',h⟩ := bind_eq_ok.mp h
    rw [hd] at hd'
    cases hd'
    obtain ⟨result,-,h⟩ := bind_eq_ok.mp h
    cases result with
    | error e =>
        have hleft : List.drop (6 + lenField buf) buf = buf := congrArg Prod.snd (Except.ok.inj h)
        rw [hleft] at hrest
        exact lt_irrefl _ hrest
    | ok c => cases h

/-- What a relayed packet is for each recipient's decoder, whatever follows it. -/
theorem readable_iff (P : Protobuf) (rtbl : RoutingTable) (routing : Channel RoutingMessage)
    (sessionId : SessionID) (c : ControlPacket .serverbound) (message : RoutingMessage)
    (d : Delivery) (hm : forwarded sessionId c = some message)
    (hd : d ∈ (handleRouting message rtbl routing).1) :
    (∀ more, ¬ TooLong P (controlEncode P d.packet [] ++ more)) ↔
      relayedSize P sessionId c % 2 ^ 32 ≤ 0x7fffff := by
  have hiff (more : Bytes) : TooLong P (controlEncode P d.packet [] ++ more) ↔
      ¬ relayedSize P sessionId c % 2 ^ 32 ≤ 0x7fffff := by
    have h6 : 6 ≤ (controlEncode P d.packet [] ++ more).length := by
      simp only [controlEncode, Control.encode, List.length_append, length_toBytes]
      omega
    rw [tooLong_iff, controlEncode, ← frame, lenField_frame, length_intoRaw_relayed P hm hd, maxLen,
      not_le]
    exact and_iff_right h6
  constructor
  · intro h
    exact not_not.mp fun hn => h [] ((hiff []).mpr hn)
  · intro h more hlong
    exact (hiff more).mp hlong h

/-- Two sessions in the default room, and a sequence number for which the body stays small. -/
theorem readable_iff_pair :
    let c : ControlPacket .serverbound := .udpTunnel (.audio 0 () 9 (.speex [[],[7,8]]) none)
    let d : Delivery := ⟨⟨0⟩,.udpTunnel (.audio 0 300#32 9 (.speex [[],[7,8]]) none)⟩
    (∀ more, ¬ TooLong blank (controlEncode blank d.packet [] ++ more)) ↔
      relayedSize blank 300 c % 2 ^ 32 ≤ 0x7fffff :=
  readable_iff blank pair ⟨[],true⟩ 300 _ _ _ rfl (by decide +kernel)

/-- An empty frame and a position. -/
def positioned (position : Bytes) : VoicePacket .serverbound :=
  .audio 0 () 0 (.opus [] false) (some position)

def positionedFrame (position : Bytes) : RawControlPacket :=
  ⟨PacketType.id .udpTunnel,Voice.encode (positioned position) []⟩

theorem length_positionedFrame (position : Bytes) :
    (positionedFrame position).bytes.length = 3 + position.length := by
  have hzero : varintSize 0 = 1 := by decide
  have hpayload : payloadSize (.opus [] false) = 1 := by decide
  have hsize := @length_encode_audio .serverbound 0 () 0 (.opus [] false) (some position)
  rw [hzero, hpayload] at hsize
  exact hsize

theorem relayedSize_positioned (P : Protobuf) (position : Bytes) :
    relayedSize P 0 (.udpTunnel (positioned position)) = 4 + position.length := by
  have hid : varintSize (BitVec.setWidth 64 (0 : SessionID)) = 1 := by decide
  have hzero : varintSize 0 = 1 := by decide
  have hpayload : payloadSize (.opus [] false) = 1 := by decide
  simp only [relayedSize, positioned, hid, hzero, hpayload, Option.getD_some]

/-- Up to the limit the server accepts the packet. -/
theorem positioned_accepted (P : Protobuf) {position : Bytes} (hne : position ≠ [])
    (hlen : 3 + position.length ≤ maxLen) :
    controlDecode P .serverbound (frame (positionedFrame position)) =
      .ok (.ok (some (.udpTunnel (positioned position))),[]) := by
  have hrep : (positioned position).Representable :=
    ⟨by decide,fun h => hne (Option.some.inj h),by decide,by decide⟩
  obtain ⟨rest,hdecode⟩ := decode_encode hrep
  have hconverts : tryFrom P .serverbound (positionedFrame position) =
      .ok (.ok (.udpTunnel (positioned position))) := tryFrom_iff.mpr (.voice rfl hdecode)
  have hd := decode_frame (positionedFrame position)
    (le_of_eq_of_le (length_positionedFrame position) hlen) []
  rw [List.append_nil] at hd
  rw [controlDecode, hd]
  change tryFrom P .serverbound (positionedFrame position) >>= _ = _
  rw [hconverts]
  rfl

/-- A body at the limit is accepted, and refused once the session id is in it. -/
theorem unreadable : ¬ ∀ (P : Protobuf), P.RoundTrips → ∀ (buf rest : Bytes)
    (c : ControlPacket .serverbound) (rtbl : RoutingTable) (routing : Channel RoutingMessage)
    (sessionId : SessionID) (message : RoutingMessage) (d : Delivery),
    controlDecode P .serverbound buf = .ok (.ok (some c),rest) →
    forwarded sessionId c = some message → d ∈ (handleRouting message rtbl routing).1 →
    ∀ more, ¬ TooLong P (controlEncode P d.packet [] ++ more) := by
  intro h
  obtain ⟨position,hlen⟩ : ∃ position : Bytes, position.length = maxLen - 3 :=
    ⟨List.replicate _ 0,List.length_replicate⟩
  have hmax : 3 ≤ maxLen - 3 := by decide
  have hne : position ≠ [] := List.ne_nil_of_length_pos (by omega)
  let d : Delivery := ⟨⟨300⟩,.udpTunnel (.audio 0 0#32 0 (.opus [] false) (some position))⟩
  have hpeers : pair.targetSenders 0 0 = .ok (.ok [⟨300⟩]) := by decide +kernel
  have hd : d ∈ (handleRouting (.voice 0 (positioned position)) pair ⟨[],true⟩).1 := by
    simp only [positioned, handleRouting, hpeers]
    exact List.mem_singleton_self _
  have hread := (readable_iff blank pair ⟨[],true⟩ 0 (.udpTunnel (positioned position)) _ d rfl hd).mp
    (h blank blank_roundTrips _ _ _ _ _ _ _ _ (positioned_accepted blank hne (by omega)) rfl hd)
  rw [relayedSize_positioned, hlen] at hread
  exact absurd hread (by decide)

end Atof.Server
