import Atof.ControlPacket
import Atof.VoiceGrammar

/-!
# Raw and typed control packets

The packet types are listed once, and everything about a type follows from its
place in the list: its id, the type an id is dispatched to, and the conversions in
both directions. A type whose id is not listed is passed through as it is.

All messages but the voice packets are the protobuf library's. What the library
and the code generated for it do is a parameter; the parser refuses a message with
a required field missing, so serialising what it returned does not fail.
-/
namespace Atof.Control
open Rust Voice

/-- The packet types, in the order of their definition. -/
inductive PacketType where
  | udpTunnel
  | textMessage
  | message (type : MessageType)
  deriving DecidableEq, Repr

/-- `define_packets!`, without the extensions for web clients, which are off. -/
def packetTypes : List PacketType :=
  [.message .version, .udpTunnel, .message .authenticate, .message .ping, .message .reject,
    .message .serverSync, .message .channelRemove, .message .channelState, .message .userRemove,
    .message .userState, .message .banList, .textMessage, .message .permissionDenied,
    .message .acl, .message .queryUsers, .message .cryptSetup, .message .contextActionModify,
    .message .contextAction, .message .userList, .message .voiceTarget,
    .message .permissionQuery, .message .codecVersion, .message .userStats,
    .message .requestBlob, .message .serverConfig, .message .suggestConfig]

/-- `define_packet_mappings!` counts from zero. -/
def PacketType.id (type : PacketType) : U16 := BitVec.ofNat 16 (packetTypes.idxOf type)

/-- The arm of the match on an id. -/
def PacketType.ofId (id : U16) : Option PacketType := packetTypes.find? fun type => type.id = id

/-- The library's `Error` is `ProtobufError`, which is made from an `io::Error` and
made into one. -/
structure Protobuf where
  Message : MessageType → Type
  Error : Type
  ofIo : IoError → Error
  intoIo : Error → IoError
  parse : (type : MessageType) → Bytes → Except Error (Message type)
  write : (type : MessageType) → Message type → Bytes
  parseText : Bytes → Except Error TextMessage
  writeText : TextMessage → Bytes

/-- Parsing what a parsed message is serialised to returns the message. -/
structure Protobuf.RoundTrips (P : Protobuf) : Prop where
  message : ∀ {type bytes m}, P.parse type bytes = .ok m → P.parse type (P.write type m) = .ok m
  text : ∀ {bytes m}, P.parseText bytes = .ok m → P.parseText (P.writeText m) = .ok m

variable (P : Protobuf) (dst : VoicePacketDst)

/-- `VoicePacket::try_from`; the codec is expected not to ask for more. -/
def voiceTryFrom (bytes : Bytes) : Checked (Io (VoicePacket dst)) := do
  match ← Voice.decode dst bytes with
  | (.error e,_) => return .error e
  | (.ok (some packet),_) => return .ok packet
  | (.ok none,_) => .error .explicit

/-- `ControlPacket::try_from`. A message is kept as its serialisation. -/
def tryFrom (packet : RawControlPacket) : Checked (Except P.Error (ControlPacket dst)) :=
  match PacketType.ofId packet.id with
  | some .udpTunnel => do
      match ← voiceTryFrom dst packet.bytes with
      | .error e => return .error (P.ofIo e)
      | .ok voicePacket => return .ok (.udpTunnel voicePacket)
  | some .textMessage => .ok ((P.parseText packet.bytes).map .textMessage)
  | some (.message type) =>
      .ok ((P.parse type packet.bytes).map fun m => .message type (P.write type m))
  | none => .ok (.ok (.other packet))

variable {dst}

/-- `RawControlPacket::from`. -/
def intoRaw : ControlPacket dst → RawControlPacket
  | .udpTunnel voicePacket => ⟨PacketType.id .udpTunnel, Voice.encode voicePacket []⟩
  | .textMessage m => ⟨PacketType.id .textMessage, P.writeText m⟩
  | .message type body => ⟨PacketType.id (.message type), body⟩
  | .other packet => packet

/-- `ControlCodec::encode`. -/
def controlEncode (item : ControlPacket dst) (buf : Bytes) : Bytes := encode (intoRaw P item) buf

variable (dst)

/-- `ControlCodec::decode`. -/
def controlDecode (buf : Bytes) : Checked (Io (Option (ControlPacket dst)) × Bytes) := do
  match ← decode buf with
  | (.error e,buf) => return (.error e,buf)
  | (.ok none,buf) => return (.ok none,buf)
  | (.ok (some rawPacket),buf) =>
      match ← tryFrom P dst rawPacket with
      | .error e => return (.error (P.intoIo e),buf)
      | .ok packet => return (.ok (some packet),buf)

/-! ## The id table -/

theorem mem_packetTypes (type : PacketType) : type ∈ packetTypes := by
  rcases type with _ | _ | type
  · decide
  · decide
  · cases type <;> decide

/-- No two types share an id. -/
theorem PacketType.ofId_id (type : PacketType) : PacketType.ofId type.id = some type := by
  have hall : ∀ type ∈ packetTypes, PacketType.ofId type.id = some type := by decide
  exact hall type (mem_packetTypes type)

theorem PacketType.id_of_ofId {id : U16} {type : PacketType} (h : PacketType.ofId id = some type) :
    type.id = id := by
  rw [ofId] at h
  simpa using List.find?_some h

theorem PacketType.ofId_eq_none {id : U16} :
    PacketType.ofId id = none ↔ ∀ type : PacketType, type.id ≠ id := by
  rw [PacketType.ofId, List.find?_eq_none]
  constructor
  · intro h type
    simpa using h type (mem_packetTypes type)
  · intro h type _
    simpa using h type

/-! ## What a raw packet is converted to -/

variable {P dst}

/-- The outcomes of a conversion, by the id and by what the body parses to. -/
inductive Converts (P : Protobuf) {dst : VoicePacketDst} (r : RawControlPacket) :
    Except P.Error (ControlPacket dst) → Prop
  | voice {v : VoicePacket dst} {rest : Bytes} (id : r.id = PacketType.id .udpTunnel)
      (decoded : Voice.decode dst r.bytes = .ok (.ok (some v),rest)) :
      Converts P r (.ok (.udpTunnel v))
  | voiceError {e : IoError} {rest : Bytes} (id : r.id = PacketType.id .udpTunnel)
      (decoded : Voice.decode dst r.bytes = .ok (.error e,rest)) : Converts P r (.error (P.ofIo e))
  | text {m : TextMessage} (id : r.id = PacketType.id .textMessage)
      (parsed : P.parseText r.bytes = .ok m) : Converts P r (.ok (.textMessage m))
  | textError {e : P.Error} (id : r.id = PacketType.id .textMessage)
      (parsed : P.parseText r.bytes = .error e) : Converts P r (.error e)
  | message {type : MessageType} {m : P.Message type} (id : r.id = PacketType.id (.message type))
      (parsed : P.parse type r.bytes = .ok m) : Converts P r (.ok (.message type (P.write type m)))
  | messageError {type : MessageType} {e : P.Error} (id : r.id = PacketType.id (.message type))
      (parsed : P.parse type r.bytes = .error e) : Converts P r (.error e)
  | other (id : ∀ type : PacketType, type.id ≠ r.id) : Converts P r (.ok (.other r))

theorem tryFrom_of_id {r : RawControlPacket} {type : PacketType} (h : r.id = type.id) :
    PacketType.ofId r.id = some type := h ▸ type.ofId_id

/-- Conversion is the function that the outcomes describe, and never panics. -/
theorem tryFrom_iff {r : RawControlPacket} {result : Except P.Error (ControlPacket dst)} :
    tryFrom P dst r = .ok result ↔ Converts P r result := by
  constructor
  · intro h
    unfold tryFrom at h
    split at h
    · next hid =>
        have hid' := (PacketType.id_of_ofId hid).symm
        obtain ⟨answer,rest,hd,hne⟩ := decode_returns dst r.bytes
        simp only [voiceTryFrom, hd, bind, Except.bind] at h
        rcases answer with e | _ | v
        · cases h
          exact .voiceError hid' hd
        · exact absurd rfl hne
        · cases h
          exact .voice hid' hd
    · next hid =>
        have hid' := (PacketType.id_of_ofId hid).symm
        cases hp : P.parseText r.bytes <;> rw [hp] at h <;> cases h
        · exact .textError hid' hp
        · exact .text hid' hp
    · next type hid =>
        have hid' := (PacketType.id_of_ofId hid).symm
        cases hp : P.parse type r.bytes <;> rw [hp] at h <;> cases h
        · exact .messageError hid' hp
        · exact .message hid' hp
    · next hid =>
        cases h
        exact .other (PacketType.ofId_eq_none.mp hid)
  · intro h
    cases h with
    | voice id decoded | voiceError id decoded =>
        simp only [tryFrom, tryFrom_of_id id, voiceTryFrom, decoded, bind, Except.bind]
        rfl
    | text id parsed | textError id parsed =>
        simp only [tryFrom, tryFrom_of_id id, parsed]
        rfl
    | message id parsed | messageError id parsed =>
        simp only [tryFrom, tryFrom_of_id id, parsed]
        rfl
    | other id =>
        simp only [tryFrom, PacketType.ofId_eq_none.mpr id]

theorem tryFrom_returns (P : Protobuf) (dst : VoicePacketDst) (r : RawControlPacket) :
    ∃ result, tryFrom P dst r = .ok result := by
  cases hid : PacketType.ofId r.id with
  | none => exact ⟨_,tryFrom_iff.mpr (.other (PacketType.ofId_eq_none.mp hid))⟩
  | some type =>
      have hid' := (PacketType.id_of_ofId hid).symm
      cases type with
      | udpTunnel =>
          obtain ⟨answer,rest,hd,hne⟩ := decode_returns dst r.bytes
          rcases answer with e | _ | v
          · exact ⟨_,tryFrom_iff.mpr (.voiceError hid' hd)⟩
          · exact absurd rfl hne
          · exact ⟨_,tryFrom_iff.mpr (.voice hid' hd)⟩
      | textMessage =>
          cases hp : P.parseText r.bytes with
          | error e => exact ⟨_,tryFrom_iff.mpr (.textError hid' hp)⟩
          | ok m => exact ⟨_,tryFrom_iff.mpr (.text hid' hp)⟩
      | message type =>
          cases hp : P.parse type r.bytes with
          | error e => exact ⟨_,tryFrom_iff.mpr (.messageError hid' hp)⟩
          | ok m => exact ⟨_,tryFrom_iff.mpr (.message hid' hp)⟩

/-- A packet that converts comes back with its id and converts to the same again; of
unknown id it comes back as it was. -/
theorem tryFrom_intoRaw (hP : P.RoundTrips) (r : RawControlPacket) (c : ControlPacket dst)
    (h : tryFrom P dst r = .ok (.ok c)) :
    (intoRaw P c).id = r.id ∧ tryFrom P dst (intoRaw P c) = .ok (.ok c) ∧
      ((∀ type : PacketType, type.id ≠ r.id) → intoRaw P c = r) := by
  rw [tryFrom_iff] at h ⊢
  cases h with
  | voice id decoded =>
      obtain ⟨rest,hd⟩ := decode_encode (decode_image decoded)
      exact ⟨id.symm,.voice rfl hd,fun hne => absurd id.symm (hne _)⟩
  | text id parsed => exact ⟨id.symm,.text rfl (hP.text parsed),fun hne => absurd id.symm (hne _)⟩
  | message id parsed =>
      exact ⟨id.symm,.message rfl (hP.message parsed),fun hne => absurd id.symm (hne _)⟩
  | other id => exact ⟨rfl,.other id,fun _ => rfl⟩

/-- A library that knows the empty body of every message and no other. -/
def blank : Protobuf where
  Message _ := Unit
  Error := IoError
  ofIo e := e
  intoIo e := e
  parse _ bytes := if bytes = [] then .ok () else .error ⟨.other, some "unexpected field"⟩
  write _ _ := []
  parseText _ := .error ⟨.other, some "missing required fields"⟩
  writeText _ := []

theorem blank_roundTrips : blank.RoundTrips where
  message _ := rfl
  text h := by cases h

/-- A voice packet whose sequence number takes a byte more than it has to. -/
theorem tryFrom_intoRaw_tunnel :
    let c : ControlPacket .serverbound := .udpTunnel (.audio 0 () 5 (.opus [] false) none)
    (intoRaw blank c).id = 1 ∧ tryFrom blank .serverbound (intoRaw blank c) = .ok (.ok c) ∧
      ((∀ type : PacketType, type.id ≠ 1) → intoRaw blank c = ⟨1,[0x80,0x80,5,0]⟩) :=
  tryFrom_intoRaw blank_roundTrips ⟨1,[0x80,0x80,5,0]⟩ _ rfl

end Atof.Control
