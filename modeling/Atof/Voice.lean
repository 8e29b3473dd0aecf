import Atof.Varint

/-!
# Voice packets and their codec

The direction of a packet decides whether it carries a session id. Decoding
reads the header through a cursor, which leaves the buffer alone, and advances
the buffer itself only once a payload kind is known; what is left in the buffer
is therefore part of the result, and every operation on it that could run past
its end is checked. Encoding cannot fail.
-/
namespace Atof.Voice
open Rust Varint

/-- The direction a packet travels in. -/
inductive VoicePacketDst where
  | serverbound
  | clientbound
  deriving DecidableEq, Repr

/-- A session id is present on client-bound packets only. -/
def VoicePacketDst.SessionId : VoicePacketDst → Type
  | .serverbound => Unit
  | .clientbound => U32

instance (dst : VoicePacketDst) : DecidableEq dst.SessionId :=
  match dst with
  | .serverbound => inferInstanceAs (DecidableEq Unit)
  | .clientbound => inferInstanceAs (DecidableEq U32)

def readSessionId : (dst : VoicePacketDst) → Bytes → Io (dst.SessionId × Bytes)
  | .serverbound, buf => .ok ((), buf)
  | .clientbound, buf => do
      let (value, rest) ← readVarint buf
      return (value.setWidth 32, rest)

def writeSessionId : (dst : VoicePacketDst) → dst.SessionId → Bytes
  | .serverbound, _ => []
  | .clientbound, sessionId => writeVarint (BitVec.setWidth 64 (sessionId : U32))

inductive VoicePacketPayload where
  | celtAlpha (frames : List Bytes)
  | celtBeta (frames : List Bytes)
  | speex (frames : List Bytes)
  | opus (frame : Bytes) (terminationBit : Bool)
  deriving DecidableEq, Repr

inductive VoicePacket (dst : VoicePacketDst) where
  | ping (timestamp : U64)
  | audio (target : U8) (sessionId : dst.SessionId) (seqNum : U64)
      (payload : VoicePacketPayload) (positionInfo : Option Bytes)
  deriving DecidableEq

def unexpectedEof : IoError := ⟨.unexpectedEof, none⟩

def unknownPacketType : IoError := ⟨.invalidData, some "unknown voice packet type"⟩

/-- The frame loop, on the buffer itself. A prefix with bit 7 set announces
another frame; the bytes already taken stay taken when a frame is cut short. -/
def readFrames (buf : Bytes) (frames : List Bytes) : Checked (Io (List Bytes) × Bytes) :=
  match buf with
  | [] => .ok (.error unexpectedEof, [])
  | header :: buf =>
      let len := (header &&& ~~~0x80#8).toNat
      if buf.length < len then .ok (.error unexpectedEof, buf)
      else match h : BytesMut.splitTo buf len with
        | .error panic => .error panic
        | .ok (frame, rest) =>
            have := BytesMut.length_rest_le h
            if header &&& 0x80#8 ≠ 0x80#8 then .ok (.ok (frames ++ [frame]), rest)
            else readFrames rest (frames ++ [frame])
termination_by buf.length
decreasing_by simp only [List.length_cons]; omega

/-- The payload of the given kind. The cursor holds the bytes of the buffer that
the header has not used; its position is the difference of the two lengths. -/
def decodePayload (kind : U8) (cursor buf : Bytes) :
    Checked (Io VoicePacketPayload × Bytes) :=
  if kind = 0#8 ∨ kind = 2#8 ∨ kind = 3#8 then do
    let buf ← BytesMut.advance buf (buf.length - cursor.length)
    match ← readFrames buf [] with
    | (.error e, buf) => return (.error e, buf)
    | (.ok frames, buf) =>
        if kind = 0#8 then return (.ok (.celtAlpha frames), buf)
        else if kind = 2#8 then return (.ok (.speex frames), buf)
        else if kind = 3#8 then return (.ok (.celtBeta frames), buf)
        else .error .explicit
  else if kind = 4#8 then
    match readVarint cursor with
    | .error e => .ok (.error e, buf)
    | .ok (header, cursor) => do
        let buf ← BytesMut.advance buf (buf.length - cursor.length)
        let terminationBit := decide (header &&& 0x2000#64 = 0x2000#64)
        let len := (header &&& ~~~0x2000#64).toNat
        if buf.length < len then return (.error unexpectedEof, buf)
        let (frame, buf) ← BytesMut.splitTo buf len
        return (.ok (.opus frame terminationBit), buf)
  else .ok (.error unknownPacketType, buf)

/-- `VoiceCodec::decode`: the result and what it leaves in the buffer. -/
def decode (dst : VoicePacketDst) (buf : Bytes) :
    Checked (Io (Option (VoicePacket dst)) × Bytes) :=
  match readU8 buf with
  | .error e => .ok (.error e, buf)
  | .ok (header, cursor) =>
      let kind := header >>> 5
      let target := header &&& 0b11111#8
      if kind = 1#8 then
        match readVarint cursor with
        | .error e => .ok (.error e, buf)
        | .ok (timestamp, _) => .ok (.ok (some (.ping timestamp)), buf)
      else
        match readSessionId dst cursor with
        | .error e => .ok (.error e, buf)
        | .ok (sessionId, cursor) =>
            match readVarint cursor with
            | .error e => .ok (.error e, buf)
            | .ok (seqNum, cursor) => do
                match ← decodePayload kind cursor buf with
                | (.error e, buf) => return (.error e, buf)
                | (.ok payload, buf) =>
                    let positionInfo := if buf.isEmpty then none else some buf
                    return (.ok (some (.audio target sessionId seqNum payload positionInfo)), [])

/-- Every frame with its length byte; `as u8` keeps the low eight bits. -/
def writeFrames : List Bytes → Bytes
  | [] => []
  | frame :: rest =>
      let continuation : U8 := if rest.isEmpty then 0#8 else 0x80#8
      (continuation ||| BitVec.ofNat 8 frame.length) :: (frame ++ writeFrames rest)

def VoicePacketPayload.kind : VoicePacketPayload → U8
  | .celtAlpha _ => 0#8
  | .speex _ => 2#8
  | .celtBeta _ => 3#8
  | .opus _ _ => 4#8

def writePayload : VoicePacketPayload → Bytes
  | .celtAlpha frames | .speex frames | .celtBeta frames => writeFrames frames
  | .opus frame terminationBit =>
      let termBit : U64 := if terminationBit then 0x2000#64 else 0#64
      writeVarint (termBit ||| BitVec.ofNat 64 frame.length) ++ frame

/-- `VoiceCodec::encode`, appending to the buffer. -/
def encode {dst : VoicePacketDst} (item : VoicePacket dst) (buf : Bytes) : Bytes :=
  match item with
  | .ping timestamp => buf ++ 0x20#8 :: writeVarint timestamp
  | .audio target sessionId seqNum payload positionInfo =>
      buf ++ (payload.kind <<< 5 ||| target &&& 0b11111#8) :: (writeSessionId dst sessionId ++
        (writeVarint seqNum ++ (writePayload payload ++ positionInfo.getD [])))

end Atof.Voice
