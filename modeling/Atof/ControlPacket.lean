import Atof.Control
import Atof.Voice

/-!
# Typed control packets

The server looks into voice packets and text messages. Of every other message it
uses the type only, so such a message is its type and its serialisation.
-/
namespace Atof.Control
open Rust Voice

/-- The fields the schema does not name are kept as they came. -/
structure TextMessage where
  actor : Option U32
  session : List U32
  channelId : List U32
  treeId : List U32
  message : String
  unknownFields : Bytes
  deriving DecidableEq, Repr

def TextMessage.setActor (m : TextMessage) (actor : U32) : TextMessage :=
  { m with actor := some actor }

/-- The message types besides `UDPTunnel` and `TextMessage`. -/
inductive MessageType where
  | version
  | authenticate
  | ping
  | reject
  | serverSync
  | channelRemove
  | channelState
  | userRemove
  | userState
  | banList
  | permissionDenied
  | acl
  | queryUsers
  | cryptSetup
  | contextActionModify
  | contextAction
  | userList
  | voiceTarget
  | permissionQuery
  | codecVersion
  | userStats
  | requestBlob
  | serverConfig
  | suggestConfig
  deriving DecidableEq, Repr

inductive ControlPacket (dst : VoicePacketDst) where
  | udpTunnel (packet : VoicePacket dst)
  | textMessage (message : TextMessage)
  | message (type : MessageType) (body : Bytes)
  | other (packet : RawControlPacket)
  deriving DecidableEq

end Atof.Control
