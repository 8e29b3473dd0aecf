import Atof.Call
import Atof.Shutdown

/-!
# Panics that others can cause

The codec task panics on audio pings, on packets the decoder refuses and on frames the encoder
refuses; the routing task panics on audio pings and other targets than the room. Behind this
server no audio ping ever comes to a client, and what the decoder refuses another client has
sent. And if all of them are this client, none of it happens.
-/
namespace Atof.Server
open Rust Voice Control

end Atof.Server

namespace Atof.Client
open Rust Voice Control
open Server (SessionID forwarded posted sessionId fetched)

variable {F G : Type} {O : Opus F} {M : Messages}

/-! ## The codec task -/

theorem Encoded.output {encoder encoder' : O.Encoder} {acts : List (Act F)}
    (h : Encoded O encoder acts encoder') {message : ConnectionMessage}
    (hm : message ∈ messages acts) : ∃ encoder₁ frame output encoder₂,
      message = voiceOf output ∧ O.encodeFloat encoder₁ frame 1024 = some (output,encoder₂) := by
  induction h with
  | nil => cases hm
  | block gives next ih =>
      rcases List.mem_cons.mp (show message ∈ voiceOf _ :: messages _ from hm) with rfl | hm
      · exact ⟨_,_,_,_,rfl,gives⟩
      · exact ih hm

theorem Opened.forwarded {sends : List (ControlPacket .serverbound)}
    {receives : List (ControlPacket .clientbound)} (h : Opened M sends receives)
    {c : ControlPacket .serverbound} (hc : c ∈ sends) {id : SessionID}
    {message : Server.RoutingMessage} (hm : Server.forwarded id c = some message) :
    ∃ output, c = .udpTunnel (.audio 0 () 0 (.opus output false) none) := by
  cases h with
  | silent => cases hc
  | unanswered | incompatible other =>
      obtain rfl := List.mem_singleton.mp hc
      cases hm
  | authenticated spoken =>
      rcases List.mem_cons.mp hc with rfl | hc
      · cases hm
      rcases List.mem_cons.mp hc with rfl | hc
      · cases hm
      rcases spoken c hc with haudio | ⟨timestamp,rfl⟩
      · exact haudio
      · cases hm

end Atof.Client
