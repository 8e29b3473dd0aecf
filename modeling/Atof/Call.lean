import Atof.Delivery
import Atof.Playback

/-!
# A call

One client speaks and another listens, through a server. Between a client and its session task
there is a connection that keeps the order and loses nothing but the end. Then what the
listener's decoder gets of the speaker is what the speaker's encoder gave: in order, nothing
twice and nothing else, though there may be something missing.
-/
namespace Atof.Client
open Rust Voice Control
open Server (sessionId posted fetched)

variable {F G : Type} {O : Opus F} {O' : Opus G} {M M' : Messages}

def opusIn : VoicePacketPayload → Option Bytes
  | .opus buffer _ => some buffer
  | _ => none

/-- The Opus packet in it. -/
def opusOf {dst : VoicePacketDst} : VoicePacket dst → Option Bytes
  | .audio _ _ _ payload _ => opusIn payload
  | .ping _ => none

/-- The Opus packet in it, if it comes from `a`. -/
def opusFrom (a : U32) (packet : VoicePacket .clientbound) : Option Bytes :=
  if Server.origin (.udpTunnel packet) = some a then opusOf packet else none

/-- What the codec task has to decode of `a`. -/
def opusHandled (a : U32) : AudioCodecMessage F → Option Bytes
  | .inbound packet => opusFrom a packet
  | .outbound _ => none

/-- What the encoder gave, as it is handed to the connection task. -/
def opusSent : ConnectionMessage → Option Bytes
  | .voice packet => opusOf packet
  | .control _ => none

/-- The audio a client has heard. -/
def hearings (actions : List (Action F)) : List (VoicePacket .clientbound) :=
  actions.filterMap fun
    | .hears packet => some packet
    | _ => none

/-- The audio in what a session task takes to write. -/
def tunnelled : ControlPacket .clientbound → Option (VoicePacket .clientbound)
  | .udpTunnel packet => some packet
  | _ => none

/-- What the session task of `a` hands to the routing task. -/
def handedOver (a : U32) : Server.RoutingMessage → Option (VoicePacket .serverbound)
  | .voice id packet => if id = a then some packet else none
  | _ => none

/-! ## What is kept of a list -/

theorem filterMap_sublist_filterMap {α β : Type} {f g : α → Option β} {l : List α}
    (h : ∀ x ∈ l, ∀ y, f x = some y → g x = some y) : (l.filterMap f).Sublist (l.filterMap g) := by
  induction l with
  | nil => exact List.Sublist.slnil
  | cons x l ih =>
      have hrest := ih fun x' hx' => h x' (List.mem_cons_of_mem _ hx')
      cases hf : f x with
      | none =>
          rw [List.filterMap_cons_none hf]
          exact hrest.trans ((List.sublist_cons_self x l).filterMap g)
      | some y =>
          rw [List.filterMap_cons_some hf,
            List.filterMap_cons_some (h x List.mem_cons_self y hf)]
          exact hrest.cons_cons y

/-! ## From the listener back to the speaker -/

/-- What is decoded was heard. -/
theorem Run.handled_heard {actions : List (Action F)} {s : State O} (h : Run M actions s) (a : U32) :
    (handled actions).filterMap (opusHandled a) <+: (hearings actions).filterMap (opusFrom a) := by
  have hsame : (offered actions).filterMap (opusHandled a) =
      (hearings actions).filterMap (opusFrom a) := by
    rw [offered, hearings, List.filterMap_filterMap, List.filterMap_filterMap]
    refine List.filterMap_congr fun action _ => ?_
    cases action <;> rfl
  exact hsame ▸ h.handled_prefix.filterMap _

/-- The audio of `a` in it is what says that it comes from `a`. -/
theorem opusFrom_tunnelled (a : U32) (packets : List (ControlPacket .clientbound)) :
    (packets.filterMap tunnelled).filterMap (opusFrom a) =
      (packets.filterMap (Server.audioFrom a)).filterMap (opusFrom a) := by
  rw [List.filterMap_filterMap, List.filterMap_filterMap]
  refine List.filterMap_congr fun packet _ => ?_
  cases packet with
  | udpTunnel voicePacket =>
      by_cases horigin : Server.origin (.udpTunnel voicePacket) = some a
      · simp [tunnelled, Server.audioFrom, horigin]
      · simp [tunnelled, Server.audioFrom, opusFrom, horigin]
  | textMessage message | message type body | other packet => rfl

/-- What the routing task takes for what `a` says, the session task of `a` handed over. -/
theorem said_sublist (a : U32) (ts : List Server.Transition) :
    ((Server.said a ts).filterMap (opusFrom a)).Sublist
      (((posted ts).filterMap (handedOver a)).filterMap opusOf) := by
  rw [Server.said, List.filterMap_filterMap, List.filterMap_filterMap]
  refine filterMap_sublist_filterMap fun message _ buffer hbuffer => ?_
  cases message with
  | text id text | update rtbl => cases hbuffer
  | shutdown => cases hbuffer
  | voice id packet =>
      cases packet with
      | ping timestamp => cases hbuffer
      | audio target session seqNum payload positionInfo =>
          by_cases hspeaks : id = a ∧ target = 0
          · obtain ⟨rfl,rfl⟩ := hspeaks
            simpa [Server.RoutingMessage.audioOf, opusFrom, Server.origin, handedOver, opusOf]
              using hbuffer
          · simp only [Server.RoutingMessage.audioOf, if_neg hspeaks] at hbuffer
            cases hbuffer

/-! ## The call -/

/-- The connections between the clients and their session tasks: what the task of `a` hands over
is a part of what the speaker sends, and what the listener hears is a first part of what its
task has taken to write. The last packet may be there before the task knows. -/
structure Linked (a : U32) (n : ℕ) (speaker : List (Action F)) (ts : List Server.Transition)
    (listener : List (Action G)) : Prop where
  up : (((posted ts).filterMap (handedOver a)).map ConnectionMessage.voice).Sublist
    (voices (sent speaker))
  down : hearings listener <+: (fetched n ts).filterMap tunnelled

/-- Of what comes from the speaker, the listener's codec task decodes, in order and nothing
twice, only what the speaker's encoder gave; whatever the tasks of both clients and of the
server do in between, and whoever else is connected. -/
theorem call {speaker : List (Action F)} {s : State O} (hs : Run M speaker s)
    {ts : List Server.Transition} {server : Server.State} (h : Server.Run ts server)
    {listener : List (Action G)} {s' : State O'} (hs' : Run M' listener s')
    (hspawned : server.spawned ≤ 2 ^ 32) {n : ℕ} (hn : n < 2 ^ 32) {a : U32} (hab : a ≠ sessionId n)
    (linked : Linked a n speaker ts listener) :
    ∃ acts encoder, Encoded O O.encoder acts encoder ∧
      ((handled listener).filterMap (opusHandled a)).Sublist ((messages acts).filterMap opusSent) := by
  obtain ⟨acts,encoder,hencoded,hsent,-⟩ := hs.sent_encoded
  refine ⟨acts,encoder,hencoded,?_⟩
  have hheard : ((handled listener).filterMap (opusHandled a)).Sublist
      (((fetched n ts).filterMap (Server.audioFrom a)).filterMap (opusFrom a)) := by
    rw [← opusFrom_tunnelled]
    exact (hs'.handled_heard a).sublist.trans (linked.down.sublist.filterMap _)
  have hsaid : (((fetched n ts).filterMap (Server.audioFrom a)).filterMap (opusFrom a)).Sublist
      (((posted ts).filterMap (handedOver a)).filterMap opusOf) :=
    (((h.fetched_spoken hspawned hn hab).sublist.trans (h.spoken_said a _)).filterMap _).trans
      (said_sublist a ts)
  have hspoken : (((posted ts).filterMap (handedOver a)).filterMap opusOf).Sublist
      ((messages acts).filterMap opusSent) := by
    have hup := (linked.up.trans hsent.sublist).filterMap opusSent
    rwa [List.filterMap_map] at hup
  exact hheard.trans (hsaid.trans hspoken)

/-- A client that has got one packet. -/
theorem run_listener (O : Opus F) (packet : VoicePacket .clientbound) :
    ∃ actions, ∃ s : State O, Run .plain actions s ∧ hearings actions = [packet] ∧
      handled actions = [] ∧ s.codec.queue = [.inbound packet] ∧ s.codecTask = .running ∧
      s.connectionTask = .looping ∧ s.worker = ⟨.empty,O.encoder,O.decoder,capacity,capacity⟩ := by
  have h : Run .plain [] (.init O) := .nil
  have h := h.snoc (.sendsVersion rfl)
  have h := h.snoc (.versionSent rfl)
  have h := h.snoc (.compatible rfl)
  have h := h.snoc (.authenticated rfl)
  have h := h.snoc (.inbound packet rfl)
  exact ⟨_,_,h,rfl,rfl,rfl,rfl,rfl,rfl⟩

/-- The first two clients authenticate, and what the first says is taken for the second. -/
theorem run_pair (payload : VoicePacketPayload) : ∃ ts server rtbl rtbl', Server.Run ts server ∧
    server.spawned = 2 ∧
    posted ts = [.update rtbl,.update rtbl',.voice (sessionId 0) (.audio 0 () 0 payload none)] ∧
    fetched 1 ts = [.udpTunnel (.audio 0 (sessionId 0) 0 payload none)] := by
  have h := Server.Run.nil.snoc (Server.Step.connect rfl)
  have h := h.snoc (Server.Step.connect rfl)
  have h := h.snoc (Server.Step.greeted (n := 0) rfl)
  have h := h.snoc (Server.Step.greeted (n := 1) rfl)
  have h := h.snoc (Server.Step.registered (n := 0) [] rfl rfl)
  have h := h.snoc (Server.Step.registered (n := 1) [] rfl rfl)
  have h := h.snoc (Server.Step.packet (n := 0) (.message .authenticate []) trivial rfl)
  have h := h.snoc (Server.Step.packet (n := 1) (.message .authenticate []) trivial rfl)
  have h := h.snoc (Server.Step.control rfl rfl rfl)
  have h := h.snoc (Server.Step.control rfl rfl rfl)
  have h := h.snoc (Server.Step.control rfl rfl rfl)
  have h := h.snoc (Server.Step.control rfl rfl rfl)
  have h := h.snoc (Server.Step.voice (n := 0) (.audio 0 () 0 payload none) rfl)
  have h := h.snoc (Server.Step.routing rfl rfl rfl)
  have h := h.snoc (Server.Step.routing rfl rfl rfl)
  have h := h.snoc (Server.Step.routing rfl rfl rfl)
  have h := h.snoc (Server.Step.take (n := 1) rfl rfl)
  exact ⟨_,_,_,_,h,rfl,rfl,rfl⟩

/-- The first client gives a frame to its encoder, and the second one decodes the packet. -/
theorem call_frame : ∃ speaker, ∃ s : State .silent, ∃ ts server listener, ∃ s' : State .silent,
    Run .plain speaker s ∧ Server.Run ts server ∧ Run .plain listener s' ∧
    (handled listener).filterMap (opusHandled (sessionId 0)) = [[]] ∧
    ∃ acts encoder, Encoded .silent () acts encoder ∧
      ((handled listener).filterMap (opusHandled (sessionId 0))).Sublist
        ((messages acts).filterMap opusSent) := by
  obtain ⟨speaker,s,hs,hsent⟩ := run_speaker
  obtain ⟨ts,server,rtbl,rtbl',h,hspawned,hposted,hfetched⟩ := run_pair (.opus [] false)
  obtain ⟨listener,s',hs',hheard,hhandled,hqueue,running,-,hworker⟩ :=
    run_listener .silent (.audio 0 (sessionId 0) 0 (.opus [] false) none)
  have hs' := hs'.snoc (.codec running hqueue (by rw [hworker]; rfl))
  refine ⟨_,_,_,_,_,_,hs,h,hs',?_,call hs h hs' (by rw [hspawned]; decide) (n := 1) (by decide)
    (by decide) ⟨?_,?_⟩⟩
  · rw [handled_append, hhandled]
    rfl
  · rw [hposted, hsent]
    exact List.Sublist.refl _
  · rw [hfetched, hearings, List.filterMap_append]
    exact (List.append_nil (hearings listener)).symm ▸ hheard ▸ List.prefix_refl _

end Atof.Client
