import Atof.Relay
import Atof.Traffic

/-!
# Where relayed packets come from

A session task puts its id beside what its client sends, and the routing task writes
that id into whatever it pushes. The routing queue is first in first out, so what a
push is made from is the message that was put in when as much had been put in before
as the routing task had taken out before the push.
-/
namespace Atof.Server
open Rust Voice Control Fifo

/-- What the recipients get of what a client sent. -/
def relayed (sessionId : SessionID) :
    ControlPacket .serverbound → Option (ControlPacket .clientbound)
  | .udpTunnel (.audio target _ seqNum payload positionInfo) =>
      some (.udpTunnel (.audio target sessionId seqNum payload positionInfo))
  | .textMessage message => some (.textMessage (message.setActor sessionId))
  | _ => none

/-- The session that a packet says it comes from. -/
def origin : ControlPacket .clientbound → Option SessionID
  | .udpTunnel (.audio _ sessionId _ _ _) => some sessionId
  | .textMessage message => message.actor
  | _ => none

/-- What a transition takes from the routing queue, after the given ones, is what the client
of task `n` sent. -/
inductive CameFrom (ts : List Transition) (t : Transition) (n : ℕ)
    (c : ControlPacket .serverbound) : Prop
  | mk {ts₁ ts₂ : List Transition} {u : Transition} {m : RoutingMessage}
      (earlier : ts = ts₁ ++ u :: ts₂) (delivers : Delivers u n c) (put : posted [u] = [m])
      (next : posted ts₁ = received ts) (taken : .dequeue m ∈ t.events) : CameFrom ts t n c

/-- The id and the packet can be told from the message. -/
theorem forwarded_inj {id id' : SessionID} {c c' : ControlPacket .serverbound} {m : RoutingMessage}
    (h : forwarded id c = some m) (h' : forwarded id' c' = some m) : id = id' ∧ c = c' := by
  cases c with
  | udpTunnel packet =>
      cases h
      cases c' <;> cases h'
      exact ⟨rfl,rfl⟩
  | textMessage message =>
      cases h
      cases c' <;> cases h'
      exact ⟨rfl,rfl⟩
  | message type body => cases h
  | other packet => cases h

theorem Delivers.put {t : Transition} {n : ℕ} {c : ControlPacket .serverbound} {m : RoutingMessage}
    (h : Delivers t n c) (hm : posted [t] = [m]) : forwarded (sessionId n) c = some m := by
  obtain ⟨-,-,m',hforwarded,hafter⟩ := h
  rw [posted, put_singleton, hafter] at hm
  rcases t.before.routing.offer_cases m' with he | ⟨-,he⟩
  · simp [he] at hm
  · simp only [he, puts_append, List.cons.injEq, and_true] at hm
    rw [hforwarded, hm]

/-- A pushed packet is made from the message taken, with the id beside it. -/
theorem relayed_of_push {message : RoutingMessage} {rtbl : RoutingTable}
    {routing : Channel RoutingMessage} {id : SessionID} {d : Delivery}
    (h : .push id d ∈ routingEvents message (handleRouting message rtbl routing).1) :
    ∃ c, forwarded id c = some message ∧ relayed id c = some d.packet := by
  obtain ⟨hd,⟨packet,rfl⟩ | ⟨text,rfl⟩⟩ := mem_push h
  · cases packet with
    | ping timestamp => cases hd
    | audio target sessionId seqNum payload positionInfo =>
        refine ⟨.udpTunnel (.audio target sessionId seqNum payload positionInfo),rfl,?_⟩
        rw [mem_handleRouting_audio hd]
        rfl
  · refine ⟨.textMessage text,rfl,?_⟩
    rw [mem_handleRouting_text hd]
    rfl

theorem origin_of_relayed {id : SessionID} {c : ControlPacket .serverbound}
    {packet : ControlPacket .clientbound} (h : relayed id c = some packet) :
    origin packet = some id := by
  unfold relayed at h
  split at h
  · cases h
    rfl
  · cases h
    rfl
  · cases h

/-- A transition with events takes the message at the front of the routing queue, which some
transition before it put there. -/
theorem Run.front_put {ts : List Transition} {t : Transition} {message : RoutingMessage}
    {rest : List RoutingMessage} (h : Run ts t.before)
    (queued : t.before.routing.queue = message :: rest) :
    ∃ ts₁ u ts₂, ts = ts₁ ++ u :: ts₂ ∧ posted [u] = [message] ∧ posted ts₁ = received ts ∧
      Forwards u [message] := by
  have htrace := h.routingTrace
  rw [queued] at htrace
  obtain ⟨ts₁,u,ts₂,rfl,hu,hnext⟩ := htrace.front
  refine ⟨ts₁,u,ts₂,rfl,by rw [posted, put_singleton, hu],hnext,?_⟩
  exact hu ▸ (h.split rfl).2.1.forwards.2

/-- Whatever is pushed came from a client, and says that it comes from the session whose task
that client is connected to. -/
theorem push_origin {ts ts₁ ts₂ : List Transition} {t : Transition} {s : State} (h : Run ts s)
    (hts : ts = ts₁ ++ t :: ts₂) {id : SessionID} {d : Delivery} (hpush : .push id d ∈ t.events) :
    (∃ n c, CameFrom ts₁ t n c) ∧ ∀ n c, CameFrom ts₁ t n c →
      origin d.packet = some (sessionId n) ∧ relayed (sessionId n) c = some d.packet := by
  obtain ⟨hrun,hstep,-⟩ := h.split hts
  obtain he | ⟨message,rest,queued,he⟩ := hstep.dequeues
  · rw [he] at hpush
    cases hpush
  have htaken : .dequeue message ∈ t.events := by rw [he]; exact List.mem_cons_self
  rw [he] at hpush
  obtain ⟨packet,hpacket,hrelayed⟩ := relayed_of_push hpush
  constructor
  · obtain ⟨ts₃,u,ts₄,rfl,hu,hnext,hforwards⟩ := hrun.front_put queued
    cases hforwards with
    | @client n c _ delivers hmessage => exact ⟨n,c,.mk rfl delivers hu hnext htaken⟩
    | update => cases packet <;> cases hpacket
    | shutdown => cases packet <;> cases hpacket
  · rintro n c ⟨hearlier,hdelivers,hput,hnext,hdequeue⟩
    rw [he] at hdequeue
    have hmessage := hdelivers.put hput
    rw [mem_dequeue hdequeue] at hmessage
    obtain ⟨rfl,rfl⟩ := forwarded_inj hmessage hpacket
    exact ⟨origin_of_relayed hrelayed,hrelayed⟩

/-- A message to the first session that names another one as its actor. -/
def spoofed : TextMessage := ⟨some 99,[0],[],[],"",[]⟩

/-- The first client authenticates and sends itself the message. -/
theorem push_origin_spoofed : ∃ ts s ts₁ t d, Run ts s ∧ ts = ts₁ ++ [t] ∧
    .push 0 d ∈ t.events ∧ d.packet = .textMessage (spoofed.setActor 0) ∧
    (∃ n c, CameFrom ts₁ t n c) ∧ ∀ n c, CameFrom ts₁ t n c →
      origin d.packet = some (sessionId n) ∧ relayed (sessionId n) c = some d.packet := by
  have h := Run.nil.snoc (Step.connect rfl)
  have h := h.snoc (Step.greeted (n := 0) rfl)
  have h := h.snoc (Step.registered (n := 0) [] rfl rfl)
  have h := h.snoc (Step.packet (n := 0) (.message .authenticate []) trivial rfl)
  have h := h.snoc (Step.control rfl rfl rfl)
  have h := h.snoc (Step.control rfl rfl rfl)
  have h := h.snoc (Step.routing rfl rfl rfl)
  have h := h.snoc (Step.text (n := 0) spoofed rfl)
  have h := h.snoc (Step.routing rfl rfl rfl)
  have hpush := List.mem_cons_of_mem (Event.dequeue (.text 0 spoofed))
    (List.mem_singleton_self (Event.push 0 ⟨⟨0⟩,.textMessage (spoofed.setActor 0)⟩))
  exact ⟨_,_,_,_,_,h,rfl,hpush,rfl,push_origin h rfl hpush⟩

end Atof.Server
