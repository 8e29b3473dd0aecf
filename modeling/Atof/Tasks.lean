import Atof.RoutingTable

/-!
# The control and routing tasks

Each task is a loop over its queue; here is what it does with one message. The
control task keeps the sessions that have not authenticated and the routing table,
and publishes the table whenever it changes. The routing task keeps the table last
published and pushes what it relays to the inbound queues of the recipients, which
may be gone. An `expect` or `unwrap` that fails ends the task, after what it had
pushed before.
-/
namespace Atof.Server
open Rust Voice Control

/-- An unbounded channel: what is queued, and whether its receiver still takes more. -/
structure Channel (α : Type) where
  queue : List α
  isOpen : Bool
  deriving DecidableEq

namespace Channel

variable {α : Type}

/-- Sending fails once the receiver is closed or gone. -/
def send (c : Channel α) (message : α) : Option (Channel α) :=
  if c.isOpen then some { c with queue := c.queue ++ [message] } else none

/-- `let _ = sender.send(message)`. -/
def offer (c : Channel α) (message : α) : Channel α := (c.send message).getD c

/-- `sender.send(message).expect(..)`. -/
def expectSend (c : Channel α) (message : α) : Checked (Channel α) :=
  match c.send message with
  | none => .error .explicit
  | some c => .ok c

/-- What is queued can still be received. -/
def close (c : Channel α) : Channel α := { c with isOpen := false }

theorem send_eq_some {c c' : Channel α} {message : α} (h : c.send message = some c') :
    c.isOpen = true ∧ c' = { c with queue := c.queue ++ [message] } := by
  unfold send at h
  split at h
  · next ho =>
      cases h
      exact ⟨ho,rfl⟩
  · cases h

theorem expectSend_eq_ok {c c' : Channel α} {message : α} (h : c.expectSend message = .ok c') :
    c.isOpen = true ∧ c' = { c with queue := c.queue ++ [message] } := by
  unfold expectSend at h
  split at h
  · cases h
  · next hs =>
      cases h
      exact send_eq_some hs

theorem offer_cases (c : Channel α) (message : α) :
    c.offer message = c ∨
      c.isOpen = true ∧ c.offer message = { c with queue := c.queue ++ [message] } := by
  unfold offer send
  split
  · next ho => exact Or.inr ⟨ho,rfl⟩
  · exact Or.inl rfl

@[simp] theorem isOpen_offer (c : Channel α) (message : α) :
    (c.offer message).isOpen = c.isOpen := by
  rcases c.offer_cases message with he | ⟨-,he⟩ <;> rw [he]

theorem offer_of_isOpen {c : Channel α} (h : c.isOpen = true) (message : α) :
    c.offer message = { c with queue := c.queue ++ [message] } := by
  rw [offer, send, if_pos h]
  rfl

end Channel

structure UnAuthSession where
  version : Version
  send : Sender
  deriving DecidableEq, Repr

inductive ControlMessage where
  | packet (sessionId : SessionID) (packet : ControlPacket .serverbound)
  | addSession (sessionId : SessionID) (session : UnAuthSession)
  | removeSession (sessionId : SessionID)
  | shutdown
  deriving DecidableEq

inductive RoutingMessage where
  | voice (sessionId : SessionID) (packet : VoicePacket .serverbound)
  | text (sessionId : SessionID) (message : TextMessage)
  | update (rtbl : RoutingTable)
  | shutdown
  deriving DecidableEq

/-! ## The control task -/

/-- The two tables of the control task. -/
structure ControlState where
  unauth : HashMap SessionID UnAuthSession
  rtbl : RoutingTable
  deriving DecidableEq

def handlePacket (sessionId : SessionID) (packet : ControlPacket .serverbound)
    (c : ControlState) (routingSend : Channel RoutingMessage) :
    Checked (Except Error Unit × ControlState × Channel RoutingMessage) :=
  if c.rtbl.holdsSession sessionId then .ok (.ok (), c, routingSend)
  else match c.unauth.lookup sessionId with
    | some unauthSession =>
        let unauth := c.unauth.erase sessionId
        match packet with
        | .message .authenticate _ => do
            let rtbl := c.rtbl.enrollSession sessionId unauthSession.version unauthSession.send
            let routingSend ← routingSend.expectSend (.update rtbl)
            return (.ok (), ⟨unauth, rtbl⟩, routingSend)
        | packet =>
            .ok (.error ⟨"unauth session " ++ toString sessionId.toNat ++ " sent bad packet ",
              some packet⟩, ⟨unauth, c.rtbl⟩, routingSend)
    | none =>
        .ok (.error ⟨"unknown session " ++ toString sessionId.toNat ++ " sent packet ",
          some packet⟩, c, routingSend)

/-- The body of the loop in `run_control_task`; errors are only logged. -/
def handleControl (message : ControlMessage) (c : ControlState)
    (controlRecv : Channel ControlMessage) (routingSend : Channel RoutingMessage) :
    Checked (ControlState × Channel ControlMessage × Channel RoutingMessage) :=
  match message with
  | .packet id packet => do
      let (_, c, routingSend) ← handlePacket id packet c routingSend
      return (c, controlRecv, routingSend)
  | .addSession sessionId unauthSession =>
      .ok ({ c with unauth := c.unauth.insert sessionId unauthSession }, controlRecv, routingSend)
  | .removeSession sessionId =>
      if (c.unauth.lookup sessionId).isNone then do
        match ← c.rtbl.expelSession sessionId with
        | (.error _, rtbl) => return ({ c with rtbl }, controlRecv, routingSend)
        | (.ok (), rtbl) => do
            let routingSend ← routingSend.expectSend (.update rtbl)
            return ({ c with rtbl }, controlRecv, routingSend)
      else .ok ({ c with unauth := c.unauth.erase sessionId }, controlRecv, routingSend)
  | .shutdown => .ok (c, controlRecv.close, routingSend)

/-! ## The routing task -/

/-- One packet for one inbound queue. -/
structure Delivery where
  recipient : Sender
  packet : ControlPacket .clientbound
  deriving DecidableEq

/-- The members of some rooms, one room after another until one is missing. -/
def channelSenders (rtbl : RoutingTable) : List RoomID → List Sender × Checked Unit
  | [] => ([], .ok ())
  | roomId :: rooms =>
      match rtbl.roomSenders roomId none with
      | .error panic => ([], .error panic)
      | .ok senders =>
          let r := channelSenders rtbl rooms
          (senders ++ r.1, r.2)

/-- The recipients of a text message, who are worked out while sending. -/
def textSenders (rtbl : RoutingTable) (message : TextMessage) : List Sender × Checked Unit :=
  let r := channelSenders rtbl message.channelId
  (message.session.filterMap rtbl.sender ++ r.1, r.2)

/-- What a message makes the routing task push, and its table and queue afterwards. -/
def handleRouting (message : RoutingMessage) (rtbl : RoutingTable)
    (routingRecv : Channel RoutingMessage) :
    List Delivery × Checked (RoutingTable × Channel RoutingMessage) :=
  match message with
  | .voice sessionId (.audio target _ seqNum payload positionInfo) =>
      match rtbl.targetSenders sessionId target with
      | .error panic => ([], .error panic)
      | .ok (.error _) => ([], .ok (rtbl, routingRecv))
      | .ok (.ok peerSenders) =>
          (peerSenders.map fun peerSender =>
            ⟨peerSender, .udpTunnel (.audio target sessionId seqNum payload positionInfo)⟩,
            .ok (rtbl, routingRecv))
  | .voice _ (.ping _) => ([], .error .explicit)
  | .text sessionId textMessage =>
      let textMessage := textMessage.setActor sessionId
      let r := textSenders rtbl textMessage
      (r.1.map fun peerSender => ⟨peerSender, .textMessage textMessage⟩,
        r.2.map fun () => (rtbl, routingRecv))
  | .update rtbl => ([], .ok (rtbl, routingRecv))
  | .shutdown => ([], .ok (rtbl, routingRecv.close))

/-! ## What a message can do -/

/-- The tables in a queue of the routing task. -/
def updates (queue : List RoutingMessage) : List RoutingTable :=
  queue.filterMap fun
    | .update rtbl => some rtbl
    | _ => none

@[simp] theorem updates_append (q₁ q₂ : List RoutingMessage) :
    updates (q₁ ++ q₂) = updates q₁ ++ updates q₂ := List.filterMap_append ..

/-- The control task publishes its table when it changes, and only then. -/
inductive Publishes (c : ControlState) (routing : Channel RoutingMessage) :
    ControlState → Channel RoutingMessage → Prop
  | quiet {c' : ControlState} (same : c'.rtbl = c.rtbl) : Publishes c routing c' routing
  | update {c' : ControlState} (changed : c'.rtbl ≠ c.rtbl) (isOpen : routing.isOpen = true) :
      Publishes c routing c' { routing with queue := routing.queue ++ [.update c'.rtbl] }

def isAuthenticate : ControlPacket .serverbound → Bool
  | .message .authenticate _ => true
  | _ => false

/-- What one message does, by the branch taken. -/
inductive Handled (c : ControlState) (control : Channel ControlMessage)
    (routing : Channel RoutingMessage) : ControlMessage → ControlState → Channel ControlMessage →
    Channel RoutingMessage → Prop
  | known {id : SessionID} {packet : ControlPacket .serverbound}
      (held : c.rtbl.holdsSession id = true) :
      Handled c control routing (.packet id packet) c control routing
  | unknown {id : SessionID} {packet : ControlPacket .serverbound}
      (unheld : c.rtbl.holdsSession id = false) (absent : c.unauth.lookup id = none) :
      Handled c control routing (.packet id packet) c control routing
  | enrolled {id : SessionID} {packet : ControlPacket .serverbound} {session : UnAuthSession}
      (unheld : c.rtbl.holdsSession id = false) (waiting : c.unauth.lookup id = some session)
      (authenticates : isAuthenticate packet = true) (isOpen : routing.isOpen = true) :
      Handled c control routing (.packet id packet)
        ⟨c.unauth.erase id,c.rtbl.enrollSession id session.version session.send⟩ control
        { routing with
          queue := routing.queue ++ [.update (c.rtbl.enrollSession id session.version session.send)] }
  | dropped {id : SessionID} {packet : ControlPacket .serverbound} {session : UnAuthSession}
      (unheld : c.rtbl.holdsSession id = false) (waiting : c.unauth.lookup id = some session)
      (bad : isAuthenticate packet = false) :
      Handled c control routing (.packet id packet) ⟨c.unauth.erase id,c.rtbl⟩ control routing
  | added {id : SessionID} {session : UnAuthSession} : Handled c control routing
      (.addSession id session) { c with unauth := c.unauth.insert id session } control routing
  | withdrawn {id : SessionID} {session : UnAuthSession}
      (waiting : c.unauth.lookup id = some session) : Handled c control routing
      (.removeSession id) { c with unauth := c.unauth.erase id } control routing
  | refused {id : SessionID} (absent : c.unauth.lookup id = none)
      (returned : c.rtbl.expelSession id = .ok (.error (unknownSession id),c.rtbl)) :
      Handled c control routing (.removeSession id) c control routing
  | expelled {id : SessionID} {rtbl : RoutingTable} (absent : c.unauth.lookup id = none)
      (returned : c.rtbl.expelSession id = .ok (.ok (),rtbl)) (isOpen : routing.isOpen = true) :
      Handled c control routing (.removeSession id) { c with rtbl } control
        { routing with queue := routing.queue ++ [.update rtbl] }
  | shutdown : Handled c control routing .shutdown c control.close routing

theorem handlePacket_handled {id : SessionID} {packet : ControlPacket .serverbound}
    {c c' : ControlState} {control : Channel ControlMessage}
    {routing routing' : Channel RoutingMessage} {r : Except Error Unit}
    (h : handlePacket id packet c routing = .ok (r,c',routing')) :
    Handled c control routing (.packet id packet) c' control routing' := by
  unfold handlePacket at h
  split at h
  · next hheld =>
      cases h
      exact .known hheld
  next hheld =>
  have unheld := Bool.eq_false_iff.mpr hheld
  split at h
  · next session hsession =>
      split at h
      · obtain ⟨routing₁,hs,h⟩ := bind_eq_ok.mp h
        cases h
        obtain ⟨ho,rfl⟩ := Channel.expectSend_eq_ok hs
        exact .enrolled unheld hsession rfl ho
      · next hother =>
          cases h
          refine .dropped unheld hsession (Bool.eq_false_iff.mpr fun hauth => ?_)
          unfold isAuthenticate at hauth
          split at hauth
          · exact hother _ rfl
          · cases hauth
  · next hsession =>
      cases h
      exact .unknown unheld hsession

theorem handleControl_handled {message : ControlMessage} {c c' : ControlState}
    {control control' : Channel ControlMessage} {routing routing' : Channel RoutingMessage}
    (h : handleControl message c control routing = .ok (c',control',routing')) :
    Handled c control routing message c' control' routing' := by
  cases message with
  | packet id packet =>
      obtain ⟨⟨r,c₁,routing₁⟩,hp,h⟩ := bind_eq_ok.mp h
      cases h
      exact handlePacket_handled hp
  | addSession id session =>
      cases h
      exact .added
  | removeSession id =>
      simp only [handleControl] at h
      split at h
      · next habsent =>
          have absent := Option.isNone_iff_eq_none.mp habsent
          obtain ⟨⟨r,rtbl⟩,he,h⟩ := bind_eq_ok.mp h
          rcases RoutingTable.expelSession_spec he with ⟨rfl,rfl⟩ | ⟨rfl,-⟩
          · cases h
            exact .refused absent he
          · obtain ⟨routing₁,hs,h⟩ := bind_eq_ok.mp h
            cases h
            obtain ⟨ho,rfl⟩ := Channel.expectSend_eq_ok hs
            exact .expelled absent he ho
      · next hsome =>
          cases h
          obtain ⟨session,hsession⟩ := Option.ne_none_iff_exists'.mp
            (fun hn => hsome (Option.isNone_iff_eq_none.mpr hn))
          exact .withdrawn hsession
  | shutdown =>
      cases h
      exact .shutdown

theorem handleControl_publishes {message : ControlMessage} {c c' : ControlState}
    {control control' : Channel ControlMessage} {routing routing' : Channel RoutingMessage}
    (h : handleControl message c control routing = .ok (c',control',routing')) :
    Publishes c routing c' routing' := by
  cases handleControl_handled h with
  | enrolled unheld waiting authenticates isOpen =>
      exact .update (RoutingTable.enrollSession_ne _ _ unheld) isOpen
  | @expelled id rtbl absent returned isOpen =>
      rcases RoutingTable.expelSession_spec returned with ⟨hr,-⟩ | ⟨-,hheld,hgone⟩
      · cases hr
      · refine .update (fun heq => ?_) isOpen
        rw [show rtbl = c.rtbl from heq, hheld] at hgone
        cases hgone
  | _ => exact .quiet rfl

theorem handleControl_queue {message : ControlMessage} {c c' : ControlState}
    {control control' : Channel ControlMessage} {routing routing' : Channel RoutingMessage}
    (h : handleControl message c control routing = .ok (c',control',routing')) :
    control'.queue = control.queue ∧ (control'.isOpen = true → control.isOpen = true) := by
  cases handleControl_handled h with
  | shutdown => exact ⟨rfl,fun hopen => by cases hopen⟩
  | _ => exact ⟨rfl,id⟩

/-- The routing task's table changes by installing an update; its queue is closed
by a shutdown. -/
theorem handleRouting_table {message : RoutingMessage} {rtbl rtbl' : RoutingTable}
    {routing routing' : Channel RoutingMessage}
    (h : (handleRouting message rtbl routing).2 = .ok (rtbl',routing')) :
    rtbl' = (updates [message]).getLast?.getD rtbl ∧ routing'.queue = routing.queue ∧
      (message ≠ .shutdown → routing' = routing) := by
  match message with
  | .voice _ (.audio ..) =>
      simp only [handleRouting] at h
      split at h
      · cases h
      · cases h
        exact ⟨rfl,rfl,fun _ => rfl⟩
      · cases h
        exact ⟨rfl,rfl,fun _ => rfl⟩
  | .voice _ (.ping _) => cases h
  | .text sessionId textMessage =>
      simp only [handleRouting] at h
      cases hr : (textSenders rtbl (textMessage.setActor sessionId)).2 with
      | error panic =>
          rw [hr] at h
          cases h
      | ok _ =>
          rw [hr] at h
          cases h
          exact ⟨rfl,rfl,fun _ => rfl⟩
  | .update _ =>
      cases h
      exact ⟨rfl,rfl,fun _ => rfl⟩
  | .shutdown =>
      cases h
      exact ⟨rfl,rfl,fun hne => absurd rfl hne⟩

end Atof.Server
