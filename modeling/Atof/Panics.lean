import Atof.Relay

/-!
# What a client can do to the routing task

The routing task takes any voice packet and any text message a client sends. It
looks up the room of a speaker, which its table has, since the tables that reach it
come from the control task's calls. It answers voice pings and whispers with
`unimplemented!`, and unwraps the rooms that a text message names.
-/
namespace Atof.Server
open Rust Voice Control

/-! ## The tables of every run -/

theorem handleControl_reachable {message : ControlMessage} {c c' : ControlState}
    {control control' : Channel ControlMessage} {routing routing' : Channel RoutingMessage}
    (h : handleControl message c control routing = .ok (c',control',routing'))
    (hr : c.rtbl.Reachable) : c'.rtbl.Reachable := by
  cases handleControl_handled h with
  | enrolled unheld waiting authenticates isOpen => exact hr.enroll _ _ unheld
  | expelled absent returned isOpen => exact hr.expel returned
  | _ => exact hr

/-- The tables of both tasks and those on their way come from the control task's calls. -/
structure TablesReachable (s : State) : Prop where
  control : s.controlState.rtbl.Reachable
  routing : s.routingTable.Reachable
  queued : ∀ rtbl ∈ updates s.routing.queue, rtbl.Reachable

theorem Run.control_reachable {ts : List Transition} {s : State} (h : Run ts s) :
    s.controlState.rtbl.Reachable := by
  refine h.invariant (I := fun s => s.controlState.rtbl.Reachable) .default fun hr step => ?_
  cases step.controlQueue with
  | tells queue state speech => rwa [state]
  | handles queued left handled session spawned => exact handleControl_reachable handled hr

theorem TablesReachable.of_run {ts : List Transition} {s : State} (h : Run ts s) :
    TablesReachable s := by
  obtain ⟨hrouting,hqueued⟩ := h.tables (P := RoutingTable.Reachable) .default fun t ht => by
    obtain ⟨ts₁,-,-,hrun⟩ := h.split_of_mem ht
    exact hrun.control_reachable
  exact ⟨h.control_reachable,hrouting,hqueued⟩

/-! ## Recipients -/

namespace RoutingTable

/-- A speaker's room exists, so audio for it finds its recipients; of a session that is
not held it is dropped. -/
theorem targetSenders_zero {t : RoutingTable} (h : t.Consistent) (sessionId : SessionID) :
    (t.holdsSession sessionId = true ∧
      ∃ senders, t.targetSenders sessionId 0 = .ok (.ok senders)) ∨
    (t.holdsSession sessionId = false ∧
      t.targetSenders sessionId 0 = .ok (.error (unknownSession sessionId))) := by
  cases hs : t.sessions.lookup sessionId with
  | none =>
      refine Or.inr ⟨room_eq_none.mp (by simp [room, hs]),?_⟩
      simp [targetSenders, roomId, hs]
  | some session =>
      obtain ⟨room,hr,-⟩ := (h session.roomId sessionId).mpr (by simp [RoutingTable.room, hs])
      refine Or.inl ⟨(holdsSession_iff _ _).mpr ⟨session,hs⟩,?_⟩
      simp [targetSenders, roomId, hs, roomSenders, hr, Except.map]

end RoutingTable

/-- The recipients in rooms that exist. -/
theorem channelSenders_of_rooms {t : RoutingTable} {rooms : List RoomID}
    (h : ∀ roomId ∈ rooms, roomId ∈ t.rooms) :
    channelSenders t rooms = (rooms.flatMap fun roomId => (t.members roomId).filterMap t.sender,
      .ok ()) := by
  rw [channelSenders_eq, if_pos h, List.takeWhile_eq_self_iff.mpr (by simpa using h)]

/-- In every run the routing task gets through audio for the speaker's room, dropping that
of sessions it does not hold, and through text messages for rooms that exist, dropping
recipients that do not; and it does not get through pings and other targets. -/
theorem routing_returns {ts : List Transition} {s : State} (h : Run ts s) (sessionId : SessionID)
    (routing : Channel RoutingMessage) :
    (∀ seqNum payload positionInfo, ∃ ds,
      handleRouting (.voice sessionId (.audio 0 () seqNum payload positionInfo)) s.routingTable
        routing = (ds,.ok (s.routingTable,routing)) ∧
      (s.routingTable.holdsSession sessionId = false → ds = [])) ∧
    (∀ message : TextMessage, (∀ roomId ∈ message.channelId, roomId ∈ s.routingTable.rooms) →
      handleRouting (.text sessionId message) s.routingTable routing =
        ((message.session.filterMap s.routingTable.sender ++
          message.channelId.flatMap fun roomId =>
            (s.routingTable.members roomId).filterMap s.routingTable.sender).map fun peerSender =>
              ⟨peerSender,.textMessage (message.setActor sessionId)⟩,
          .ok (s.routingTable,routing))) ∧
    (∀ target seqNum payload positionInfo, target ≠ 0 →
      handleRouting (.voice sessionId (.audio target () seqNum payload positionInfo))
        s.routingTable routing = ([],.error .explicit)) ∧
    ∀ timestamp, handleRouting (.voice sessionId (.ping timestamp)) s.routingTable routing =
      ([],.error .explicit) := by
  have hc := (TablesReachable.of_run h).routing.consistent
  refine ⟨fun seqNum payload positionInfo => ?_,fun message hrooms => ?_,?_,fun _ => rfl⟩
  · simp only [handleRouting]
    rcases RoutingTable.targetSenders_zero hc sessionId with ⟨hheld,senders,hs⟩ | ⟨-,hs⟩
    · rw [hs]
      exact ⟨_,rfl,fun hn => by rw [hheld] at hn; cases hn⟩
    · rw [hs]
      exact ⟨_,rfl,fun _ => rfl⟩
  · simp only [handleRouting, textSenders, TextMessage.setActor, channelSenders_of_rooms hrooms]
    rfl
  · intro target seqNum payload positionInfo htarget
    simp only [handleRouting, RoutingTable.targetSenders, if_neg htarget]

/-- A message to the default room and to a session that is not there. -/
def toRoom : TextMessage := ⟨none,[9],[0],[],"",[]⟩

/-- The first client authenticates and writes to its room; the routing task has its table. -/
theorem routing_returns_toRoom : ∃ ts s, Run ts s ∧ s.routing.queue = [.text 0 toRoom] ∧
    s.routingTable.holdsSession 0 = true ∧ s.routingTable.holdsSession 9 = false ∧
    handleRouting (.text 0 toRoom) s.routingTable ⟨[],true⟩ =
      ([⟨⟨0⟩,.textMessage (toRoom.setActor 0)⟩],.ok (s.routingTable,⟨[],true⟩)) := by
  have h := Run.nil.snoc (Step.connect rfl)
  have h := h.snoc (Step.greeted (n := 0) rfl)
  have h := h.snoc (Step.registered (n := 0) [] rfl rfl)
  have h := h.snoc (Step.packet (n := 0) (.message .authenticate []) trivial rfl)
  have h := h.snoc (Step.control rfl rfl rfl)
  have h := h.snoc (Step.control rfl rfl rfl)
  have h := h.snoc (Step.routing rfl rfl rfl)
  have h := h.snoc (Step.text (n := 0) toRoom rfl)
  refine ⟨_,_,h,rfl,rfl,rfl,?_⟩
  refine ((routing_returns h 0 ⟨[],true⟩).2.1 toRoom fun roomId hroom => ?_).trans rfl
  obtain rfl := List.mem_singleton.mp hroom
  exact AList.lookup_isSome.mp rfl

/-- A client ends the routing task with a ping. -/
theorem routing_panics : ¬ ∀ ts s, Run ts s → ∀ (sessionId : SessionID)
    (c : ControlPacket .serverbound) (message : RoutingMessage),
    forwarded sessionId c = some message → ∀ routing,
    ∃ r, (handleRouting message s.routingTable routing).2 = .ok r := by
  intro h
  obtain ⟨r,hr⟩ := h [] .init .nil 0 (.udpTunnel (.ping 0)) _ rfl ⟨[],true⟩
  cases hr

end Atof.Server
