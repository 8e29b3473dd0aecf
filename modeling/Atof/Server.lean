import Atof.Tasks

/-!
# The server

The accept task numbers the connections and spawns a session task for each; the
session tasks forward what their clients send to the control and the routing task.
Any task that can go on may go on next, and a client may send anything, stop
reading or go away at any time. The accept, control and routing tasks are joined in
one future, so a panic in one of them drops all three; the session tasks were
spawned on their own and go on. What a dropped or stopped task had in memory is
left as it was.
-/
namespace Atof.Server
open Rust Voice Control

inductive Task where
  | running
  | stopped
  | dropped
  deriving DecidableEq, Repr

inductive AcceptTask where
  | accepting
  | joining
  | stopped
  | dropped
  deriving DecidableEq, Repr

/-- Where a session task is. It waits for its client while it greets it, for its
version, and while it writes to it, in answer to a ping or from its own queue. -/
inductive SessionTask where
  | unborn
  | greeting
  | awaitingVersion
  | running
  | writing
  | ended
  deriving DecidableEq, Repr

structure State where
  control : Channel ControlMessage
  routing : Channel RoutingMessage
  controlTask : Task
  controlState : ControlState
  routingTask : Task
  routingTable : RoutingTable
  acceptTask : AcceptTask
  /-- How many session tasks were spawned; they are numbered from zero. -/
  spawned : ℕ
  session : ℕ → SessionTask
  inbound : ℕ → List (ControlPacket .clientbound)

def State.init : State where
  control := ⟨[], true⟩
  routing := ⟨[], true⟩
  controlTask := .running
  controlState := ⟨∅, ∅⟩
  routingTask := .running
  routingTable := ∅
  acceptTask := .accepting
  spawned := 0
  session := fun _ => .unborn
  inbound := fun _ => []

/-- `sessions.len() as u32`. -/
def sessionId (n : ℕ) : SessionID := BitVec.ofNat 32 n

/-- Forwarding to the routing task is no control packet's way. -/
def IsControl : ControlPacket .serverbound → Prop
  | .udpTunnel _ => False
  | .textMessage _ => False
  | .message .ping _ => False
  | _ => True

namespace State

/-- A panic in one of the joined tasks. -/
def unwind (s : State) : State :=
  { s with
    control := s.control.close
    routing := s.routing.close
    controlTask := .dropped
    routingTask := .dropped
    acceptTask := .dropped }

def setSession (s : State) (n : ℕ) (t : SessionTask) : State :=
  { s with session := Function.update s.session n t }

/-- The receiving end of an inbound queue lives as long as its session task. -/
def Listens (s : State) (n : ℕ) : Prop := s.session n = .running ∨ s.session n = .writing

instance (s : State) (n : ℕ) : Decidable (s.Listens n) := inferInstanceAs (Decidable (_ ∨ _))

/-- Pushing to an inbound queue; an error is ignored. -/
def deliver (s : State) (d : Delivery) : State :=
  if s.Listens d.recipient.queue then
    { s with
      inbound := Function.update s.inbound d.recipient.queue
        (s.inbound d.recipient.queue ++ [d.packet]) }
  else s

def deliverAll (s : State) (ds : List Delivery) : State := ds.foldl deliver s

/-- A table that holds a handle of an inbound queue. -/
def TableHandles (t : RoutingTable) (n : ℕ) : Prop :=
  ∃ id session, t.sessions.lookup id = some session ∧ session.sender.queue = n

/-- Somewhere a handle of an inbound queue is left. -/
def Handles (s : State) (n : ℕ) : Prop :=
  (s.controlTask = .running ∧
    ((∃ id session, s.controlState.unauth.lookup id = some session ∧ session.send.queue = n) ∨
      TableHandles s.controlState.rtbl n ∨
      ∃ id session, .addSession id session ∈ s.control.queue ∧ session.send.queue = n)) ∨
  (s.routingTask = .running ∧
    (TableHandles s.routingTable n ∨
      ∃ t, .update t ∈ s.routing.queue ∧ TableHandles t n))

/-- The accept task and the session tasks hold senders of both queues. -/
def HasClients (s : State) : Prop :=
  s.acceptTask = .accepting ∨ s.acceptTask = .joining ∨
    ∃ n, n < s.spawned ∧ s.session n ≠ .ended

/-- A session task that gives up tells the control task, if that still listens. -/
def leave (s : State) (n : ℕ) : State :=
  { s.setSession n .ended with control := s.control.offer (.removeSession (sessionId n)) }

end State

/-- What the routing task does that others can see. -/
inductive Event where
  | dequeue (message : RoutingMessage)
  | push (origin : SessionID) (delivery : Delivery)
  | install (rtbl : RoutingTable)
  deriving DecidableEq

/-- The events of one message. -/
def routingEvents (message : RoutingMessage) (ds : List Delivery) : List Event :=
  .dequeue message :: match message with
    | .voice origin _ => ds.map (.push origin)
    | .text origin _ => ds.map (.push origin)
    | .update rtbl => [.install rtbl]
    | .shutdown => []

/-- One step of one task. -/
inductive Step : State → List Event → State → Prop
  -- the accept task
  | connect {s : State} (accepting : s.acceptTask = .accepting) :
      Step s [] { s.setSession s.spawned .greeting with spawned := s.spawned + 1 }
  | stop {s : State} {control : Channel ControlMessage} (accepting : s.acceptTask = .accepting)
      (sent : s.control.expectSend .shutdown = .ok control) :
      Step s [] { s with control, acceptTask := .joining }
  | stopPanics {s : State} {panic : Panic} (accepting : s.acceptTask = .accepting)
      (failed : s.control.expectSend .shutdown = .error panic) : Step s [] s.unwind
  | joined {s : State} (joining : s.acceptTask = .joining)
      (ended : ∀ n, n < s.spawned → s.session n = .ended) :
      Step s [] { s with acceptTask := .stopped }
  -- a session task, up to its registration
  | greeted {s : State} {n : ℕ} (greeting : s.session n = .greeting) :
      Step s [] (s.setSession n .awaitingVersion)
  | refused {s : State} {n : ℕ}
      (handshake : s.session n = .greeting ∨ s.session n = .awaitingVersion) :
      Step s [] (s.setSession n .ended)
  | registered {s : State} {n : ℕ} {control : Channel ControlMessage} (version : Version)
      (awaiting : s.session n = .awaitingVersion)
      (sent : s.control.send (.addSession (sessionId n) ⟨version,⟨n⟩⟩) = some control) :
      Step s [] { s.setSession n .running with control }
  | denied {s : State} {n : ℕ} (version : Version) (awaiting : s.session n = .awaitingVersion)
      (failed : s.control.send (.addSession (sessionId n) ⟨version,⟨n⟩⟩) = none) :
      Step s [] (s.setSession n .ended)
  -- a session task, on a packet from its client
  | voice {s : State} {n : ℕ} (packet : VoicePacket .serverbound)
      (running : s.session n = .running) :
      Step s [] { s with routing := s.routing.offer (.voice (sessionId n) packet) }
  | text {s : State} {n : ℕ} (message : TextMessage) (running : s.session n = .running) :
      Step s [] { s with routing := s.routing.offer (.text (sessionId n) message) }
  | ping {s : State} {n : ℕ} (running : s.session n = .running) :
      Step s [] (s.setSession n .writing)
  | packet {s : State} {n : ℕ} (packet : ControlPacket .serverbound) (control : IsControl packet)
      (running : s.session n = .running) :
      Step s [] { s with control := s.control.offer (.packet (sessionId n) packet) }
  -- a session task, on its queue and its client
  | take {s : State} {n : ℕ} {packet : ControlPacket .clientbound}
      {rest : List (ControlPacket .clientbound)} (running : s.session n = .running)
      (queued : s.inbound n = packet :: rest) :
      Step s [] { s.setSession n .writing with inbound := Function.update s.inbound n rest }
  | written {s : State} {n : ℕ} (writing : s.session n = .writing) :
      Step s [] (s.setSession n .running)
  | finished {s : State} {n : ℕ} (running : s.session n = .running) (empty : s.inbound n = [])
      (unreferenced : ¬ s.Handles n) : Step s [] (s.setSession n .ended)
  | left {s : State} {n : ℕ} (listens : s.Listens n) : Step s [] (s.leave n)
  -- the control task
  | control {s : State} {message : ControlMessage} {rest : List ControlMessage}
      {controlState : ControlState} {control : Channel ControlMessage}
      {routing : Channel RoutingMessage} (running : s.controlTask = .running)
      (queued : s.control.queue = message :: rest)
      (handled : handleControl message s.controlState { s.control with queue := rest } s.routing =
        .ok (controlState,control,routing)) :
      Step s [] { s with controlState, control, routing }
  | controlPanics {s : State} {message : ControlMessage} {rest : List ControlMessage}
      {panic : Panic} (running : s.controlTask = .running)
      (queued : s.control.queue = message :: rest)
      (failed : handleControl message s.controlState { s.control with queue := rest } s.routing =
        .error panic) : Step s [] s.unwind
  | controlStops {s : State} {routing : Channel RoutingMessage}
      (running : s.controlTask = .running) (drained : s.control.queue = [])
      (closed : s.control.isOpen = false ∨ ¬ s.HasClients)
      (sent : s.routing.expectSend .shutdown = .ok routing) :
      Step s [] { s with control := s.control.close, routing, controlTask := .stopped }
  | controlStopPanics {s : State} {panic : Panic} (running : s.controlTask = .running)
      (drained : s.control.queue = []) (closed : s.control.isOpen = false ∨ ¬ s.HasClients)
      (failed : s.routing.expectSend .shutdown = .error panic) : Step s [] s.unwind
  -- the routing task
  | routing {s : State} {message : RoutingMessage} {rest : List RoutingMessage}
      {ds : List Delivery} {routingTable : RoutingTable} {routing : Channel RoutingMessage}
      (running : s.routingTask = .running) (queued : s.routing.queue = message :: rest)
      (handled : handleRouting message s.routingTable { s.routing with queue := rest } =
        (ds,.ok (routingTable,routing))) :
      Step s (routingEvents message ds) ({ s with routingTable, routing }.deliverAll ds)
  | routingPanics {s : State} {message : RoutingMessage} {rest : List RoutingMessage}
      {ds : List Delivery} {panic : Panic} (running : s.routingTask = .running)
      (queued : s.routing.queue = message :: rest)
      (failed : handleRouting message s.routingTable { s.routing with queue := rest } =
        (ds,.error panic)) : Step s (routingEvents message ds) (s.deliverAll ds).unwind
  | routingStops {s : State} (running : s.routingTask = .running) (drained : s.routing.queue = [])
      (closed : s.routing.isOpen = false ∨ s.controlTask ≠ .running ∧ ¬ s.HasClients) :
      Step s [] { s with routing := s.routing.close, routingTask := .stopped }

structure Transition where
  before : State
  events : List Event
  after : State

/-- A run from the start, as its transitions in order. -/
inductive Run : List Transition → State → Prop
  | nil : Run [] .init
  | snoc {ts : List Transition} {s s' : State} {events : List Event} (run : Run ts s)
      (step : Step s events s') : Run (ts ++ [⟨s,events,s'⟩]) s'

/-- What holds at the start and is kept by every step holds after every run. -/
theorem Run.invariant {I : State → Prop} {ts : List Transition} {s : State} (h : Run ts s)
    (init : I .init) (step : ∀ {s events s'}, I s → Step s events s' → I s') : I s := by
  induction h with
  | nil => exact init
  | snoc _ hs ih => exact step ih hs

/-- Up to each of its transitions a run is a run. -/
theorem Run.split {ts ts₁ ts₂ : List Transition} {t : Transition} {s : State} (h : Run ts s)
    (hts : ts = ts₁ ++ t :: ts₂) :
    Run ts₁ t.before ∧ Step t.before t.events t.after ∧ Run (ts₁ ++ [t]) t.after := by
  induction h generalizing ts₂ with
  | nil => simp at hts
  | @snoc ts s s' events run step ih =>
      rcases List.eq_nil_or_concat ts₂ with rfl | ⟨ts₂,last,rfl⟩
      · obtain ⟨rfl,rfl⟩ := List.concat_inj.mp (by simpa using hts)
        exact ⟨run,step,run.snoc step⟩
      · rw [List.concat_eq_append, ← List.cons_append, ← List.append_assoc] at hts
        exact ih (List.append_inj_left' hts rfl)

theorem Run.split_of_mem {ts : List Transition} {t : Transition} {s : State} (h : Run ts s)
    (ht : t ∈ ts) : ∃ ts₁, Run ts₁ t.before ∧ Step t.before t.events t.after ∧
      Run (ts₁ ++ [t]) t.after := by
  obtain ⟨ts₁,ts₂,hts⟩ := List.append_of_mem ht
  exact ⟨ts₁,h.split hts⟩

/-! ## Delivering changes inbound queues only -/

theorem State.deliver_eq (s : State) (d : Delivery) :
    ∃ inbound, s.deliver d = { s with inbound } := by
  unfold deliver
  split
  · exact ⟨_,rfl⟩
  · exact ⟨s.inbound,rfl⟩

theorem State.deliverAll_eq (s : State) (ds : List Delivery) :
    ∃ inbound, s.deliverAll ds = { s with inbound } := by
  induction ds generalizing s with
  | nil => exact ⟨s.inbound,rfl⟩
  | cons d ds ih =>
      obtain ⟨inbound₁,h₁⟩ := s.deliver_eq d
      obtain ⟨inbound,h⟩ := ih (s.deliver d)
      refine ⟨inbound,?_⟩
      change (s.deliver d).deliverAll ds = _
      rw [h, h₁]

end Atof.Server
