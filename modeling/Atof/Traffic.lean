import Atof.Agreement
import Atof.Fifo
import Atof.RelayedFrames

/-!
# What goes through the queues

The session tasks and the accept task put messages into the control queue, and the
session tasks and the control task into the routing queue. A step puts in at most
one, and only the task that a queue belongs to takes one out.
-/
namespace Atof.Server
open Rust Voice Control Fifo

/-! ## The control queue -/

/-- What a step makes of the session tasks, by what it puts into the control queue. -/
inductive Speech (s s' : State) : List ControlMessage → Prop
  | silent (session : s'.session = s.session) (spawned : s'.spawned = s.spawned) : Speech s s' []
  | shutdown (session : s'.session = s.session) (spawned : s'.spawned = s.spawned) :
      Speech s s' [.shutdown]
  | connect (session : s'.session = Function.update s.session s.spawned .greeting)
      (spawned : s'.spawned = s.spawned + 1) : Speech s s' []
  | moved {n : ℕ} {t : SessionTask} (born : s.session n ≠ .unborn)
      (on : t = .ended ∨ t = .awaitingVersion ∧ s.session n = .greeting ∨
        (t = .running ∨ t = .writing) ∧ s.Listens n)
      (session : s'.session = Function.update s.session n t) (spawned : s'.spawned = s.spawned) :
      Speech s s' []
  | registered {n : ℕ} {version : Version} (awaiting : s.session n = .awaitingVersion)
      (session : s'.session = Function.update s.session n .running)
      (spawned : s'.spawned = s.spawned) :
      Speech s s' [.addSession (sessionId n) ⟨version,⟨n⟩⟩]
  | packet {n : ℕ} {packet : ControlPacket .serverbound} (running : s.session n = .running)
      (session : s'.session = s.session) (spawned : s'.spawned = s.spawned) :
      Speech s s' [.packet (sessionId n) packet]
  | left {n : ℕ} (listens : s.Listens n) (session : s'.session = Function.update s.session n .ended)
      (spawned : s'.spawned = s.spawned) : Speech s s' [.removeSession (sessionId n)]

theorem Speech.length_le {s s' : State} {said : List ControlMessage} (h : Speech s s' said) :
    said.length ≤ 1 := by
  cases h <;> simp

/-- What a step does to the control queue and the tables behind it: something is told, or the
control task takes a message and handles it. -/
inductive ControlQueue (s s' : State) : Prop
  | tells {said : List ControlMessage} (queue : s'.control.queue = s.control.queue ++ said)
      (state : s'.controlState = s.controlState) (speech : Speech s s' said) : ControlQueue s s'
  | handles {message : ControlMessage} {rest : List ControlMessage}
      {control control' : Channel ControlMessage} {routing routing' : Channel RoutingMessage}
      (queued : s.control.queue = message :: rest) (left : s'.control.queue = rest)
      (handled : handleControl message s.controlState control routing =
        .ok (s'.controlState,control',routing'))
      (session : s'.session = s.session) (spawned : s'.spawned = s.spawned) : ControlQueue s s'

theorem Step.controlQueue {s s' : State} {events : List Event} (h : Step s events s') :
    ControlQueue s s' := by
  have still {s₁ : State} (hq : s₁.control.queue = s.control.queue)
      (hc : s₁.controlState = s.controlState) (hs : Speech s s₁ []) : ControlQueue s s₁ :=
    .tells (by rw [hq, List.append_nil]) hc hs
  cases h with
  | connect accepting => exact still rfl rfl (.connect rfl rfl)
  | stop accepting sent =>
      obtain ⟨-,rfl⟩ := Channel.expectSend_eq_ok sent
      exact .tells rfl rfl (.shutdown rfl rfl)
  | @greeted n greeting =>
      exact still rfl rfl (.moved (n := n) (by simp [greeting]) (by simp [greeting]) rfl rfl)
  | @refused n handshake =>
      refine still rfl rfl (.moved (n := n) ?_ (Or.inl rfl) rfl rfl)
      rcases handshake with hs | hs <;> simp [hs]
  | @registered n control version awaiting sent =>
      obtain ⟨-,rfl⟩ := Channel.send_eq_some sent
      exact .tells rfl rfl (.registered awaiting rfl rfl)
  | @denied n version awaiting failed =>
      exact still rfl rfl (.moved (n := n) (by simp [awaiting]) (Or.inl rfl) rfl rfl)
  | @ping n running | @take n packet rest running queued =>
      exact still rfl rfl
        (.moved (n := n) (by simp [running]) (by simp [State.Listens, running]) rfl rfl)
  | @packet n packet control running =>
      rcases s.control.offer_cases (.packet (sessionId n) packet) with he | ⟨-,he⟩
      · exact still (congrArg Channel.queue he) rfl (.silent rfl rfl)
      · exact .tells (congrArg Channel.queue he) rfl (.packet running rfl rfl)
  | @written n writing =>
      exact still rfl rfl
        (.moved (n := n) (by simp [writing]) (by simp [State.Listens, writing]) rfl rfl)
  | @finished n running empty unreferenced =>
      exact still rfl rfl (.moved (n := n) (by simp [running]) (Or.inl rfl) rfl rfl)
  | @left n listens =>
      rcases s.control.offer_cases (.removeSession (sessionId n)) with he | ⟨-,he⟩
      · refine still (congrArg Channel.queue he) rfl (.moved (n := n) ?_ (Or.inl rfl) rfl rfl)
        rcases listens with hs | hs <;> simp [hs]
      · exact .tells (congrArg Channel.queue he) rfl (.left listens rfl rfl)
  | control running queued handled =>
      exact .handles queued (handleControl_queue handled).1 handled rfl rfl
  | @routing message rest ds routingTable routing running queued handled =>
      obtain ⟨inbound,he⟩ := State.deliverAll_eq { s with routingTable, routing } ds
      rw [he]
      exact still rfl rfl (.silent rfl rfl)
  | @routingPanics message rest ds panic running queued failed =>
      obtain ⟨inbound,he⟩ := s.deliverAll_eq ds
      rw [he]
      exact still rfl rfl (.silent rfl rfl)
  | _ => exact still rfl rfl (.silent rfl rfl)

theorem Step.speech {s s' : State} {events : List Event} (h : Step s events s') :
    Moves s.control.queue s'.control.queue ∧
      Speech s s' (puts s.control.queue s'.control.queue) := by
  cases h.controlQueue with
  | tells queue state speech =>
      rw [queue, puts_append]
      exact ⟨.of_append speech.length_le,speech⟩
  | handles queued left handled session spawned =>
      rw [queued, left, puts_cons]
      exact ⟨.take rfl,.silent session spawned⟩

/-! ## The routing queue -/

/-- A session task hands over what its client has sent. -/
def Delivers (t : Transition) (n : ℕ) (c : ControlPacket .serverbound) : Prop :=
  t.before.session n = .running ∧ t.events = [] ∧ ∃ m, forwarded (sessionId n) c = some m ∧
    t.after = { t.before with routing := t.before.routing.offer m }

/-- Who puts a message into the routing queue. -/
inductive Forwards (t : Transition) : List RoutingMessage → Prop
  | none : Forwards t []
  | client {n : ℕ} {c : ControlPacket .serverbound} {m : RoutingMessage} (delivers : Delivers t n c)
      (message : forwarded (sessionId n) c = some m) : Forwards t [m]
  | update {rtbl : RoutingTable} : Forwards t [.update rtbl]
  | shutdown : Forwards t [.shutdown]

theorem Step.forwards {s s' : State} {events : List Event} (h : Step s events s') :
    Moves s.routing.queue s'.routing.queue ∧
      Forwards ⟨s,events,s'⟩ (puts s.routing.queue s'.routing.queue) := by
  have still {events₁ : List Event} {s₁ : State} (hq : s₁.routing.queue = s.routing.queue) :
      Moves s.routing.queue s₁.routing.queue ∧
        Forwards ⟨s,events₁,s₁⟩ (puts s.routing.queue s₁.routing.queue) := by
    rw [hq, puts_self]
    exact ⟨.still,.none⟩
  have put {s₁ : State} {m : RoutingMessage} (hq : s₁.routing.queue = s.routing.queue ++ [m])
      (hs : Forwards ⟨s,[],s₁⟩ [m]) : Moves s.routing.queue s₁.routing.queue ∧
        Forwards ⟨s,[],s₁⟩ (puts s.routing.queue s₁.routing.queue) := by
    rw [hq, puts_append]
    exact ⟨.put m,hs⟩
  cases h with
  | @voice n packet running =>
      rcases s.routing.offer_cases (.voice (sessionId n) packet) with he | ⟨-,he⟩
      · exact still (congrArg Channel.queue he)
      · exact put (congrArg Channel.queue he)
          (.client (c := .udpTunnel packet) ⟨running,rfl,_,rfl,rfl⟩ rfl)
  | @text n message running =>
      rcases s.routing.offer_cases (.text (sessionId n) message) with he | ⟨-,he⟩
      · exact still (congrArg Channel.queue he)
      · exact put (congrArg Channel.queue he)
          (.client (c := .textMessage message) ⟨running,rfl,_,rfl,rfl⟩ rfl)
  | control running queued handled =>
      cases handleControl_publishes handled with
      | quiet same => exact still rfl
      | update changed isOpen => exact put rfl .update
  | controlStops running drained closed sent =>
      obtain ⟨-,rfl⟩ := Channel.expectSend_eq_ok sent
      exact put rfl .shutdown
  | @routing message rest ds routingTable routing running queued handled =>
      obtain ⟨-,hqueue,-⟩ := handleRouting_table (congrArg Prod.snd handled)
      obtain ⟨inbound,he⟩ := State.deliverAll_eq { s with routingTable, routing } ds
      rw [he, queued]
      change Moves (message :: rest) routing.queue ∧
        Forwards _ (puts (message :: rest) routing.queue)
      rw [hqueue, puts_cons]
      exact ⟨.take rfl,.none⟩
  | @routingPanics message rest ds panic running queued failed =>
      obtain ⟨inbound,he⟩ := s.deliverAll_eq ds
      rw [he]
      exact still rfl
  | _ => exact still rfl

/-- A step has no events unless the routing task takes the message at the front. -/
theorem Step.dequeues {s s' : State} {events : List Event} (h : Step s events s') :
    events = [] ∨ ∃ message rest, s.routing.queue = message :: rest ∧ events =
      routingEvents message (handleRouting message s.routingTable { s.routing with queue := rest }).1 := by
  cases h with
  | routing running queued handled => exact Or.inr ⟨_,_,queued,by rw [handled]⟩
  | routingPanics running queued failed => exact Or.inr ⟨_,_,queued,by rw [failed]⟩
  | _ => exact Or.inl rfl

/-! ## Runs -/

/-- What was put into the routing queue, in order. -/
def posted (ts : List Transition) : List RoutingMessage :=
  Fifo.put (fun t : Transition => t.before.routing.queue) (fun t => t.after.routing.queue) ts

/-- What the routing task took out of it. -/
def received (ts : List Transition) : List RoutingMessage :=
  Fifo.taken (fun t : Transition => t.before.routing.queue) (fun t => t.after.routing.queue) ts

/-- What was put into the control queue. -/
def told (ts : List Transition) : List ControlMessage :=
  Fifo.put (fun t : Transition => t.before.control.queue) (fun t => t.after.control.queue) ts

/-- What the control task has processed. -/
def processed (ts : List Transition) : List ControlMessage :=
  Fifo.taken (fun t : Transition => t.before.control.queue) (fun t => t.after.control.queue) ts

theorem Run.routingTrace {ts : List Transition} {s : State} (h : Run ts s) :
    Trace (fun t : Transition => t.before.routing.queue) (fun t => t.after.routing.queue) ts
      s.routing.queue := by
  induction h with
  | nil => exact .nil
  | snoc run step ih => exact ih.snoc (t := Transition.mk _ _ _) step.forwards.1

theorem Run.controlTrace {ts : List Transition} {s : State} (h : Run ts s) :
    Trace (fun t : Transition => t.before.control.queue) (fun t => t.after.control.queue) ts
      s.control.queue := by
  induction h with
  | nil => exact .nil
  | snoc run step ih => exact ih.snoc (t := Transition.mk _ _ _) step.speech.1

end Atof.Server
