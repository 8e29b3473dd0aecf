import Atof.Completion

/-!
# Stopping without the clients

Once the control and the routing task have stopped, a session task is left with what its client
has done before: the packets it has sent, which may be pings, and as many packets as its socket
takes without being read. The task may come to them in any order, and while it writes or waits
for a version it does not look at its queue. So the accept task is not left waiting if for each
session task what is there is enough for all that it can come to write, and for a version to be
there where one is awaited; and otherwise it may be.
-/
namespace Atof.Server
open Rust Voice Control Fairness
open Relation (ReflTransGen)

/-- What a client has done for its session task: what it has sent and the task has not read,
with `none` for an error or the end of the stream, and how many packets it takes unread. -/
structure Provision where
  arrived : List (Option (ControlPacket .serverbound))
  room : ℕ

/-- The server, and what its clients have done. -/
structure Scene where
  state : State
  provision : ℕ → Provision

namespace Scene

/-- A packet is read, and the server is in another state. -/
def read (c : Scene) (n : ℕ) (rest : List (Option (ControlPacket .serverbound))) (s : State) :
    Scene :=
  ⟨s,Function.update c.provision n { c.provision n with arrived := rest }⟩

/-- A packet is written, or could not be, and the server is in another state. -/
def write (c : Scene) (n : ℕ) (s : State) : Scene :=
  ⟨s,Function.update c.provision n { c.provision n with room := (c.provision n).room - 1 }⟩

@[simp] theorem read_provision (c : Scene) (n : ℕ)
    (rest : List (Option (ControlPacket .serverbound))) (s : State) :
    (c.read n rest s).provision n = { c.provision n with arrived := rest } :=
  Function.update_self ..

@[simp] theorem write_provision (c : Scene) (n : ℕ) (s : State) :
    (c.write n s).provision n = { c.provision n with room := (c.provision n).room - 1 } :=
  Function.update_self ..

end Scene

/-- The steps of a session task that its client has no part in any more. -/
inductive Alone (n : ℕ) (c : Scene) : Scene → Prop
  -- up to the registration
  | greeted (greeting : c.state.session n = .greeting) (fits : 0 < (c.provision n).room) :
      Alone n c (c.write n (c.state.setSession n .awaitingVersion))
  | ungreeted (greeting : c.state.session n = .greeting) (fits : 0 < (c.provision n).room) :
      Alone n c (c.write n (c.state.setSession n .ended))
  | registered {version : Version} {rest : List (Option (ControlPacket .serverbound))}
      {control : Channel ControlMessage} (awaiting : c.state.session n = .awaitingVersion)
      (arrived : (c.provision n).arrived = some (.message .version version) :: rest)
      (sent : c.state.control.send (.addSession (sessionId n) ⟨version,⟨n⟩⟩) = some control) :
      Alone n c (c.read n rest { c.state.setSession n .running with control })
  | denied {version : Version} {rest : List (Option (ControlPacket .serverbound))}
      (awaiting : c.state.session n = .awaitingVersion)
      (arrived : (c.provision n).arrived = some (.message .version version) :: rest)
      (failed : c.state.control.send (.addSession (sessionId n) ⟨version,⟨n⟩⟩) = none) :
      Alone n c (c.read n rest (c.state.setSession n .ended))
  | refused {packet : Option (ControlPacket .serverbound)}
      {rest : List (Option (ControlPacket .serverbound))}
      (awaiting : c.state.session n = .awaitingVersion)
      (arrived : (c.provision n).arrived = packet :: rest)
      (other : ∀ version, packet ≠ some (.message .version version)) :
      Alone n c (c.read n rest (c.state.setSession n .ended))
  -- on what its client has sent
  | forwards {packet : ControlPacket .serverbound} {message : RoutingMessage}
      {rest : List (Option (ControlPacket .serverbound))} (running : c.state.session n = .running)
      (arrived : (c.provision n).arrived = some packet :: rest)
      (relay : forwarded (sessionId n) packet = some message) :
      Alone n c (c.read n rest { c.state with routing := c.state.routing.offer message })
  | pinged {body : Bytes} {rest : List (Option (ControlPacket .serverbound))}
      (running : c.state.session n = .running)
      (arrived : (c.provision n).arrived = some (.message .ping body) :: rest) :
      Alone n c (c.read n rest (c.state.setSession n .writing))
  | tells {packet : ControlPacket .serverbound}
      {rest : List (Option (ControlPacket .serverbound))} (running : c.state.session n = .running)
      (arrived : (c.provision n).arrived = some packet :: rest) (control : IsControl packet) :
      Alone n c (c.read n rest
        { c.state with control := c.state.control.offer (.packet (sessionId n) packet) })
  | disconnected {rest : List (Option (ControlPacket .serverbound))}
      (running : c.state.session n = .running) (arrived : (c.provision n).arrived = none :: rest) :
      Alone n c (c.read n rest (c.state.leave n))
  -- on its queue, and on the clock
  | take {packet : ControlPacket .clientbound} {rest : List (ControlPacket .clientbound)}
      (running : c.state.session n = .running) (queued : c.state.inbound n = packet :: rest) :
      Alone n c ⟨{ c.state.setSession n .writing with
        inbound := Function.update c.state.inbound n rest },c.provision⟩
  | written (writing : c.state.session n = .writing) (fits : 0 < (c.provision n).room) :
      Alone n c (c.write n (c.state.setSession n .running))
  | unwritten (writing : c.state.session n = .writing) (fits : 0 < (c.provision n).room) :
      Alone n c (c.write n (c.state.leave n))
  | finished (running : c.state.session n = .running) (empty : c.state.inbound n = [])
      (unreferenced : ¬ c.state.Handles n) : Alone n c ⟨c.state.setSession n .ended,c.provision⟩
  | timedOut (running : c.state.session n = .running) :
      Alone n c ⟨c.state.leave n,c.provision⟩

/-- A step of some session task. -/
def Moves (c c' : Scene) : Prop := ∃ n, Alone n c c'

/-- The task waits for its client: for its version, or for room to write. -/
inductive Waits (c : Scene) (n : ℕ) : Prop
  | greeting (greeting : c.state.session n = .greeting) (full : (c.provision n).room = 0)
  | version (awaiting : c.state.session n = .awaitingVersion)
      (nothing : (c.provision n).arrived = [])
  | writing (writing : c.state.session n = .writing) (full : (c.provision n).room = 0)

/-- How many pongs the task may have to write. It reads until there is an error or the end. -/
def pongs : List (Option (ControlPacket .serverbound)) → ℕ
  | [] => 0
  | none :: _ => 0
  | some (.message .ping _) :: rest => pongs rest + 1
  | some _ :: rest => pongs rest

/-- The client has done its part: where the task is and with so much in its queue, there is a
packet where it waits for one, and room for all that it may write. -/
def Provision.Covers (p : Provision) (t : SessionTask) (queued : ℕ) : Prop :=
  match t with
  | .greeting => 0 < p.room ∧ p.arrived ≠ []
  | .awaitingVersion => p.arrived ≠ []
  | .running => queued + pongs p.arrived ≤ p.room
  | .writing => queued + pongs p.arrived < p.room
  | .unborn => True
  | .ended => True

section
variable {n : ℕ} {c c' : Scene}

theorem Alone.step (h : Alone n c c') : Step c.state [] c'.state := by
  cases h with
  | greeted greeting fits => exact .greeted greeting
  | ungreeted greeting fits => exact .refused (Or.inl greeting)
  | registered awaiting arrived sent => exact .registered _ awaiting sent
  | denied awaiting arrived failed => exact .denied _ awaiting failed
  | refused awaiting arrived other => exact .refused (Or.inr awaiting)
  | @forwards packet message rest running arrived relay =>
      cases packet with
      | udpTunnel packet =>
          cases relay
          exact .voice packet running
      | textMessage text =>
          cases relay
          exact .text text running
      | message type body => cases relay
      | other packet => cases relay
  | pinged running arrived => exact .ping running
  | tells running arrived control => exact .packet _ control running
  | disconnected running arrived => exact .left (Or.inl running)
  | take running queued => exact .take running queued
  | written writing fits => exact .written writing
  | unwritten writing fits => exact .left (Or.inr writing)
  | finished running empty unreferenced => exact .finished running empty unreferenced
  | timedOut running => exact .left (Or.inl running)

/-- The other session tasks and what they are left with stay as they are. -/
theorem Alone.others (h : Alone n c c') {m : ℕ} (hm : m ≠ n) :
    c'.state.session m = c.state.session m ∧ c'.state.inbound m = c.state.inbound m ∧
      c'.provision m = c.provision m := by
  cases h <;> simp [Scene.read, Scene.write, State.leave, State.setSession, hm]

end

/-- The accept task waits for the session tasks, and the other two have stopped. -/
structure Deserted (s : State) : Prop where
  joining : s.acceptTask = .joining
  control : s.controlTask = .stopped
  routing : s.routingTask = .stopped
  run : ∃ ts, Run ts s

namespace Deserted

variable {s : State}

/-- Nobody registers any more. -/
theorem refuses (h : Deserted s) (message : ControlMessage) : s.control.send message = none := by
  obtain ⟨ts,hrun⟩ := h.run
  rw [Channel.send, ((Drained.of_run hrun).control h.control).2]
  rfl

theorem not_handles (h : Deserted s) (n : ℕ) : ¬ s.Handles n := by
  obtain ⟨ts,hrun⟩ := h.run
  exact fun hh => (Drained.of_run hrun).unheld h.control h.routing n (.of_handles hh)

/-- The tasks that were spawned are those that have begun. -/
theorem begun (h : Deserted s) {n : ℕ} : n < s.spawned ↔ s.session n ≠ .unborn := by
  obtain ⟨ts,hrun⟩ := h.run
  refine ⟨fun hn => ?_,(Owned.of_run hrun).born n⟩
  exact hrun.invariant (I := fun s => ∀ n, n < s.spawned → s.session n ≠ .unborn)
    (fun n hn => by cases hn) Step.begun n hn

end Deserted

/-! ## What one step makes of one task -/

/-- Where the task is, how much is in its queue, and what its client has done for it: before a
step of its own, and afterwards. -/
inductive Shift (p : Provision) : SessionTask → ℕ → SessionTask → ℕ → Provision → Prop
  | greeted {queued : ℕ} (fits : 0 < p.room) :
      Shift p .greeting queued .awaitingVersion queued { p with room := p.room - 1 }
  | reads {queued : ℕ} {packet : ControlPacket .serverbound}
      {rest : List (Option (ControlPacket .serverbound))} (arrived : p.arrived = some packet :: rest)
      (other : ∀ body, packet ≠ .message .ping body) :
      Shift p .running queued .running queued { p with arrived := rest }
  | pinged {queued : ℕ} {body : Bytes} {rest : List (Option (ControlPacket .serverbound))}
      (arrived : p.arrived = some (.message .ping body) :: rest) :
      Shift p .running queued .writing queued { p with arrived := rest }
  | take {queued : ℕ} : Shift p .running (queued + 1) .writing queued p
  | written {queued : ℕ} (fits : 0 < p.room) :
      Shift p .writing queued .running queued { p with room := p.room - 1 }
  | ends {t : SessionTask} {queued : ℕ} {p' : Provision} (born : t ≠ .unborn) (live : t ≠ .ended)
      (arrived : p'.arrived.length ≤ p.arrived.length) : Shift p t queued .ended queued p'

theorem Shift.born {p p' : Provision} {t t' : SessionTask} {queued queued' : ℕ}
    (h : Shift p t queued t' queued' p') : t ≠ .unborn := by
  cases h with
  | ends born live arrived => exact born
  | _ => simp

theorem not_ping_of_forwarded {id : SessionID} {packet : ControlPacket .serverbound}
    {message : RoutingMessage} (h : forwarded id packet = some message) (body : Bytes) :
    packet ≠ .message .ping body := by
  rintro rfl
  cases h

theorem not_ping_of_isControl {packet : ControlPacket .serverbound} (h : IsControl packet)
    (body : Bytes) : packet ≠ .message .ping body := by
  rintro rfl
  exact h

theorem Alone.shift {n : ℕ} {c c' : Scene} (h : Alone n c c') (hc : Deserted c.state) :
    Shift (c.provision n) (c.state.session n) (c.state.inbound n).length (c'.state.session n)
      (c'.state.inbound n).length (c'.provision n) := by
  have session (t : SessionTask) : (c.state.setSession n t).session n = t :=
    Function.update_self ..
  have left : (c.state.leave n).session n = .ended := session .ended
  cases h with
  | greeted hs fits =>
      rw [hs, Scene.write_provision]
      exact session _ ▸ .greeted fits
  | ungreeted hs fits =>
      rw [Scene.write_provision]
      exact session _ ▸ .ends (by simp [hs]) (by simp [hs]) le_rfl
  | registered hs harrived sent =>
      rw [hc.refuses] at sent
      cases sent
  | denied hs harrived _ | refused hs harrived _ =>
      rw [Scene.read_provision]
      exact session _ ▸ .ends (by simp [hs]) (by simp [hs]) (by simp [harrived])
  | forwards hs harrived relay =>
      rw [Scene.read_provision]
      exact hs ▸ .reads harrived (not_ping_of_forwarded relay)
  | tells hs harrived control =>
      rw [Scene.read_provision]
      exact hs ▸ .reads harrived (not_ping_of_isControl control)
  | pinged hs harrived =>
      rw [hs, Scene.read_provision]
      exact session _ ▸ .pinged harrived
  | disconnected hs harrived =>
      rw [Scene.read_provision]
      exact left ▸ .ends (by simp [hs]) (by simp [hs]) (by simp [harrived])
  | @take packet rest hs hqueued =>
      rw [hs, hqueued]
      have hinbound : Function.update c.state.inbound n rest n = rest := Function.update_self ..
      change Shift _ _ (rest.length + 1) ((c.state.setSession n .writing).session n)
        (Function.update c.state.inbound n rest n).length _
      rw [session, hinbound]
      exact .take
  | written hs fits =>
      rw [hs, Scene.write_provision]
      exact session _ ▸ .written fits
  | unwritten hs fits =>
      rw [Scene.write_provision]
      exact left ▸ .ends (by simp [hs]) (by simp [hs]) le_rfl
  | finished hs _ _ => exact session _ ▸ .ends (by simp [hs]) (by simp [hs]) le_rfl
  | timedOut hs => exact left ▸ .ends (by simp [hs]) (by simp [hs]) le_rfl

/-- The clients have done their part. -/
def Scene.Covered (c : Scene) : Prop :=
  ∀ n, (c.provision n).Covers (c.state.session n) (c.state.inbound n).length

theorem Waits.stuck {n : ℕ} {c : Scene} (h : Waits c n) :
    (c.state.session n ≠ .unborn ∧ c.state.session n ≠ .ended) ∧ ∀ c', ¬ Alone n c c' := by
  cases h with
  | greeting hs hfull | writing hs hfull =>
      refine ⟨by simp [hs],fun c' halone => ?_⟩
      cases halone <;> simp_all
  | version hs hnothing =>
      refine ⟨by simp [hs],fun c' halone => ?_⟩
      cases halone <;> simp_all

theorem Waits.keeps {n : ℕ} {c c' : Scene} (h : Waits c n) (hm : Moves c c') : Waits c' n := by
  obtain ⟨m,halone⟩ := hm
  by_cases hnm : n = m
  · exact absurd (hnm ▸ halone) (h.stuck.2 c')
  · obtain ⟨hsession,-,hprovision⟩ := halone.others hnm
    cases h with
    | greeting hs hfull => exact .greeting (hsession.trans hs) (hprovision ▸ hfull)
    | version hs hnothing => exact .version (hsession.trans hs) (hprovision ▸ hnothing)
    | writing hs hfull => exact .writing (hsession.trans hs) (hprovision ▸ hfull)

end Atof.Server
