import Atof.Fairness
import Atof.Ghosts
import Atof.Shutdown

/-!
# The end of the server

Once the accept task has left its loop, whatever the clients go on sending, the request to
stop gets to the front of the control queue, and then that of the routing queue: what is
sent later is put behind it, and refused once it was handled. So the two tasks stop, the
inbound queues are drained, the session tasks end, and the accept task has waited for all of
them. If the routing task panics, the three joined tasks are dropped and the session tasks
still end. This takes fair scheduling, and clients that do not keep their tasks waiting.
-/
namespace Atof.Server
open Rust Voice Control Fairness

/-! ## The place of the last message -/

namespace Channel

variable {α : Type}

theorem Closing.append {c : Channel α} {last : α} (h : c.Closing last) (message : α) :
    Closing { c with queue := c.queue ++ [message] } last :=
  h.imp_right (List.mem_append_left _)

theorem Closing.offer {c : Channel α} {last : α} (h : c.Closing last) (message : α) :
    (c.offer message).Closing last := by
  rcases c.offer_cases message with he | ⟨-,he⟩
  · rwa [he]
  · rw [he]
    exact h.append message

/-- It stays so when the receiver takes a message and closes the channel after the last. -/
theorem Closing.tail {c c' : Channel α} {last message : α} (h : c.Closing last)
    (queued : c.queue = message :: c'.queue) (closes : message = last → c'.isOpen = false)
    (opens : c'.isOpen = true → c.isOpen = true) : c'.Closing last := by
  by_cases hm : message = last
  · exact Or.inl (closes hm)
  rcases h with closed | h
  · left
    by_contra hopen
    rw [opens (Bool.not_eq_false _ ▸ hopen)] at closed
    cases closed
  · rw [queued] at h
    exact Or.inr ((List.mem_cons.mp h).resolve_left (Ne.symm hm))

variable [DecidableEq α]

/-- How far the receiver is from having drained the channel: while it is open, how many
messages are in front of the last one, and from then on how many are left. -/
def ahead (last : α) (c : Channel α) : ℕ ×ₗ ℕ :=
  if c.isOpen then toLex (1,c.queue.idxOf last) else toLex (0,c.queue.length)

theorem ahead_offer {c : Channel α} {last : α} (h : c.Closing last) (message : α) :
    (c.offer message).ahead last = c.ahead last := by
  rcases c.offer_cases message with he | ⟨hopen,he⟩
  · rw [he]
  · have hm : last ∈ c.queue := h.resolve_left (by simp [hopen])
    rw [he, ahead, ahead, if_pos hopen, if_pos hopen, List.idxOf_append_of_mem hm]

theorem ahead_tail {c c' : Channel α} {last message : α} (queued : c.queue = message :: c'.queue)
    (closes : message = last → c'.isOpen = false) (opens : c'.isOpen = true → c.isOpen = true) :
    c'.ahead last < c.ahead last := by
  unfold ahead
  rw [Prod.Lex.lt_iff, queued]
  cases hopen' : c'.isOpen with
  | false => cases hopen : c.isOpen <;> simp
  | true =>
      have hm : message ≠ last := fun hm => by rw [closes hm] at hopen'; cases hopen'
      simp [opens hopen', List.idxOf_cons_ne _ hm]

end Channel

/-! ## Requests to stop -/

theorem handleControl_closes {message : ControlMessage} {c c' : ControlState}
    {control control' : Channel ControlMessage} {routing routing' : Channel RoutingMessage}
    (h : handleControl message c control routing = .ok (c',control',routing')) :
    message = .shutdown → control'.isOpen = false := by
  rintro rfl
  cases h
  rfl

theorem handleRouting_closes {message : RoutingMessage} {rtbl rtbl' : RoutingTable}
    {routing routing' : Channel RoutingMessage}
    (h : (handleRouting message rtbl routing).2 = .ok (rtbl',routing')) :
    (message = .shutdown → routing'.isOpen = false) ∧
      (routing'.isOpen = true → routing.isOpen = true) := by
  obtain ⟨-,-,hsame⟩ := handleRouting_table h
  by_cases hm : message = .shutdown
  · subst hm
    cases h
    exact ⟨fun _ => rfl,fun hopen => by cases hopen⟩
  · rw [hsame hm]
    exact ⟨fun hs => absurd hs hm,id⟩

/-- The accept task that has left its loop has asked the control task to stop, and that the
routing task; and the three are dropped together. -/
structure Notified (s : State) : Prop where
  control : s.acceptTask ≠ .accepting → s.control.Closing .shutdown
  routing : s.controlTask ≠ .running → s.routing.Closing .shutdown
  controlDropped : s.controlTask = .dropped ↔ s.acceptTask = .dropped
  routingDropped : s.routingTask = .dropped ↔ s.acceptTask = .dropped

theorem Notified.step {s s' : State} {events : List Event} (h : Notified s)
    (hs : Step s events s') : Notified s' := by
  have dropped (s₁ : State) : Notified s₁.unwind :=
    ⟨fun _ => Or.inl rfl,fun _ => Or.inl rfl,by simp [State.unwind],by simp [State.unwind]⟩
  cases hs with
  | stop accepting sent =>
      obtain ⟨hopen,rfl⟩ := Channel.expectSend_eq_ok sent
      refine ⟨fun _ => Or.inr (by simp),h.routing,?_,?_⟩
      · simpa [accepting] using h.controlDropped
      · simpa [accepting] using h.routingDropped
  | joined joining ended =>
      refine ⟨fun _ => h.control (by simp [joining]),h.routing,?_,?_⟩
      · simpa [joining] using h.controlDropped
      · simpa [joining] using h.routingDropped
  | registered version awaiting sent =>
      obtain ⟨-,rfl⟩ := Channel.send_eq_some sent
      exact ⟨fun ha => (h.control ha).append _,h.routing,h.controlDropped,h.routingDropped⟩
  | voice packet running | text message running =>
      exact ⟨h.control,fun hc => (h.routing hc).offer _,h.controlDropped,h.routingDropped⟩
  | packet packet control running | left listens =>
      exact ⟨fun ha => (h.control ha).offer _,h.routing,h.controlDropped,h.routingDropped⟩
  | @control message rest controlState control routing running queued handled =>
      obtain ⟨hqueue,hopens⟩ := handleControl_queue handled
      refine ⟨fun ha => ?_,fun hc => absurd running hc,h.controlDropped,h.routingDropped⟩
      exact (h.control ha).tail (by rw [queued, hqueue]) (handleControl_closes handled) hopens
  | controlStops running drained closed sent =>
      obtain ⟨-,rfl⟩ := Channel.expectSend_eq_ok sent
      refine ⟨fun _ => Or.inl rfl,fun _ => Or.inr (by simp),?_,h.routingDropped⟩
      simpa [running] using h.controlDropped
  | @routing message rest ds routingTable routing running queued handled =>
      have htable := congrArg Prod.snd handled
      obtain ⟨-,hqueue,-⟩ := handleRouting_table htable
      obtain ⟨hcloses,hopens⟩ := handleRouting_closes htable
      obtain ⟨inbound,he⟩ := State.deliverAll_eq { s with routingTable, routing } ds
      rw [he]
      refine ⟨h.control,fun hc => ?_,h.controlDropped,h.routingDropped⟩
      exact (h.routing hc).tail (by rw [queued, hqueue]) hcloses hopens
  | routingStops running drained closed =>
      refine ⟨h.control,fun _ => Or.inl rfl,h.controlDropped,?_⟩
      simpa [running] using h.routingDropped
  | stopPanics _ _ | controlPanics _ _ _ | controlStopPanics _ _ _ _ | routingPanics _ _ _ =>
      exact dropped _
  | _ => exact ⟨h.control,h.routing,h.controlDropped,h.routingDropped⟩

theorem Notified.init : Notified .init where
  control ha := absurd rfl ha
  routing hc := absurd rfl hc
  controlDropped := by simp [State.init]
  routingDropped := by simp [State.init]

/-! ## Courses -/

/-- The server from its start on: in each step one task goes on, or none does. -/
def Course (r : ℕ → State) : Prop :=
  Fairness.Course State.init (fun s s' => ∃ events, Step s events s') r

theorem Course.run {r : ℕ → State} (h : Course r) (i : ℕ) : ∃ ts, Run ts (r i) := by
  refine Fairness.Course.keeps (I := fun s => ∃ ts, Run ts s) h (Nat.zero_le i)
    ⟨[],h.init ▸ .nil⟩ ?_
  rintro s s' ⟨ts,hrun⟩ ⟨events,hs⟩
  exact ⟨_,hrun.snoc hs⟩

/-- What a step keeps is kept along a course. -/
theorem Course.keeps {I : State → Prop} {r : ℕ → State} (h : Course r) {i j : ℕ} (hij : i ≤ j)
    (hi : I (r i)) (step : ∀ {s events s'}, I s → Step s events s' → I s') : I (r j) := by
  refine Fairness.Course.keeps h hij hi ?_
  rintro s s' hs ⟨events,hstep⟩
  exact step hs hstep

/-- The control task goes on. -/
inductive ControlGoesOn (s : State) : State → Prop
  | handles {message : ControlMessage} {rest : List ControlMessage} {controlState : ControlState}
      {control : Channel ControlMessage} {routing : Channel RoutingMessage}
      (running : s.controlTask = .running) (queued : s.control.queue = message :: rest)
      (handled : handleControl message s.controlState { s.control with queue := rest } s.routing =
        .ok (controlState,control,routing)) :
      ControlGoesOn s { s with controlState, control, routing }
  | panics {message : ControlMessage} {rest : List ControlMessage} {panic : Panic}
      (running : s.controlTask = .running) (queued : s.control.queue = message :: rest)
      (failed : handleControl message s.controlState { s.control with queue := rest } s.routing =
        .error panic) : ControlGoesOn s s.unwind
  | stops {routing : Channel RoutingMessage} (running : s.controlTask = .running)
      (drained : s.control.queue = []) (closed : s.control.isOpen = false ∨ ¬ s.HasClients)
      (sent : s.routing.expectSend .shutdown = .ok routing) :
      ControlGoesOn s { s with control := s.control.close, routing, controlTask := .stopped }
  | stopPanics {panic : Panic} (running : s.controlTask = .running)
      (drained : s.control.queue = []) (closed : s.control.isOpen = false ∨ ¬ s.HasClients)
      (failed : s.routing.expectSend .shutdown = .error panic) : ControlGoesOn s s.unwind

/-- The routing task goes on. -/
inductive RoutingGoesOn (s : State) : State → Prop
  | handles {message : RoutingMessage} {rest : List RoutingMessage} {ds : List Delivery}
      {routingTable : RoutingTable} {routing : Channel RoutingMessage}
      (running : s.routingTask = .running) (queued : s.routing.queue = message :: rest)
      (handled : handleRouting message s.routingTable { s.routing with queue := rest } =
        (ds,.ok (routingTable,routing))) :
      RoutingGoesOn s ({ s with routingTable, routing }.deliverAll ds)
  | panics {message : RoutingMessage} {rest : List RoutingMessage} {ds : List Delivery}
      {panic : Panic} (running : s.routingTask = .running)
      (queued : s.routing.queue = message :: rest)
      (failed : handleRouting message s.routingTable { s.routing with queue := rest } =
        (ds,.error panic)) : RoutingGoesOn s (s.deliverAll ds).unwind
  | stops (running : s.routingTask = .running) (drained : s.routing.queue = [])
      (closed : s.routing.isOpen = false ∨ s.controlTask ≠ .running ∧ ¬ s.HasClients) :
      RoutingGoesOn s { s with routing := s.routing.close, routingTask := .stopped }

/-- The accept task has waited for the session tasks. -/
inductive AcceptGoesOn (s : State) : State → Prop
  | joined (joining : s.acceptTask = .joining) (ended : ∀ n, n < s.spawned → s.session n = .ended) :
      AcceptGoesOn s { s with acceptTask := .stopped }

/-- A session task turns to its queue. -/
inductive SessionGoesOn (n : ℕ) (s : State) : State → Prop
  | take {packet : ControlPacket .clientbound} {rest : List (ControlPacket .clientbound)}
      (running : s.session n = .running) (queued : s.inbound n = packet :: rest) :
      SessionGoesOn n s { s.setSession n .writing with inbound := Function.update s.inbound n rest }
  | finished (running : s.session n = .running) (empty : s.inbound n = [])
      (unreferenced : ¬ s.Handles n) : SessionGoesOn n s (s.setSession n .ended)

theorem ControlGoesOn.step {s s' : State} (h : ControlGoesOn s s') : Step s [] s' := by
  cases h with
  | handles running queued handled => exact .control running queued handled
  | panics running queued failed => exact .controlPanics running queued failed
  | stops running drained closed sent => exact .controlStops running drained closed sent
  | stopPanics running drained closed failed => exact .controlStopPanics running drained closed failed

theorem RoutingGoesOn.step {s s' : State} (h : RoutingGoesOn s s') :
    ∃ events, Step s events s' := by
  cases h with
  | handles running queued handled => exact ⟨_,.routing running queued handled⟩
  | panics running queued failed => exact ⟨_,.routingPanics running queued failed⟩
  | stops running drained closed => exact ⟨_,.routingStops running drained closed⟩

theorem AcceptGoesOn.step {s s' : State} (h : AcceptGoesOn s s') : Step s [] s' := by
  cases h with
  | joined joining ended => exact .joined joining ended

theorem AcceptGoesOn.stopped {s s' : State} (h : AcceptGoesOn s s') :
    s'.acceptTask = .stopped := by
  cases h
  rfl

theorem SessionGoesOn.step {n : ℕ} {s s' : State} (h : SessionGoesOn n s s') : Step s [] s' := by
  cases h with
  | take running queued => exact .take running queued
  | finished running empty unreferenced => exact .finished running empty unreferenced

/-- The task waits for its client: for its version, or for it to take what is written. -/
def SessionTask.WaitsForClient (t : SessionTask) : Prop :=
  t = .greeting ∨ t = .awaitingVersion ∨ t = .writing

/-- No task that can go on is put off for ever, nor is a session task's own queue by what its
client sends. -/
structure Fair (r : ℕ → State) : Prop where
  control : Weak ControlGoesOn r
  routing : Weak RoutingGoesOn r
  accept : Weak AcceptGoesOn r
  session : ∀ n, Strong (SessionGoesOn n) r

/-- The client does not keep its task waiting for ever: it reads what it is sent and sends its
version, or goes away. -/
def ClientGoesOn (n : ℕ) (r : ℕ → State) : Prop :=
  ∀ i, ∃ j, i ≤ j ∧ ¬ ((r j).session n).WaitsForClient

/-! ## The control and the routing task -/

theorem ControlGoesOn.of_queue {s : State} (running : s.controlTask = .running)
    (queued : s.control.queue ≠ []) : ∃ s', ControlGoesOn s s' := by
  obtain ⟨message,rest,hqueue⟩ := List.exists_cons_of_ne_nil queued
  cases hhandled : handleControl message s.controlState { s.control with queue := rest }
      s.routing with
  | ok r => exact ⟨_,.handles running hqueue hhandled⟩
  | error panic => exact ⟨_,.panics running hqueue hhandled⟩

theorem ControlGoesOn.of_closing {s : State} (running : s.controlTask = .running)
    (h : s.control.Closing .shutdown) : ∃ s', ControlGoesOn s s' := by
  by_cases hqueue : s.control.queue = []
  · have closed : s.control.isOpen = false := h.resolve_right (by simp [hqueue])
    cases hsent : s.routing.expectSend .shutdown with
    | ok routing => exact ⟨_,.stops running hqueue (Or.inl closed) hsent⟩
    | error panic => exact ⟨_,.stopPanics running hqueue (Or.inl closed) hsent⟩
  · exact of_queue running hqueue

theorem RoutingGoesOn.of_queue {s : State} (running : s.routingTask = .running)
    (queued : s.routing.queue ≠ []) : ∃ s', RoutingGoesOn s s' := by
  obtain ⟨message,rest,hqueue⟩ := List.exists_cons_of_ne_nil queued
  obtain ⟨ds,hds⟩ : ∃ ds, (handleRouting message s.routingTable
      { s.routing with queue := rest }).1 = ds := ⟨_,rfl⟩
  cases hhandled : (handleRouting message s.routingTable { s.routing with queue := rest }).2 with
  | ok r => exact ⟨_,.handles running hqueue (Prod.ext hds hhandled)⟩
  | error panic => exact ⟨_,.panics running hqueue (Prod.ext hds hhandled)⟩

theorem RoutingGoesOn.of_closing {s : State} (running : s.routingTask = .running)
    (h : s.routing.Closing .shutdown) : ∃ s', RoutingGoesOn s s' := by
  by_cases hqueue : s.routing.queue = []
  · have closed : s.routing.isOpen = false := h.resolve_right (by simp [hqueue])
    exact ⟨_,.stops running hqueue (Or.inl closed)⟩
  · exact of_queue running hqueue

theorem ControlGoesOn.ahead_lt {s s' : State} (h : ControlGoesOn s s')
    (running' : s'.controlTask = .running) :
    s'.control.ahead .shutdown < s.control.ahead .shutdown := by
  cases h with
  | handles running queued handled =>
      obtain ⟨hqueue,hopens⟩ := handleControl_queue handled
      exact Channel.ahead_tail (by rw [queued, hqueue]) (handleControl_closes handled) hopens
  | panics _ _ _ | stops _ _ _ _ | stopPanics _ _ _ _ => cases running'

theorem RoutingGoesOn.ahead_lt {s s' : State} (h : RoutingGoesOn s s')
    (running' : s'.routingTask = .running) :
    s'.routing.ahead .shutdown < s.routing.ahead .shutdown := by
  cases h with
  | @handles message rest ds routingTable routing running queued handled =>
      have htable := congrArg Prod.snd handled
      obtain ⟨-,hqueue,-⟩ := handleRouting_table htable
      obtain ⟨hcloses,hopens⟩ := handleRouting_closes htable
      obtain ⟨inbound,he⟩ := State.deliverAll_eq { s with routingTable, routing } ds
      rw [he]
      exact Channel.ahead_tail (by rw [queued, hqueue]) hcloses hopens
  | panics _ _ _ | stops _ _ _ => cases running'

/-- Nobody gets in front of the control task's last message. -/
theorem Step.control_ahead {s s' : State} {events : List Event} (h : Step s events s')
    (hs : Notified s) (ha : s.acceptTask ≠ .accepting) (running' : s'.controlTask = .running) :
    s'.control.ahead .shutdown ≤ s.control.ahead .shutdown := by
  have hclosing := hs.control ha
  cases h with
  | stop accepting sent => exact absurd accepting ha
  | registered version awaiting sent =>
      obtain ⟨hopen,rfl⟩ := Channel.send_eq_some sent
      exact (Channel.offer_of_isOpen hopen _ ▸ Channel.ahead_offer hclosing _).le
  | packet packet control running | left listens => exact (Channel.ahead_offer hclosing _).le
  | control running queued handled =>
      exact (ControlGoesOn.handles running queued handled).ahead_lt running' |>.le
  | @routing message rest ds routingTable routing running queued handled =>
      obtain ⟨inbound,he⟩ := State.deliverAll_eq { s with routingTable, routing } ds
      rw [he]
  | stopPanics _ _ | controlPanics _ _ _ | controlStops _ _ _ _ | controlStopPanics _ _ _ _
    | routingPanics _ _ _ => cases running'
  | _ => exact le_rfl

/-- Once the control task is gone, nobody gets in front of the routing task's last message. -/
theorem Step.routing_ahead {s s' : State} {events : List Event} (h : Step s events s')
    (hs : Notified s) (hc : s.controlTask ≠ .running) (running' : s'.routingTask = .running) :
    s'.routing.ahead .shutdown ≤ s.routing.ahead .shutdown := by
  have hclosing := hs.routing hc
  cases h with
  | voice packet running | text message running => exact (Channel.ahead_offer hclosing _).le
  | control running _ _ | controlStops running _ _ _ => exact absurd running hc
  | routing running queued handled =>
      exact (RoutingGoesOn.handles running queued handled).ahead_lt running' |>.le
  | stopPanics _ _ | controlPanics _ _ _ | controlStopPanics _ _ _ _ | routingPanics _ _ _
    | routingStops _ _ _ => cases running'
  | _ => exact le_rfl

/-! ### What does not come back -/

theorem Step.not_accepting {s s' : State} {events : List Event} (ha : s.acceptTask ≠ .accepting)
    (h : Step s events s') : s'.acceptTask ≠ .accepting := by
  cases h with
  | stop _ _ | joined _ _ | stopPanics _ _ | controlPanics _ _ _ | controlStopPanics _ _ _ _
    | routingPanics _ _ _ => simp [State.unwind]
  | @routing message rest ds routingTable routing running queued handled =>
      obtain ⟨inbound,he⟩ := State.deliverAll_eq { s with routingTable, routing } ds
      rwa [he]
  | _ => exact ha

theorem Step.control_gone {s s' : State} {events : List Event} (hc : s.controlTask ≠ .running)
    (h : Step s events s') : s'.controlTask ≠ .running := by
  cases h with
  | controlStops _ _ _ _ | stopPanics _ _ | controlPanics _ _ _ | controlStopPanics _ _ _ _
    | routingPanics _ _ _ => simp [State.unwind]
  | @routing message rest ds routingTable routing running queued handled =>
      obtain ⟨inbound,he⟩ := State.deliverAll_eq { s with routingTable, routing } ds
      rwa [he]
  | _ => exact hc

theorem Step.routing_gone {s s' : State} {events : List Event} (hr : s.routingTask ≠ .running)
    (h : Step s events s') : s'.routingTask ≠ .running := by
  cases h with
  | routingStops _ _ _ | stopPanics _ _ | controlPanics _ _ _ | controlStopPanics _ _ _ _ =>
      simp [State.unwind]
  | routing running _ _ | routingPanics running _ _ => exact absurd running hr
  | _ => exact hr

/-! ### Both come to their end -/

theorem Notified.of_run {ts : List Transition} {s : State} (h : Run ts s) : Notified s :=
  h.invariant .init Notified.step

theorem Course.notified {r : ℕ → State} (h : Course r) (i : ℕ) : Notified (r i) := by
  obtain ⟨ts,hrun⟩ := h.run i
  exact .of_run hrun

theorem Course.control_stops {r : ℕ → State} (h : Course r) (fair : Fair r) {i : ℕ}
    (ha : (r i).acceptTask ≠ .accepting) : ∃ j, i ≤ j ∧ (r j).controlTask ≠ .running := by
  have left {j : ℕ} (hj : i ≤ j) : (r j).acceptTask ≠ .accepting :=
    h.keeps (I := fun s => s.acceptTask ≠ .accepting) hj ha Step.not_accepting
  refine fair.control.reaches (fun s => s.controlTask ≠ .running)
    (fun s => s.control.ahead .shutdown) (fun j hj running => ?_)
    (fun j hj _ running => ?_) (fun j hj _ running hmove => ?_)
  · exact ControlGoesOn.of_closing (not_not.mp running) ((h.notified j).control (left hj))
  · obtain hsame | ⟨events,hs⟩ := h.step j
    · rw [hsame]
    · exact hs.control_ahead (h.notified j) (left hj) (not_not.mp running)
  · exact hmove.ahead_lt (not_not.mp running)

theorem Course.routing_stops {r : ℕ → State} (h : Course r) (fair : Fair r) {i : ℕ}
    (hc : (r i).controlTask ≠ .running) : ∃ j, i ≤ j ∧ (r j).routingTask ≠ .running := by
  have gone {j : ℕ} (hj : i ≤ j) : (r j).controlTask ≠ .running :=
    h.keeps (I := fun s => s.controlTask ≠ .running) hj hc Step.control_gone
  refine fair.routing.reaches (fun s => s.routingTask ≠ .running)
    (fun s => s.routing.ahead .shutdown) (fun j hj running => ?_)
    (fun j hj _ running => ?_) (fun j hj _ running hmove => ?_)
  · exact RoutingGoesOn.of_closing (not_not.mp running) ((h.notified j).routing (gone hj))
  · obtain hsame | ⟨events,hs⟩ := h.step j
    · rw [hsame]
    · exact hs.routing_ahead (h.notified j) (gone hj) (not_not.mp running)
  · exact hmove.ahead_lt (not_not.mp running)

/-! ## The session tasks -/

/-- Neither of the tasks is there that push to inbound queues and hold handles of them. -/
def Quiet (s : State) : Prop :=
  s.acceptTask ≠ .accepting ∧ s.controlTask ≠ .running ∧ s.routingTask ≠ .running

theorem Quiet.step {s s' : State} {events : List Event} (h : Quiet s) (hs : Step s events s') :
    Quiet s' :=
  ⟨hs.not_accepting h.1,hs.control_gone h.2.1,hs.routing_gone h.2.2⟩

theorem Quiet.not_handles {s : State} (h : Quiet s) (n : ℕ) : ¬ s.Handles n := by
  rintro (⟨running,-⟩ | ⟨running,-⟩)
  · exact h.2.1 running
  · exact h.2.2 running

theorem Quiet.spawned {s s' : State} {events : List Event} (h : Quiet s)
    (hs : Step s events s') : s'.spawned = s.spawned := by
  cases hs with
  | connect accepting => exact absurd accepting h.1
  | routing running _ _ | routingPanics running _ _ => exact absurd running h.2.2
  | _ => rfl

/-- The inbound queues are not added to. -/
theorem Quiet.inbound {s s' : State} {events : List Event} (h : Quiet s) (hs : Step s events s')
    (n : ℕ) : (s'.inbound n).length ≤ (s.inbound n).length := by
  cases hs with
  | @take m packet rest running queued =>
      by_cases hn : n = m
      · subst hn
        simp [queued]
      · simp [Function.update_of_ne hn]
  | routing running _ _ | routingPanics running _ _ => exact absurd running h.2.2
  | _ => exact le_rfl

theorem SessionGoesOn.of_running {s : State} {n : ℕ} (h : Quiet s) (running : s.session n = .running) :
    ∃ s', SessionGoesOn n s s' := by
  cases hinbound : s.inbound n with
  | nil => exact ⟨_,.finished running hinbound (h.not_handles n)⟩
  | cons packet rest => exact ⟨_,.take running hinbound⟩

theorem SessionGoesOn.inbound_lt {s s' : State} {n : ℕ} (h : SessionGoesOn n s s')
    (live : s'.session n ≠ .ended) : (s'.inbound n).length < (s.inbound n).length := by
  cases h with
  | take running queued => simp [queued]
  | finished running empty unreferenced => exact absurd (by simp) live

/-- The tasks that were spawned have begun. -/
theorem Step.begun {s s' : State} {events : List Event} (h : ∀ n, n < s.spawned → s.session n ≠ .unborn)
    (hs : Step s events s') : ∀ n, n < s'.spawned → s'.session n ≠ .unborn := by
  have updated {m : ℕ} {t : SessionTask} (ht : t ≠ .unborn)
      (session : s'.session = Function.update s.session m t) (n : ℕ)
      (hn : n ≠ m → n < s.spawned) : s'.session n ≠ .unborn := by
    by_cases hnm : n = m
    · rwa [session, hnm, Function.update_self]
    · rw [session, Function.update_of_ne hnm]
      exact h n (hn hnm)
  intro n hn
  have hspeech := hs.speech.2
  generalize Fifo.puts s.control.queue s'.control.queue = ms at hspeech
  cases hspeech with
  | connect session spawned =>
      rw [spawned] at hn
      exact updated (by simp) session n fun hne => by omega
  | moved born on session spawned =>
      refine updated ?_ session n fun _ => spawned ▸ hn
      rcases on with rfl | ⟨rfl,-⟩ | ⟨rfl | rfl,-⟩ <;> simp
  | registered awaiting session spawned | left listens session spawned =>
      exact updated (by simp) session n fun _ => spawned ▸ hn
  | silent session spawned | shutdown session spawned | packet running session spawned =>
      rw [session]
      exact h n (spawned ▸ hn)

theorem Course.quiet {r : ℕ → State} (h : Course r) (fair : Fair r) {i : ℕ}
    (left : (r i).acceptTask ≠ .accepting) : ∃ j, i ≤ j ∧ Quiet (r j) := by
  obtain ⟨j,hj,hc⟩ := h.control_stops fair left
  obtain ⟨k,hk,hr⟩ := h.routing_stops fair hc
  refine ⟨k,hj.trans hk,?_,?_,hr⟩
  · exact h.keeps (I := fun s => s.acceptTask ≠ .accepting) (hj.trans hk) left Step.not_accepting
  · exact h.keeps (I := fun s => s.controlTask ≠ .running) hk hc Step.control_gone

/-- A task that has ended stays so. -/
theorem Course.ended {r : ℕ → State} (h : Course r) {i j : ℕ} (hij : i ≤ j) {n : ℕ}
    (hn : (r i).session n = .ended) : (r j).session n = .ended := by
  refine (h.keeps (I := fun s => (∃ ts, Run ts s) ∧ s.session n = .ended) hij ⟨h.run i,hn⟩ ?_).2
  rintro s events s' ⟨⟨ts,hrun⟩,hs⟩ hstep
  exact ⟨⟨_,hrun.snoc hstep⟩,hstep.ended (Owned.of_run hrun).born hs⟩

theorem Course.session_ends {r : ℕ → State} (h : Course r) (fair : Fair r) {n : ℕ}
    (client : ClientGoesOn n r) {i : ℕ} (quiet : Quiet (r i)) (hn : n < (r i).spawned) :
    ∃ j, i ≤ j ∧ (r j).session n = .ended := by
  have hquiet {j : ℕ} (hj : i ≤ j) : Quiet (r j) := h.keeps hj quiet Quiet.step
  have hspawned {j : ℕ} (hj : i ≤ j) : Quiet (r j) ∧ n < (r j).spawned :=
    h.keeps (I := fun s => Quiet s ∧ n < s.spawned) hj ⟨quiet,hn⟩
      fun hs hstep => ⟨hs.1.step hstep,hs.2.trans_le hstep.spawned_le⟩
  refine (fair.session n).reaches (fun s => s.session n = .ended) (fun s => (s.inbound n).length)
    (fun k hk => ?_) (fun j hj _ _ => ?_) (fun j hj _ live hmove => hmove.inbound_lt live)
  · obtain ⟨j,hj,hclient⟩ := client k
    refine ⟨j,hj,?_⟩
    obtain ⟨ts,hrun⟩ := h.run j
    have hbegun := hrun.invariant (I := fun s => ∀ n, n < s.spawned → s.session n ≠ .unborn)
      (fun n hn => by cases hn) Step.begun n (hspawned (hk.trans hj)).2
    cases hs : (r j).session n with
    | unborn => exact absurd hs hbegun
    | ended => exact Or.inl rfl
    | running => exact Or.inr (SessionGoesOn.of_running (hquiet (hk.trans hj)) hs)
    | greeting | awaitingVersion | writing =>
        exact absurd (by simp [SessionTask.WaitsForClient, hs]) hclient
  · obtain hsame | ⟨events,hs⟩ := h.step j
    · rw [hsame]
    · exact (hquiet hj).inbound hs n

theorem Course.sessions_end {r : ℕ → State} (h : Course r) (fair : Fair r)
    (clients : ∀ n, ClientGoesOn n r) {i : ℕ} (quiet : Quiet (r i)) :
    ∃ j, i ≤ j ∧ ∀ n, n < (r j).spawned → (r j).session n = .ended := by
  have hsome (m : ℕ) (hm : m ≤ (r i).spawned) :
      ∃ j, i ≤ j ∧ ∀ n, n < m → (r j).session n = .ended := by
    induction m with
    | zero => exact ⟨i,le_rfl,fun n hn => by cases hn⟩
    | succ m ih =>
        obtain ⟨j,hj,hended⟩ := ih (by omega)
        obtain ⟨k,hk,hlast⟩ := h.session_ends fair (clients m) quiet hm
        refine ⟨max j k,hj.trans (le_max_left _ _),fun n hn => ?_⟩
        rcases Nat.lt_succ_iff_lt_or_eq.mp hn with hn | rfl
        · exact h.ended (le_max_left _ _) (hended n hn)
        · exact h.ended (le_max_right _ _) hlast
  obtain ⟨j,hj,hended⟩ := hsome _ le_rfl
  have hspawned : Quiet (r j) ∧ (r j).spawned = (r i).spawned :=
    h.keeps (I := fun s => Quiet s ∧ s.spawned = (r i).spawned) hj ⟨quiet,rfl⟩
      fun hs hstep => ⟨hs.1.step hstep,(hs.1.spawned hstep).trans hs.2⟩
  exact ⟨j,hj,fun n hn => hended n (hspawned.2 ▸ hn)⟩

/-! ## The end -/

/-- Every session task has ended, and the other three have stopped or were dropped. -/
def Over (s : State) : Prop :=
  (∀ n, s.session n = .unborn ∨ s.session n = .ended) ∧
    (s.acceptTask = .stopped ∧ s.controlTask = .stopped ∧ s.routingTask = .stopped ∨
      s.acceptTask = .dropped ∧ s.controlTask = .dropped ∧ s.routingTask = .dropped)

/-- Nothing happens any more. -/
theorem Over.final {s s' : State} {events : List Event} (h : Over s) : ¬ Step s events s' := by
  obtain ⟨hsession,htasks⟩ := h
  have still {n : ℕ} {t : SessionTask} (ht : s.session n = t)
      (hlive : t ≠ .unborn ∧ t ≠ .ended) : False := by
    rcases hsession n with hs | hs
    · exact hlive.1 (ht ▸ hs)
    · exact hlive.2 (ht ▸ hs)
  intro hs
  cases hs with
  | connect ha | stop ha _ | stopPanics ha _ | joined ha _ =>
      rcases htasks with ⟨hs,-⟩ | ⟨hs,-⟩ <;> cases hs.symm.trans ha
  | greeted hm | registered _ hm _ | denied _ hm _ | voice _ hm | text _ hm | ping hm
    | packet _ _ hm | take hm _ | written hm | finished hm _ _ => exact still hm (by simp)
  | refused hm | left hm => rcases hm with hm | hm <;> exact still hm (by simp)
  | control hc _ _ | controlPanics hc _ _ | controlStops hc _ _ _ | controlStopPanics hc _ _ _ =>
      rcases htasks with ⟨-,hs,-⟩ | ⟨-,hs,-⟩ <;> cases hs.symm.trans hc
  | routing hr _ _ | routingPanics hr _ _ | routingStops hr _ _ =>
      rcases htasks with ⟨-,-,hs⟩ | ⟨-,-,hs⟩ <;> cases hs.symm.trans hr

theorem Course.ordered {r : ℕ → State} (h : Course r)
    (hpanic : ∀ i events, Step (r i) events (r (i + 1)) →
      ¬ Transition.RoutingPanics ⟨r i,events,r (i + 1)⟩) (i : ℕ) : Ordered (r i) := by
  induction i with
  | zero => exact h.init ▸ .init
  | succ i ih =>
      obtain hsame | ⟨events,hs⟩ := h.step i
      · rwa [hsame]
      · obtain ⟨ts,hrun⟩ := h.run i
        exact ih.step (TablesReachable.of_run hrun).control.consistent hs (hpanic i events hs)

theorem Over.of_run {ts : List Transition} {s : State} (h : Run ts s) (quiet : Quiet s)
    (ended : ∀ n, n < s.spawned → s.session n = .ended) (haccept : s.acceptTask ≠ .joining) :
    Over s := by
  have hnotified := Notified.of_run h
  refine ⟨fun n => ?_,?_⟩
  · by_cases hn : n < s.spawned
    · exact Or.inr (ended n hn)
    · left
      by_contra hborn
      exact hn ((Owned.of_run h).born n hborn)
  · have stopped {t : Task} (hrunning : t ≠ .running) (hdropped : t ≠ .dropped) :
        t = .stopped := by
      cases t with
      | running => exact absurd rfl hrunning
      | stopped => rfl
      | dropped => exact absurd rfl hdropped
    cases ha : s.acceptTask with
    | accepting => exact absurd ha quiet.1
    | joining => exact absurd ha haccept
    | stopped =>
        refine Or.inl ⟨rfl,stopped quiet.2.1 fun hc => ?_,stopped quiet.2.2 fun hr => ?_⟩
        · cases ha.symm.trans (hnotified.controlDropped.mp hc)
        · cases ha.symm.trans (hnotified.routingDropped.mp hr)
    | dropped =>
        exact Or.inr ⟨rfl,hnotified.controlDropped.mpr ha,hnotified.routingDropped.mpr ha⟩

/-- In every fair course in which the accept task leaves its loop and no client keeps its task
waiting for ever, the server comes to its end: every session task ends, and the control, the
routing and the accept task stop; unless the routing task panics in between, then the three are
dropped. After that nothing happens any more. -/
theorem shutdown_completes {r : ℕ → State} (h : Course r) (fair : Fair r)
    (clients : ∀ n, ClientGoesOn n r) {i : ℕ} (left : (r i).acceptTask ≠ .accepting) :
    ∃ j, Over (r j) ∧ (∀ k, j ≤ k → r k = r j) ∧
      ((∀ k events, Step (r k) events (r (k + 1)) →
          ¬ Transition.RoutingPanics ⟨r k,events,r (k + 1)⟩) →
        (r j).acceptTask = .stopped ∧ (r j).controlTask = .stopped ∧
          (r j).routingTask = .stopped) := by
  obtain ⟨i₁,-,quiet₁⟩ := h.quiet fair left
  obtain ⟨i₂,hi₂,ended₂⟩ := h.sessions_end fair clients quiet₁
  have settled {j : ℕ} (hj : i₂ ≤ j) :
      Quiet (r j) ∧ ∀ n, n < (r j).spawned → (r j).session n = .ended := by
    have hquiet : Quiet (r i₂) := h.keeps hi₂ quiet₁ Quiet.step
    obtain ⟨hquiet',hspawned⟩ := h.keeps (I := fun s => Quiet s ∧ s.spawned = (r i₂).spawned) hj
      ⟨hquiet,rfl⟩ fun hs hstep => ⟨hs.1.step hstep,(hs.1.spawned hstep).trans hs.2⟩
    exact ⟨hquiet',fun n hn => h.ended hj (ended₂ n (hspawned ▸ hn))⟩
  obtain ⟨j,hj,haccept⟩ : ∃ j, i₂ ≤ j ∧ (r j).acceptTask ≠ .joining := by
    refine fair.accept.reaches (fun s => s.acceptTask ≠ .joining) (fun _ => 0)
      (fun j hj joining => ⟨_,.joined (not_not.mp joining) (settled hj).2⟩)
      (fun _ _ _ _ => le_rfl) (fun j hj _ joining hmove => ?_)
    rw [hmove.stopped] at joining
    exact absurd (by simp) joining
  obtain ⟨ts,hrun⟩ := h.run j
  have hover := Over.of_run hrun (settled hj).1 (settled hj).2 haccept
  refine ⟨j,hover,fun k hk => Fairness.Course.final h hk ?_,fun hpanic => ?_⟩
  · rintro s' ⟨events,hs⟩
    exact hover.final hs
  · obtain hstopped | ⟨hdropped,-⟩ := hover.2
    · exact hstopped
    · exact absurd hdropped (h.ordered hpanic j).accept

/-! ### A course that ends -/

/-- A run is the beginning of a course in which nothing happens afterwards. -/
theorem Run.course {ts : List Transition} {s : State} (h : Run ts s) :
    ∃ r n, Course r ∧ (∀ i, n ≤ i → r i = s) ∧ ∀ t ∈ ts, ∃ i, i ≤ n ∧ r i = t.before := by
  induction h with
  | nil => exact ⟨_,0,Fairness.Course.rest _ _,fun _ _ => rfl,by simp⟩
  | @snoc ts s s' events run step ih =>
      obtain ⟨r,n,hr,hlast,hpast⟩ := ih
      obtain ⟨r',hr',hlast',hsame⟩ := Fairness.Course.extend hr hlast ⟨_,step⟩
      refine ⟨r',n + 1,hr',hlast',fun t ht => ?_⟩
      rcases List.mem_append.mp ht with ht | ht
      · obtain ⟨i,hi,hbefore⟩ := hpast t ht
        exact ⟨i,by omega,(hsame i hi).trans hbefore⟩
      · obtain rfl := List.mem_singleton.mp ht
        exact ⟨n,by omega,(hsame n le_rfl).trans (hlast n le_rfl)⟩

section
variable {r : ℕ → State} {s : State} {n : ℕ}

/-- A course that has come to its end was fair. -/
theorem Over.fair (h : Over s) (hlast : ∀ i, n ≤ i → r i = s) : Fair r where
  control := .of_final hlast fun _ hs => h.final hs.step
  routing := .of_final hlast fun _ hs => by
    obtain ⟨events,hstep⟩ := hs.step
    exact h.final hstep
  accept := .of_final hlast fun _ hs => h.final hs.step
  session n := .of_final hlast fun _ hs => h.final hs.step

theorem ClientGoesOn.of_last {m : ℕ} (hlast : ∀ i, n ≤ i → r i = s)
    (h : ¬ (s.session m).WaitsForClient) : ClientGoesOn m r := by
  intro i
  refine ⟨max i n,le_max_left _ _,?_⟩
  rwa [hlast _ (le_max_right _ _)]

end

/-- The last task sees the end of its queue. -/
theorem Run.over {ts : List Transition} {s : State} (h : Run ts s)
    (joining : s.acceptTask = .joining) (control : s.controlTask = .stopped)
    (routing : s.routingTask = .stopped) (alone : s.spawned = 1) (running : s.session 0 = .running)
    (empty : s.inbound 0 = []) : ∃ ts' s', Run (ts ++ ts') s' ∧ Over s' := by
  have quiet : Quiet s := by simp [Quiet, joining, control, routing]
  have hfinished := Step.finished running empty (quiet.not_handles 0)
  have ended : ∀ n, n < s.spawned → (s.setSession 0 .ended).session n = .ended := by
    intro n hn
    obtain rfl : n = 0 := by omega
    simp
  have h' := (h.snoc hfinished).snoc (.joined joining ended)
  rw [List.append_assoc] at h'
  exact ⟨_,_,h',.of_run h' (by simpa [Quiet, State.setSession] using quiet.2) ended (by simp)⟩

/-- A client authenticates, the server is asked to stop, and it does. -/
theorem run_over : ∃ ts s, Run ts s ∧ Over s ∧ ∃ t ∈ ts, t.before.acceptTask = .joining ∧
    t.before.controlTask = .running ∧ t.before.session 0 = .running := by
  have h := Run.nil.snoc (Step.connect rfl)
  have h := h.snoc (Step.greeted (n := 0) rfl)
  have h := h.snoc (Step.registered (n := 0) [] rfl rfl)
  have h := h.snoc (Step.packet (n := 0) (.message .authenticate []) trivial rfl)
  have h := h.snoc (Step.stop rfl rfl)
  have h := h.snoc (Step.control rfl rfl rfl)
  have h := h.snoc (Step.control rfl rfl rfl)
  have h := h.snoc (Step.control rfl rfl rfl)
  have h := h.snoc (Step.controlStops rfl rfl (Or.inl rfl) rfl)
  have h := h.snoc (Step.routing rfl rfl rfl)
  have h := h.snoc (Step.routing rfl rfl rfl)
  have h := h.snoc (Step.routingStops rfl rfl (Or.inl rfl))
  obtain ⟨ts',s,h',hover⟩ := h.over rfl rfl rfl rfl rfl rfl
  exact ⟨_,_,h',hover,_,List.mem_append_left _ (List.mem_of_getElem? (i := 5) rfl),rfl,rfl,rfl⟩

/-- From when the accept task has asked for it. -/
theorem shutdown_completes_over : ∃ r i, Course r ∧ Fair r ∧ (∀ n, ClientGoesOn n r) ∧
    (r i).acceptTask = .joining ∧ (r i).controlTask = .running ∧ (r i).session 0 = .running ∧
    ∃ j, Over (r j) ∧ (∀ k, j ≤ k → r k = r j) ∧
      ((∀ k events, Step (r k) events (r (k + 1)) →
          ¬ Transition.RoutingPanics ⟨r k,events,r (k + 1)⟩) →
        (r j).acceptTask = .stopped ∧ (r j).controlTask = .stopped ∧
          (r j).routingTask = .stopped) := by
  obtain ⟨ts,s,hrun,hover,t,ht,joining,control,running⟩ := run_over
  obtain ⟨r,n,hr,hlast,hpast⟩ := hrun.course
  obtain ⟨i,-,hi⟩ := hpast t ht
  have fair : Fair r := hover.fair hlast
  have clients (m : ℕ) : ClientGoesOn m r := .of_last hlast <| by
    rcases hover.1 m with hs | hs <;> simp [SessionTask.WaitsForClient, hs]
  refine ⟨r,i,hr,fair,clients,hi ▸ joining,hi ▸ control,hi ▸ running,?_⟩
  exact shutdown_completes hr fair clients (i := i) (by simp [hi, joining])

end Atof.Server
