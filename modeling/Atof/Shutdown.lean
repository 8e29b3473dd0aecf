import Atof.Panics

/-!
# Stopping the server

The accept task asks the control task to stop, and that asks the routing task; each
closes its queue when the request comes to it, and stops when the queue is drained. So
a queue is closed only when its last message was sent, and once both tasks have stopped
both queues are empty and stay empty, and no handle of a session's inbound queue is left
anywhere. A session task in its loop then sees the end of its queue.
-/
namespace Atof.Server
open Rust Voice Control

namespace Channel

variable {α : Type}

/-- Closed, or with the message in it that closes it. -/
def Closing (c : Channel α) (last : α) : Prop := c.isOpen = false ∨ last ∈ c.queue

theorem Closing.of_append {c : Channel α} {message last : α}
    (h : Closing { c with queue := c.queue ++ [message] } last) (hne : message ≠ last) :
    c.Closing last := by
  refine h.imp_right fun hm => ?_
  rcases List.mem_append.mp hm with hm | hm
  · exact hm
  · exact absurd (List.mem_singleton.mp hm).symm hne

theorem Closing.of_offer {c : Channel α} {message last : α} (h : (c.offer message).Closing last)
    (hne : message ≠ last) : c.Closing last := by
  rcases c.offer_cases message with he | ⟨-,he⟩
  · rwa [he] at h
  · rw [he] at h
    exact h.of_append hne

theorem Closing.of_head {c : Channel α} {last : α} {rest : List α} (queued : c.queue = last :: rest) :
    c.Closing last := by
  right
  rw [queued]
  exact List.mem_cons_self

/-- Taking a message closes nothing that was not closing. -/
theorem Closing.of_tail {c c' : Channel α} {message last : α} (h : c'.Closing last)
    (queued : c.queue = message :: c'.queue) (same : c'.isOpen = c.isOpen) : c.Closing last := by
  rcases h with closed | hm
  · exact Or.inl (same ▸ closed)
  · right
    rw [queued]
    exact List.mem_cons_of_mem _ hm

theorem expectSend_eq_error {c : Channel α} {message : α} {panic : Panic}
    (h : c.expectSend message = .error panic) : c.isOpen = false := by
  by_contra ho
  rw [expectSend, send, if_pos (Bool.not_eq_false _ ▸ ho)] at h
  cases h

theorem expectSend_of_isOpen {c : Channel α} (h : c.isOpen = true) (message : α) :
    c.expectSend message = .ok { c with queue := c.queue ++ [message] } := by
  rw [expectSend, send, if_pos h]

end Channel

/-! ## The order of the last messages -/

/-- The control task can send what it has to. -/
theorem handleControl_returns (message : ControlMessage) {c : ControlState}
    (control : Channel ControlMessage) {routing : Channel RoutingMessage}
    (hc : c.rtbl.Consistent) (hopen : routing.isOpen = true) :
    ∃ r, handleControl message c control routing = .ok r := by
  cases message with
  | addSession sessionId session => exact ⟨_,rfl⟩
  | shutdown => exact ⟨_,rfl⟩
  | packet id packet =>
      simp only [handleControl, handlePacket]
      split
      · exact ⟨_,rfl⟩
      split
      · split
        · rw [Channel.expectSend_of_isOpen hopen]
          exact ⟨_,rfl⟩
        · exact ⟨_,rfl⟩
      · exact ⟨_,rfl⟩
  | removeSession id =>
      simp only [handleControl]
      split
      · rcases RoutingTable.expelSession_consistent hc id with ⟨-,he⟩ | ⟨t',he,-⟩
        · rw [he]
          exact ⟨_,rfl⟩
        · exact ⟨_,bind_eq_ok.mpr ⟨_,he,bind_eq_ok.mpr
            ⟨_,Channel.expectSend_of_isOpen hopen _,rfl⟩⟩⟩
      · exact ⟨_,rfl⟩

/-- The routing task was running and is not any more, after a message. -/
def Transition.RoutingPanics (t : Transition) : Prop :=
  t.events ≠ [] ∧ t.after.routingTask = .dropped

/-- No task was dropped, the routing queue closes after the control task's last message,
and the control queue after the accept task's. -/
structure Ordered (s : State) : Prop where
  control : s.controlTask ≠ .dropped
  routing : s.routingTask ≠ .dropped
  accept : s.acceptTask ≠ .dropped
  routingLast : s.routing.Closing .shutdown → s.controlTask = .stopped
  controlLast : s.control.Closing .shutdown → s.acceptTask ≠ .accepting

theorem Ordered.routing_isOpen {s : State} (h : Ordered s) (running : s.controlTask = .running) :
    s.routing.isOpen = true := by
  by_contra hn
  have hstopped := h.routingLast (Or.inl (Bool.eq_false_iff.mpr hn))
  rw [running] at hstopped
  cases hstopped

theorem Ordered.control_isOpen {s : State} (h : Ordered s) (accepting : s.acceptTask = .accepting) :
    s.control.isOpen = true := by
  by_contra hn
  exact h.controlLast (Or.inl (Bool.eq_false_iff.mpr hn)) accepting

theorem Ordered.step {s s' : State} {events : List Event} (h : Ordered s)
    (hc : s.controlState.rtbl.Consistent) (hs : Step s events s')
    (hpanic : ¬ Transition.RoutingPanics ⟨s,events,s'⟩) : Ordered s' := by
  cases hs with
  | stop accepting sent =>
      exact ⟨h.control,h.routing,by simp,h.routingLast,fun _ => by simp⟩
  | stopPanics accepting failed =>
      have hclosed := Channel.expectSend_eq_error failed
      rw [h.control_isOpen accepting] at hclosed
      cases hclosed
  | joined joining ended =>
      exact ⟨h.control,h.routing,by simp,h.routingLast,fun _ => by simp⟩
  | registered version awaiting sent =>
      obtain ⟨-,rfl⟩ := Channel.send_eq_some sent
      exact ⟨h.control,h.routing,h.accept,h.routingLast,fun hl => h.controlLast
        (hl.of_append (by simp))⟩
  | voice packet running | text message running =>
      exact ⟨h.control,h.routing,h.accept,fun hl => h.routingLast (hl.of_offer (by simp)),
        h.controlLast⟩
  | packet packet control running | left listens =>
      exact ⟨h.control,h.routing,h.accept,h.routingLast,fun hl => h.controlLast
        (hl.of_offer (by simp))⟩
  | @control message rest controlState control routing running queued handled =>
      refine ⟨h.control,h.routing,h.accept,fun hl => ?_,fun hl => h.controlLast ?_⟩
      · cases handleControl_publishes handled with
        | quiet same => exact h.routingLast hl
        | update changed isOpen => exact h.routingLast (hl.of_append (by simp))
      · cases handleControl_handled handled with
        | shutdown => exact .of_head queued
        | _ => exact hl.of_tail queued rfl
  | controlPanics running queued failed =>
      obtain ⟨r,hr⟩ := handleControl_returns _ _ hc (h.routing_isOpen running)
      rw [hr] at failed
      cases failed
  | controlStops running drained closed sent =>
      refine ⟨by simp,h.routing,h.accept,fun _ => rfl,fun _ => ?_⟩
      rcases closed with closed | unwatched
      · exact h.controlLast (Or.inl closed)
      · exact fun accepting => unwatched (Or.inl accepting)
  | controlStopPanics running drained closed failed =>
      have hclosed := Channel.expectSend_eq_error failed
      rw [h.routing_isOpen running] at hclosed
      cases hclosed
  | @routing message rest ds routingTable routing running queued handled =>
      obtain ⟨-,hqueue,hsame⟩ := handleRouting_table (congrArg Prod.snd handled)
      obtain ⟨inbound,he⟩ := State.deliverAll_eq { s with routingTable, routing } ds
      rw [he]
      refine ⟨h.control,h.routing,h.accept,fun hl => h.routingLast ?_,h.controlLast⟩
      by_cases hshutdown : message = .shutdown
      · exact .of_head (hshutdown ▸ queued)
      · rw [hsame hshutdown] at hl
        exact hl.of_tail queued rfl
  | @routingPanics message rest ds panic running queued failed =>
      exact absurd ⟨by simp [routingEvents],rfl⟩ hpanic
  | routingStops running drained closed =>
      refine ⟨h.control,by simp,h.accept,fun _ => ?_,h.controlLast⟩
      rcases closed with closed | ⟨ended,-⟩
      · exact h.routingLast (Or.inl closed)
      · cases htask : s.controlTask with
        | running => exact absurd htask ended
        | stopped => rfl
        | dropped => exact absurd htask h.control
  | _ => exact ⟨h.control,h.routing,h.accept,h.routingLast,h.controlLast⟩

theorem Ordered.init : Ordered .init where
  control := by simp [State.init]
  routing := by simp [State.init]
  accept := by simp [State.init]
  routingLast hl := by simp [State.init, Channel.Closing] at hl
  controlLast hl := by simp [State.init, Channel.Closing] at hl

theorem Ordered.of_run {ts : List Transition} {s : State} (h : Run ts s)
    (hpanic : ∀ t ∈ ts, ¬ t.RoutingPanics) : Ordered s := by
  induction h with
  | nil => exact .init
  | snoc run step ih =>
      refine Ordered.step (ih fun t ht => hpanic t (List.mem_append_left _ ht))
        (TablesReachable.of_run run).control.consistent step
        (hpanic _ (List.mem_append_right _ (List.mem_singleton_self _)))

/-- While the routing task does not panic, the routing queue is closed only when the control
task has sent its last message, and the control queue only when the accept task has, so
neither finds the queue closed that it sends to. -/
theorem expects_hold {ts : List Transition} {s : State} (h : Run ts s)
    (hpanic : ∀ t ∈ ts, ¬ t.RoutingPanics) :
    (s.routing.isOpen = false → s.controlTask = .stopped) ∧
    (s.control.isOpen = false → s.acceptTask = .joining ∨ s.acceptTask = .stopped) ∧
    (s.controlTask = .running → s.routing.isOpen = true ∧ ∀ message control,
      ∃ r, handleControl message s.controlState control s.routing = .ok r) ∧
    (s.acceptTask = .accepting → s.control.isOpen = true) := by
  have hordered := Ordered.of_run h hpanic
  refine ⟨fun hclosed => hordered.routingLast (Or.inl hclosed),fun hclosed => ?_,fun running => ?_,
    hordered.control_isOpen⟩
  · have haccept := hordered.controlLast (Or.inl hclosed)
    cases htask : s.acceptTask with
    | accepting => exact absurd htask haccept
    | joining => exact Or.inl rfl
    | stopped => exact Or.inr rfl
    | dropped => exact absurd htask hordered.accept
  · have hopen := hordered.routing_isOpen running
    exact ⟨hopen,fun message control => handleControl_returns message control
      (TablesReachable.of_run h).control.consistent hopen⟩

/-- The first client authenticates, the server is stopped, and the client's task is still
there. -/
theorem run_stopped : ∃ ts s, Run ts s ∧ (∀ t ∈ ts, ¬ t.RoutingPanics) ∧
    s.controlTask = .stopped ∧ s.routingTask = .stopped ∧ s.session 0 = .running := by
  have h := Run.nil.snoc (Step.connect rfl)
  have h := h.snoc (Step.greeted (n := 0) rfl)
  have h := h.snoc (Step.registered (n := 0) [] rfl rfl)
  have h := h.snoc (Step.packet (n := 0) (.message .authenticate []) trivial rfl)
  have h := h.snoc (Step.stop rfl rfl)
  have h := h.snoc (Step.control rfl rfl rfl)
  have h := h.snoc (Step.control rfl rfl rfl)
  have h := h.snoc (Step.control rfl rfl rfl)
  have h := h.snoc (Step.controlStops rfl rfl (Or.inl rfl) rfl)
  have h := h.snoc (Step.routing rfl rfl rfl)
  have h := h.snoc (Step.routing rfl rfl rfl)
  have h := h.snoc (Step.routingStops rfl rfl (Or.inl rfl))
  refine ⟨_,_,h,fun t ht hpanic => ?_,rfl,rfl,rfl⟩
  simp only [List.mem_append, List.mem_singleton, List.not_mem_nil, false_or] at ht
  rcases ht with (((((((((((rfl | rfl) | rfl) | rfl) | rfl) | rfl) | rfl) | rfl) | rfl) | rfl) | rfl) |
    rfl)
  all_goals cases hpanic.2

theorem expects_hold_stopped : ∃ ts s, Run ts s ∧ s.controlTask = .stopped ∧
    (s.routing.isOpen = false → s.controlTask = .stopped) ∧
    (s.control.isOpen = false → s.acceptTask = .joining ∨ s.acceptTask = .stopped) ∧
    (s.controlTask = .running → s.routing.isOpen = true ∧ ∀ message control,
      ∃ r, handleControl message s.controlState control s.routing = .ok r) ∧
    (s.acceptTask = .accepting → s.control.isOpen = true) := by
  obtain ⟨ts,s,h,hpanic,control,-⟩ := run_stopped
  exact ⟨ts,s,h,control,expects_hold h hpanic⟩

/-! ## The handles of the inbound queues -/

namespace Channel

variable {α : Type}

/-- Nothing is in it, and nothing can be put in. -/
def Done (c : Channel α) : Prop := c.queue = [] ∧ c.isOpen = false

theorem Done.offer {c : Channel α} (h : c.Done) (message : α) : (c.offer message).Done := by
  rcases c.offer_cases message with he | ⟨hopen,-⟩
  · rwa [he]
  · rw [h.2] at hopen
    cases hopen

end Channel

namespace State

/-- A handle of an inbound queue is in memory: in a table of a task that is there, or in
a queue, whoever is there to receive. -/
def Held (s : State) (n : ℕ) : Prop :=
  (s.controlTask = .running ∧
    ((∃ id session, s.controlState.unauth.lookup id = some session ∧ session.send.queue = n) ∨
      TableHandles s.controlState.rtbl n)) ∨
  (s.routingTask = .running ∧ TableHandles s.routingTable n) ∨
  (∃ id session, .addSession id session ∈ s.control.queue ∧ session.send.queue = n) ∨
  ∃ t, .update t ∈ s.routing.queue ∧ TableHandles t n

theorem Held.of_handles {s : State} {n : ℕ} (h : s.Handles n) : s.Held n := by
  rcases h with ⟨running,hunauth | htable | hadd⟩ | ⟨running,htable | hupdate⟩
  · exact Or.inl ⟨running,Or.inl hunauth⟩
  · exact Or.inl ⟨running,Or.inr htable⟩
  · exact Or.inr (Or.inr (Or.inl hadd))
  · exact Or.inr (Or.inl ⟨running,htable⟩)
  · exact Or.inr (Or.inr (Or.inr hupdate))

end State

/-- A task that has stopped has drained its queue. -/
structure Drained (s : State) : Prop where
  control : s.controlTask = .stopped → s.control.Done
  routing : s.routingTask = .stopped → s.routing.Done

theorem Drained.step {s s' : State} {events : List Event} (h : Drained s)
    (hs : Step s events s') : Drained s' := by
  cases hs with
  | stop accepting sent =>
      obtain ⟨hopen,rfl⟩ := Channel.expectSend_eq_ok sent
      refine ⟨fun hstopped => ?_,h.routing⟩
      rw [(h.control hstopped).2] at hopen
      cases hopen
  | registered version awaiting sent =>
      obtain ⟨hopen,rfl⟩ := Channel.send_eq_some sent
      refine ⟨fun hstopped => ?_,h.routing⟩
      rw [(h.control hstopped).2] at hopen
      cases hopen
  | voice packet running | text message running =>
      exact ⟨h.control,fun hstopped => (h.routing hstopped).offer _⟩
  | packet packet control running | left listens =>
      exact ⟨fun hstopped => (h.control hstopped).offer _,h.routing⟩
  | control running queued handled =>
      refine ⟨fun hstopped => ?_,fun hstopped => ?_⟩
      · cases running.symm.trans hstopped
      · cases handleControl_publishes handled with
        | quiet same => exact h.routing hstopped
        | update changed isOpen =>
            rw [(h.routing hstopped).2] at isOpen
            cases isOpen
  | controlStops running drained closed sent =>
      obtain ⟨hopen,rfl⟩ := Channel.expectSend_eq_ok sent
      refine ⟨fun _ => ⟨drained,rfl⟩,fun hstopped => ?_⟩
      rw [(h.routing hstopped).2] at hopen
      cases hopen
  | @routing message rest ds routingTable routing running queued handled =>
      obtain ⟨inbound,he⟩ := State.deliverAll_eq { s with routingTable, routing } ds
      rw [he]
      exact ⟨h.control,fun hstopped => by cases running.symm.trans hstopped⟩
  | routingStops running drained closed => exact ⟨h.control,fun _ => ⟨drained,rfl⟩⟩
  | stopPanics _ _ | controlPanics _ _ _ | controlStopPanics _ _ _ _ | routingPanics _ _ _ =>
      exact ⟨nofun,nofun⟩
  | _ => exact ⟨h.control,h.routing⟩

theorem Drained.of_run {ts : List Transition} {s : State} (h : Run ts s) : Drained s :=
  h.invariant ⟨nofun,nofun⟩ Drained.step

theorem Drained.unheld {s : State} (h : Drained s) (control : s.controlTask = .stopped)
    (routing : s.routingTask = .stopped) (n : ℕ) : ¬ s.Held n := by
  rintro (⟨running,-⟩ | ⟨running,-⟩ | ⟨id,session,hm,-⟩ | ⟨t,hm,-⟩)
  · cases running.symm.trans control
  · cases running.symm.trans routing
  · rw [(h.control control).1] at hm
    cases hm
  · rw [(h.routing routing).1] at hm
    cases hm

/-- With the other tasks stopped, a session task can write what it has been sent and then
sees the end of its queue. -/
theorem Run.drains {n : ℕ} {packets : List (ControlPacket .clientbound)} {ts : List Transition}
    {s : State} (h : Run ts s) (control : s.controlTask = .stopped)
    (routing : s.routingTask = .stopped) (hinbound : s.inbound n = packets)
    (listens : s.Listens n) : ∃ ts' s', Run (ts ++ ts') s' ∧ s'.session n = .running ∧
      s'.inbound n = [] ∧ ¬ s'.Handles n := by
  induction packets generalizing ts s with
  | nil =>
      have finish {ts : List Transition} {s : State} (h : Run ts s)
          (control : s.controlTask = .stopped) (routing : s.routingTask = .stopped) :
          ¬ s.Handles n :=
        fun hh => (Drained.of_run h).unheld control routing n (.of_handles hh)
      rcases listens with running | writing
      · exact ⟨[],s,by rwa [List.append_nil],running,hinbound,finish h control routing⟩
      · have h' := h.snoc (Step.written writing)
        have running : (s.setSession n .running).session n = .running := by simp [State.setSession]
        exact ⟨_,_,h',running,hinbound,finish h' control routing⟩
  | cons packet packets ih =>
      have took {ts : List Transition} {s : State} (h : Run ts s)
          (control : s.controlTask = .stopped) (routing : s.routingTask = .stopped)
          (hinbound : s.inbound n = packet :: packets) (running : s.session n = .running) :
          ∃ ts' s', Run (ts ++ ts') s' ∧ s'.session n = .running ∧
            s'.inbound n = [] ∧ ¬ s'.Handles n := by
        have h' := h.snoc (Step.take running hinbound)
        obtain ⟨ts',s',h'',hend⟩ := ih h' control routing (by simp) (Or.inr (by simp [State.setSession]))
        exact ⟨_,s',by rwa [List.append_assoc] at h'',hend⟩
      rcases listens with running | writing
      · exact took h control routing hinbound running
      · have h' := h.snoc (Step.written writing)
        obtain ⟨ts',s',h'',hend⟩ := took h' control routing hinbound (by simp [State.setSession])
        exact ⟨_,s',by rwa [List.append_assoc] at h'',hend⟩

/-- Once the control and the routing task have stopped, no handle of an inbound queue is left,
and each registered session task that gets rid of what it has been sent sees the end of its
queue, which is empty and has no handles. -/
theorem no_handles_left {ts : List Transition} {s : State} (h : Run ts s)
    (control : s.controlTask = .stopped) (routing : s.routingTask = .stopped) (n : ℕ) :
    ¬ s.Held n ∧ (s.Listens n → ∃ ts' s', Run (ts ++ ts') s' ∧ s'.session n = .running ∧
      s'.inbound n = [] ∧ ¬ s'.Handles n ∧ Step s' [] (s'.setSession n .ended)) := by
  refine ⟨(Drained.of_run h).unheld control routing n,fun listens => ?_⟩
  obtain ⟨ts',s',h',running,empty,unreferenced⟩ := h.drains control routing rfl listens
  exact ⟨ts',s',h',running,empty,unreferenced,.finished running empty unreferenced⟩

theorem no_handles_left_stopped : ∃ ts s, Run ts s ∧ s.Listens 0 ∧ ¬ s.Held 0 ∧
    (s.Listens 0 → ∃ ts' s', Run (ts ++ ts') s' ∧ s'.session 0 = .running ∧
      s'.inbound 0 = [] ∧ ¬ s'.Handles 0 ∧ Step s' [] (s'.setSession 0 .ended)) := by
  obtain ⟨ts,s,h,-,control,routing,running⟩ := run_stopped
  exact ⟨ts,s,h,Or.inl running,no_handles_left h control routing 0⟩

end Atof.Server
