import Atof.Enrolment
import Atof.Hearing

/-!
# What a session task writes

The routing task pushes to the inbound queue of a session and the session task takes from its
front. The queue is there from the registration to the end of the task, and nobody has a handle
of it before, so what the task takes and what is still in the queue are together what was
pushed, until the task ends and the rest is lost. What it takes it writes to its client before
it takes more, so all but the last of it has been written.
-/
namespace Atof.Server
open Rust Voice Control Fifo

/-- The packet, if it is for the queue of task `n`. -/
def Delivery.packetFor (n : ℕ) (d : Delivery) : Option (ControlPacket .clientbound) :=
  if d.recipient.queue = n then some d.packet else none

def Event.pushedTo (n : ℕ) : Event → Option (ControlPacket .clientbound)
  | .push _ d => d.packetFor n
  | _ => none

/-- What is pushed to the queue of task `n`. -/
def pushes (n : ℕ) (ts : List Transition) : List (ControlPacket .clientbound) :=
  ts.flatMap fun t => t.events.filterMap (Event.pushedTo n)

/-- What task `n` has taken from its queue, to write it to its client. -/
def fetched (n : ℕ) (ts : List Transition) : List (ControlPacket .clientbound) :=
  Fifo.taken (fun t : Transition => t.before.inbound n) (fun t => t.after.inbound n) ts

/-- What a session task has written of what it took, and the packet that it is writing. -/
structure Outgoing where
  written : List (ControlPacket .clientbound)
  inHand : Option (ControlPacket .clientbound)

/-- A packet is in hand from when it is taken. With the task running again it has been written,
and with the task ended it was not, or not all of it. -/
def Outgoing.step (n : ℕ) (o : Outgoing) (t : Transition) : Outgoing :=
  match t.after.session n with
  | .writing =>
      { o with inHand := (takes (t.before.inbound n) (t.after.inbound n)).head?.or o.inHand }
  | .running => ⟨o.written ++ o.inHand.toList,none⟩
  | _ => { o with inHand := none }

def outgoing (n : ℕ) (ts : List Transition) : Outgoing := ts.foldl (Outgoing.step n) ⟨[],none⟩

/-- What task `n` has written to its client of what was in its queue. -/
def writes (n : ℕ) (ts : List Transition) : List (ControlPacket .clientbound) :=
  (outgoing n ts).written

/-- What task `n` is writing to its client of what was in its queue. -/
def inHand (n : ℕ) (ts : List Transition) : Option (ControlPacket .clientbound) :=
  (outgoing n ts).inHand

/-! ## One step -/

theorem State.listens_deliver (s : State) (d : Delivery) (n : ℕ) :
    (s.deliver d).Listens n ↔ s.Listens n := by
  obtain ⟨inbound,h⟩ := s.deliver_eq d
  rw [h]
  exact Iff.rfl

theorem State.inbound_deliver (s : State) (d : Delivery) (n : ℕ) :
    (s.deliver d).inbound n =
      s.inbound n ++ if s.Listens n then [d].filterMap (Delivery.packetFor n) else [] := by
  unfold State.deliver
  by_cases hn : d.recipient.queue = n
  · subst hn
    by_cases hl : s.Listens d.recipient.queue
    · simp [hl, Delivery.packetFor]
    · simp [hl]
  · by_cases hl : s.Listens d.recipient.queue
    · simp [hl, Delivery.packetFor, hn, Function.update_of_ne (Ne.symm hn)]
    · simp [hl, Delivery.packetFor, hn]

theorem State.inbound_deliverAll (s : State) (ds : List Delivery) (n : ℕ) :
    (s.deliverAll ds).inbound n =
      s.inbound n ++ if s.Listens n then ds.filterMap (Delivery.packetFor n) else [] := by
  induction ds generalizing s with
  | nil => simp [State.deliverAll]
  | cons d ds ih =>
      change ((s.deliver d).deliverAll ds).inbound n = _
      rw [ih, s.inbound_deliver, List.append_assoc]
      simp only [s.listens_deliver]
      split
      · rw [← List.filterMap_append]
        rfl
      · simp

/-- The packets are pushed with the message they are made from. -/
theorem pushedTo_routingEvents (n : ℕ) (message : RoutingMessage) (t : RoutingTable)
    (routing : Channel RoutingMessage) :
    (routingEvents message (handleRouting message t routing).1).filterMap (Event.pushedTo n) =
      (handleRouting message t routing).1.filterMap (Delivery.packetFor n) := by
  cases message with
  | voice id packet | text id text =>
      simp [routingEvents, Event.pushedTo, List.filterMap_cons, Function.comp_def]
  | update rtbl => simp [routingEvents, handleRouting, Event.pushedTo, List.filterMap_cons]
  | shutdown => simp [routingEvents, handleRouting, Event.pushedTo, List.filterMap_cons]

/-- What is taken and what is left are what was there and, if the task listens, what is
pushed. -/
theorem Step.inbound_balance {s s' : State} {events : List Event} (h : Step s events s') (n : ℕ) :
    takes (s.inbound n) (s'.inbound n) ++ s'.inbound n =
      s.inbound n ++ if s.Listens n then events.filterMap (Event.pushedTo n) else [] := by
  have pushed {s₁ : State} {message : RoutingMessage} {rest : List RoutingMessage}
      {ds : List Delivery} {r : Checked (RoutingTable × Channel RoutingMessage)}
      (handled : handleRouting message s.routingTable { s.routing with queue := rest } = (ds,r))
      (hin : s₁.inbound n =
        s.inbound n ++ if s.Listens n then ds.filterMap (Delivery.packetFor n) else []) :
      takes (s.inbound n) (s₁.inbound n) ++ s₁.inbound n = s.inbound n ++
        if s.Listens n then (routingEvents message ds).filterMap (Event.pushedTo n) else [] := by
    obtain rfl : _ = ds := congrArg Prod.fst handled
    rw [hin, takes_append, List.nil_append, pushedTo_routingEvents]
  cases h with
  | @take m packet rest running queued =>
      by_cases hn : n = m
      · subst hn
        simp [queued]
      · simp [Function.update_of_ne hn]
  | routing running queued handled => exact pushed handled (State.inbound_deliverAll _ _ n)
  | routingPanics running queued failed => exact pushed failed (State.inbound_deliverAll _ _ n)
  | _ => simp [State.setSession, State.leave, State.unwind]

/-! ## Handles come from registered tasks -/

/-- The task has registered; it may have ended since. -/
def State.Registered (s : State) (n : ℕ) : Prop := s.Listens n ∨ s.session n = .ended

theorem Step.registered_of {s s' : State} {events : List Event} (h : Step s events s')
    (hborn : ∀ n, s.session n ≠ .unborn → n < s.spawned) {n : ℕ} (hn : s.Registered n) :
    s'.Registered n := by
  rcases hn with hl | hended
  · have hlive : s.session n ≠ .unborn ∧ s.session n ≠ .greeting ∧ s.session n ≠ .awaitingVersion := by
      rcases hl with hs | hs <;> simp [hs]
    have other {m : ℕ} {t : SessionTask} (session : s'.session = Function.update s.session m t)
        (ht : n = m → t = .ended ∨ t = .running ∨ t = .writing) : s'.Registered n := by
      by_cases hnm : n = m
      · rcases ht hnm with rfl | rfl | rfl
          <;> simp [State.Registered, State.Listens, session, hnm]
      · left
        simpa [State.Listens, session, Function.update_of_ne hnm] using hl
    have hspeech := h.speech.2
    generalize puts s.control.queue s'.control.queue = ms at hspeech
    cases hspeech with
    | connect session spawned =>
        exact other session fun heq => absurd (hborn n hlive.1) (heq ▸ lt_irrefl _)
    | moved born on session spawned =>
        refine other session fun heq => ?_
        rcases on with rfl | ⟨-,hm⟩ | ⟨rfl | rfl,-⟩
        · exact Or.inl rfl
        · exact absurd (heq ▸ hm) hlive.2.1
        · exact Or.inr (Or.inl rfl)
        · exact Or.inr (Or.inr rfl)
    | registered awaiting session spawned => exact other session fun _ => Or.inr (Or.inl rfl)
    | left listens session spawned => exact other session fun _ => Or.inl rfl
    | silent session spawned | shutdown session spawned | packet running session spawned =>
        left
        simpa [State.Listens, session] using hl
  · exact Or.inr (h.ended hborn hended)

/-- A task that hands over its handle is registered then. -/
theorem Speech.running {s s' : State} {said : List ControlMessage} (h : Speech s s' said)
    {id : SessionID} {session : UnAuthSession} (hm : .addSession id session ∈ said) :
    s'.session session.send.queue = .running := by
  cases h with
  | registered awaiting session' spawned =>
      cases List.mem_singleton.mp hm
      rw [session', Function.update_self]
  | shutdown _ _ | packet _ _ _ | left _ _ _ => cases List.mem_singleton.mp hm
  | silent _ _ | connect _ _ | moved _ _ _ _ => cases hm

/-- What has a handle anywhere has registered. -/
theorem Run.sends_registered {ts : List Transition} {s : State} (h : Run ts s) :
    ∀ id queue, s.Sends id queue → s.Registered queue := by
  induction h with
  | nil =>
      rintro id queue ((⟨session,hl,-⟩ | ⟨session,hl,-⟩) | ⟨session,hmem,-⟩)
      · cases hl
      · cases hl
      · cases hmem
  | @snoc ts s s' events run step ih =>
      intro id queue hsends
      have old (hs : s.Sends id queue) : s'.Registered queue :=
        step.registered_of (Owned.of_run run).born (ih id queue hs)
      cases step.controlQueue with
      | tells hqueue state speech =>
          rcases hsends with hs | ⟨session,hm,rfl⟩
          · exact old (Or.inl (state ▸ hs))
          · rw [hqueue] at hm
            rcases List.mem_append.mp hm with hm | hm
            · exact old (Or.inr ⟨session,hm,rfl⟩)
            · exact Or.inl (Or.inl (speech.running hm))
      | handles queued left handled _ _ =>
          rcases hsends with hs | ⟨session,hm,hsend⟩
          · rcases handleControl_sends handled hs with hs | ⟨session,rfl,hsend⟩
            · exact old (Or.inl hs)
            · exact old (Or.inr ⟨session,by rw [queued]; exact List.mem_cons_self,hsend⟩)
          · rw [left] at hm
            exact old (Or.inr ⟨session,by rw [queued]; exact List.mem_cons_of_mem _ hm,hsend⟩)

/-- What a task has become, it is at the end of the run. -/
theorem Run.registered_later {ts : List Transition} {s : State} (h : Run ts s) {n : ℕ} :
    ∀ t ∈ ts, t.after.Registered n → s.Registered n := by
  induction h with
  | nil => simp
  | @snoc ts s s' events run step ih =>
      intro t ht hn
      rcases List.mem_append.mp ht with ht | ht
      · exact step.registered_of (Owned.of_run run).born (ih t ht hn)
      · obtain rfl := List.mem_singleton.mp ht
        exact hn

/-- What is pushed in a step goes to tasks that have registered and were counted. -/
theorem Run.recipient_registered {ts : List Transition} {s s' : State} {events : List Event}
    (h : Run ts s) (step : Step s events s') {id : SessionID} {d : Delivery}
    (hpush : .push id d ∈ events) :
    s.Registered d.recipient.queue ∧ d.recipient.queue < s.spawned := by
  obtain he | ⟨message,rest,queued,he⟩ := step.dequeues
  · rw [he] at hpush
    cases hpush
  · rw [he] at hpush
    obtain ⟨id',hsender⟩ := mem_handleRouting_sender (mem_push hpush).1
    obtain ⟨session,hl,hrecipient⟩ := Option.map_eq_some_iff.mp hsender
    have htables := h.tables (P := fun t => ∀ id session, t.sessions.lookup id = some session →
        s.Registered session.sender.queue) (fun id session hl => by cases hl) ?_
    · rw [← hrecipient]
      exact ⟨htables.1 id' session hl,(h.owned_tables.1 id' session hl).1⟩
    · intro t ht id session hl
      obtain ⟨ts₁,-,-,hrun⟩ := h.split_of_mem ht
      exact h.registered_later t ht
        (hrun.sends_registered id _ (Or.inl (Or.inr ⟨session,hl,rfl⟩)))

/-! ## Every run -/

theorem pushes_append (n : ℕ) (ts ts' : List Transition) :
    pushes n (ts ++ ts') = pushes n ts ++ pushes n ts' := List.flatMap_append

theorem pushes_singleton (n : ℕ) (t : Transition) :
    pushes n [t] = t.events.filterMap (Event.pushedTo n) := List.flatMap_singleton ..

/-- Nothing is pushed to a task that has not registered. -/
theorem Run.unregistered {ts : List Transition} {s s' : State} {events : List Event}
    (h : Run ts s) (step : Step s events s') {n : ℕ} (hn : ¬ s.Registered n) :
    events.filterMap (Event.pushedTo n) = [] := by
  rw [List.filterMap_eq_nil_iff]
  intro e he
  cases e with
  | dequeue message => rfl
  | install rtbl => rfl
  | push id d =>
      refine if_neg fun heq => hn ?_
      exact heq ▸ (h.recipient_registered step he).1

/-- What a task has taken and what it still has in its queue is a first part of what was pushed
to it, and all of that until it ends. -/
theorem Run.delivered {ts : List Transition} {s : State} (h : Run ts s) (n : ℕ) :
    fetched n ts ++ s.inbound n <+: pushes n ts ∧
      (s.session n ≠ .ended → fetched n ts ++ s.inbound n = pushes n ts) := by
  induction h with
  | nil => exact ⟨List.nil_prefix,fun _ => rfl⟩
  | @snoc ts s s' events run step ih =>
      have hbalance : fetched n (ts ++ [⟨s,events,s'⟩]) ++ s'.inbound n = fetched n ts ++ s.inbound n ++
          if s.Listens n then events.filterMap (Event.pushedTo n) else [] := by
        rw [fetched, taken_append, taken_singleton, List.append_assoc, step.inbound_balance,
          ← List.append_assoc]
        rfl
      rw [hbalance, pushes_append, pushes_singleton]
      by_cases hended : s.session n = .ended
      · have hl : ¬ s.Listens n := by simp [State.Listens, hended]
        rw [if_neg hl, List.append_nil]
        exact ⟨ih.1.trans (List.prefix_append _ _),
          fun hlive => absurd (step.ended (Owned.of_run run).born hended) hlive⟩
      · have hall : fetched n ts ++ s.inbound n ++
            (if s.Listens n then events.filterMap (Event.pushedTo n) else []) =
            pushes n ts ++ events.filterMap (Event.pushedTo n) := by
          rw [ih.2 hended]
          by_cases hl : s.Listens n
          · rw [if_pos hl]
          · rw [if_neg hl, run.unregistered step (not_or.mpr ⟨hl,hended⟩)]
        exact ⟨hall ▸ List.prefix_refl _,fun _ => hall⟩

/-! ## What is written -/

/-- A packet is taken by a task that goes on to write it. -/
theorem Step.fetches {s s' : State} {events : List Event} (h : Step s events s') (n : ℕ) :
    takes (s.inbound n) (s'.inbound n) = [] ∨ ∃ packet,
      takes (s.inbound n) (s'.inbound n) = [packet] ∧ s.session n = .running ∧
        s'.session n = .writing := by
  have delivered {s₁ : State} {ds : List Delivery}
      (hin : s₁.inbound n =
        s.inbound n ++ if s.Listens n then ds.filterMap (Delivery.packetFor n) else []) :
      takes (s.inbound n) (s₁.inbound n) = [] := by
    rw [hin, takes_append]
  cases h with
  | @take m packet rest running queued =>
      by_cases hn : n = m
      · subst hn
        exact Or.inr ⟨packet,by simp [queued],running,by simp [State.setSession]⟩
      · simp [Function.update_of_ne hn]
  | routing running queued handled => exact Or.inl (delivered (State.inbound_deliverAll _ _ n))
  | routingPanics running queued failed =>
      exact Or.inl (delivered (State.inbound_deliverAll _ _ n))
  | _ => simp [State.setSession, State.leave, State.unwind]

theorem outgoing_snoc (n : ℕ) (ts : List Transition) (t : Transition) :
    outgoing n (ts ++ [t]) = (outgoing n ts).step n t := List.foldl_concat ..

/-- What is written was fetched, and what is fetched is written before more of it is. -/
structure Outgoing.Of (o : Outgoing) (fetched : List (ControlPacket .clientbound))
    (task : SessionTask) : Prop where
  written : o.written <+: fetched
  all : task ≠ .ended → o.written ++ o.inHand.toList = fetched
  inHand : task ≠ .writing → o.inHand = none

theorem Outgoing.Of.step {s s' : State} {events : List Event} {o : Outgoing}
    {fetched : List (ControlPacket .clientbound)} {n : ℕ} (h : o.Of fetched (s.session n))
    (hstep : Step s events s') (hborn : ∀ n, s.session n ≠ .unborn → n < s.spawned) :
    (o.step n ⟨s,events,s'⟩).Of (fetched ++ takes (s.inbound n) (s'.inbound n))
      (s'.session n) := by
  obtain htakes | ⟨packet,htakes,running,writing⟩ := hstep.fetches n
  · rw [htakes, List.append_nil]
    have live (hlive : s'.session n ≠ .ended) : s.session n ≠ .ended :=
      fun hended => hlive (hstep.ended hborn hended)
    have empty (hgone : ¬ s'.Registered n) : o.inHand = none :=
      h.inHand fun writing => hgone (hstep.registered_of hborn (Or.inl (Or.inr writing)))
    have cleared (hlive : s'.session n = .ended ∨ ¬ s'.Registered n) :
        Outgoing.Of ⟨o.written,none⟩ fetched (s'.session n) := by
      refine ⟨h.written,fun hnot => ?_,fun _ => rfl⟩
      have hnone := empty (hlive.resolve_left hnot)
      have hall := h.all (live hnot)
      rwa [hnone] at hall
    cases hsession : s'.session n with
    | writing =>
        have hsame : o.step n ⟨s,events,s'⟩ = o := by
          simp only [Outgoing.step, hsession, htakes]
          rfl
        rw [hsame]
        exact ⟨h.written,fun hlive => h.all (live (hsession ▸ hlive)),
          fun hnot => absurd rfl hnot⟩
    | running =>
        have hall := h.all (live (by simp [hsession]))
        have hwritten : o.step n ⟨s,events,s'⟩ = ⟨fetched,none⟩ := by
          simp only [Outgoing.step, hsession, hall]
        rw [hwritten]
        exact ⟨List.prefix_refl _,fun _ => List.append_nil _,fun _ => rfl⟩
    | unborn | greeting | awaitingVersion | ended =>
        have hcleared : o.step n ⟨s,events,s'⟩ = ⟨o.written,none⟩ := by
          simp only [Outgoing.step, hsession]
        rw [hcleared, ← hsession]
        exact cleared (by simp [State.Registered, State.Listens, hsession])
  · have hnone := h.inHand (by simp [running])
    have hall := h.all (by simp [running])
    rw [hnone, Option.toList_none, List.append_nil] at hall
    have htaken : o.step n ⟨s,events,s'⟩ = ⟨fetched,some packet⟩ := by
      simp only [Outgoing.step, writing, htakes, hall]
      rfl
    rw [htaken, htakes, writing]
    exact ⟨List.prefix_append _ _,fun _ => rfl,fun hnot => absurd rfl hnot⟩

theorem Run.outgoing {ts : List Transition} {s : State} (h : Run ts s) (n : ℕ) :
    (outgoing n ts).Of (fetched n ts) (s.session n) := by
  induction h with
  | nil => exact ⟨List.nil_prefix,fun _ => rfl,fun _ => rfl⟩
  | snoc run step ih =>
      rw [outgoing_snoc, fetched, taken_append, taken_singleton]
      exact ih.step step (Owned.of_run run).born

/-- What a session task writes is a first part of what was pushed to it, and until it ends the
rest is in its hand and in its queue. -/
theorem Run.writes_pushes {ts : List Transition} {s : State} (h : Run ts s) (n : ℕ) :
    writes n ts <+: pushes n ts ∧
      (s.session n ≠ .ended → writes n ts ++ (inHand n ts).toList ++ s.inbound n = pushes n ts) ∧
      (s.session n ≠ .writing → inHand n ts = none) := by
  have ho := h.outgoing n
  obtain ⟨hfirst,hall⟩ := h.delivered n
  refine ⟨ho.written.trans ((List.prefix_append _ _).trans hfirst),fun hlive => ?_,ho.inHand⟩
  rw [← hall hlive, ← ho.all hlive]
  rfl

/-! ## Who said it -/

/-- The audio in it that says it comes from `a`. -/
def audioFrom (a : SessionID) : ControlPacket .clientbound → Option (VoicePacket .clientbound)
  | .udpTunnel packet => if origin (.udpTunnel packet) = some a then some packet else none
  | _ => none

/-- With different ids, what is offered under the id of a task is pushed to its queue. -/
theorem Run.heard_eq {ts : List Transition} {s : State} (h : Run ts s)
    (hspawned : s.spawned ≤ 2 ^ 32) {n : ℕ} (hn : n < 2 ^ 32) (a : SessionID) :
    heard a (sessionId n) ts = (pushes n ts).filterMap (audioFrom a) := by
  rw [heard, pushes, List.filterMap_flatMap]
  refine List.flatMap_congr fun t ht => ?_
  obtain ⟨ts₁,hrun,step,-⟩ := h.split_of_mem ht
  rw [List.filterMap_filterMap]
  refine List.filterMap_congr fun e he => ?_
  cases e with
  | dequeue message => rfl
  | install rtbl => rfl
  | push id d =>
      have hcount : d.recipient.queue < 2 ^ 32 :=
        (hrun.recipient_registered step he).2.trans_le
          (step.spawned_le.trans ((h.spawned_le t ht).trans hspawned))
      obtain ⟨recipient,packet⟩ := d
      by_cases hq : recipient.queue = n
      · cases packet <;> simp [Event.hears, Event.pushedTo, Delivery.packetFor, hq, audioFrom]
      · have hid : sessionId recipient.queue ≠ sessionId n := fun heq =>
          hq (sessionId_injective hcount hn heq)
        cases packet <;> simp [Event.hears, Event.pushedTo, Delivery.packetFor, hq, hid]

/-- What a session task takes of another session's audio is a first part of what is offered
to it. -/
theorem Run.fetched_spoken {ts : List Transition} {s : State} (h : Run ts s)
    (hspawned : s.spawned ≤ 2 ^ 32) {n : ℕ} (hn : n < 2 ^ 32) {a : SessionID}
    (hab : a ≠ sessionId n) :
    (fetched n ts).filterMap (audioFrom a) <+: spoken a (sessionId n) ts := by
  rw [← h.hears_spoken hab, h.heard_eq hspawned hn]
  exact ((List.prefix_append _ _).trans (h.delivered n).1).filterMap _

/-- Of another session's audio a session task writes to its client, in this order and each once,
a first part of what the routing task takes of it while both are in one room, which is a part of
what the other's client sends; and until it ends, the rest of that is what it is writing, if it
is, and what is in its queue. -/
theorem written_eq_spoken {ts : List Transition} {s : State} (h : Run ts s)
    (hspawned : s.spawned ≤ 2 ^ 32) {n : ℕ} (hn : n < 2 ^ 32) {a : SessionID}
    (hab : a ≠ sessionId n) :
    (writes n ts).filterMap (audioFrom a) <+: spoken a (sessionId n) ts ∧
    (s.session n ≠ .ended →
      (writes n ts ++ (inHand n ts).toList ++ s.inbound n).filterMap (audioFrom a) =
        spoken a (sessionId n) ts) ∧
    (s.session n ≠ .writing → inHand n ts = none) ∧
    ((writes n ts).filterMap (audioFrom a)).Sublist (said a ts) := by
  obtain ⟨hfirst,hall,hnone⟩ := h.writes_pushes n
  have hpushes : (pushes n ts).filterMap (audioFrom a) = spoken a (sessionId n) ts := by
    rw [← h.heard_eq hspawned hn, h.hears_spoken hab]
  have hwritten : (writes n ts).filterMap (audioFrom a) <+: spoken a (sessionId n) ts :=
    hpushes ▸ hfirst.filterMap _
  exact ⟨hwritten,fun hlive => by rw [hall hlive, hpushes],hnone,
    hwritten.sublist.trans (h.spoken_said a _)⟩

/-- The first two clients authenticate and the first speaks three times; one of the packets is
written to the second client, and one is being written. -/
theorem written_eq_spoken_pair : ∃ ts s, Run ts s ∧
    writes 1 ts = [.udpTunnel (.audio 0 (sessionId 0) 7 (.opus [1,2] true) none)] ∧
    inHand 1 ts = some (.udpTunnel (.audio 0 (sessionId 0) 8 (.opus [3] true) none)) ∧
    s.inbound 1 = [.udpTunnel (.audio 0 (sessionId 0) 9 (.opus [] true) none)] ∧
    (writes 1 ts).filterMap (audioFrom (sessionId 0)) <+: spoken (sessionId 0) (sessionId 1) ts ∧
    (s.session 1 ≠ .ended →
      (writes 1 ts ++ (inHand 1 ts).toList ++ s.inbound 1).filterMap (audioFrom (sessionId 0)) =
        spoken (sessionId 0) (sessionId 1) ts) ∧
    (s.session 1 ≠ .writing → inHand 1 ts = none) ∧
    ((writes 1 ts).filterMap (audioFrom (sessionId 0))).Sublist (said (sessionId 0) ts) := by
  have h := Run.nil.snoc (Step.connect rfl)
  have h := h.snoc (Step.connect rfl)
  have h := h.snoc (Step.greeted (n := 0) rfl)
  have h := h.snoc (Step.greeted (n := 1) rfl)
  have h := h.snoc (Step.registered (n := 0) [] rfl rfl)
  have h := h.snoc (Step.registered (n := 1) [] rfl rfl)
  have h := h.snoc (Step.packet (n := 0) (.message .authenticate []) trivial rfl)
  have h := h.snoc (Step.packet (n := 1) (.message .authenticate []) trivial rfl)
  have h := h.snoc (Step.control rfl rfl rfl)
  have h := h.snoc (Step.control rfl rfl rfl)
  have h := h.snoc (Step.control rfl rfl rfl)
  have h := h.snoc (Step.control rfl rfl rfl)
  have h := h.snoc (Step.voice (n := 0) (.audio 0 () 7 (.opus [1,2] true) none) rfl)
  have h := h.snoc (Step.voice (n := 0) (.audio 0 () 8 (.opus [3] true) none) rfl)
  have h := h.snoc (Step.voice (n := 0) (.audio 0 () 9 (.opus [] true) none) rfl)
  have h := h.snoc (Step.routing rfl rfl rfl)
  have h := h.snoc (Step.routing rfl rfl rfl)
  have h := h.snoc (Step.routing rfl rfl rfl)
  have h := h.snoc (Step.take (n := 1) rfl rfl)
  have h := h.snoc (Step.written (n := 1) rfl)
  have h := h.snoc (Step.routing rfl rfl rfl)
  have h := h.snoc (Step.routing rfl rfl rfl)
  have h := h.snoc (Step.take (n := 1) rfl rfl)
  exact ⟨_,_,h,rfl,rfl,rfl,written_eq_spoken h (by decide) (by decide) (by decide)⟩

end Atof.Server
