import Atof.Broadcast
import Atof.Completion

/-!
# What is served in the end

A task that is not put off for ever leaves nothing that it is sent. What the control task is told
it processes, unless it is gone, and what the routing task is handed it takes, so the changes of
the control task's table get to the routing task; and what is pushed to a session task it writes
to its client, unless it has ended, if the client does not keep it waiting for ever. So a client
that stays and reads gets all that the others say while it is there.
-/
namespace Atof.Server
open Rust Voice Control Fairness Fifo

/-- What happens is added to the record. -/
def Records (p q : State × List Transition) : Prop :=
  ∃ events, Step p.1 events q.1 ∧ q.2 = p.2 ++ [⟨p.1,events,q.1⟩]

/-- A course, with what has happened in it up to each step. -/
def Recorded (r : ℕ → State) (T : ℕ → List Transition) : Prop :=
  Fairness.Course (State.init,[]) Records fun i => (r i,T i)

variable {r : ℕ → State} {T : ℕ → List Transition}

theorem Recorded.step (h : Recorded r T) (i : ℕ) : (r (i + 1) = r i ∧ T (i + 1) = T i) ∨
    ∃ events, Step (r i) events (r (i + 1)) ∧ T (i + 1) = T i ++ [⟨r i,events,r (i + 1)⟩] :=
  (Fairness.Course.step h i).imp_left Prod.mk.inj

theorem Recorded.run (h : Recorded r T) (i : ℕ) : Run (T i) (r i) := by
  have hstart : Run (T 0) (r 0) := by
    obtain ⟨hr,hT⟩ := Prod.mk.inj h.init
    rw [hr, hT]
    exact .nil
  refine Fairness.Course.keeps (I := fun p => Run p.2 p.1) h (Nat.zero_le i) hstart ?_
  rintro p q hp ⟨events,hs,hq⟩
  exact hq ▸ hp.snoc hs

theorem Recorded.grows (h : Recorded r T) {i j : ℕ} (hij : i ≤ j) : T i <+: T j := by
  refine Fairness.Course.keeps (I := fun p => T i <+: p.2) h hij (List.prefix_refl _) ?_
  rintro p q hp ⟨events,-,hq⟩
  exact hq ▸ hp.trans (List.prefix_append _ _)

theorem Recorded.spawned_le (h : Recorded r T) {i j : ℕ} (hij : i ≤ j) :
    (r i).spawned ≤ (r j).spawned := by
  refine Fairness.Course.keeps (I := fun p => (r i).spawned ≤ p.1.spawned) h hij le_rfl ?_
  rintro p q hp ⟨events,hs,-⟩
  exact hp.trans hs.spawned_le

theorem Recorded.course (h : Recorded r T) : Course r :=
  ⟨(Prod.mk.inj h.init).1,fun i => (h.step i).imp And.left fun ⟨events,hs,_⟩ => ⟨events,hs⟩⟩

/-- A message that is taken from a queue is recorded. -/
theorem Recorded.took (h : Recorded r T) {α : Type} (q : State → List α) {j : ℕ} {m : α}
    (hq : q (r j) = m :: q (r (j + 1))) :
    taken (fun t : Transition => q t.before) (fun t => q t.after) (T (j + 1)) =
      taken (fun t : Transition => q t.before) (fun t => q t.after) (T j) ++ [m] := by
  obtain ⟨hsame,-⟩ | ⟨events,-,hT⟩ := h.step j
  · rw [hsame] at hq
    exact absurd (congrArg List.length hq) (by simp)
  · rw [hT, taken_append, taken_singleton, hq, takes_cons]

/-! ## The control and the routing task -/

/-- What is put into a queue is taken out of it, by a task that goes on as long as there is
something in its queue. -/
theorem Recorded.serves (h : Recorded r T) {α : Type} (q : State → List α) {Move : State → State → Prop}
    (Gone : State → Prop) (fair : Weak Move r)
    (trace : ∀ {ts s}, Run ts s →
      Trace (fun t : Transition => q t.before) (fun t => q t.after) ts (q s))
    (goes : ∀ {s}, ¬ Gone s → q s ≠ [] → ∃ s', Move s s')
    (takes : ∀ {s s'}, Move s s' → ¬ Gone s' → ∃ m, q s = m :: q s') (i : ℕ) :
    ∃ j, i ≤ j ∧ (Gone (r j) ∨
      put (fun t : Transition => q t.before) (fun t => q t.after) (T i) <+:
        taken (fun t : Transition => q t.before) (fun t => q t.after) (T j)) := by
  let before (t : Transition) := q t.before
  let after (t : Transition) := q t.after
  have balance (j : ℕ) : taken before after (T j) ++ q (r j) = put before after (T j) :=
    (trace (h.run j)).balance
  have hput {j : ℕ} (hj : i ≤ j) : put before after (T i) <+: put before after (T j) :=
    (h.grows hj).flatMap _
  obtain ⟨j,hj,hq⟩ : ∃ j, i ≤ j ∧ (Gone (r j) ∨
      (put before after (T i)).length ≤ (taken before after (T j)).length) := by
    refine fair.counts (fun j hj hgone hless => goes hgone fun hnil => ?_)
      (fun j hj => ((h.grows (Nat.le_succ j)).flatMap _).length_le) (fun j hj hgone hmove => ?_)
    · have hall := balance j
      rw [hnil, List.append_nil] at hall
      rw [hall] at hless
      exact absurd (hput hj).length_le (not_le.mpr hless)
    · obtain ⟨m,hm⟩ := takes hmove hgone
      have htook : taken before after (T (j + 1)) = taken before after (T j) ++ [m] := h.took q hm
      rw [htook, List.length_append]
      exact Nat.lt_succ_self _
  refine ⟨j,hj,hq.imp_right fun hlength => ?_⟩
  exact List.prefix_of_prefix_length_le (hput hj) (balance j ▸ List.prefix_append _ _) hlength

theorem ControlGoesOn.takes {s s' : State} (h : ControlGoesOn s s')
    (running' : s'.controlTask = .running) : ∃ m, s.control.queue = m :: s'.control.queue := by
  cases h with
  | handles running queued handled =>
      exact ⟨_,queued.trans (congrArg _ (handleControl_queue handled).1.symm)⟩
  | panics _ _ _ | stops _ _ _ _ | stopPanics _ _ _ _ => cases running'

theorem RoutingGoesOn.takes {s s' : State} (h : RoutingGoesOn s s')
    (running' : s'.routingTask = .running) : ∃ m, s.routing.queue = m :: s'.routing.queue := by
  cases h with
  | @handles message rest ds routingTable routing running queued handled =>
      obtain ⟨-,hqueue,-⟩ := handleRouting_table (congrArg Prod.snd handled)
      obtain ⟨inbound,he⟩ := State.deliverAll_eq { s with routingTable, routing } ds
      rw [he]
      exact ⟨message,queued.trans (congrArg _ hqueue.symm)⟩
  | panics _ _ _ | stops _ _ _ => cases running'

/-- What the control task is told it processes. -/
theorem Recorded.processes (h : Recorded r T) (control : Weak ControlGoesOn r) (i : ℕ) :
    ∃ j, i ≤ j ∧ ((r j).controlTask ≠ .running ∨ told (T i) <+: processed (T j)) :=
  h.serves (fun s => s.control.queue) (fun s => s.controlTask ≠ .running) control
    Run.controlTrace (fun running queued => ControlGoesOn.of_queue (not_not.mp running) queued)
    (fun hmove running => hmove.takes (not_not.mp running)) i

/-- What the routing task is handed it takes. -/
theorem Recorded.receives (h : Recorded r T) (routing : Weak RoutingGoesOn r) (i : ℕ) :
    ∃ j, i ≤ j ∧ ((r j).routingTask ≠ .running ∨ posted (T i) <+: received (T j)) :=
  h.serves (fun s => s.routing.queue) (fun s => s.routingTask ≠ .running) routing
    Run.routingTrace (fun running queued => RoutingGoesOn.of_queue (not_not.mp running) queued)
    (fun hmove running => hmove.takes (not_not.mp running)) i

/-! ## The tables -/

/-- The updates that are taken are installed. -/
theorem Step.taken_updates {s s' : State} {events : List Event} (h : Step s events s') :
    updates (takes s.routing.queue s'.routing.queue) = events.filterMap Event.installs := by
  have still {events₁ : List Event} {s₁ : State} (hq : s₁.routing.queue = s.routing.queue)
      (he : events₁.filterMap Event.installs = []) :
      updates (takes s.routing.queue s₁.routing.queue) = events₁.filterMap Event.installs := by
    rw [hq, takes_self, he]
    rfl
  have offered (message : RoutingMessage) :
      updates (takes s.routing.queue (s.routing.offer message).queue) = [] := by
    rcases s.routing.offer_cases message with he | ⟨-,he⟩
    · rw [he, takes_self]
      rfl
    · rw [he, takes_append]
      rfl
  cases h with
  | voice packet running | text message running => exact offered _
  | control running queued handled =>
      cases handleControl_publishes handled with
      | quiet same => exact still rfl rfl
      | update changed isOpen =>
          rw [takes_append]
          rfl
  | controlStops running drained closed sent =>
      obtain ⟨-,rfl⟩ := Channel.expectSend_eq_ok sent
      rw [takes_append]
      rfl
  | @routing message rest ds routingTable routing running queued handled =>
      obtain ⟨-,hqueue,-⟩ := handleRouting_table (congrArg Prod.snd handled)
      obtain ⟨inbound,he⟩ := State.deliverAll_eq { s with routingTable, routing } ds
      rw [he, queued, installs_routingEvents]
      change updates (takes (message :: rest) routing.queue) = _
      rw [hqueue, takes_cons]
  | @routingPanics message rest ds panic running queued failed =>
      obtain ⟨inbound,he⟩ := s.deliverAll_eq ds
      rw [he]
      refine still rfl ?_
      rw [installs_routingEvents]
      cases message with
      | update rtbl => cases congrArg Prod.snd failed
      | voice _ _ | text _ _ | shutdown => rfl
  | _ => exact still rfl rfl

theorem Run.installed_eq {ts : List Transition} {s : State} (h : Run ts s) :
    installed ts = updates (received ts) := by
  rw [installed, received, taken, updates, List.filterMap_flatMap]
  refine List.flatMap_congr fun t ht => ?_
  obtain ⟨ts₁,-,step,-⟩ := h.split_of_mem ht
  exact step.taken_updates.symm

theorem Run.changes_eq {ts : List Transition} {s : State} (h : Run ts s) :
    changes ts = updates (posted ts) := by
  rw [← (Published.of_run h).queued, h.installed_eq, ← updates_append]
  exact congrArg updates h.routingTrace.balance

/-! ## The session tasks -/

theorem Run.registered_of_pushes {ts : List Transition} {s : State} (h : Run ts s) {n : ℕ}
    (hpushes : pushes n ts ≠ []) : s.Registered n := by
  obtain ⟨packet,hpacket⟩ := List.exists_mem_of_ne_nil _ hpushes
  obtain ⟨t,ht,hmem⟩ := List.mem_flatMap.mp hpacket
  obtain ⟨ts₁,hrun,step,-⟩ := h.split_of_mem ht
  have hbefore : t.before.Registered n := by
    by_contra hn
    rw [hrun.unregistered step hn] at hmem
    cases hmem
  exact h.registered_later t ht (step.registered_of (Owned.of_run hrun).born hbefore)

theorem SessionGoesOn.takes {n : ℕ} {s s' : State} (h : SessionGoesOn n s s')
    (live : s'.session n ≠ .ended) : ∃ m, s.inbound n = m :: s'.inbound n := by
  cases h with
  | take running queued => exact ⟨_,by simpa using queued⟩
  | finished running empty unreferenced => exact absurd (by simp [State.setSession]) live

/-- What is pushed to a session task it takes to write. -/
theorem Recorded.fetches (h : Recorded r T) {n : ℕ} (session : Strong (SessionGoesOn n) r)
    (client : ClientGoesOn n r) (i : ℕ) :
    ∃ j, i ≤ j ∧ ((r j).session n = .ended ∨ pushes n (T i) <+: fetched n (T j)) := by
  have hpushes {j : ℕ} (hj : i ≤ j) : pushes n (T i) <+: pushes n (T j) := (h.grows hj).flatMap _
  obtain ⟨j,hj,hq⟩ : ∃ j, i ≤ j ∧ ((r j).session n = .ended ∨
      (pushes n (T i)).length ≤ (fetched n (T j)).length) := by
    refine session.counts (fun k hk => ?_)
      (fun j hj => ((h.grows (Nat.le_succ j)).flatMap _).length_le) (fun j hj live hmove => ?_)
    · obtain ⟨j,hj,hwaits⟩ := client k
      refine ⟨j,hj,or_iff_not_imp_left.mpr fun live => or_iff_not_imp_left.mpr fun hless => ?_⟩
      have hall := ((h.run j).delivered n).2 live
      have hqueue : (r j).inbound n ≠ [] := fun hnil => by
        rw [hnil, List.append_nil] at hall
        exact hless (hall ▸ (hpushes (hk.trans hj)).length_le)
      obtain ⟨packet,rest,hqueued⟩ := List.exists_cons_of_ne_nil hqueue
      have hpushed : pushes n (T j) ≠ [] := fun hnil => by
        rw [hnil] at hall
        exact hqueue (List.append_eq_nil_iff.mp hall).2
      obtain (running | writing) | hended := (h.run j).registered_of_pushes hpushed
      · exact ⟨_,.take running hqueued⟩
      · exact absurd (Or.inr (Or.inr writing)) hwaits
      · exact absurd hended live
    · obtain ⟨m,hm⟩ := hmove.takes live
      have htook : fetched n (T (j + 1)) = fetched n (T j) ++ [m] := h.took (fun s => s.inbound n) hm
      rw [htook, List.length_append]
      exact Nat.lt_succ_self _
  refine ⟨j,hj,or_iff_not_imp_left.mpr fun live => ?_⟩
  have hall := ((h.run j).delivered n).2 live
  exact List.prefix_of_prefix_length_le (hpushes hj) (hall ▸ List.prefix_append _ _)
    (hq.resolve_left live)

/-- What is pushed to a session task it writes: when it waits for its client no more, there is
nothing left in its hand. -/
theorem Recorded.written (h : Recorded r T) {n : ℕ} (session : Strong (SessionGoesOn n) r)
    (client : ClientGoesOn n r) (i : ℕ) :
    ∃ j, i ≤ j ∧ ((r j).session n = .ended ∨ pushes n (T i) <+: writes n (T j)) := by
  obtain ⟨j,hj,hfetched⟩ := h.fetches session client i
  obtain ⟨k,hk,hwaits⟩ := client j
  refine ⟨k,hj.trans hk,or_iff_not_imp_left.mpr fun live => ?_⟩
  have hlive : (r j).session n ≠ .ended := fun hended => live (h.course.ended hk hended)
  have ho := (h.run k).outgoing n
  have hwritten : writes n (T k) = fetched n (T k) := by
    have hall := ho.all live
    rwa [ho.inHand fun writing => hwaits (Or.inr (Or.inr writing)), Option.toList_none,
      List.append_nil] at hall
  have hgrows : fetched n (T j) <+: fetched n (T k) := (h.grows hk).flatMap _
  exact hwritten ▸ (hfetched.resolve_left hlive).trans hgrows

/-! ## A course that comes to rest -/

/-- Nobody has anything to do, and no client is waited for. -/
structure Idle (s : State) : Prop where
  controlTask : s.controlTask = .running
  accepting : s.acceptTask = .accepting
  control : s.control.queue = [] ∧ s.control.isOpen = true
  routing : s.routing.queue = [] ∧ s.routing.isOpen = true
  sessions : ∀ n, s.session n = .unborn ∨
    s.session n = .running ∧ s.inbound n = [] ∧ State.TableHandles s.controlState.rtbl n

theorem Idle.fair {s : State} {m : ℕ} (h : Idle s) (hlast : ∀ i, m ≤ i → r i = s) : Fair r where
  control := .of_final hlast fun s' hs => by
    have closed : ¬ (s.control.isOpen = false ∨ ¬ s.HasClients) := by
      simp [h.control.2, State.HasClients, h.accepting]
    cases hs with
    | handles running queued _ | panics running queued _ => cases h.control.1.symm.trans queued
    | stops _ _ hclosed _ | stopPanics _ _ hclosed _ => exact closed hclosed
  routing := .of_final hlast fun s' hs => by
    cases hs with
    | handles running queued _ | panics running queued _ => cases h.routing.1.symm.trans queued
    | stops running drained closed => simp [h.routing.2, h.controlTask] at closed
  accept := .of_final hlast fun s' hs => by
    cases hs with
    | joined joining _ => cases h.accepting.symm.trans joining
  session n := .of_final hlast fun s' hs => by
    cases hs with
    | take running queued =>
        obtain hunborn | ⟨-,empty,-⟩ := h.sessions n
        · cases hunborn.symm.trans running
        · cases empty.symm.trans queued
    | finished running empty unreferenced =>
        obtain hunborn | ⟨-,-,handles⟩ := h.sessions n
        · cases hunborn.symm.trans running
        · exact unreferenced (Or.inl ⟨h.controlTask,Or.inr (Or.inl handles)⟩)

theorem Idle.client {s : State} (h : Idle s) (n : ℕ) : ¬ (s.session n).WaitsForClient := by
  obtain hs | ⟨hs,-⟩ := h.sessions n <;> simp [SessionTask.WaitsForClient, hs]

/-- Two clients ask to be authenticated and are, the first speaks, and it is written to the
second. -/
theorem run_idle : ∃ asked authenticated heard s, Run (asked ++ authenticated ++ heard) s ∧
    Idle s ∧ s.spawned = 2 ∧ (told asked).length = 4 ∧ processed asked = [] ∧
    .voice (sessionId 0) (.audio 0 () 7 (.opus [1] true) none) ∈ posted (asked ++ authenticated) ∧
    received (asked ++ authenticated) = [] := by
  have h := Run.nil.snoc (Step.connect rfl)
  have h := h.snoc (Step.connect rfl)
  have h := h.snoc (Step.greeted (n := 0) rfl)
  have h := h.snoc (Step.greeted (n := 1) rfl)
  have h := h.snoc (Step.registered (n := 0) [] rfl rfl)
  have h := h.snoc (Step.registered (n := 1) [] rfl rfl)
  have h := h.snoc (Step.packet (n := 0) (.message .authenticate []) trivial rfl)
  have h := h.snoc (Step.packet (n := 1) (.message .authenticate []) trivial rfl)
  have h := h.halt.more (Step.control rfl rfl rfl)
  have h := h.more (Step.control rfl rfl rfl)
  have h := h.more (Step.control rfl rfl rfl)
  have h := h.more (Step.control rfl rfl rfl)
  have h := h.more (Step.voice (n := 0) (.audio 0 () 7 (.opus [1] true) none) rfl)
  have h := h.halt.more (Step.routing rfl rfl rfl)
  have h := h.more (Step.routing rfl rfl rfl)
  have h := h.more (Step.routing rfl rfl rfl)
  have h := h.more (Step.take (n := 1) rfl rfl)
  have h := h.more (Step.written (n := 1) rfl)
  refine ⟨_,_,_,_,h,⟨rfl,rfl,⟨rfl,rfl⟩,⟨rfl,rfl⟩,fun n => ?_⟩,rfl,rfl,rfl,?_,rfl⟩
  · match n with
    | 0 => exact Or.inr ⟨rfl,rfl,sessionId 0,_,rfl,rfl⟩
    | 1 => exact Or.inr ⟨rfl,rfl,sessionId 1,_,rfl,rfl⟩
    | n + 2 => exact Or.inl rfl
  · exact List.mem_of_getElem? (i := 2) rfl

/-- A run is the beginning of a course in which nothing happens afterwards. -/
theorem Run.recorded {ts : List Transition} {s : State} (h : Run ts s) :
    ∃ r T n, Recorded r T ∧ (∀ i, n ≤ i → r i = s) ∧
      ∀ ts₁, ts₁ <+: ts → ∃ i, i ≤ n ∧ T i = ts₁ := by
  have hcourse : ∃ p n, Fairness.Course (State.init,[]) Records p ∧
      (∀ i, n ≤ i → p i = (s,ts)) ∧ ∀ ts₁, ts₁ <+: ts → ∃ i, i ≤ n ∧ (p i).2 = ts₁ := by
    induction h with
    | nil =>
        refine ⟨_,0,Fairness.Course.rest _ _,fun _ _ => rfl,fun ts₁ hts => ⟨0,le_rfl,?_⟩⟩
        exact (List.prefix_nil.mp hts).symm
    | @snoc ts s s' events run step ih =>
        obtain ⟨p,n,hp,hlast,hpast⟩ := ih
        have hmove : Records (s,ts) (s',ts ++ [⟨s,events,s'⟩]) := ⟨events,step,rfl⟩
        obtain ⟨p',hp',hlast',hsame⟩ := hp.extend hlast hmove
        refine ⟨p',n + 1,hp',hlast',fun ts₁ hts => ?_⟩
        rcases List.prefix_concat_iff.mp hts with rfl | hts
        · exact ⟨n + 1,le_rfl,congrArg Prod.snd (hlast' _ le_rfl)⟩
        · obtain ⟨i,hi,hT⟩ := hpast ts₁ hts
          exact ⟨i,by omega,(congrArg Prod.snd (hsame i hi)).trans hT⟩
  obtain ⟨p,n,hp,hlast,hpast⟩ := hcourse
  exact ⟨fun i => (p i).1,fun i => (p i).2,n,hp,fun i hi => congrArg Prod.fst (hlast i hi),hpast⟩

theorem course_idle : ∃ r T i j, Recorded r T ∧ Fair r ∧ (∀ n, ClientGoesOn n r) ∧
    (∀ i, (r i).spawned ≤ 2 ^ 32) ∧ (told (T i)).length = 4 ∧ processed (T i) = [] ∧
    .voice (sessionId 0) (.audio 0 () 7 (.opus [1] true) none) ∈ posted (T j) ∧
    received (T j) = [] := by
  obtain ⟨asked,authenticated,heard,s,hrun,hidle,hspawned,htold,hprocessed,hposted,hreceived⟩ :=
    run_idle
  obtain ⟨r,T,n,h,hlast,hpast⟩ := hrun.recorded
  obtain ⟨j,-,hj⟩ := hpast (asked ++ authenticated) (List.prefix_append _ _)
  obtain ⟨i,-,hi⟩ := hpast asked ((List.prefix_append _ _).trans (List.prefix_append _ _))
  refine ⟨r,T,i,j,h,hidle.fair hlast,fun n => .of_last hlast (hidle.client n),fun k => ?_,?_⟩
  · have hmost := h.spawned_le (le_max_left k n)
    rw [hlast _ (le_max_right k n), hspawned] at hmost
    exact hmost.trans (by decide)
  · rw [hi, hj]
    exact ⟨htold,hprocessed,hposted,hreceived⟩

/-! ## Every course -/

/-- What was handed to the routing task up to a step it takes in the end, if it is not gone; and
all that the others said up to then, while a session was there, is written to its client in
the end, if its task has not ended. This takes a client that does not keep its task waiting. -/
theorem everything_arrives (h : Recorded r T) (routing : Weak RoutingGoesOn r) {n : ℕ}
    (session : Strong (SessionGoesOn n) r) (client : ClientGoesOn n r)
    (hspawned : ∀ i, (r i).spawned ≤ 2 ^ 32) (hn : n < 2 ^ 32) (i : ℕ) :
    ∃ j k, i ≤ j ∧ j ≤ k ∧ ((r j).routingTask ≠ .running ∨ posted (T i) <+: received (T j)) ∧
      ((r k).session n = .ended ∨ Conference.attended (sessionId n) false (labels (T j)) <+:
        (writes n (T k)).filterMap audioBy) := by
  obtain ⟨j,hj,hreceived⟩ := h.receives routing i
  obtain ⟨k,hk,hwritten⟩ := h.written session client j
  refine ⟨j,k,hj,hk,hreceived,hwritten.imp_right fun hwritten => ?_⟩
  have hrun := h.run j
  rw [← hrun.conference_run.hears_eq, ← hrun.hears (fun _ ht => ht) (hspawned j) hn]
  exact hwritten.filterMap _

/-- From when the voice was handed to the routing task. -/
theorem everything_arrives_pair : ∃ r T i, Recorded r T ∧
    .voice (sessionId 0) (.audio 0 () 7 (.opus [1] true) none) ∈ posted (T i) ∧
    received (T i) = [] ∧
    ∃ j k, i ≤ j ∧ j ≤ k ∧ ((r j).routingTask ≠ .running ∨ posted (T i) <+: received (T j)) ∧
      ((r k).session 1 = .ended ∨ Conference.attended (sessionId 1) false (labels (T j)) <+:
        (writes 1 (T k)).filterMap audioBy) := by
  obtain ⟨r,T,-,i,h,fair,clients,hspawned,-,-,hposted,hreceived⟩ := course_idle
  exact ⟨r,T,i,h,hposted,hreceived,
    everything_arrives h fair.routing (fair.session 1) (clients 1) hspawned (by decide) i⟩

/-- What the control task was told up to a step it processes in the end, if it is not gone, and
the tables it had up to then the routing task installs in the end, if that is not gone; whatever
the other tasks and the clients do. -/
theorem tables_follow (h : Recorded r T) (control : Weak ControlGoesOn r)
    (routing : Weak RoutingGoesOn r) (i : ℕ) :
    ∃ j k, i ≤ j ∧ j ≤ k ∧ ((r j).controlTask ≠ .running ∨ told (T i) <+: processed (T j)) ∧
      ((r k).routingTask ≠ .running ∨ changes (T j) <+: installed (T k)) := by
  obtain ⟨j,hj,hprocessed⟩ := h.processes control i
  obtain ⟨k,hk,hreceived⟩ := h.receives routing j
  refine ⟨j,k,hj,hk,hprocessed,hreceived.imp_right fun hreceived => ?_⟩
  rw [(h.run j).changes_eq, (h.run k).installed_eq]
  exact hreceived.filterMap _

/-- From when both clients have asked to be authenticated. -/
theorem tables_follow_pair : ∃ r T i, Recorded r T ∧ (told (T i)).length = 4 ∧
    processed (T i) = [] ∧
    ∃ j k, i ≤ j ∧ j ≤ k ∧ ((r j).controlTask ≠ .running ∨ told (T i) <+: processed (T j)) ∧
      ((r k).routingTask ≠ .running ∨ changes (T j) <+: installed (T k)) := by
  obtain ⟨r,T,i,-,h,fair,-,-,htold,hprocessed,-⟩ := course_idle
  exact ⟨r,T,i,h,htold,hprocessed,tables_follow h fair.control fair.routing i⟩

end Atof.Server
