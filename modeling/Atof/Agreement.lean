import Atof.Server

/-!
# The two routing tables

The control task changes its table and publishes it; the routing task installs what
was published. What was installed so far and what is still queued are together the
values the control task's table took, in order, so the routing task is behind by
exactly the queued updates.
-/
namespace Atof.Server
open Rust Voice Control

/-- The values of the control task's table after each change. -/
def changes (ts : List Transition) : List RoutingTable :=
  (ts.filter fun t => t.after.controlState.rtbl ≠ t.before.controlState.rtbl).map
    fun t => t.after.controlState.rtbl

def Event.installs : Event → Option RoutingTable
  | .install rtbl => some rtbl
  | _ => none

/-- The tables the routing task installed. -/
def installed (ts : List Transition) : List RoutingTable :=
  ts.flatMap fun t => t.events.filterMap Event.installs

/-- What a step does to the tables and the updates between them. -/
inductive Publication (s : State) (events : List Event) (s' : State) : Prop
  | quiet (control : s'.controlState.rtbl = s.controlState.rtbl)
      (routing : s'.routingTable = s.routingTable)
      (queue : updates s'.routing.queue = updates s.routing.queue)
      (none : events.filterMap Event.installs = [])
  | change (control : s'.controlState.rtbl ≠ s.controlState.rtbl)
      (routing : s'.routingTable = s.routingTable)
      (queue : updates s'.routing.queue = updates s.routing.queue ++ [s'.controlState.rtbl])
      (none : events.filterMap Event.installs = [])
  | install (control : s'.controlState.rtbl = s.controlState.rtbl)
      (queue : updates s.routing.queue = s'.routingTable :: updates s'.routing.queue)
      (one : events.filterMap Event.installs = [s'.routingTable])

/-- A voice or text message on its way is no update. -/
theorem updates_offer (routing : Channel RoutingMessage) {message : RoutingMessage}
    (h : updates [message] = []) :
    updates (routing.offer message).queue = updates routing.queue := by
  rcases routing.offer_cases message with he | ⟨-,he⟩
  · rw [he]
  · rw [he, updates_append, h, List.append_nil]

theorem updates_expectSend {routing routing' : Channel RoutingMessage} {message : RoutingMessage}
    (hs : routing.expectSend message = .ok routing') (h : updates [message] = []) :
    updates routing'.queue = updates routing.queue := by
  obtain ⟨-,rfl⟩ := Channel.expectSend_eq_ok hs
  rw [updates_append, h, List.append_nil]

/-- Only an update is installed. -/
theorem installs_routingEvents (message : RoutingMessage) (ds : List Delivery) :
    (routingEvents message ds).filterMap Event.installs = updates [message] := by
  cases message with
  | voice origin _ | text origin _ => simp [routingEvents, Event.installs, updates]
  | update rtbl => rfl
  | shutdown => rfl

theorem Step.publication {s s' : State} {events : List Event} (h : Step s events s') :
    Publication s events s' := by
  cases h with
  | voice _ _ | text _ _ => exact .quiet rfl rfl (updates_offer _ rfl) rfl
  | control running queued handled =>
      cases handleControl_publishes handled with
      | quiet same => exact .quiet same rfl rfl rfl
      | update changed isOpen =>
          exact .change changed rfl (by simp [updates]) rfl
  | controlStops running drained closed sent =>
      exact .quiet rfl rfl (updates_expectSend sent rfl) rfl
  | @routing message rest ds routingTable routing running queued handled =>
      obtain ⟨htable,hqueue,-⟩ := handleRouting_table (congrArg Prod.snd handled)
      obtain ⟨inbound,he⟩ := State.deliverAll_eq { s with routingTable, routing } ds
      have hq : updates s.routing.queue = updates [message] ++ updates routing.queue := by
        rw [queued, hqueue, ← updates_append]
        rfl
      rw [he]
      have hi := installs_routingEvents message ds
      cases message with
      | update rtbl =>
          cases htable
          exact .install rfl hq hi
      | voice _ _ | text _ _ | shutdown => exact .quiet rfl htable hq.symm hi
  | @routingPanics message rest ds panic running queued failed =>
      obtain ⟨inbound,he⟩ := s.deliverAll_eq ds
      rw [he]
      have hi := installs_routingEvents message ds
      cases message with
      | update rtbl => cases congrArg Prod.snd failed
      | voice _ _ | text _ _ | shutdown => exact .quiet rfl rfl rfl hi
  | _ => exact .quiet rfl rfl rfl rfl

/-- The tables of a state are the last ones of a history. -/
structure Published (s : State) (history past : List RoutingTable) : Prop where
  queued : past ++ updates s.routing.queue = history
  control : s.controlState.rtbl = history.getLast?.getD ∅
  routing : s.routingTable = past.getLast?.getD ∅

theorem Published.step {s s' : State} {events : List Event} {history past : List RoutingTable}
    (h : Published s history past) (hs : Step s events s') :
    Published s'
      (history ++ if s'.controlState.rtbl ≠ s.controlState.rtbl then [s'.controlState.rtbl] else [])
      (past ++ events.filterMap Event.installs) := by
  cases hs.publication with
  | quiet control routing queue none =>
      rw [if_neg (not_not.mpr control), none, List.append_nil, List.append_nil]
      exact ⟨by rw [queue, h.queued],control.trans h.control,routing.trans h.routing⟩
  | change control routing queue none =>
      rw [if_pos control, none, List.append_nil]
      refine ⟨?_,by simp,routing.trans h.routing⟩
      rw [queue, ← List.append_assoc, h.queued]
  | install control queue one =>
      rw [if_neg (not_not.mpr control), one, List.append_nil]
      refine ⟨?_,control.trans h.control,by simp⟩
      rw [List.append_assoc, List.singleton_append, ← queue, h.queued]

theorem Published.of_run {ts : List Transition} {s : State} (h : Run ts s) :
    Published s (changes ts) (installed ts) := by
  induction h with
  | nil => exact ⟨rfl,rfl,rfl⟩
  | @snoc ts s s' events run step ih =>
      have hstep := ih.step step
      have hc : changes (ts ++ [⟨s,events,s'⟩]) = changes ts ++
          if s'.controlState.rtbl ≠ s.controlState.rtbl then [s'.controlState.rtbl] else [] := by
        rw [changes, List.filter_append, List.map_append]
        congr 1
        by_cases hne : s'.controlState.rtbl = s.controlState.rtbl <;> simp [hne]
      have hi : installed (ts ++ [⟨s,events,s'⟩]) =
          installed ts ++ events.filterMap Event.installs := by
        simp [installed]
      rwa [hc, hi]

/-- What holds of the control task's table all the time holds of the tables published. -/
theorem Run.tables {P : RoutingTable → Prop} {ts : List Transition} {s : State} (h : Run ts s)
    (empty : P ∅) (control : ∀ t ∈ ts, P t.after.controlState.rtbl) :
    P s.routingTable ∧ ∀ rtbl ∈ updates s.routing.queue, P rtbl := by
  have hp := Published.of_run h
  have hchanges : ∀ rtbl ∈ changes ts, P rtbl := by
    intro rtbl hm
    obtain ⟨t,ht,rfl⟩ := List.mem_map.mp hm
    exact control t (List.mem_of_mem_filter ht)
  have hpast : ∀ rtbl ∈ installed ts, P rtbl := fun rtbl hm =>
    hchanges rtbl (hp.queued ▸ List.mem_append_left _ hm)
  refine ⟨?_,fun rtbl hm => hchanges rtbl (hp.queued ▸ List.mem_append_right _ hm)⟩
  rw [hp.routing]
  cases hlast : (installed ts).getLast? with
  | none => exact empty
  | some rtbl => exact hpast rtbl (List.mem_of_getLast? hlast)

/-- The control task's table is the last update on its way, or else the table the
routing task has; and the tables installed, followed by those on their way, are the
changes of the control task's table. -/
theorem tables_agree {ts : List Transition} {s : State} (h : Run ts s) :
    s.controlState.rtbl = (updates s.routing.queue).getLast?.getD s.routingTable ∧
      installed ts ++ updates s.routing.queue = changes ts := by
  have hp := Published.of_run h
  refine ⟨?_,hp.queued⟩
  rw [hp.control, ← hp.queued, hp.routing, List.getLast?_append]
  cases (updates s.routing.queue).getLast? <;> rfl

/-- The first client has authenticated, and its update is on its way. -/
theorem tables_agree_authenticated : ∃ ts s, Run ts s ∧
    s.controlState.rtbl.holdsSession 0 = true ∧ s.routingTable.holdsSession 0 = false ∧
    s.controlState.rtbl = (updates s.routing.queue).getLast?.getD s.routingTable ∧
    installed ts ++ updates s.routing.queue = changes ts := by
  have h := Run.nil.snoc (Step.connect rfl)
  have h := h.snoc (Step.greeted (n := 0) rfl)
  have h := h.snoc (Step.registered (n := 0) [] rfl rfl)
  have h := h.snoc (Step.packet (n := 0) (.message .authenticate []) trivial rfl)
  have h := h.snoc (Step.control rfl rfl rfl)
  have h := h.snoc (Step.control rfl rfl rfl)
  exact ⟨_,_,h,rfl,rfl,tables_agree h⟩

end Atof.Server
