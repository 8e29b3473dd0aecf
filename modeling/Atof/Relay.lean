import Atof.Memberships
import Atof.Traffic
import Mathlib.Data.List.TakeWhile

/-!
# Who makes peers receive something

Audio is relayed to the room of the session it came from, so a session the routing
table does not hold reaches nobody. A text message names its recipients, and the
routing task looks these up without looking at the session the message came from.
Rooms are looked up one after another, and the first that does not exist is the end.
-/
namespace Atof.Server
open Rust Voice Control

/-- Whatever a transition pushes comes from a session the routing table holds. -/
def OriginsHeld (t : Transition) : Prop :=
  ∀ origin d, .push origin d ∈ t.events → t.before.routingTable.holdsSession origin = true

/-- A session is named by its id or as a member of a room; what is named after a room that does
not exist is not looked at. -/
def Names (t : RoutingTable) (message : TextMessage) (id : SessionID) : Prop :=
  id ∈ message.session ∨ ∃ roomId ∈ message.channelId.takeWhile (· ∈ t.rooms),
    RoutingTable.IsMember t.rooms roomId id

/-- A text message that a transition dequeues comes from a session the routing table
holds, unless that holds none of the sessions that the message names. -/
def TextsHeld (t : Transition) : Prop :=
  ∀ sessionId message, .dequeue (.text sessionId message) ∈ t.events →
    t.before.routingTable.holdsSession sessionId = true ∨
      ∀ id, Names t.before.routingTable message id → t.before.routingTable.holdsSession id = false

/-! ## Recipients -/

/-- The recipients in the rooms up to one that does not exist, which is a panic. -/
theorem channelSenders_eq (t : RoutingTable) (rooms : List RoomID) : channelSenders t rooms =
    ((rooms.takeWhile (· ∈ t.rooms)).flatMap fun roomId => (t.members roomId).filterMap t.sender,
      if ∀ roomId ∈ rooms, roomId ∈ t.rooms then .ok () else .error .explicit) := by
  induction rooms with
  | nil => simp [channelSenders]
  | cons roomId rooms ih =>
      cases hr : t.rooms.lookup roomId with
      | none =>
          have hmissing : roomId ∉ t.rooms := AList.lookup_eq_none.mp hr
          simp [channelSenders, RoutingTable.roomSenders, hr, hmissing]
      | some room =>
          have hexists : roomId ∈ t.rooms := AList.lookup_isSome.mp (by rw [hr]; rfl)
          simp [channelSenders, RoutingTable.roomSenders, RoutingTable.members, hr, hexists, ih]

theorem sender_eq_none {t : RoutingTable} {id : SessionID} :
    t.sender id = none ↔ t.holdsSession id = false := by
  rw [RoutingTable.sender, Option.map_eq_none_iff, ← Bool.not_eq_true, RoutingTable.holdsSession_iff]
  cases t.sessions.lookup id <;> simp

/-- A text message has no recipients exactly if nobody that it names is held. -/
theorem textSenders_eq_nil {t : RoutingTable} {message : TextMessage} :
    (textSenders t message).1 = [] ↔ ∀ id, Names t message id → t.holdsSession id = false := by
  simp only [textSenders, channelSenders_eq, List.append_eq_nil_iff, List.flatMap_eq_nil_iff,
    List.filterMap_eq_nil_iff, sender_eq_none]
  constructor
  · rintro ⟨hsessions,hrooms⟩ id (hid | ⟨roomId,hroom,hmember⟩)
    · exact hsessions id hid
    · exact hrooms roomId hroom id (RoutingTable.isMember_iff_mem_members.mp hmember)
  · intro h
    refine ⟨fun id hid => h id (Or.inl hid),fun roomId hroom id hid => h id (Or.inr ?_)⟩
    exact ⟨roomId,hroom,RoutingTable.isMember_iff_mem_members.mpr hid⟩

/-! ## One step -/

/-- Audio is pushed for held sessions only. -/
theorem handleRouting_voice {sessionId : SessionID} {packet : VoicePacket .serverbound}
    {rtbl : RoutingTable} {routing : Channel RoutingMessage} {d : Delivery}
    (h : d ∈ (handleRouting (.voice sessionId packet) rtbl routing).1) :
    rtbl.holdsSession sessionId = true := by
  match packet with
  | .ping _ => simp [handleRouting] at h
  | .audio target _ _ _ _ =>
      simp only [handleRouting] at h
      split at h
      · simp at h
      · simp at h
      · next hs => exact RoutingTable.targetSenders_held hs

theorem mem_push {message : RoutingMessage} {ds : List Delivery} {origin : SessionID}
    {d : Delivery} (h : .push origin d ∈ routingEvents message ds) : d ∈ ds ∧
      ((∃ packet, message = .voice origin packet) ∨ ∃ text, message = .text origin text) := by
  cases message with
  | voice id packet =>
      simp only [routingEvents, List.mem_cons, reduceCtorEq, List.mem_map, Event.push.injEq,
        false_or] at h
      obtain ⟨d',hd,rfl,rfl⟩ := h
      exact ⟨hd,Or.inl ⟨packet,rfl⟩⟩
  | text id text =>
      simp only [routingEvents, List.mem_cons, reduceCtorEq, List.mem_map, Event.push.injEq,
        false_or] at h
      obtain ⟨d',hd,rfl,rfl⟩ := h
      exact ⟨hd,Or.inr ⟨text,rfl⟩⟩
  | update _ => simp [routingEvents] at h
  | shutdown => simp [routingEvents] at h

theorem mem_dequeue {message message' : RoutingMessage} {ds : List Delivery}
    (h : .dequeue message' ∈ routingEvents message ds) : message' = message := by
  cases message <;> simpa [routingEvents] using h

/-- For one step the two conditions say the same. -/
theorem Step.originsHeld_iff {s s' : State} {events : List Event} (h : Step s events s') :
    OriginsHeld ⟨s,events,s'⟩ ↔ TextsHeld ⟨s,events,s'⟩ := by
  obtain rfl | ⟨message,rest,-,rfl⟩ := h.dequeues
  · exact iff_of_true (fun _ _ hm => absurd hm (by simp)) fun _ _ hm => absurd hm (by simp)
  constructor
  · intro horigins id text hm
    obtain rfl := mem_dequeue hm
    cases hs : (textSenders s.routingTable (text.setActor id)).1 with
    | nil => exact Or.inr (textSenders_eq_nil.mp hs)
    | cons sender senders =>
        refine Or.inl (horigins id ⟨sender,.textMessage (text.setActor id)⟩ ?_)
        simp [routingEvents, handleRouting, hs]
  · intro htexts origin d hm
    obtain ⟨hd,⟨packet,rfl⟩ | ⟨text,rfl⟩⟩ := mem_push hm
    · exact handleRouting_voice hd
    · rcases htexts origin text (by simp [routingEvents]) with hheld | hnone
      · exact hheld
      · have hnil : (textSenders s.routingTable (text.setActor origin)).1 = [] :=
          textSenders_eq_nil.mpr hnone
        simp only [handleRouting, hnil] at hd
        cases hd

theorem Run.step {ts : List Transition} {s : State} (h : Run ts s) :
    ∀ t ∈ ts, Step t.before t.events t.after := by
  intro t ht
  obtain ⟨ts₁,-,step,-⟩ := h.split_of_mem ht
  exact step

/-- In every run, what is pushed comes from held sessions exactly if every text
message dequeued does or names nobody who is held. -/
theorem origins_held_iff {ts : List Transition} {s : State} (h : Run ts s) :
    (∀ t ∈ ts, OriginsHeld t) ↔ ∀ t ∈ ts, TextsHeld t :=
  forall₂_congr fun t ht => (h.step t ht).originsHeld_iff

/-- A message to the first session. -/
def toFirst : TextMessage := ⟨none,[0],[],[],"",[]⟩

/-- The first client authenticates and sends itself a message, which it gets. -/
theorem origins_held_iff_toFirst : ∃ ts s, Run ts s ∧ s.inbound 0 ≠ [] ∧
    ((∀ t ∈ ts, OriginsHeld t) ↔ ∀ t ∈ ts, TextsHeld t) := by
  have h := Run.nil.snoc (Step.connect rfl)
  have h := h.snoc (Step.greeted (n := 0) rfl)
  have h := h.snoc (Step.registered (n := 0) [] rfl rfl)
  have h := h.snoc (Step.packet (n := 0) (.message .authenticate []) trivial rfl)
  have h := h.snoc (Step.text (n := 0) toFirst rfl)
  have h := h.snoc (Step.control rfl rfl rfl)
  have h := h.snoc (Step.control rfl rfl rfl)
  have h := h.snoc (Step.routing rfl rfl rfl)
  have h := h.snoc (Step.text (n := 0) toFirst rfl)
  have h := h.snoc (Step.routing rfl rfl rfl)
  have h := h.snoc (Step.routing rfl rfl rfl)
  exact ⟨_,_,h,List.cons_ne_nil _ _,origins_held_iff h⟩

/-- The first client authenticates, and the second, which has only registered, sends
it a message; the message is on its way. -/
theorem run_toFirst : ∃ ts s, Run ts s ∧ s.routingTask = .running ∧
    s.routing.queue = [.text 1 toFirst] ∧ s.routingTable.holdsSession 1 = false ∧
    s.routingTable.sender 0 = some ⟨0⟩ := by
  have h := Run.nil.snoc (Step.connect rfl)
  have h := h.snoc (Step.greeted (n := 0) rfl)
  have h := h.snoc (Step.registered (n := 0) [] rfl rfl)
  have h := h.snoc (Step.packet (n := 0) (.message .authenticate []) trivial rfl)
  have h := h.snoc (Step.control rfl rfl rfl)
  have h := h.snoc (Step.control rfl rfl rfl)
  have h := h.snoc (Step.routing rfl rfl rfl)
  have h := h.snoc (Step.connect rfl)
  have h := h.snoc (Step.greeted (n := 1) rfl)
  have h := h.snoc (Step.registered (n := 1) [] rfl rfl)
  have h := h.snoc (Step.text (n := 1) toFirst rfl)
  exact ⟨_,_,h,rfl,rfl,rfl,rfl⟩

/-- With the next step the second session's message reaches the first. -/
theorem origins_unheld : ¬ ∀ ts s, Run ts s → ∀ t ∈ ts, OriginsHeld t := by
  intro hall
  obtain ⟨ts,s,h,hrun,hq,hheld,hsender⟩ := run_toFirst
  have handled : handleRouting (.text 1 toFirst) s.routingTable { s.routing with queue := [] } =
      ([⟨⟨0⟩,.textMessage (toFirst.setActor 1)⟩],
        .ok (s.routingTable,{ s.routing with queue := [] })) := by
    simp only [handleRouting, textSenders, toFirst, TextMessage.setActor, channelSenders,
      List.filterMap_cons, hsender, List.filterMap_nil]
    rfl
  have hs' := Step.routing hrun hq handled
  have horigins := hall _ _ (h.snoc hs') _ (List.mem_append_right _ (List.mem_singleton_self _))
  have hone := horigins 1 _ (List.mem_cons_of_mem _ (List.mem_singleton_self _))
  rw [hheld] at hone
  cases hone

end Atof.Server
