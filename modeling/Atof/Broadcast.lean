import Atof.Conference
import Atof.Delivery
import Atof.Recipients

/-!
# The server holds a conference

Who is in the routing task's table is in the conference. The table changes by one session at a
time, since it takes the values of the control task's table one after another. Nothing moves a
session out of the default room, so audio goes to all others who are there, and text messages
go to some who are there. A run of the server is a run of a conference, in which what it
relays to one session is what the others say while it is there.
-/
namespace Atof.Server
open Rust Voice Control

abbrev Label := Conference.Label SessionID (ControlPacket .clientbound)

namespace RoutingTable

/-- Who is there. -/
def attendants (t : RoutingTable) : Set SessionID := {id | t.holdsSession id = true}

/-- Whom one of the tables holds and the other does not. -/
def difference (t t' : RoutingTable) : Option Label :=
  match t'.sessions.keys.find? fun id => !t.holdsSession id with
  | some id => some (.joins id)
  | none => (t.sessions.keys.find? fun id => !t'.holdsSession id).map .leaves

/-- One session more or less. -/
inductive Changes (t t' : RoutingTable) : Prop
  | enrolled {id : SessionID} (outside : t.holdsSession id = false)
      (room : t'.room = Function.update t.room id (some 0))
  | expelled {id : SessionID} (inside : t.holdsSession id = true)
      (room : t'.room = Function.update t.room id none)

/-- Everyone is in the default room. -/
def Lobby (t : RoutingTable) : Prop := ∀ id roomId, t.room id = some roomId → roomId = 0

end RoutingTable

/-- The session whose queue is pushed to. -/
def Event.recipient : Event → Option SessionID
  | .push _ d => some (sessionId d.recipient.queue)
  | _ => none

/-- What happens in the conference. -/
def Transition.label (t : Transition) : Option Label :=
  match t.events with
  | .dequeue (.voice id (.audio target _ seqNum payload positionInfo)) :: pushed =>
      if target = 0 ∧ t.before.routingTable.holdsSession id = true then
        some (.speaks id (.udpTunnel (.audio target id seqNum payload positionInfo))
          (pushed.filterMap Event.recipient))
      else none
  | .dequeue (.text id message) :: pushed =>
      some (.tells (.textMessage (message.setActor id)) (pushed.filterMap Event.recipient))
  | .dequeue (.update rtbl) :: _ => t.before.routingTable.difference rtbl
  | _ => none

def labels (ts : List Transition) : List Label := ts.filterMap Transition.label

/-! ## Coming and going -/

namespace RoutingTable

theorem mem_attendants {t : RoutingTable} {id : SessionID} : id ∈ t.attendants ↔ t.room id ≠ none := by
  rw [ne_eq, room_eq_none, Bool.not_eq_false]
  exact Iff.rfl

theorem mem_keys_sessions {t : RoutingTable} {id : SessionID} :
    id ∈ t.sessions.keys ↔ t.holdsSession id = true := by
  rw [holdsSession, decide_eq_true_iff, AList.mem_keys]

theorem Changes.step {t t' : RoutingTable} (h : t.Changes t') :
    ∃ l, t.difference t' = some l ∧ Conference.Step t.attendants l t'.attendants := by
  cases h with
  | @enrolled id outside room =>
      have hafter (id' : SessionID) : id' ∈ t'.attendants ↔ id' = id ∨ id' ∈ t.attendants := by
        rw [mem_attendants, mem_attendants, room]
        by_cases hid : id' = id <;> simp [hid]
      have hnew : id ∉ t.attendants := by simp [attendants, outside]
      refine ⟨.joins id,?_,?_⟩
      · unfold difference
        split
        · next id' hfind =>
            have hmem := (hafter id').mp (mem_keys_sessions.mp (List.mem_of_find?_eq_some hfind))
            have hout : id' ∉ t.attendants := by
              simpa [attendants] using List.find?_some hfind
            rw [hmem.resolve_right hout]
        · next hnone =>
            have hmem : id ∈ t'.sessions.keys := mem_keys_sessions.mpr ((hafter id).mpr (Or.inl rfl))
            simpa [outside] using List.find?_eq_none.mp hnone id hmem
      · rw [show t'.attendants = insert id t.attendants from Set.ext hafter]
        exact .joins hnew
  | @expelled id inside room =>
      have hafter (id' : SessionID) : id' ∈ t'.attendants ↔ id' ∈ t.attendants ∧ id' ≠ id := by
        rw [mem_attendants, mem_attendants, room]
        by_cases hid : id' = id <;> simp [hid]
      refine ⟨.leaves id,?_,?_⟩
      · unfold difference
        split
        · next id' hfind =>
            have hmem := (hafter id').mp (mem_keys_sessions.mp (List.mem_of_find?_eq_some hfind))
            have hout : id' ∉ t.attendants := by
              simpa [attendants] using List.find?_some hfind
            exact absurd hmem.1 hout
        · cases hfind : t.sessions.keys.find? fun id => !t'.holdsSession id with
          | none =>
              have hgone : t'.holdsSession id = true := by
                simpa using List.find?_eq_none.mp hfind id (mem_keys_sessions.mpr inside)
              exact absurd rfl ((hafter id).mp hgone).2
          | some id' =>
              have hin : id' ∈ t.attendants := mem_keys_sessions.mp (List.mem_of_find?_eq_some hfind)
              have hout : id' ∉ t'.attendants := by
                simpa [attendants] using List.find?_some hfind
              rw [not_ne_iff.mp fun hne => hout ((hafter id').mpr ⟨hin,hne⟩)]
              rfl
      · rw [show t'.attendants = t.attendants \ {id} from Set.ext hafter]
        exact .leaves inside

theorem Changes.lobby {t t' : RoutingTable} (h : t.Changes t') (hl : t.Lobby) : t'.Lobby := by
  intro id' roomId hroom
  cases h with
  | @enrolled id outside room =>
      rw [room] at hroom
      by_cases hid : id' = id
      · rw [hid, Function.update_self] at hroom
        exact (Option.some.inj hroom).symm
      · rw [Function.update_of_ne hid] at hroom
        exact hl id' roomId hroom
  | @expelled id inside room =>
      rw [room] at hroom
      by_cases hid : id' = id
      · rw [hid, Function.update_self] at hroom
        cases hroom
      · rw [Function.update_of_ne hid] at hroom
        exact hl id' roomId hroom

end RoutingTable

theorem handleControl_changes {message : ControlMessage} {c c' : ControlState}
    {control control' : Channel ControlMessage} {routing routing' : Channel RoutingMessage}
    (h : handleControl message c control routing = .ok (c',control',routing'))
    (hc : c.rtbl.Consistent) : c'.rtbl = c.rtbl ∨ c.rtbl.Changes c'.rtbl := by
  cases handleControl_handled h with
  | enrolled unheld waiting authenticates isOpen =>
      exact Or.inr (.enrolled unheld (RoutingTable.enrollSession_consistent hc _ _ unheld).2)
  | @expelled id rtbl absent returned isOpen =>
      obtain ⟨-,hrefused⟩ | ⟨t',hreturned,-,hroom⟩ := RoutingTable.expelSession_consistent hc id
      · rw [hrefused] at returned
        cases returned
      · rw [hreturned] at returned
        cases returned
        rcases RoutingTable.expelSession_spec hreturned with ⟨hr,-⟩ | ⟨-,inside,-⟩
        · cases hr
        · exact Or.inr (.expelled inside hroom)
  | _ => exact Or.inl rfl

theorem Step.control_changes {s s' : State} {events : List Event} (h : Step s events s')
    (hc : s.controlState.rtbl.Consistent) :
    s'.controlState.rtbl = s.controlState.rtbl ∨ s.controlState.rtbl.Changes s'.controlState.rtbl := by
  cases h.controlQueue with
  | tells queue state speech => exact Or.inl (congrArg ControlState.rtbl state)
  | handles queued left handled session spawned => exact handleControl_changes handled hc

theorem changes_snoc (ts : List Transition) (t : Transition) : changes (ts ++ [t]) = changes ts ++
    if t.after.controlState.rtbl ≠ t.before.controlState.rtbl then [t.after.controlState.rtbl]
    else [] := by
  rw [changes, List.filter_append, List.map_append]
  congr 1
  by_cases hne : t.after.controlState.rtbl = t.before.controlState.rtbl <;> simp [hne]

/-- The control task's table takes one value after another. -/
theorem Run.changes_chain {ts : List Transition} {s : State} (h : Run ts s) :
    List.IsChain RoutingTable.Changes (∅ :: changes ts) := by
  induction h with
  | nil => exact .singleton _
  | @snoc ts s s' events run step ih =>
      have hlast : s.controlState.rtbl = (changes ts).getLast?.getD ∅ := (Published.of_run run).control
      rw [changes_snoc]
      by_cases hne : s'.controlState.rtbl = s.controlState.rtbl
      · rwa [if_neg (not_not.mpr hne), List.append_nil]
      · have hchange := (step.control_changes (TablesReachable.of_run run).control.consistent).resolve_left hne
        rw [if_pos hne, ← List.cons_append]
        refine List.isChain_append.mpr ⟨ih,.singleton _,fun x hx y hy => ?_⟩
        rw [List.getLast?_cons] at hx
        obtain rfl := Option.some.inj hx
        obtain rfl := Option.some.inj hy
        exact hlast ▸ hchange

/-- What the routing task installs next differs by one session. -/
theorem Run.next_changes {ts : List Transition} {s : State} (h : Run ts s) {rtbl : RoutingTable}
    {rest : List RoutingMessage} (queued : s.routing.queue = .update rtbl :: rest) :
    s.routingTable.Changes rtbl := by
  have hp := Published.of_run h
  have hchain := h.changes_chain
  have hqueue : changes ts = installed ts ++ rtbl :: updates rest := by
    rw [← hp.queued, queued]
    rfl
  rw [hqueue, ← List.cons_append] at hchain
  rw [hp.routing]
  exact (List.isChain_append.mp hchain).2.2 _ List.getLast?_cons _ rfl

theorem Run.control_lobby {ts : List Transition} {s : State} (h : Run ts s) :
    s.controlState.rtbl.Lobby := by
  induction h with
  | nil => exact fun id roomId hroom => by cases hroom
  | snoc run step ih =>
      rcases step.control_changes (TablesReachable.of_run run).control.consistent with hsame | hchanges
      · exact hsame ▸ ih
      · exact hchanges.lobby ih

theorem Run.lobby {ts : List Transition} {s : State} (h : Run ts s) : s.routingTable.Lobby := by
  refine (h.tables (P := RoutingTable.Lobby) (fun id roomId hroom => by cases hroom) ?_).1
  intro t ht
  obtain ⟨ts₁,-,-,hrun⟩ := h.split_of_mem ht
  exact hrun.control_lobby

/-! ## What is relayed -/

theorem recipient_eq {t : RoutingTable} {spawned : ℕ} (ho : t.Owned spawned) {id : SessionID}
    {recipient : Sender} (h : t.sender id = some recipient) :
    sessionId recipient.queue = id ∧ recipient.queue < spawned := by
  obtain ⟨session,hl,rfl⟩ := Option.map_eq_some_iff.mp h
  exact ⟨(ho id session hl).2.symm,(ho id session hl).1⟩

theorem Offers.recipients {t : RoutingTable} {spawned : ℕ} (ho : t.Owned spawned)
    {packet : ControlPacket .clientbound} {ids : List SessionID} {ds : List Delivery}
    (h : Offers t packet ids ds) : ds.map (fun d => sessionId d.recipient.queue) = ids := by
  induction h with
  | nil => rfl
  | cons hd _ ih => rw [List.map_cons, ih, (recipient_eq ho hd.1).1]

/-- Audio of someone who is there goes once to each of the others. -/
theorem step_audio {t : RoutingTable} {spawned : ℕ} (hc : t.Consistent) (ho : t.Owned spawned)
    (hl : t.Lobby) {id : SessionID} (inside : id ∈ t.attendants)
    (session : VoicePacketDst.serverbound.SessionId) (seqNum : U64) (payload : VoicePacketPayload)
    (positionInfo : Option Bytes) (routing : Channel RoutingMessage) :
    Conference.Step t.attendants
      (.speaks id (.udpTunnel (.audio 0 id seqNum payload positionInfo))
        ((handleRouting (.voice id (.audio 0 session seqNum payload positionInfo)) t routing).1.map
          fun d => sessionId d.recipient.queue) : Label) t.attendants := by
  obtain ⟨roomId,hroom⟩ := Option.ne_none_iff_exists'.mp (RoutingTable.mem_attendants.mp inside)
  obtain rfl := hl id roomId hroom
  obtain ⟨room,hr,hsenders⟩ := targetSenders_of_room hc hroom
  obtain ⟨ids,once,hmem,hoffers⟩ := @offeredOnce_peers t hc id 0 room hr
    (.udpTunnel (.audio 0 id seqNum payload positionInfo))
  have hids := hoffers.recipients ho
  rw [show _ = ids from (congrArg _ (handleRouting_audio hsenders)).trans hids]
  refine .speaks inside once fun p => (hmem p).trans (and_congr_right fun _ => (hc 0 p).trans ?_)
  rw [RoutingTable.mem_attendants, Option.ne_none_iff_exists']
  refine ⟨fun hp => ⟨0,hp⟩,fun hp => ?_⟩
  obtain ⟨roomId,hp⟩ := hp
  exact hl p roomId hp ▸ hp

/-- Whatever is relayed goes to someone who is there. -/
theorem recipient_attends {t : RoutingTable} {spawned : ℕ} (ho : t.Owned spawned)
    {message : RoutingMessage} {routing : Channel RoutingMessage} {d : Delivery}
    (h : d ∈ (handleRouting message t routing).1) : sessionId d.recipient.queue ∈ t.attendants := by
  obtain ⟨id,hid⟩ := mem_handleRouting_sender h
  rw [(recipient_eq ho hid).1]
  obtain ⟨session,hl,-⟩ := Option.map_eq_some_iff.mp hid
  exact (RoutingTable.holdsSession_iff t id).mpr ⟨session,hl⟩

theorem recipients_push (id : SessionID) (ds : List Delivery) :
    (ds.map (Event.push id)).filterMap Event.recipient = ds.map fun d => sessionId d.recipient.queue := by
  simp [Event.recipient, Function.comp_def]

theorem Step.installs {s s' : State} {events : List Event} (h : Step s events s') :
    s'.routingTable = (events.filterMap Event.installs).getLast?.getD s.routingTable := by
  cases h.publication with
  | quiet control routing queue none =>
      rw [none]
      exact routing
  | change control routing queue none =>
      rw [none]
      exact routing
  | install control queue one =>
      rw [one]
      rfl

/-! ## The conference -/

/-- A step of the server is one of the conference, or nothing happens there. -/
theorem Run.conference_step {ts : List Transition} {s s' : State} {events : List Event}
    (h : Run ts s) (step : Step s events s') :
    (Transition.label ⟨s,events,s'⟩ = none ∧ s'.routingTable = s.routingTable) ∨
      ∃ l, Transition.label ⟨s,events,s'⟩ = some l ∧
        Conference.Step s.routingTable.attendants l s'.routingTable.attendants := by
  have htable := step.installs
  have ho := h.owned_tables.1
  obtain rfl | ⟨message,rest,queued,rfl⟩ := step.dequeues
  · exact Or.inl ⟨rfl,htable⟩
  rw [installs_routingEvents] at htable
  cases message with
  | update rtbl =>
      obtain ⟨l,hl,hstep⟩ := (h.next_changes queued).step
      have hinstalled : s'.routingTable = rtbl := htable
      exact Or.inr ⟨l,hl,hinstalled ▸ hstep⟩
  | shutdown => exact Or.inl ⟨rfl,htable⟩
  | text id message =>
      have hsame : s'.routingTable = s.routingTable := htable
      refine Or.inr ⟨_,rfl,?_⟩
      rw [hsame, recipients_push]
      refine .tells fun p hp => ?_
      obtain ⟨d,hd,rfl⟩ := List.mem_map.mp hp
      exact recipient_attends ho hd
  | voice id packet =>
      have hsame : s'.routingTable = s.routingTable := htable
      cases packet with
      | ping timestamp => exact Or.inl ⟨rfl,hsame⟩
      | audio target session seqNum payload positionInfo =>
          by_cases hin : target = 0 ∧ s.routingTable.holdsSession id = true
          · refine Or.inr ⟨_,if_pos hin,?_⟩
            obtain ⟨rfl,inside⟩ := hin
            rw [hsame, recipients_push]
            exact step_audio (TablesReachable.of_run h).routing.consistent ho h.lobby inside _ _ _ _ _
          · exact Or.inl ⟨if_neg hin,hsame⟩

theorem labels_append (ts ts' : List Transition) : labels (ts ++ ts') = labels ts ++ labels ts' :=
  List.filterMap_append

theorem labels_eq (ts : List Transition) : labels ts = ts.flatMap fun t => t.label.toList := by
  rw [labels, List.filterMap_eq_flatMap_toList]

theorem Run.conference_run {ts : List Transition} {s : State} (h : Run ts s) :
    Conference.Run (labels ts) s.routingTable.attendants := by
  induction h with
  | nil =>
      have hempty : State.init.routingTable.attendants = ∅ :=
        Set.eq_empty_iff_forall_notMem.mpr fun id hid => RoutingTable.mem_attendants.mp hid rfl
      exact hempty ▸ .nil
  | snoc run step ih =>
      rw [labels_append, labels_eq [_], List.flatMap_singleton]
      obtain ⟨hnone,hsame⟩ | ⟨l,hl,hstep⟩ := run.conference_step step
      · rw [hnone, Option.toList_none, List.append_nil, hsame]
        exact ih
      · rw [hl, Option.toList_some]
        exact ih.snoc hstep

/-! ## What is heard -/

/-- Audio, and whom it comes from. -/
def audioBy : ControlPacket .clientbound → Option (SessionID × ControlPacket .clientbound)
  | .udpTunnel (.audio target id seqNum payload positionInfo) =>
      some (id,.udpTunnel (.audio target id seqNum payload positionInfo))
  | _ => none

/-- A task is pushed the copies that are for its session. -/
theorem packetFor_eq {n spawned : ℕ} (hn : n < 2 ^ 32) (hspawned : spawned ≤ 2 ^ 32)
    {ds : List Delivery} {packet : ControlPacket .clientbound}
    (hpacket : ∀ d ∈ ds, d.packet = packet ∧ d.recipient.queue < spawned)
    (once : (ds.map fun d => sessionId d.recipient.queue).Nodup) :
    ds.filterMap (Delivery.packetFor n) =
      if sessionId n ∈ ds.map (fun d => sessionId d.recipient.queue) then [packet] else [] := by
  rw [← filterMap_singleton once, List.filterMap_map]
  refine List.filterMap_congr fun d hd => ?_
  obtain ⟨rfl,hqueue⟩ := hpacket d hd
  refine if_congr ⟨congrArg sessionId,fun hid => ?_⟩ rfl rfl
  exact sessionId_injective (hqueue.trans_le hspawned) hn hid

theorem hears_difference (p : SessionID) (t t' : RoutingTable) :
    (t.difference t').toList.flatMap (Conference.Label.hears p) = [] := by
  unfold RoutingTable.difference
  split
  · rfl
  · cases t.sessions.keys.find? fun id => !t'.holdsSession id <;> rfl

/-- Of someone who is not there, or for another target, nothing is relayed. -/
theorem handleRouting_outside {t : RoutingTable} {id : SessionID} {target : U8}
    (h : ¬ (target = 0 ∧ t.holdsSession id = true)) {session : VoicePacketDst.serverbound.SessionId}
    {seqNum : U64} {payload : VoicePacketPayload} {positionInfo : Option Bytes}
    (routing : Channel RoutingMessage) :
    (handleRouting (.voice id (.audio target session seqNum payload positionInfo)) t routing).1 = [] := by
  by_cases htarget : target = 0
  · subst htarget
    have hunheld : t.room id = none :=
      RoutingTable.room_eq_none.mpr (Bool.eq_false_iff.mpr fun hheld => h ⟨rfl,hheld⟩)
    exact handleRouting_audio (targetSenders_of_nowhere hunheld)
  · simp only [handleRouting, RoutingTable.targetSenders, if_neg htarget]

/-- What is pushed to a task is what its session hears. -/
theorem Run.hears_step {ts : List Transition} {s s' : State} {events : List Event} (h : Run ts s)
    (step : Step s events s') (hspawned : s.spawned ≤ 2 ^ 32) {n : ℕ} (hn : n < 2 ^ 32) :
    (events.filterMap (Event.pushedTo n)).filterMap audioBy =
      (Transition.label ⟨s,events,s'⟩).toList.flatMap (Conference.Label.hears (sessionId n)) := by
  have ho := h.owned_tables.1
  obtain rfl | ⟨message,rest,queued,rfl⟩ := step.dequeues
  · rfl
  rw [pushedTo_routingEvents]
  cases message with
  | update rtbl => exact (hears_difference _ s.routingTable rtbl).symm
  | shutdown => rfl
  | text id message =>
      refine List.filterMap_eq_nil_iff.mpr fun packet hpacket => ?_
      obtain ⟨d,hd,hfor⟩ := List.mem_filterMap.mp hpacket
      obtain ⟨-,hsame⟩ := Option.ite_none_right_eq_some.mp hfor
      rw [← Option.some.inj hsame, mem_handleRouting_text hd]
      rfl
  | voice id packet =>
      cases packet with
      | ping timestamp => rfl
      | audio target session seqNum payload positionInfo =>
          by_cases hin : target = 0 ∧ s.routingTable.holdsSession id = true
          · have hlabel (ds : List Delivery) : Transition.label ⟨s,routingEvents
                (.voice id (.audio target session seqNum payload positionInfo)) ds,s'⟩ =
                  some (.speaks id (.udpTunnel (.audio target id seqNum payload positionInfo))
                    (ds.map fun d => sessionId d.recipient.queue)) :=
              recipients_push id ds ▸ if_pos hin
            obtain ⟨rfl,inside⟩ := hin
            rw [hlabel, Option.toList_some, List.flatMap_singleton]
            have hpacket (d : Delivery) (hd : d ∈ (handleRouting (.voice id (.audio 0 session seqNum
                payload positionInfo)) s.routingTable { s.routing with queue := rest }).1) :
                d.packet = .udpTunnel (.audio 0 id seqNum payload positionInfo) ∧
                  d.recipient.queue < s.spawned := by
              obtain ⟨id',hid⟩ := mem_handleRouting_sender hd
              exact ⟨mem_handleRouting_audio hd,(recipient_eq ho hid).2⟩
            have once := (step_audio (TablesReachable.of_run h).routing.consistent ho h.lobby inside
              session seqNum payload positionInfo { s.routing with queue := rest }).once
            rw [packetFor_eq hn hspawned hpacket once, Conference.Label.hears]
            split <;> rfl
          · have hlabel : Transition.label ⟨s,routingEvents
                (.voice id (.audio target session seqNum payload positionInfo)) [],s'⟩ = none := if_neg hin
            rw [handleRouting_outside hin, hlabel]
            rfl

/-! ## Every run -/

theorem Run.hears {ts ts' : List Transition} {s : State} (h : Run ts s) (hts : ∀ t ∈ ts', t ∈ ts)
    (hspawned : s.spawned ≤ 2 ^ 32) {n : ℕ} (hn : n < 2 ^ 32) :
    (pushes n ts').filterMap audioBy = Conference.hears (sessionId n) (labels ts') := by
  rw [pushes, List.filterMap_flatMap, Conference.hears, labels_eq, List.flatMap_assoc]
  refine List.flatMap_congr fun t ht => ?_
  obtain ⟨ts₁,hrun,step,-⟩ := h.split_of_mem (hts t ht)
  exact hrun.hears_step step (step.spawned_le.trans ((h.spawned_le t (hts t ht)).trans hspawned)) hn

/-- The session is there before and after each of these. -/
def Stays (id : SessionID) (s : State) (ts : List Transition) : Prop :=
  id ∈ s.routingTable.attendants ∧ ∀ t ∈ ts, id ∈ t.after.routingTable.attendants

theorem Stays.nil {id : SessionID} {s : State} (h : id ∈ s.routingTable.attendants) : Stays id s [] :=
  ⟨h,fun _ ht => absurd ht List.not_mem_nil⟩

theorem Stays.snoc {id : SessionID} {s : State} {ts : List Transition} {t : Transition}
    (h : Stays id s ts) (same : t.after.routingTable = s.routingTable) : Stays id s (ts ++ [t]) := by
  refine ⟨h.1,fun u hu => ?_⟩
  rcases List.mem_append.mp hu with hu | hu
  · exact h.2 u hu
  · rw [List.mem_singleton.mp hu, same]
    exact h.1

/-! ### Three sessions -/

theorem Run.halt {ts : List Transition} {s : State} (h : Run ts s) : Run (ts ++ []) s :=
  (List.append_nil ts).symm ▸ h

theorem Run.more {ts ts' : List Transition} {s s' : State} {events : List Event}
    (h : Run (ts ++ ts') s) (step : Step s events s') : Run (ts ++ (ts' ++ [⟨s,events,s'⟩])) s' :=
  List.append_assoc ts ts' _ ▸ h.snoc step

/-- Three sessions in the room; the first speaks, and then the third, and what the first says is
written to the second. -/
theorem run_trio : ∃ ts ts' s s', Run ts s ∧ Run (ts ++ ts') s' ∧ s'.spawned = 3 ∧
    (∀ n < 3, Stays (sessionId n) s ts') ∧ s'.session 1 = .running ∧
    (∀ n < 3, sessionId n ∈ s'.routingTable.attendants) ∧
    pushes 1 ts' = [.udpTunnel (.audio 0 (sessionId 0) 7 (.opus [1] true) none),
      .udpTunnel (.audio 0 (sessionId 2) 8 (.opus [2] true) none)] ∧
    pushes 0 ts' = [.udpTunnel (.audio 0 (sessionId 2) 8 (.opus [2] true) none)] ∧
    writes 1 (ts ++ ts') = [.udpTunnel (.audio 0 (sessionId 0) 7 (.opus [1] true) none)] := by
  have h := Run.nil.snoc (Step.connect rfl)
  have h := h.snoc (Step.connect rfl)
  have h := h.snoc (Step.connect rfl)
  have h := h.snoc (Step.greeted (n := 0) rfl)
  have h := h.snoc (Step.greeted (n := 1) rfl)
  have h := h.snoc (Step.greeted (n := 2) rfl)
  have h := h.snoc (Step.registered (n := 0) [] rfl rfl)
  have h := h.snoc (Step.registered (n := 1) [] rfl rfl)
  have h := h.snoc (Step.registered (n := 2) [] rfl rfl)
  have h := h.snoc (Step.packet (n := 0) (.message .authenticate []) trivial rfl)
  have h := h.snoc (Step.packet (n := 1) (.message .authenticate []) trivial rfl)
  have h := h.snoc (Step.packet (n := 2) (.message .authenticate []) trivial rfl)
  have h := h.snoc (Step.control rfl rfl rfl)
  have h := h.snoc (Step.control rfl rfl rfl)
  have h := h.snoc (Step.control rfl rfl rfl)
  have h := h.snoc (Step.control rfl rfl rfl)
  have h := h.snoc (Step.control rfl rfl rfl)
  have h := h.snoc (Step.control rfl rfl rfl)
  have h := h.snoc (Step.routing rfl rfl rfl)
  have h := h.snoc (Step.routing rfl rfl rfl)
  have h := h.snoc (Step.routing rfl rfl rfl)
  have h' := h.halt
  have h' := h'.more (Step.voice (n := 0) (.audio 0 () 7 (.opus [1] true) none) rfl)
  have h' := h'.more (Step.voice (n := 2) (.audio 0 () 8 (.opus [2] true) none) rfl)
  have h' := h'.more (Step.routing rfl rfl rfl)
  have h' := h'.more (Step.routing rfl rfl rfl)
  have h' := h'.more (Step.take (n := 1) rfl rfl)
  have h' := h'.more (Step.written (n := 1) rfl)
  refine ⟨_,_,_,_,h,h',rfl,fun n hn => ?_,rfl,fun n hn => ?_,rfl,rfl,rfl⟩
  · refine Stays.snoc (Stays.snoc (Stays.snoc (Stays.snoc (Stays.snoc (Stays.snoc (Stays.nil ?_)
      rfl) rfl) rfl) rfl) rfl) rfl
    change RoutingTable.holdsSession _ _ = true
    interval_cases n <;> rfl
  · change RoutingTable.holdsSession _ _ = true
    interval_cases n <;> rfl

/-! ### The conference -/

/-- The server holds a conference of the sessions that the routing task's table holds, and what
it pushes to a session task is what the session hears there. -/
theorem refines_conference {ts : List Transition} {s : State} (h : Run ts s) :
    Conference.Run (labels ts) s.routingTable.attendants ∧
    (s.spawned ≤ 2 ^ 32 → ∀ n, n < 2 ^ 32 →
      (pushes n ts).filterMap audioBy = Conference.hears (sessionId n) (labels ts)) :=
  ⟨h.conference_run,fun hspawned _ hn => h.hears (fun _ ht => ht) hspawned hn⟩

theorem refines_conference_trio : ∃ ts s, Run ts s ∧ s.spawned = 3 ∧
    (∀ n < 3, sessionId n ∈ s.routingTable.attendants) ∧
    Conference.Run (labels ts) s.routingTable.attendants ∧
    (s.spawned ≤ 2 ^ 32 → ∀ n, n < 2 ^ 32 →
      (pushes n ts).filterMap audioBy = Conference.hears (sessionId n) (labels ts)) := by
  obtain ⟨ts,ts',s,s',h,h',hspawned,stays,-,there,-⟩ := run_trio
  exact ⟨_,_,h',hspawned,there,refines_conference h'⟩

/-- The audio that a session task writes is, in this order and each once, a first part of what
all others say while its session is there, and until the task ends the rest is what it is
writing, if it is, and what is in its queue. -/
theorem written_attended {ts : List Transition} {s : State} (h : Run ts s)
    (hspawned : s.spawned ≤ 2 ^ 32) {n : ℕ} (hn : n < 2 ^ 32) :
    (writes n ts).filterMap audioBy <+: Conference.attended (sessionId n) false (labels ts) ∧
    (s.session n ≠ .ended →
      (writes n ts ++ (inHand n ts).toList ++ s.inbound n).filterMap audioBy =
        Conference.attended (sessionId n) false (labels ts)) ∧
    (s.session n ≠ .writing → inHand n ts = none) := by
  rw [← h.conference_run.hears_eq, ← h.hears (fun _ ht => ht) hspawned hn]
  obtain ⟨hfirst,hall,hnone⟩ := h.writes_pushes n
  exact ⟨hfirst.filterMap _,fun hlive => by rw [hall hlive],hnone⟩

theorem written_attended_trio : ∃ ts s, Run ts s ∧ s.session 1 = .running ∧
    writes 1 ts = [.udpTunnel (.audio 0 (sessionId 0) 7 (.opus [1] true) none)] ∧
    (writes 1 ts).filterMap audioBy <+: Conference.attended (sessionId 1) false (labels ts) ∧
    (s.session 1 ≠ .ended →
      (writes 1 ts ++ (inHand 1 ts).toList ++ s.inbound 1).filterMap audioBy =
        Conference.attended (sessionId 1) false (labels ts)) ∧
    (s.session 1 ≠ .writing → inHand 1 ts = none) := by
  obtain ⟨ts,ts',s,s',h,h',hspawned,stays,running,-,-,-,hwrites⟩ := run_trio
  exact ⟨_,_,h',running,hwrites,written_attended h' (by rw [hspawned]; decide) (by decide)⟩

theorem Stays.leaves {id : SessionID} {ts ts' : List Transition} {s s' : State}
    (h : Run ts' s') (hts : ∀ t ∈ ts, t ∈ ts') (stays : Stays id s ts) :
    .leaves id ∉ labels ts := by
  intro hmem
  obtain ⟨t,ht,hlabel⟩ := List.mem_filterMap.mp hmem
  obtain ⟨ts₁,hrun,step,-⟩ := h.split_of_mem (hts t ht)
  obtain ⟨hnone,-⟩ | ⟨l,hl,hstep⟩ := hrun.conference_step step
  · cases hnone.symm.trans hlabel
  · obtain rfl := Option.some.inj (hl.symm.trans hlabel)
    exact hstep.left (stays.2 t ht)

/-- Two sessions that stay are pushed the same audio of all the others, in the same order. -/
theorem same_order {ts ts' : List Transition} {s s' : State} (h : Run ts s)
    (h' : Run (ts ++ ts') s') (hspawned : s'.spawned ≤ 2 ^ 32) {n m : ℕ} (hn : n < 2 ^ 32)
    (hm : m < 2 ^ 32) (nStays : Stays (sessionId n) s ts') (mStays : Stays (sessionId m) s ts') :
    ((pushes n ts').filterMap audioBy).filter (fun e => e.1 ≠ sessionId m) =
      ((pushes m ts').filterMap audioBy).filter (fun e => e.1 ≠ sessionId n) := by
  have later : ∀ t ∈ ts', t ∈ ts ++ ts' := fun t ht => List.mem_append_right _ ht
  have hrun : Conference.Run (labels ts ++ labels ts') s'.routingTable.attendants :=
    labels_append ts ts' ▸ h'.conference_run
  have hthere := h.conference_run
  rw [h'.hears later hspawned hn, h'.hears later hspawned hm]
  exact hrun.agree (sessionId n) ((hthere.present_iff _).mpr nStays.1)
    ((hthere.present_iff _).mpr mStays.1) (nStays.leaves h' later) (mStays.leaves h' later)

/-- The second session hears the first and the third, and the first only the third. -/
theorem same_order_trio : ∃ ts ts' s s', Run ts s ∧ Run (ts ++ ts') s' ∧
    pushes 1 ts' = [.udpTunnel (.audio 0 (sessionId 0) 7 (.opus [1] true) none),
      .udpTunnel (.audio 0 (sessionId 2) 8 (.opus [2] true) none)] ∧
    pushes 0 ts' = [.udpTunnel (.audio 0 (sessionId 2) 8 (.opus [2] true) none)] ∧
    ((pushes 0 ts').filterMap audioBy).filter (fun e => e.1 ≠ sessionId 1) =
      ((pushes 1 ts').filterMap audioBy).filter (fun e => e.1 ≠ sessionId 0) := by
  obtain ⟨ts,ts',s,s',h,h',hspawned,stays,-,-,hsecond,hfirst,-⟩ := run_trio
  exact ⟨ts,ts',s,s',h,h',hsecond,hfirst,same_order h h' (by rw [hspawned]; decide) (by decide)
    (by decide) (stays 0 (by decide)) (stays 1 (by decide))⟩

end Atof.Server
