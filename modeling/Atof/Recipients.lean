import Atof.Hearing
import Atof.Panics

/-!
# Who gets a message

The routing task works out the recipients of a message as a list of sessions and pushes a
copy for each entry. For audio the entries are the other members of the speaker's room,
which are different. For a text message they are the sessions it lists and then the members
of the rooms it lists, and a session that is named again gets another copy.
-/
namespace Atof.Server
open Rust Voice Control

/-- The deliveries are one packet each to the sessions of a list, by their handles. -/
def Offers (t : RoutingTable) (packet : ControlPacket .clientbound) :
    List SessionID → List Delivery → Prop :=
  List.Forall₂ fun id d => t.sender id = some d.recipient ∧ d.packet = packet

/-- One packet each to the sessions with a property, and none to others. -/
def OfferedOnce (t : RoutingTable) (packet : ControlPacket .clientbound) (P : SessionID → Prop)
    (ds : List Delivery) : Prop :=
  ∃ ids : List SessionID, ids.Nodup ∧ (∀ id, id ∈ ids ↔ P id) ∧ Offers t packet ids ds

/-- Whoever is looked up and found gets a copy. -/
theorem offers_senders (t : RoutingTable) (packet : ControlPacket .clientbound)
    (ids : List SessionID) : Offers t packet (ids.filter fun id => t.holdsSession id)
      ((ids.filterMap t.sender).map fun recipient => ⟨recipient,packet⟩) := by
  induction ids with
  | nil => exact .nil
  | cons id ids ih =>
      cases hs : t.sessions.lookup id with
      | none =>
          have hunheld : t.holdsSession id = false :=
            RoutingTable.room_eq_none.mp (by simp [RoutingTable.room, hs])
          have hsender : t.sender id = none := by simp [RoutingTable.sender, hs]
          rw [List.filter_cons_of_neg (by simp [hunheld]), List.filterMap_cons_none hsender]
          exact ih
      | some session =>
          have hheld : t.holdsSession id = true :=
            (RoutingTable.holdsSession_iff _ _).mpr ⟨session,hs⟩
          have hsender : t.sender id = some session.sender := by simp [RoutingTable.sender, hs]
          rw [List.filter_cons_of_pos hheld, List.filterMap_cons_some hsender]
          exact .cons ⟨hsender,rfl⟩ ih

/-- A list with the entries of one without repetitions, and no more of them, has none. -/
theorem nodup_of_length_eq {α : Type} {ids names : List α} (hnodup : ids.Nodup)
    (hmem : ∀ id, id ∈ ids ↔ id ∈ names) (hlength : ids.length = names.length) : names.Nodup := by
  have hperm : ids.Perm names :=
    (hnodup.subperm fun id hid => (hmem id).mp hid).perm_of_length_le hlength.ge
  exact hperm.nodup hnodup

/-- Each recipient gets one copy exactly if the list that is worked out names none twice. -/
theorem Offers.once_iff {t : RoutingTable} {packet : ControlPacket .clientbound}
    {names : List SessionID} {ds : List Delivery} {P : SessionID → Prop}
    (h : Offers t packet names ds) (hP : ∀ id, P id ↔ id ∈ names) :
    OfferedOnce t packet P ds ↔ names.Nodup := by
  constructor
  · rintro ⟨ids,hnodup,hmem,hids⟩
    exact nodup_of_length_eq hnodup (fun id => (hmem id).trans (hP id))
      (hids.length_eq.trans h.length_eq.symm)
  · exact fun hnodup => ⟨names,hnodup,fun id => (hP id).symm,h⟩

namespace RoutingTable

theorem nodup_members (t : RoutingTable) (roomId : RoomID) : (t.members roomId).Nodup := by
  unfold members
  split
  · exact List.nodup_nil
  · next room _ => exact room.members.keys_nodup

theorem holdsSession_of_room {t : RoutingTable} {sessionId : SessionID} {roomId : RoomID}
    (h : t.room sessionId = some roomId) : t.holdsSession sessionId = true := by
  rw [← Bool.not_eq_false, ← room_eq_none, h]
  exact Option.some_ne_none roomId

end RoutingTable

/-! ## Audio -/

/-- The other members of a room, once each. -/
theorem offeredOnce_peers {t : RoutingTable} (hc : t.Consistent) {sessionId : SessionID}
    {roomId : RoomID} {room : Room} (hr : t.rooms.lookup roomId = some room)
    (packet : ControlPacket .clientbound) :
    OfferedOnce t packet (fun id => id ≠ sessionId ∧ RoutingTable.IsMember t.rooms roomId id)
      ((room.members.keys.filterMap fun id =>
        if some sessionId = some id then none else t.sender id).map fun peer => ⟨peer,packet⟩) := by
  have hpeers : (room.members.keys.filterMap fun id =>
      if some sessionId = some id then none else t.sender id) =
        (room.members.keys.filter (sessionId ≠ ·)).filterMap t.sender := by
    rw [List.filterMap_filter]
    refine List.filterMap_congr fun id _ => ?_
    by_cases hid : sessionId = id <;> simp [hid]
  rw [hpeers]
  refine ((offers_senders t packet _).once_iff fun id => ?_).mpr
    ((room.members.keys_nodup.filter _).filter _)
  have hmember := RoutingTable.isMember_iff_of_lookup hr id
  have hheld (hm : id ∈ room.members.keys) : t.holdsSession id = true :=
    RoutingTable.holdsSession_of_room ((hc roomId id).mp (hmember.mpr hm))
  simp only [List.mem_filter, decide_eq_true_eq, hmember]
  constructor
  · rintro ⟨hne,hm⟩
    exact ⟨⟨hm,hne.symm⟩,hheld hm⟩
  · rintro ⟨⟨hm,hne⟩,-⟩
    exact ⟨hne.symm,hm⟩

/-- Audio from a session that is held goes once to each other member of its room and to
nobody else, and from one that is not held to nobody; and the routing task goes on. -/
theorem audio_recipients {t : RoutingTable} (h : t.Reachable) (sessionId : SessionID)
    (session : VoicePacketDst.serverbound.SessionId) (seqNum : U64) (payload : VoicePacketPayload)
    (positionInfo : Option Bytes) (routing : Channel RoutingMessage) :
    (∀ roomId, t.room sessionId = some roomId →
      OfferedOnce t (.udpTunnel (.audio 0 sessionId seqNum payload positionInfo))
        (fun id => id ≠ sessionId ∧ RoutingTable.IsMember t.rooms roomId id)
        (handleRouting (.voice sessionId (.audio 0 session seqNum payload positionInfo)) t routing).1) ∧
    (t.holdsSession sessionId = false →
      (handleRouting (.voice sessionId (.audio 0 session seqNum payload positionInfo)) t
        routing).1 = []) ∧
    (handleRouting (.voice sessionId (.audio 0 session seqNum payload positionInfo)) t routing).2 =
      .ok (t,routing) := by
  have hc := h.consistent
  cases hroom : t.room sessionId with
  | none =>
      have hnowhere := targetSenders_of_nowhere hroom
      exact ⟨nofun,fun _ => handleRouting_audio hnowhere,by simp only [handleRouting, hnowhere]⟩
  | some roomId =>
      obtain ⟨room,hr,hsenders⟩ := targetSenders_of_room hc hroom
      refine ⟨?_,fun hn => ?_,by simp only [handleRouting, hsenders]⟩
      · rintro _ ⟨rfl⟩
        exact handleRouting_audio hsenders ▸ offeredOnce_peers hc hr _
      · rw [RoutingTable.room_eq_none.mpr hn] at hroom
        cases hroom

/-- Two sessions in the default room. -/
def couple : RoutingTable :=
  RoutingTable.enrollSession (RoutingTable.enrollSession ∅ 5 [] ⟨0⟩) 6 [] ⟨1⟩

theorem couple_reachable : couple.Reachable :=
  (RoutingTable.Reachable.default.enroll [] ⟨0⟩ rfl).enroll [] ⟨1⟩ rfl

/-- The first of two sessions speaks, and the second hears it. -/
theorem audio_recipients_pair : couple.room 5 = some 0 ∧
    OfferedOnce couple (.udpTunnel (.audio 0 (5 : SessionID) 1 (.opus [] true) none))
      (fun id => id ≠ 5 ∧ RoutingTable.IsMember couple.rooms 0 id)
      (handleRouting (.voice 5 (.audio 0 () 1 (.opus [] true) none)) couple ⟨[],true⟩).1 :=
  ⟨by decide,(audio_recipients couple_reachable 5 () 1 (.opus [] true) none ⟨[],true⟩).1 0 (by decide)⟩

/-! ## Text messages -/

/-- A session is addressed by its id or by a room it is a member of. -/
def Addressed (t : RoutingTable) (message : TextMessage) (id : SessionID) : Prop :=
  t.holdsSession id = true ∧ (id ∈ message.session ∨
    ∃ roomId ∈ message.channelId, RoutingTable.IsMember t.rooms roomId id)

/-- No session that is held is named twice, by its id and its room taken together. -/
def NamedOnce (t : RoutingTable) (message : TextMessage) : Prop :=
  ∀ id roomId, t.room id = some roomId →
    message.session.count id + message.channelId.count roomId ≤ 1

/-- The sessions named by a message, in order. -/
def named (t : RoutingTable) (message : TextMessage) : List SessionID :=
  (message.session ++ message.channelId.flatMap t.members).filter fun id => t.holdsSession id

theorem mem_named {t : RoutingTable} {message : TextMessage} {id : SessionID} :
    id ∈ named t message ↔ Addressed t message id := by
  simp only [named, Addressed, List.mem_filter, List.mem_append, List.mem_flatMap,
    RoutingTable.isMember_iff_mem_members]
  exact and_comm

theorem count_members {t : RoutingTable} (hc : t.Consistent) (id : SessionID) (roomId : RoomID) :
    (t.members roomId).count id = if t.room id = some roomId then 1 else 0 := by
  rw [(t.nodup_members roomId).count]
  exact if_congr (RoutingTable.isMember_iff_mem_members.symm.trans (hc roomId id)) rfl rfl

/-- A session is named once for each time its id is listed and once for each time its room
is. -/
theorem count_named {t : RoutingTable} (hc : t.Consistent) (message : TextMessage)
    {id : SessionID} {roomId : RoomID} (hroom : t.room id = some roomId) :
    (named t message).count id = message.session.count id + message.channelId.count roomId := by
  have hrooms : (message.channelId.flatMap t.members).count id = message.channelId.count roomId := by
    induction message.channelId with
    | nil => rfl
    | cons roomId' rooms ih =>
        rw [List.flatMap_cons, List.count_append, ih, count_members hc, hroom, List.count_cons,
          Nat.add_comm]
        by_cases hid : roomId' = roomId
        · simp [hid]
        · simp [hid, Ne.symm hid]
  rw [named, List.count_filter (RoutingTable.holdsSession_of_room hroom), List.count_append, hrooms]

theorem nodup_named_iff {t : RoutingTable} (hc : t.Consistent) (message : TextMessage) :
    (named t message).Nodup ↔ NamedOnce t message := by
  rw [List.nodup_iff_count_le_one]
  constructor
  · intro h id roomId hroom
    rw [← count_named hc message hroom]
    exact h id
  · intro h id
    cases hroom : t.room id with
    | none =>
        have hnot : id ∉ named t message := fun hm => by
          have hheld := (mem_named.mp hm).1
          rw [RoutingTable.room_eq_none.mp hroom] at hheld
          cases hheld
        rw [List.count_eq_zero_of_not_mem hnot]
        exact Nat.zero_le 1
    | some roomId =>
        rw [count_named hc message hroom]
        exact h id roomId hroom

/-- A text message for rooms that exist is pushed to the sessions it names. -/
theorem offers_text {t : RoutingTable} (sessionId : SessionID) {message : TextMessage}
    (routing : Channel RoutingMessage) (hrooms : ∀ roomId ∈ message.channelId, roomId ∈ t.rooms) :
    Offers t (.textMessage (message.setActor sessionId)) (named t message)
      (handleRouting (.text sessionId message) t routing).1 := by
  have hds : (handleRouting (.text sessionId message) t routing).1 =
      ((message.session ++ message.channelId.flatMap t.members).filterMap t.sender).map
        fun recipient => ⟨recipient,.textMessage (message.setActor sessionId)⟩ := by
    rw [List.filterMap_append, List.filterMap_flatMap]
    simp only [handleRouting, textSenders, TextMessage.setActor, channelSenders_of_rooms hrooms]
  rw [hds]
  exact offers_senders t _ _

/-- Each session that a text message addresses gets it exactly once, and no other gets it,
exactly if the message names none twice. -/
theorem text_recipients_iff {t : RoutingTable} (h : t.Reachable) (sessionId : SessionID)
    (message : TextMessage) (routing : Channel RoutingMessage)
    (hrooms : ∀ roomId ∈ message.channelId, roomId ∈ t.rooms) :
    OfferedOnce t (.textMessage (message.setActor sessionId)) (Addressed t message)
      (handleRouting (.text sessionId message) t routing).1 ↔ NamedOnce t message := by
  rw [(offers_text sessionId routing hrooms).once_iff fun _ => mem_named.symm]
  exact nodup_named_iff h.consistent message

/-- To the second session and to one that is not there. -/
theorem text_recipients_iff_pair :
    OfferedOnce couple (.textMessage ⟨some 5,[6,9],[],[],"",[]⟩)
      (Addressed couple ⟨none,[6,9],[],[],"",[]⟩)
      (handleRouting (.text 5 ⟨none,[6,9],[],[],"",[]⟩) couple ⟨[],true⟩).1 ↔
        NamedOnce couple ⟨none,[6,9],[],[],"",[]⟩ :=
  text_recipients_iff couple_reachable 5 ⟨none,[6,9],[],[],"",[]⟩ ⟨[],true⟩ (by simp)

/-- To the second session and to its room. -/
theorem text_twice : ¬ ∀ (t : RoutingTable), t.Reachable → ∀ (sessionId : SessionID)
    (message : TextMessage) (routing : Channel RoutingMessage),
    (∀ roomId ∈ message.channelId, roomId ∈ t.rooms) →
    OfferedOnce t (.textMessage (message.setActor sessionId)) (Addressed t message)
      (handleRouting (.text sessionId message) t routing).1 := by
  intro h
  have hrooms : ∀ roomId ∈ [(0 : RoomID)], roomId ∈ couple.rooms := by
    intro roomId hm
    rw [List.mem_singleton.mp hm]
    exact AList.lookup_isSome.mp rfl
  have honce := h couple couple_reachable 5 ⟨none,[6],[0],[],"",[]⟩ ⟨[],true⟩ hrooms
  have hnodup := ((offers_text 5 ⟨[],true⟩ hrooms).once_iff fun _ => mem_named.symm).mp honce
  revert hnodup
  decide

end Atof.Server
