import Atof.RoutingTable

/-!
# Memberships

The table says twice where a session is: the session names its room, and the room
lists its members. Read either way it is one partial function from sessions to
rooms, and enrolling, expelling and moving are its updates at one point.
-/
namespace Atof.Server.RoutingTable
open Rust

/-- Where a session is, by its own word. -/
def room (t : RoutingTable) (sessionId : SessionID) : Option RoomID :=
  (t.sessions.lookup sessionId).map Session.roomId

/-- Who is in a room, by the room's word. -/
def IsMember (rooms : HashMap RoomID Room) (roomId : RoomID) (sessionId : SessionID) : Prop :=
  ∃ room, rooms.lookup roomId = some room ∧ sessionId ∈ room.members

/-- Both say the same. -/
def Consistent (t : RoutingTable) : Prop :=
  ∀ roomId sessionId, IsMember t.rooms roomId sessionId ↔ t.room sessionId = some roomId

/-- The members a room lists; of a room that does not exist there are none. -/
def members (t : RoutingTable) (roomId : RoomID) : List SessionID :=
  match t.rooms.lookup roomId with
  | none => []
  | some room => room.members.keys

/-! ## The function from sessions to rooms -/

theorem room_insert (t : RoutingTable) (rooms : HashMap RoomID Room) (sessionId : SessionID)
    (session : Session) : room ⟨t.sessions.insert sessionId session,rooms⟩ =
      Function.update t.room sessionId (some session.roomId) := by
  funext id
  by_cases h : id = sessionId
  · subst h
    simp [room]
  · simp [room, h, AList.lookup_insert_ne h]

theorem room_erase (t : RoutingTable) (rooms : HashMap RoomID Room) (sessionId : SessionID) :
    room ⟨t.sessions.erase sessionId,rooms⟩ = Function.update t.room sessionId none := by
  funext id
  by_cases h : id = sessionId
  · subst h
    simp [room]
  · simp [room, h, AList.lookup_erase_ne h]

theorem room_eq_none {t : RoutingTable} {sessionId : SessionID} :
    t.room sessionId = none ↔ t.holdsSession sessionId = false := by
  rw [room, Option.map_eq_none_iff, ← Bool.not_eq_true, holdsSession_iff]
  cases t.sessions.lookup sessionId <;> simp

/-! ## The members of the rooms -/

theorem isMember_iff_of_lookup {rooms : HashMap RoomID Room} {roomId : RoomID} {room : Room}
    (h : rooms.lookup roomId = some room) (sessionId : SessionID) :
    IsMember rooms roomId sessionId ↔ sessionId ∈ room.members.keys := by
  simp [IsMember, h, AList.mem_keys]

theorem isMember_iff_mem_members {t : RoutingTable} {roomId : RoomID} {sessionId : SessionID} :
    IsMember t.rooms roomId sessionId ↔ sessionId ∈ t.members roomId := by
  cases hr : t.rooms.lookup roomId with
  | none => simp [IsMember, members, hr]
  | some room =>
      rw [isMember_iff_of_lookup hr, members]
      simp only [hr]

theorem isMember_addMember {rooms : HashMap RoomID Room} {roomId roomId' : RoomID}
    {sessionId sessionId' : SessionID} :
    IsMember (addMember rooms roomId sessionId) roomId' sessionId' ↔
      (roomId' = roomId ∧ sessionId' = sessionId) ∨ IsMember rooms roomId' sessionId' := by
  by_cases h : roomId' = roomId
  · subst h
    cases hr : rooms.lookup roomId' with
    | none => simp [IsMember, addMember, hr, EmptyCollection.emptyCollection]
    | some room => simp [IsMember, addMember, hr]
  · simp [IsMember, addMember, AList.lookup_insert_ne h, h]

/-- A member is removed without a panic. -/
theorem removeMember_returns {rooms : HashMap RoomID Room} {roomId : RoomID}
    {sessionId : SessionID} (h : IsMember rooms roomId sessionId) :
    ∃ rooms', removeMember rooms roomId sessionId = .ok rooms' ∧ ∀ roomId' sessionId',
      IsMember rooms' roomId' sessionId' ↔
        IsMember rooms roomId' sessionId' ∧ ¬ (roomId' = roomId ∧ sessionId' = sessionId) := by
  obtain ⟨room,hr,-⟩ := h
  refine ⟨rooms.insert roomId ⟨room.members.erase sessionId⟩,by simp [removeMember, hr],?_⟩
  intro roomId' sessionId'
  by_cases h : roomId' = roomId
  · subst h
    simp [IsMember, hr, and_comm]
  · simp [IsMember, AList.lookup_insert_ne h, h]

/-! ## The changes -/

theorem consistent_empty : Consistent ∅ := by
  intro roomId sessionId
  refine iff_of_false ?_ (fun h => by cases h)
  rintro ⟨room,hr,-⟩
  cases hr

theorem enrollSession_consistent {t : RoutingTable} (h : t.Consistent) {sessionId : SessionID}
    (version : Version) (sender : Sender) (unheld : t.holdsSession sessionId = false) :
    (t.enrollSession sessionId version sender).Consistent ∧
      (t.enrollSession sessionId version sender).room =
        Function.update t.room sessionId (some 0) := by
  have hroom : (t.enrollSession sessionId version sender).room = _ := room_insert t _ sessionId _
  refine ⟨fun roomId id => ?_,hroom⟩
  rw [hroom, enrollSession, isMember_addMember, h]
  by_cases hid : id = sessionId
  · subst hid
    rw [Function.update_self, room_eq_none.mpr unheld]
    simp only [and_true, reduceCtorEq, or_false, Option.some.injEq]
    exact eq_comm
  · simp [hid]

/-- Expelling a session makes it nowhere; of a session that is nowhere it is refused. -/
theorem expelSession_consistent {t : RoutingTable} (h : t.Consistent) (sessionId : SessionID) :
    (t.room sessionId = none ∧
      t.expelSession sessionId = .ok (.error (unknownSession sessionId),t)) ∨
    ∃ t', t.expelSession sessionId = .ok (.ok (),t') ∧ t'.Consistent ∧
      t'.room = Function.update t.room sessionId none := by
  cases hs : t.sessions.lookup sessionId with
  | none => exact Or.inl ⟨by simp [room, hs],by simp [expelSession, hs]⟩
  | some session =>
      have hat : t.room sessionId = some session.roomId := by simp [room, hs]
      obtain ⟨rooms,hremove,hmember⟩ := removeMember_returns ((h _ _).mpr hat)
      have hroom := room_erase t rooms sessionId
      refine Or.inr ⟨⟨t.sessions.erase sessionId,rooms⟩,?_,fun roomId id => ?_,hroom⟩
      · simp only [expelSession, hs, hremove]
        rfl
      · rw [hroom, hmember, h]
        by_cases hid : id = sessionId
        · subst hid
          simp [hat, eq_comm]
        · simp [hid]

theorem moveSession_consistent {t : RoutingTable} (h : t.Consistent) (sessionId : SessionID)
    (destRoomId : RoomID) :
    (t.room sessionId = none ∧
      t.moveSession sessionId destRoomId = .ok (.error (unknownSession sessionId),t)) ∨
    ∃ t', t.moveSession sessionId destRoomId = .ok (.ok (),t') ∧ t'.Consistent ∧
      t'.room = Function.update t.room sessionId (some destRoomId) := by
  cases hs : t.sessions.lookup sessionId with
  | none => exact Or.inl ⟨by simp [room, hs],by simp [moveSession, hs]⟩
  | some session =>
      have hat : t.room sessionId = some session.roomId := by simp [room, hs]
      obtain ⟨rooms,hremove,hmember⟩ := removeMember_returns ((h _ _).mpr hat)
      have hroom := room_insert t (addMember rooms destRoomId sessionId) sessionId
        { session with roomId := destRoomId }
      refine Or.inr ⟨⟨_,_⟩,?_,fun roomId id => ?_,hroom⟩
      · simp only [moveSession, hs, hremove]
        rfl
      · rw [hroom, isMember_addMember, hmember, h]
        by_cases hid : id = sessionId
        · subst hid
          simp [hat, eq_comm]
        · simp [hid]

/-- The tables that calls make of the default one. Sessions are enrolled when they are
not held, which the control task asks first. -/
inductive Reachable : RoutingTable → Prop
  | default : Reachable ∅
  | enroll {t : RoutingTable} {sessionId : SessionID} (version : Version) (sender : Sender)
      (reachable : Reachable t) (unheld : t.holdsSession sessionId = false) :
      Reachable (t.enrollSession sessionId version sender)
  | expel {t t' : RoutingTable} {sessionId : SessionID} {r : Except Error Unit}
      (reachable : Reachable t) (returned : t.expelSession sessionId = .ok (r,t')) : Reachable t'
  | move {t t' : RoutingTable} {sessionId : SessionID} {destRoomId : RoomID}
      {r : Except Error Unit} (reachable : Reachable t)
      (returned : t.moveSession sessionId destRoomId = .ok (r,t')) : Reachable t'

theorem Reachable.consistent {t : RoutingTable} (h : t.Reachable) : t.Consistent := by
  induction h with
  | default => exact consistent_empty
  | enroll version sender _ unheld ih => exact (enrollSession_consistent ih version sender unheld).1
  | expel _ returned ih =>
      rcases expelSession_consistent ih _ with ⟨-,he⟩ | ⟨t',he,hc,-⟩
      · rw [he] at returned
        cases returned
        exact ih
      · rw [he] at returned
        cases returned
        exact hc
  | move _ returned ih =>
      rcases moveSession_consistent ih _ _ with ⟨-,he⟩ | ⟨t',he,hc,-⟩
      · rw [he] at returned
        cases returned
        exact ih
      · rw [he] at returned
        cases returned
        exact hc

/-- Sessions and rooms agree about memberships after any calls, no call panics, and a
call that is refused changes nothing. -/
theorem memberships {t : RoutingTable} (h : t.Reachable) :
    (∀ sessionId session, t.sessions.lookup sessionId = some session →
      ∃ room, t.rooms.lookup session.roomId = some room ∧ sessionId ∈ room.members) ∧
    (∀ roomId room sessionId, t.rooms.lookup roomId = some room → sessionId ∈ room.members →
      ∃ session, t.sessions.lookup sessionId = some session ∧ session.roomId = roomId) ∧
    (∀ sessionId, ∃ r t', t.expelSession sessionId = .ok (r,t') ∧ ∀ e, r = .error e → t' = t) ∧
    (∀ sessionId destRoomId, ∃ r t', t.moveSession sessionId destRoomId = .ok (r,t') ∧
      ∀ e, r = .error e → t' = t) := by
  have hc := h.consistent
  refine ⟨fun sessionId session hs => (hc _ _).mpr (by simp [room, hs]),?_,?_,?_⟩
  · intro roomId room sessionId hr hm
    have hat := (hc roomId sessionId).mp ⟨room,hr,hm⟩
    exact Option.map_eq_some_iff.mp hat
  · intro sessionId
    rcases expelSession_consistent hc sessionId with ⟨-,he⟩ | ⟨t',he,-⟩
    · exact ⟨_,_,he,fun _ _ => rfl⟩
    · exact ⟨_,_,he,fun e hr => by cases hr⟩
  · intro sessionId destRoomId
    rcases moveSession_consistent hc sessionId destRoomId with ⟨-,he⟩ | ⟨t',he,-⟩
    · exact ⟨_,_,he,fun _ _ => rfl⟩
    · exact ⟨_,_,he,fun e hr => by cases hr⟩

/-- One session, moved out of the default room and back in. -/
theorem memberships_moved : ∃ t : RoutingTable, t.Reachable ∧ t.room 5 = some 0 ∧
    ∃ room, t.rooms.lookup 0 = some room ∧ (5 : SessionID) ∈ room.members := by
  have h : Reachable (enrollSession ∅ 5 [] ⟨0⟩) := Reachable.default.enroll [] ⟨0⟩ rfl
  have h := h.move (show moveSession _ 5 7 = _ from rfl)
  have h := h.move (show moveSession _ 5 0 = _ from rfl)
  exact ⟨_,h,rfl,(memberships h).1 5 ⟨0,[],⟨0⟩⟩ rfl⟩

end Atof.Server.RoutingTable
