import Atof.ControlPacket
import Mathlib.Data.List.AList

/-!
# The routing table

Sessions by id, each in one room, and rooms by id, each with its members. A map is
an association list with unique keys; the order in which a map or a set is walked
is not specified by the source, and here it is the order of the list. A sender is
the handle of a session task's inbound queue, told apart by the task's number.
-/
namespace Atof.Server
open Rust Control

abbrev HashMap (K V : Type) := AList fun _ : K => V

abbrev HashSet (K : Type) := HashMap K Unit

abbrev SessionID := U32
abbrev RoomID := U32

/-- `USender<ControlPacket<Clientbound>>`. -/
structure Sender where
  queue : ℕ
  deriving DecidableEq, Repr

/-- The version message a client introduced itself with. -/
abbrev Version := Bytes

structure Session where
  roomId : RoomID
  version : Version
  sender : Sender
  deriving DecidableEq, Repr

structure Room where
  members : HashSet SessionID
  deriving DecidableEq

structure RoutingTable where
  sessions : HashMap SessionID Session
  rooms : HashMap RoomID Room
  deriving DecidableEq

/-- `anyhow::Error::msg`. A packet that the text ends with is kept as it is. -/
structure Error where
  text : String
  packet : Option (ControlPacket .serverbound)
  deriving DecidableEq

def unknownSession (sessionId : SessionID) : Error :=
  ⟨"unknown session " ++ toString sessionId.toNat, none⟩

namespace RoutingTable

instance : EmptyCollection Room := ⟨⟨∅⟩⟩

/-- `RoutingTable::default`. -/
instance : EmptyCollection RoutingTable := ⟨⟨∅, ∅⟩⟩

def holdsSession (t : RoutingTable) (sessionId : SessionID) : Bool := sessionId ∈ t.sessions

/-- `entry(room_id).or_insert(Room::default()).members.insert(session_id)`. -/
def addMember (rooms : HashMap RoomID Room) (roomId : RoomID) (sessionId : SessionID) :
    HashMap RoomID Room :=
  let room := (rooms.lookup roomId).getD ∅
  rooms.insert roomId ⟨room.members.insert sessionId ()⟩

/-- `get_mut(&room_id).expect("bad memberships").members.remove(&session_id)`. -/
def removeMember (rooms : HashMap RoomID Room) (roomId : RoomID) (sessionId : SessionID) :
    Checked (HashMap RoomID Room) :=
  match rooms.lookup roomId with
  | none => .error .explicit
  | some room => .ok (rooms.insert roomId ⟨room.members.erase sessionId⟩)

def enrollSession (t : RoutingTable) (sessionId : SessionID) (version : Version)
    (sender : Sender) : RoutingTable :=
  let roomId : RoomID := 0
  { sessions := t.sessions.insert sessionId ⟨roomId, version, sender⟩
    rooms := addMember t.rooms roomId sessionId }

def expelSession (t : RoutingTable) (sessionId : SessionID) :
    Checked (Except Error Unit × RoutingTable) :=
  match t.sessions.lookup sessionId with
  | none => .ok (.error (unknownSession sessionId), t)
  | some session => do
      let rooms ← removeMember t.rooms session.roomId sessionId
      return (.ok (), { sessions := t.sessions.erase sessionId, rooms })

/-- `_move_session`, which nothing calls yet. -/
def moveSession (t : RoutingTable) (sessionId : SessionID) (destRoomId : RoomID) :
    Checked (Except Error Unit × RoutingTable) :=
  match t.sessions.lookup sessionId with
  | none => .ok (.error (unknownSession sessionId), t)
  | some session => do
      let rooms ← removeMember t.rooms session.roomId sessionId
      return (.ok (),
        { sessions := t.sessions.insert sessionId { session with roomId := destRoomId }
          rooms := addMember rooms destRoomId sessionId })

def sender (t : RoutingTable) (sessionId : SessionID) : Option Sender :=
  (t.sessions.lookup sessionId).map Session.sender

def roomId (t : RoutingTable) (sessionId : SessionID) : Except Error RoomID :=
  match t.sessions.lookup sessionId with
  | none => .error (unknownSession sessionId)
  | some session => .ok session.roomId

/-- The room is unwrapped when the iterator is made. -/
def roomSenders (t : RoutingTable) (roomId : RoomID) (exclude : Option SessionID) :
    Checked (List Sender) :=
  match t.rooms.lookup roomId with
  | none => .error .explicit
  | some room => .ok (room.members.keys.filterMap fun sessionId =>
      if exclude = some sessionId then none else t.sender sessionId)

def targetSenders (t : RoutingTable) (sessionId : SessionID) (target : U8) :
    Checked (Except Error (List Sender)) :=
  if target = 0 then
    match t.roomId sessionId with
    | .error e => .ok (.error e)
    | .ok roomId => (t.roomSenders roomId (some sessionId)).map .ok
  else .error .explicit

/-! ## Changes -/

theorem holdsSession_iff (t : RoutingTable) (sessionId : SessionID) :
    t.holdsSession sessionId = true ↔ ∃ session, t.sessions.lookup sessionId = some session := by
  rw [holdsSession, decide_eq_true_iff, ← AList.lookup_isSome, Option.isSome_iff_exists]

/-- Enrolling a session that is not held changes the table. -/
theorem enrollSession_ne {t : RoutingTable} {sessionId : SessionID} (version : Version)
    (sender : Sender) (h : t.holdsSession sessionId = false) :
    t.enrollSession sessionId version sender ≠ t := by
  intro he
  have hmem : (t.enrollSession sessionId version sender).holdsSession sessionId = true := by
    simp [holdsSession, enrollSession]
  rw [he, h] at hmem
  cases hmem

/-- Expelling either refuses and changes nothing, or removes a session that was held. -/
theorem expelSession_spec {t t' : RoutingTable} {sessionId : SessionID} {r : Except Error Unit}
    (h : t.expelSession sessionId = .ok (r,t')) :
    (r = .error (unknownSession sessionId) ∧ t' = t) ∨
      (r = .ok () ∧ t.holdsSession sessionId = true ∧ t'.holdsSession sessionId = false) := by
  unfold expelSession at h
  split at h
  · cases h
    exact Or.inl ⟨rfl,rfl⟩
  · next session hs =>
      obtain ⟨rooms,-,h⟩ := bind_eq_ok.mp h
      cases h
      refine Or.inr ⟨rfl,(holdsSession_iff _ _).mpr ⟨session,hs⟩,?_⟩
      simp [holdsSession]

/-- A session the table does not hold gets no audio relayed. -/
theorem targetSenders_held {t : RoutingTable} {sessionId : SessionID} {target : U8}
    {senders : List Sender} (h : t.targetSenders sessionId target = .ok (.ok senders)) :
    t.holdsSession sessionId = true := by
  unfold targetSenders roomId at h
  cases hs : t.sessions.lookup sessionId with
  | some session => exact (holdsSession_iff _ _).mpr ⟨session,hs⟩
  | none =>
      rw [hs] at h
      split at h <;> cases h

end RoutingTable
end Atof.Server
