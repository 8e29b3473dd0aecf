import Atof.Projection
import Atof.Tasks

/-!
# The life of a session

The control task keeps a session in one table until it authenticates and in another
after that. A message moves the session it names and no other, so where a session
stands is a fold over its own messages, in whatever order those of other sessions
came between.
-/
namespace Atof.Server
open Rust Control Projection

/-- Which of the two tables hold a session. -/
@[ext] structure Standing where
  unauth : Bool
  held : Bool
  deriving DecidableEq, Repr

def Standing.absent : Standing := ⟨false,false⟩

def ControlState.standing (c : ControlState) (sessionId : SessionID) : Standing :=
  ⟨(c.unauth.lookup sessionId).isSome,c.rtbl.holdsSession sessionId⟩

/-- The session a message is about. -/
def ControlMessage.sessionId : ControlMessage → Option SessionID
  | .packet id _ => some id
  | .addSession id _ => some id
  | .removeSession id => some id
  | .shutdown => none

/-- What a message makes of the session it is about. Only the first packet of a session
counts, and a session is removed from one table, the first if it is there. -/
def Standing.after (s : Standing) : ControlMessage → Standing
  | .packet _ packet => if s.held then s else ⟨false,s.unauth && isAuthenticate packet⟩
  | .addSession _ _ => ⟨true,s.held⟩
  | .removeSession _ => ⟨false,s.unauth && s.held⟩
  | .shutdown => s

/-! ## One message -/

namespace RoutingTable

theorem holdsSession_enrollSession (t : RoutingTable) (sessionId : SessionID) (version : Version)
    (sender : Sender) (id : SessionID) : (t.enrollSession sessionId version sender).holdsSession id =
      (decide (id = sessionId) || t.holdsSession id) := by
  simp [holdsSession, enrollSession]

theorem sessions_expelSession {t t' : RoutingTable} {sessionId : SessionID}
    (h : t.expelSession sessionId = .ok (.ok (),t')) : t'.sessions = t.sessions.erase sessionId := by
  unfold expelSession at h
  split at h
  · cases h
  · obtain ⟨rooms,-,h⟩ := bind_eq_ok.mp h
    cases h
    rfl

theorem holdsSession_expelSession {t t' : RoutingTable} {sessionId : SessionID}
    (h : t.expelSession sessionId = .ok (.ok (),t')) (id : SessionID) :
    t'.holdsSession id = (decide (id ≠ sessionId) && t.holdsSession id) := by
  simp [holdsSession, sessions_expelSession h, AList.mem_erase]

theorem holdsSession_of_refused {t t' : RoutingTable} {sessionId : SessionID} {e : Error}
    (h : t.expelSession sessionId = .ok (.error e,t')) : t.holdsSession sessionId = false := by
  rw [← Bool.not_eq_true, holdsSession_iff]
  rintro ⟨session,hs⟩
  simp only [expelSession, hs] at h
  obtain ⟨rooms,-,h⟩ := bind_eq_ok.mp h
  cases h

end RoutingTable

section
variable {message : ControlMessage} {c c' : ControlState} {control control' : Channel ControlMessage}
  {routing routing' : Channel RoutingMessage} {id : SessionID}

/-- The session named is moved as its standing says. -/
theorem handleControl_standing_self
    (h : handleControl message c control routing = .ok (c',control',routing'))
    (hid : message.sessionId = some id) : c'.standing id = (c.standing id).after message := by
  cases handleControl_handled h with
  | known held =>
      cases hid
      simp [Standing.after, ControlState.standing, held]
  | unknown unheld absent =>
      cases hid
      simp [Standing.after, ControlState.standing, unheld, absent]
  | enrolled unheld waiting authenticates isOpen =>
      cases hid
      simp [Standing.after, ControlState.standing, unheld, waiting, authenticates,
        RoutingTable.holdsSession_enrollSession]
  | dropped unheld waiting bad =>
      cases hid
      simp [Standing.after, ControlState.standing, unheld, bad]
  | added =>
      cases hid
      simp [Standing.after, ControlState.standing]
  | withdrawn waiting =>
      cases hid
      simp [Standing.after, ControlState.standing, waiting]
  | refused absent returned =>
      cases hid
      simp [Standing.after, ControlState.standing, absent,
        RoutingTable.holdsSession_of_refused returned]
  | expelled absent returned isOpen =>
      cases hid
      simp [Standing.after, ControlState.standing, absent,
        RoutingTable.holdsSession_expelSession returned]
  | shutdown => cases hid

/-- Every other session stays where it is. -/
theorem handleControl_standing_other
    (h : handleControl message c control routing = .ok (c',control',routing'))
    (hid : message.sessionId ≠ some id) : c'.standing id = c.standing id := by
  have hne {id' : SessionID} (hn : some id' ≠ some id) : id ≠ id' := fun he => hn (congrArg some he.symm)
  cases handleControl_handled h with
  | enrolled unheld waiting authenticates isOpen =>
      simp [ControlState.standing, hne hid, RoutingTable.holdsSession_enrollSession]
  | dropped unheld waiting bad | withdrawn waiting =>
      simp [ControlState.standing, hne hid]
  | added => simp [ControlState.standing, hne hid]
  | expelled absent returned isOpen =>
      simp [ControlState.standing, RoutingTable.holdsSession_expelSession returned, hne hid]
  | known held => rfl
  | unknown unheld absent => rfl
  | refused absent returned => rfl
  | shutdown => rfl

theorem handleControl_standing
    (h : handleControl message c control routing = .ok (c',control',routing')) (id : SessionID) :
    c'.standing id = if message.sessionId = some id then (c.standing id).after message
      else c.standing id := by
  split
  · next hid => exact handleControl_standing_self h hid
  · next hid => exact handleControl_standing_other h hid

end

/-! ## A run of the control task -/

/-- One message handled, whatever is in the queues. -/
def ControlStep (c : ControlState) (message : ControlMessage) (c' : ControlState) : Prop :=
  ∃ control control' routing routing',
    handleControl message c control routing = .ok (c',control',routing')

/-- The control task started, and then handled these messages. -/
def Reaches (ms : List ControlMessage) (c : ControlState) : Prop :=
  Steps ControlStep ⟨∅,∅⟩ ms c

/-- The messages that tell one session's story. -/
def storyOf (sessionId : SessionID) (ms : List ControlMessage) : List ControlMessage :=
  ms.filter fun m => m.sessionId = some sessionId

/-- Each session sends a registration, packets and a removal in this order, and this far. -/
def Interleaved (ms : List ControlMessage) : Prop :=
  ∀ sessionId, ∃ session, ∃ packets : List (ControlPacket .serverbound), storyOf sessionId ms <+:
    .addSession sessionId session :: (packets.map (.packet sessionId) ++ [.removeSession sessionId])

theorem Reaches.standing {ms : List ControlMessage} {c : ControlState} (h : Reaches ms c)
    (id : SessionID) : c.standing id = (storyOf id ms).foldl Standing.after .absent := by
  rw [storyOf, ← replay_eq_foldl ControlMessage.sessionId]
  refine Steps.view ControlState.standing ?_ h id
  rintro c m c' ⟨_,_,_,_,hstep⟩ k
  exact handleControl_standing hstep k

/-- The packets a session sent. -/
def packetsOf (sessionId : SessionID) (ms : List ControlMessage) :
    List (ControlPacket .serverbound) :=
  ms.filterMap fun
    | .packet id packet => if id = sessionId then some packet else none
    | _ => none

theorem mem_storyOf {id : SessionID} {ms : List ControlMessage} {m : ControlMessage}
    (hm : m.sessionId = some id) : m ∈ storyOf id ms ↔ m ∈ ms := by
  simp [storyOf, hm]

theorem packetsOf_storyOf (id : SessionID) (ms : List ControlMessage) :
    packetsOf id (storyOf id ms) = packetsOf id ms := by
  rw [packetsOf, storyOf, List.filterMap_filter]
  refine List.filterMap_congr fun m _ => ?_
  cases m <;> simp [ControlMessage.sessionId]

theorem packetsOf_map (id : SessionID) (packets : List (ControlPacket .serverbound)) :
    packetsOf id (packets.map (.packet id)) = packets := by
  simp [packetsOf, List.filterMap_map]

/-- How far a story can have come. -/
theorem Interleaved.story {ms : List ControlMessage} (h : Interleaved ms) (id : SessionID) :
    storyOf id ms = [] ∨ ∃ session, ∃ packets : List (ControlPacket .serverbound),
      storyOf id ms = .addSession id session :: packets.map (.packet id) ∨
      storyOf id ms = .addSession id session :: packets.map (.packet id) ++ [.removeSession id] := by
  obtain ⟨session,packets,hpre⟩ := h id
  rcases List.prefix_cons_iff.mp hpre with hnil | ⟨rest,heq,hrest⟩
  · exact Or.inl hnil
  refine Or.inr ⟨session,?_⟩
  rcases List.prefix_concat_iff.mp hrest with hall | hsome
  · exact ⟨packets,Or.inr (by rw [heq, hall]; rfl)⟩
  · refine ⟨packets.take rest.length,Or.inl ?_⟩
    rw [heq, List.map_take, ← List.prefix_iff_eq_take.mp hsome]

/-- Later packets change nothing. -/
theorem foldl_packets (id : SessionID) (held : Bool) (packets : List (ControlPacket .serverbound)) :
    (packets.map (ControlMessage.packet id)).foldl Standing.after ⟨false,held⟩ = ⟨false,held⟩ := by
  induction packets with
  | nil => rfl
  | cons packet packets ih =>
      rw [List.map_cons, List.foldl_cons]
      have hafter : Standing.after ⟨false,held⟩ (.packet id packet) = ⟨false,held⟩ := by
        cases held <;> rfl
      rw [hafter, ih]

/-- A session waits for its first packet, which decides. -/
theorem foldl_registered (id : SessionID) (session : UnAuthSession)
    (packets : List (ControlPacket .serverbound)) :
    (ControlMessage.addSession id session :: packets.map (.packet id)).foldl Standing.after .absent =
      ⟨packets.head?.isNone,packets.head?.any isAuthenticate⟩ := by
  cases packets with
  | nil => rfl
  | cons packet packets => exact foldl_packets id (isAuthenticate packet) packets

/-- A removal leaves nothing of a session that was in one table at most. -/
theorem foldl_removed (id : SessionID) (session : UnAuthSession)
    (packets : List (ControlPacket .serverbound)) :
    (ControlMessage.addSession id session :: packets.map (.packet id) ++
      [ControlMessage.removeSession id]).foldl Standing.after .absent = .absent := by
  rw [List.foldl_append, foldl_registered]
  cases packets <;> rfl

/-- Where a session stands says what of its story was handled, and the other way
round. -/
theorem lifecycle {ms : List ControlMessage} {c : ControlState} (h : Reaches ms c)
    (hms : Interleaved ms) (id : SessionID) :
    ¬ (id ∈ c.unauth ∧ c.rtbl.holdsSession id = true) ∧
    (id ∈ c.unauth ↔ (∃ session, .addSession id session ∈ ms) ∧
      (∀ packet, .packet id packet ∉ ms) ∧ .removeSession id ∉ ms) ∧
    (c.rtbl.holdsSession id = true ↔ (∃ session, .addSession id session ∈ ms) ∧
      (∃ packet, (packetsOf id ms).head? = some packet ∧ isAuthenticate packet = true) ∧
      .removeSession id ∉ ms) := by
  have hstanding := h.standing id
  have hunauth : id ∈ c.unauth ↔ (c.standing id).unauth = true := AList.lookup_isSome.symm
  have hheld : c.rtbl.holdsSession id = (c.standing id).held := rfl
  have hadd (session) : .addSession id session ∈ storyOf id ms ↔ .addSession id session ∈ ms :=
    mem_storyOf rfl
  have hpacket (packet) : .packet id packet ∈ storyOf id ms ↔ .packet id packet ∈ ms :=
    mem_storyOf rfl
  have hremove : .removeSession id ∈ storyOf id ms ↔ .removeSession id ∈ ms := mem_storyOf rfl
  rw [hunauth, hheld, hstanding, ← packetsOf_storyOf]
  simp only [← hadd, ← hpacket, ← hremove]
  rcases hms.story id with hs | ⟨session,packets,hs | hs⟩
  · simp [hs, Standing.absent]
  · have hpackets : packetsOf id (storyOf id ms) = packets := by
      rw [hs]
      exact packetsOf_map id packets
    rw [hpackets, hs, foldl_registered]
    cases packets with
    | nil => simp
    | cons packet packets =>
        simp
        exact ⟨packet,fun hne => absurd rfl hne⟩
  · rw [hs, foldl_removed]
    simp [Standing.absent]

/-- Two sessions; the first authenticates between the second's registration and its
first packet, which is a bad one. -/
def twoSessions : List ControlMessage :=
  [.addSession 3 ⟨[],⟨3⟩⟩, .addSession 5 ⟨[],⟨5⟩⟩, .packet 3 (.message .authenticate []),
    .packet 5 (.message .version [])]

theorem interleaved_two : Interleaved twoSessions := by
  intro id
  by_cases h3 : id = 3
  · subst h3
    exact ⟨⟨[],⟨3⟩⟩,[.message .authenticate []],by decide⟩
  by_cases h5 : id = 5
  · subst h5
    exact ⟨⟨[],⟨5⟩⟩,[.message .version []],by decide⟩
  · have hother (k : SessionID) (hk : id ≠ k) : ¬ some k = some id :=
      fun he => hk (Option.some.inj he).symm
    have hnil : storyOf id twoSessions = [] := by
      simp only [storyOf, twoSessions, List.filter_cons, List.filter_nil, ControlMessage.sessionId,
        decide_eq_true_eq, hother 3 h3, hother 5 h5, if_false]
    exact ⟨⟨[],⟨0⟩⟩,[],hnil ▸ List.nil_prefix⟩

theorem lifecycle_two : ∃ ms c, Reaches ms c ∧
    ¬ ((3 : SessionID) ∈ c.unauth ∧ c.rtbl.holdsSession 3 = true) ∧
    ((3 : SessionID) ∈ c.unauth ↔ (∃ session, .addSession 3 session ∈ ms) ∧
      (∀ packet, .packet 3 packet ∉ ms) ∧ .removeSession 3 ∉ ms) ∧
    (c.rtbl.holdsSession 3 = true ↔ (∃ session, .addSession 3 session ∈ ms) ∧
      (∃ packet, (packetsOf 3 ms).head? = some packet ∧ isAuthenticate packet = true) ∧
      .removeSession 3 ∉ ms) := by
  have h : Reaches _ _ := Steps.nil
  have h : Reaches _ _ := h.snoc (m := .addSession 3 ⟨[],⟨3⟩⟩) ⟨⟨[],true⟩,_,⟨[],true⟩,_,rfl⟩
  have h : Reaches _ _ := h.snoc (m := .addSession 5 ⟨[],⟨5⟩⟩) ⟨⟨[],true⟩,_,⟨[],true⟩,_,rfl⟩
  have h : Reaches _ _ := h.snoc (m := .packet 3 (.message .authenticate []))
    ⟨⟨[],true⟩,_,⟨[],true⟩,_,rfl⟩
  have h : Reaches _ _ := h.snoc (m := .packet 5 (.message .version []))
    ⟨⟨[],true⟩,_,⟨[],true⟩,_,rfl⟩
  have h : Reaches twoSessions _ := h
  exact ⟨_,_,h,lifecycle h interleaved_two 3⟩

end Atof.Server
