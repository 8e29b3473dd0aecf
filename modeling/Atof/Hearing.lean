import Atof.Origins
import Atof.Owners
import Atof.Panics

/-!
# What one session hears of another

Audio reaches a session when the routing task takes it from the queue and its table has
speaker and listener in one room. The room lists each member once and each member has one
handle, so every such packet is pushed to the listener once, in the order in which the
routing task takes them, which is the order in which they were sent.
-/
namespace Atof.Server
open Rust Voice Control Fifo

/-- Both sessions are held, and in the same room. -/
def RoutingTable.Together (t : RoutingTable) (a b : SessionID) : Prop :=
  t.room a ≠ none ∧ t.room a = t.room b

instance (t : RoutingTable) (a b : SessionID) : Decidable (t.Together a b) :=
  inferInstanceAs (Decidable (_ ∧ _))

/-- Audio for the speaker's own room, as its peers are to get it. -/
def RoutingMessage.audioOf (a : SessionID) : RoutingMessage → Option (VoicePacket .clientbound)
  | .voice sessionId (.audio target _ seqNum payload positionInfo) =>
      if sessionId = a ∧ target = 0 then
        some (.audio target sessionId seqNum payload positionInfo)
      else none
  | _ => none

def Event.audioOf (a : SessionID) : Event → Option (VoicePacket .clientbound)
  | .dequeue message => message.audioOf a
  | _ => none

/-- Audio that says it comes from `a`, pushed to the queue of a task with the id `b`. -/
def Event.hears (a b : SessionID) : Event → Option (VoicePacket .clientbound)
  | .push _ ⟨recipient,.udpTunnel packet⟩ =>
      if sessionId recipient.queue = b ∧ origin (.udpTunnel packet) = some a then some packet
      else none
  | _ => none

/-- What is offered to `b` of what `a` says. -/
def heard (a b : SessionID) (ts : List Transition) : List (VoicePacket .clientbound) :=
  ts.flatMap fun t => t.events.filterMap (Event.hears a b)

/-- What `a` says, as the routing task takes it while its table has both in one room. -/
def spoken (a b : SessionID) (ts : List Transition) : List (VoicePacket .clientbound) :=
  ts.flatMap fun t =>
    if t.before.routingTable.Together a b then t.events.filterMap (Event.audioOf a) else []

/-- What the clients of `a` have sent. -/
def said (a : SessionID) (ts : List Transition) : List (VoicePacket .clientbound) :=
  (posted ts).filterMap (RoutingMessage.audioOf a)

/-! ## One message -/

theorem filterMap_singleton {α β : Type} [DecidableEq α] {l : List α} (hl : l.Nodup) (b : α) (y : β) :
    l.filterMap (fun x => if x = b then some y else none) = if b ∈ l then [y] else [] := by
  induction l with
  | nil => rfl
  | cons x l ih =>
      obtain ⟨hx,hl⟩ := List.nodup_cons.mp hl
      by_cases hxb : x = b
      · subst hxb
        simp [ih hl, hx]
      · simp [ih hl, hxb, Ne.symm hxb]

/-- Each member of a room is found once, by its own handle. -/
theorem members_found {t : RoutingTable} {spawned : ℕ} (hc : t.Consistent) (ho : t.Owned spawned)
    {roomId : RoomID} {room : Room} (hr : t.rooms.lookup roomId = some room) {a b : SessionID}
    (hab : a ≠ b) (packet : VoicePacket .clientbound) :
    (room.members.keys.filterMap fun id => if some a = some id then none else t.sender id).filterMap
        (fun sender => if sessionId sender.queue = b then some packet else none) =
      if t.room b = some roomId then [packet] else [] := by
  have hmember : b ∈ room.members.keys ↔ t.room b = some roomId :=
    (RoutingTable.isMember_iff_of_lookup hr b).symm.trans (hc roomId b)
  rw [List.filterMap_filterMap]
  have hkeys : ∀ id ∈ room.members.keys,
      ((if some a = some id then none else t.sender id).bind fun sender =>
        if sessionId sender.queue = b then some packet else none) =
      if id = b then some packet else none := by
    intro id hid
    have hroom := (hc roomId id).mp ((RoutingTable.isMember_iff_of_lookup hr id).mpr hid)
    obtain ⟨session,hs,-⟩ := Option.map_eq_some_iff.mp hroom
    have hsender : t.sender id = some session.sender := by rw [RoutingTable.sender, hs]; rfl
    by_cases hia : a = id
    · rw [if_pos (congrArg some hia), if_neg (hia ▸ hab), Option.bind_none]
    · rw [if_neg (by simpa using hia), hsender, Option.bind_some, ← (ho id session hs).2]
  rw [List.filterMap_congr hkeys, filterMap_singleton room.members.keys_nodup]
  simp only [hmember]

theorem audioOf_routingEvents (a : SessionID) (message : RoutingMessage) (ds : List Delivery) :
    (routingEvents message ds).filterMap (Event.audioOf a) = [message].filterMap (RoutingMessage.audioOf a) := by
  have hpush (id : SessionID) : (ds.map (Event.push id)).filterMap (Event.audioOf a) = [] := by
    simp [Event.audioOf]
  cases message <;> simp [routingEvents, Event.audioOf, hpush, List.filterMap_cons]

/-- The peers of a speaker are looked up in its room. -/
theorem targetSenders_of_room {t : RoutingTable} (hc : t.Consistent) {a : SessionID} {roomId : RoomID}
    (h : t.room a = some roomId) : ∃ room, t.rooms.lookup roomId = some room ∧
      t.targetSenders a 0 = .ok (.ok (room.members.keys.filterMap fun id =>
        if some a = some id then none else t.sender id)) := by
  obtain ⟨room,hr,-⟩ := (hc roomId a).mpr h
  obtain ⟨session,hs,rfl⟩ := Option.map_eq_some_iff.mp h
  refine ⟨room,hr,?_⟩
  simp [RoutingTable.targetSenders, RoutingTable.roomId, hs, RoutingTable.roomSenders, hr, Except.map]

theorem targetSenders_of_nowhere {t : RoutingTable} {a : SessionID} (h : t.room a = none) :
    t.targetSenders a 0 = .ok (.error (unknownSession a)) := by
  have hs : t.sessions.lookup a = none := Option.map_eq_none_iff.mp h
  simp [RoutingTable.targetSenders, RoutingTable.roomId, hs]

/-- Every peer gets the packet with the speaker's id. -/
theorem handleRouting_audio {t : RoutingTable} {id : SessionID} {target : U8} {session : VoicePacketDst.serverbound.SessionId}
    {seqNum : U64} {payload : VoicePacketPayload} {positionInfo : Option Bytes}
    {routing : Channel RoutingMessage} {r : Except Error (List Sender)}
    (h : t.targetSenders id target = .ok r) :
    (handleRouting (.voice id (.audio target session seqNum payload positionInfo)) t routing).1 =
      (r.toOption.getD []).map fun peerSender =>
        ⟨peerSender,.udpTunnel (.audio target id seqNum payload positionInfo)⟩ := by
  simp only [handleRouting, h]
  cases r <;> rfl

theorem hears_voice {t : RoutingTable} {a b id : SessionID}
    {packet : VoicePacket .serverbound} (routing : Channel RoutingMessage) :
    (routingEvents (.voice id packet) (handleRouting (.voice id packet) t routing).1).filterMap
        (Event.hears a b) =
      (handleRouting (.voice id packet) t routing).1.filterMap fun d =>
        Event.hears a b (.push id d) := by
  simp [routingEvents, Event.hears, List.filterMap_cons, Function.comp_def]

/-- The speaker's packet is pushed to the members of its room. -/
theorem hears_spoken {t : RoutingTable} {spawned : ℕ} (hc : t.Consistent) (ho : t.Owned spawned)
    {a b : SessionID} (hab : a ≠ b) {session : VoicePacketDst.serverbound.SessionId} {seqNum : U64}
    {payload : VoicePacketPayload} {positionInfo : Option Bytes} (routing : Channel RoutingMessage) :
    ((handleRouting (.voice a (.audio 0 session seqNum payload positionInfo)) t routing).1.filterMap
        fun d => Event.hears a b (.push a d)) =
      if t.Together a b then [.audio 0 a seqNum payload positionInfo] else [] := by
  let relayed : VoicePacket .clientbound := .audio 0 a seqNum payload positionInfo
  have hpush (peer : Sender) : Event.hears a b (.push a ⟨peer,.udpTunnel relayed⟩) =
      if sessionId peer.queue = b then some relayed else none := by
    simp [Event.hears, origin, relayed]
  cases hroom : t.room a with
  | none =>
      rw [handleRouting_audio (targetSenders_of_nowhere hroom), if_neg fun ht => ht.1 hroom]
      rfl
  | some roomId =>
      obtain ⟨room,hr,hsenders⟩ := targetSenders_of_room hc hroom
      rw [handleRouting_audio hsenders, List.filterMap_map]
      have htogether : t.Together a b ↔ t.room b = some roomId := by
        simp [RoutingTable.Together, hroom, eq_comm]
      simp only [htogether]
      rw [← members_found hc ho hr hab relayed]
      exact List.filterMap_congr fun peer _ => hpush peer

/-- Others' packets are pushed with their ids, and other targets are looked up in vain. -/
theorem hears_unspoken {t : RoutingTable} {a b id : SessionID} {target : U8}
    (hspeaks : ¬ (id = a ∧ target = 0)) {session : VoicePacketDst.serverbound.SessionId}
    {seqNum : U64} {payload : VoicePacketPayload} {positionInfo : Option Bytes}
    (routing : Channel RoutingMessage) :
    ((handleRouting (.voice id (.audio target session seqNum payload positionInfo)) t
      routing).1.filterMap fun d => Event.hears a b (.push id d)) = [] := by
  rw [List.filterMap_eq_nil_iff]
  intro d hd
  rw [show d = ⟨d.recipient,d.packet⟩ from rfl, mem_handleRouting_audio hd]
  refine if_neg fun hboth => hspeaks ⟨Option.some.inj hboth.2,?_⟩
  by_contra htarget
  simp only [handleRouting, RoutingTable.targetSenders, if_neg htarget] at hd
  cases hd

/-- What one message makes the listener hear is what the speaker says with it. -/
theorem hears_routingEvents {t : RoutingTable} {spawned : ℕ} (hc : t.Consistent)
    (ho : t.Owned spawned) {a b : SessionID} (hab : a ≠ b) (message : RoutingMessage)
    (routing : Channel RoutingMessage) :
    (routingEvents message (handleRouting message t routing).1).filterMap (Event.hears a b) =
      if t.Together a b then [message].filterMap (RoutingMessage.audioOf a) else [] := by
  cases message with
  | update rtbl => simp [routingEvents, Event.hears, RoutingMessage.audioOf, List.filterMap_cons]
  | shutdown => simp [routingEvents, Event.hears, RoutingMessage.audioOf, List.filterMap_cons]
  | text id text =>
      simp [routingEvents, handleRouting, Event.hears, RoutingMessage.audioOf, List.filterMap_cons]
  | voice id packet =>
      rw [hears_voice routing]
      cases packet with
      | ping timestamp => simp [handleRouting, RoutingMessage.audioOf, List.filterMap_cons]
      | audio target session seqNum payload positionInfo =>
          by_cases hspeaks : id = a ∧ target = 0
          · obtain ⟨rfl,rfl⟩ := hspeaks
            rw [hears_spoken hc ho hab routing]
            simp [RoutingMessage.audioOf]
          · have hnothing : [RoutingMessage.voice id (.audio target session seqNum payload
                positionInfo)].filterMap (RoutingMessage.audioOf a) = [] :=
              List.filterMap_cons_none (if_neg hspeaks)
            rw [hears_unspoken hspeaks routing, hnothing, ite_self]

/-! ## Runs -/

/-- What the speaker says to its room does not make the routing task panic, so the message
is taken. -/
theorem Step.audioOf_taken {s s' : State} {events : List Event} (h : Step s events s')
    (hc : s.routingTable.Consistent) (a : SessionID) :
    (events.filterMap (Event.audioOf a)).Sublist
      ((takes s.routing.queue s'.routing.queue).filterMap (RoutingMessage.audioOf a)) := by
  cases h with
  | @routing message rest ds routingTable routing running queued handled =>
      obtain ⟨-,hqueue,-⟩ := handleRouting_table (congrArg Prod.snd handled)
      obtain ⟨inbound,he⟩ := State.deliverAll_eq { s with routingTable, routing } ds
      have htake : takes s.routing.queue routing.queue = [message] := by
        rw [queued, hqueue, takes_cons]
      rw [he, audioOf_routingEvents]
      exact (htake ▸ List.Sublist.refl _)
  | @routingPanics message rest ds panic running queued failed =>
      have hsilent : message.audioOf a = none := by
        rw [Option.eq_none_iff_forall_ne_some]
        intro packet hspeaks
        unfold RoutingMessage.audioOf at hspeaks
        split at hspeaks
        · next id target session seqNum payload positionInfo =>
            obtain ⟨-,rfl⟩ : id = a ∧ target = 0 := by
              by_contra hn
              rw [if_neg hn] at hspeaks
              cases hspeaks
            simp only [handleRouting] at failed
            rcases RoutingTable.targetSenders_zero hc id with ⟨-,senders,hs⟩ | ⟨-,hs⟩
            · rw [hs] at failed
              cases congrArg Prod.snd failed
            · rw [hs] at failed
              cases congrArg Prod.snd failed
        · cases hspeaks
      rw [audioOf_routingEvents, List.filterMap_cons_none hsilent]
      exact List.nil_sublist _
  | _ => exact List.nil_sublist _

theorem Step.hears {s s' : State} {events : List Event} (h : Step s events s')
    (hc : s.routingTable.Consistent) {spawned : ℕ} (ho : s.routingTable.Owned spawned)
    {a b : SessionID} (hab : a ≠ b) : events.filterMap (Event.hears a b) =
      if s.routingTable.Together a b then events.filterMap (Event.audioOf a) else [] := by
  obtain he | ⟨message,rest,-,he⟩ := h.dequeues
  · rw [he, List.filterMap_nil, List.filterMap_nil, ite_self]
  · rw [he, hears_routingEvents hc ho hab, audioOf_routingEvents]

theorem Run.hears_spoken {ts : List Transition} {s : State} (h : Run ts s) {a b : SessionID}
    (hab : a ≠ b) : heard a b ts = spoken a b ts :=
  List.flatMap_congr fun t ht => by
    obtain ⟨ts₁,hrun,step,-⟩ := h.split_of_mem ht
    exact step.hears (TablesReachable.of_run hrun).routing.consistent hrun.owned_tables.1 hab

theorem Run.spoken_said {ts : List Transition} {s : State} (h : Run ts s) (a b : SessionID) :
    (spoken a b ts).Sublist (said a ts) := by
  have htaken : (spoken a b ts).Sublist ((received ts).filterMap (RoutingMessage.audioOf a)) := by
    rw [received, taken, List.filterMap_flatMap]
    refine List.Sublist.flatMap_right _ fun t ht => ?_
    obtain ⟨ts₁,hrun,step,-⟩ := h.split_of_mem ht
    split
    · exact step.audioOf_taken (TablesReachable.of_run hrun).routing.consistent a
    · exact List.nil_sublist _
  have hput : (received ts).Sublist (posted ts) := by
    rw [posted, ← h.routingTrace.balance]
    exact List.sublist_append_left _ _
  exact htaken.trans (hput.filterMap _)

/-- What the routing task offers to one session of another's audio is what it takes of it,
in order and each once, while both are in one room; and this is a part of what the other
session's clients have sent. -/
theorem heard_eq_spoken {ts : List Transition} {s : State} (h : Run ts s) {a b : SessionID}
    (hab : a ≠ b) :
    heard a b ts = spoken a b ts ∧ (heard a b ts).Sublist (said a ts) ∧
      ∀ t ∈ ts, ∀ packet, .voice a packet ∈ posted [t] →
        ∃ n, sessionId n = a ∧ Delivers t n (.udpTunnel packet) := by
  have hspoken := h.hears_spoken hab
  refine ⟨hspoken,hspoken ▸ h.spoken_said a b,fun t ht packet hput => ?_⟩
  obtain ⟨ts₁,-,step,-⟩ := h.split_of_mem ht
  have hforwards := step.forwards.2
  rw [posted, put_singleton] at hput
  generalize puts t.before.routing.queue t.after.routing.queue = ms at hput hforwards
  cases hforwards with
  | none => cases hput
  | @client n c m delivers message =>
      obtain rfl := List.mem_singleton.mp hput
      have hown : forwarded a (.udpTunnel packet) = some (.voice a packet) := rfl
      obtain ⟨hid,rfl⟩ := forwarded_inj message hown
      exact ⟨n,hid,delivers⟩
  | update => cases List.mem_singleton.mp hput
  | shutdown => cases List.mem_singleton.mp hput

/-- The first two clients authenticate, and the first speaks. -/
theorem heard_eq_spoken_pair : ∃ ts s, Run ts s ∧
    heard 0 1 ts = [.audio 0 (sessionId 0) 7 (.opus [1,2] true) none] ∧
    heard 0 1 ts = spoken 0 1 ts ∧ (heard 0 1 ts).Sublist (said 0 ts) ∧
      ∀ t ∈ ts, ∀ packet, .voice 0 packet ∈ posted [t] →
        ∃ n, sessionId n = 0 ∧ Delivers t n (.udpTunnel packet) := by
  have h := Run.nil.snoc (Step.connect rfl)
  have h := h.snoc (Step.connect rfl)
  have h := h.snoc (Step.greeted (n := 0) rfl)
  have h := h.snoc (Step.greeted (n := 1) rfl)
  have h := h.snoc (Step.registered (n := 0) [] rfl rfl)
  have h := h.snoc (Step.registered (n := 1) [] rfl rfl)
  have h := h.snoc (Step.packet (n := 0) (.message .authenticate []) trivial rfl)
  have h := h.snoc (Step.packet (n := 1) (.message .authenticate []) trivial rfl)
  have h := h.snoc (Step.control rfl rfl rfl)
  have h := h.snoc (Step.control rfl rfl rfl)
  have h := h.snoc (Step.control rfl rfl rfl)
  have h := h.snoc (Step.control rfl rfl rfl)
  have h := h.snoc (Step.voice (n := 0) (.audio 0 () 7 (.opus [1,2] true) none) rfl)
  have h := h.snoc (Step.routing rfl rfl rfl)
  have h := h.snoc (Step.routing rfl rfl rfl)
  have h := h.snoc (Step.routing rfl rfl rfl)
  exact ⟨_,_,h,rfl,heard_eq_spoken h (by decide)⟩

end Atof.Server
