import Atof.Owners
import Atof.Relay

/-!
# Who gets anything

What the control task has processed of one session is a registration, packets and a
removal, in this order, so its table holds the session from the first packet, if that
authenticates, to the removal. The routing task's table is one the control task has
had, and it installs them in the order in which they came up, so it holds no session
that was not held before and, once a table from after the removal is in, none that was
removed.
-/
namespace Atof.Server
open Rust Voice Control Projection Fifo

/-! ## What a session has told -/

/-- What a session can have told by the time its task is there. -/
def Story (id : SessionID) (ms : List ControlMessage) : SessionTask → Prop
  | .unborn | .greeting | .awaitingVersion => ms = []
  | .running | .writing => ∃ session, ∃ packets : List (ControlPacket .serverbound),
      ms = .addSession id session :: packets.map (.packet id)
  | .ended => ∃ session, ∃ packets : List (ControlPacket .serverbound),
      ms <+: .addSession id session :: (packets.map (.packet id) ++ [.removeSession id])

theorem Story.ended {id : SessionID} {ms : List ControlMessage} {t : SessionTask}
    (h : Story id ms t) : Story id ms .ended := by
  cases t with
  | unborn | greeting | awaitingVersion =>
      obtain rfl : ms = [] := h
      exact ⟨⟨[],⟨0⟩⟩,[],List.nil_prefix⟩
  | running | writing =>
      obtain ⟨session,packets,rfl⟩ := h
      exact ⟨session,packets,[.removeSession id],rfl⟩
  | ended => exact h

theorem storyOf_append (id : SessionID) (ms ms' : List ControlMessage) :
    storyOf id (ms ++ ms') = storyOf id ms ++ storyOf id ms' := List.filter_append ..

theorem storyOf_self {id : SessionID} {m : ControlMessage} (hm : m.sessionId = some id) :
    storyOf id [m] = [m] := List.filter_cons_of_pos (decide_eq_true hm)

theorem storyOf_other {id : SessionID} {m : ControlMessage} (hm : m.sessionId ≠ some id) :
    storyOf id [m] = [] := List.filter_cons_of_neg (by simpa using hm)

/-- What the sessions with different ids have told. -/
def Stories (s : State) (ms : List ControlMessage) : Prop :=
  ∀ n, n < 2 ^ 32 → Story (sessionId n) (storyOf (sessionId n) ms) (s.session n)

/-- A task that tells something goes on with its story, and the others' stay. -/
theorem Stories.tell {s s' : State} {ms : List ControlMessage} (h : Stories s ms) {n : ℕ}
    {m : ControlMessage} {t : SessionTask} (hn : n < 2 ^ 32) (hm : m.sessionId = some (sessionId n))
    (session : s'.session = Function.update s.session n t)
    (story : Story (sessionId n) (storyOf (sessionId n) ms ++ [m]) t) : Stories s' (ms ++ [m]) := by
  intro k hk
  rw [storyOf_append, session]
  by_cases hkn : k = n
  · subst hkn
    rwa [storyOf_self hm, Function.update_self]
  · have hother : m.sessionId ≠ some (sessionId k) := fun he =>
      hkn (sessionId_injective hk hn (Option.some.inj (he.symm.trans hm)))
    rw [storyOf_other hother, List.append_nil, Function.update_of_ne hkn]
    exact h k hk

theorem Stories.move {s s' : State} {ms : List ControlMessage} (h : Stories s ms) {n : ℕ}
    {t : SessionTask} (session : s'.session = Function.update s.session n t)
    (story : n < 2 ^ 32 → Story (sessionId n) (storyOf (sessionId n) ms) t) : Stories s' ms := by
  intro k hk
  rw [session]
  by_cases hkn : k = n
  · subst hkn
    rw [Function.update_self]
    exact story hk
  · rw [Function.update_of_ne hkn]
    exact h k hk

theorem Stories.registered {s : State} {ms : List ControlMessage} (h : Stories s ms) {n : ℕ}
    (hn : n < 2 ^ 32) (listens : s.Listens n) : ∃ session,
      ∃ packets : List (ControlPacket .serverbound), storyOf (sessionId n) ms =
        .addSession (sessionId n) session :: packets.map (.packet (sessionId n)) := by
  have hstory := h n hn
  rcases listens with hrunning | hwriting
  · rwa [hrunning] at hstory
  · rwa [hwriting] at hstory

theorem Step.stories {s s' : State} {events : List Event} (h : Step s events s')
    (hborn : ∀ n, s.session n ≠ .unborn → n < s.spawned) (hspawned : s'.spawned ≤ 2 ^ 32)
    {ms : List ControlMessage} (hs : Stories s ms) :
    Stories s' (ms ++ puts s.control.queue s'.control.queue) := by
  have hlt {n : ℕ} (hn : s.session n ≠ .unborn) : n < 2 ^ 32 :=
    (hborn n hn).trans_le (h.spawned_le.trans hspawned)
  have hspeech := h.speech.2
  generalize puts s.control.queue s'.control.queue = said at hspeech
  cases hspeech with
  | silent session spawned =>
      intro n hn
      rw [List.append_nil, session]
      exact hs n hn
  | shutdown session spawned =>
      intro n hn
      rw [storyOf_append, storyOf_other (by simp [ControlMessage.sessionId]), List.append_nil, session]
      exact hs n hn
  | connect session spawned =>
      rw [List.append_nil]
      refine hs.move session fun hn => ?_
      have hunborn : s.session s.spawned = .unborn := by
        by_contra hne
        exact (hborn _ hne).false
      have hstory := hs s.spawned hn
      rwa [hunborn] at hstory
  | @moved n t born on session spawned =>
      rw [List.append_nil]
      refine hs.move session fun hn => ?_
      rcases on with rfl | ⟨rfl,greeting⟩ | ⟨rfl | rfl,listens⟩
      · exact (hs n hn).ended
      · have hstory := hs n hn
        rwa [greeting] at hstory
      · exact hs.registered hn listens
      · exact hs.registered hn listens
  | @registered n version awaiting session spawned =>
      have hn := hlt (n := n) (by simp [awaiting])
      have hstory := hs n hn
      rw [awaiting] at hstory
      exact hs.tell hn rfl session ⟨_,[],by rw [hstory]; rfl⟩
  | @packet n packet running session spawned =>
      have hn := hlt (n := n) (by simp [running])
      obtain ⟨registration,packets,he⟩ := hs.registered hn (Or.inl running)
      refine hs.tell hn rfl (t := .running) ?_ ⟨registration,packets ++ [packet],?_⟩
      · rw [session, ← running, Function.update_eq_self]
      · rw [he, List.map_append]
        rfl
  | @left n listens session spawned =>
      have hn := hlt (n := n) (by rcases listens with hn | hn <;> simp [hn])
      obtain ⟨registration,packets,he⟩ := hs.registered hn listens
      exact hs.tell hn rfl session ⟨registration,packets,by rw [he]; exact List.prefix_refl _⟩

theorem Run.stories {ts : List Transition} {s : State} (h : Run ts s)
    (hspawned : s.spawned ≤ 2 ^ 32) : Stories s (told ts) := by
  induction h with
  | nil => exact fun n hn => rfl
  | @snoc ts s s' events run step ih =>
      rw [told, put_append, put_singleton]
      exact step.stories (Owned.of_run run).born hspawned (ih (step.spawned_le.trans hspawned))

/-! ## What the control task has processed -/

theorem Step.processes {s s' : State} {events : List Event} (h : Step s events s') :
    (takes s.control.queue s'.control.queue = [] ∧ s'.controlState = s.controlState) ∨
      ∃ m, takes s.control.queue s'.control.queue = [m] ∧
        ControlStep s.controlState m s'.controlState := by
  cases h.controlQueue with
  | tells queue state speech =>
      rw [queue, takes_append]
      exact Or.inl ⟨rfl,state⟩
  | handles queued left handled session spawned =>
      rw [queued, left, takes_cons]
      exact Or.inr ⟨_,rfl,_,_,_,_,handled⟩

theorem Run.reaches {ts : List Transition} {s : State} (h : Run ts s) :
    Reaches (processed ts) s.controlState := by
  induction h with
  | nil => exact .nil
  | @snoc ts s s' events run step ih =>
      rw [processed, taken_append, taken_singleton]
      rcases step.processes with ⟨he,hsame⟩ | ⟨m,he,hstep⟩
      · change Reaches (processed ts ++ takes s.control.queue s'.control.queue) _
        rw [he, List.append_nil, hsame]
        exact ih
      · change Reaches (processed ts ++ takes s.control.queue s'.control.queue) _
        rw [he]
        exact .snoc ih hstep

/-- What was processed is a first part of what was told. -/
theorem Run.interleaved {ts : List Transition} {s : State} (h : Run ts s)
    (hspawned : s.spawned ≤ 2 ^ 32) : Interleaved (processed ts) := by
  intro id
  have hn : id.toNat < 2 ^ 32 := id.isLt
  obtain ⟨session,packets,hpre⟩ := (h.stories hspawned _ hn).ended
  rw [sessionId, BitVec.ofNat_toNat, BitVec.setWidth_eq] at hpre
  refine ⟨session,packets,List.IsPrefix.trans ?_ hpre⟩
  rw [told, ← h.controlTrace.balance]
  exact List.IsPrefix.filter _ (List.prefix_append _ _)

/-- The first control packet of a session was an `Authenticate`. -/
def Authenticated (id : SessionID) (ms : List ControlMessage) : Prop :=
  ∃ packet, (packetsOf id ms).head? = some packet ∧ isAuthenticate packet = true

theorem Authenticated.append {id : SessionID} {ms : List ControlMessage} (h : Authenticated id ms)
    (ms' : List ControlMessage) : Authenticated id (ms ++ ms') := by
  obtain ⟨packet,hhead,hauth⟩ := h
  refine ⟨packet,?_,hauth⟩
  rw [packetsOf, List.filterMap_append, List.head?_append]
  exact Option.or_of_isSome (hhead ▸ rfl) |>.trans hhead

/-- The control task holds the sessions that authenticated and were not removed. -/
theorem Run.held_iff {ts : List Transition} {s : State} (h : Run ts s)
    (hspawned : s.spawned ≤ 2 ^ 32) (id : SessionID) :
    s.controlState.rtbl.holdsSession id = true ↔
      Authenticated id (processed ts) ∧ .removeSession id ∉ processed ts := by
  have hremove : .removeSession id ∈ storyOf id (processed ts) ↔ .removeSession id ∈ processed ts :=
    mem_storyOf rfl
  have hheld : s.controlState.rtbl.holdsSession id = (s.controlState.standing id).held := rfl
  rw [hheld, h.reaches.standing, Authenticated, ← hremove, ← packetsOf_storyOf]
  rcases (h.interleaved hspawned).story id with he | ⟨session,packets,he | he⟩
  · simp [he, Standing.absent, packetsOf]
  · have hpackets : packetsOf id (storyOf id (processed ts)) = packets := by
      rw [he]
      exact packetsOf_map id packets
    rw [hpackets, he, foldl_registered]
    simp [Option.any_eq_true]
  · rw [he, foldl_removed]
    simp [Standing.absent]

/-- The control task's table holds a session before this step and not after it. -/
def Expels (t : Transition) (id : SessionID) : Prop :=
  t.before.controlState.rtbl.holdsSession id = true ∧
    t.after.controlState.rtbl.holdsSession id = false

theorem processed_append (ts ts' : List Transition) :
    processed (ts ++ ts') = processed ts ++ processed ts' := taken_append ..

/-- A session that was expelled is gone for good. -/
theorem Run.gone {ts ts₁ ts₂ : List Transition} {u w : Transition} {s : State} (h : Run ts s)
    (hspawned : s.spawned ≤ 2 ^ 32) (hts : ts = ts₁ ++ u :: ts₂) {id : SessionID}
    (hexpels : Expels u id) (hw : w ∈ u :: ts₂) :
    w.after.controlState.rtbl.holdsSession id = false := by
  have hbound {t : Transition} (ht : t ∈ ts) : t.after.spawned ≤ 2 ^ 32 :=
    (h.spawned_le t ht).trans hspawned
  have hu : u ∈ ts := hts ▸ List.mem_append_right _ List.mem_cons_self
  obtain ⟨hbefore,hstep,hafter⟩ := h.split hts
  have hremoved : .removeSession id ∈ processed (ts₁ ++ [u]) := by
    have hauth := ((hbefore.held_iff (hstep.spawned_le.trans (hbound hu)) id).mp hexpels.1).1
    by_contra hn
    have hheld := (hafter.held_iff (hbound hu) id).mpr ⟨processed_append ts₁ [u] ▸ hauth.append _,hn⟩
    rw [hexpels.2] at hheld
    cases hheld
  obtain ⟨ts₃,ts₄,hsplit⟩ := List.append_of_mem hw
  rw [hsplit, ← List.append_assoc] at hts
  have hmem : u ∈ ts₃ ++ [w] := by
    cases ts₃ with
    | nil => exact List.mem_singleton.mpr (List.cons_eq_cons.mp hsplit).1
    | cons u' ts₃ => exact (List.cons_eq_cons.mp hsplit).1 ▸ List.mem_cons_self
  have hstill : .removeSession id ∈ processed (ts₁ ++ ts₃ ++ [w]) := by
    obtain ⟨t,ht,hm⟩ := List.mem_flatMap.mp hremoved
    refine List.mem_flatMap.mpr ⟨t,?_,hm⟩
    rw [List.append_assoc]
    rcases List.mem_append.mp ht with ht | ht
    · exact List.mem_append_left _ ht
    · exact List.mem_append_right _ (List.mem_singleton.mp ht ▸ hmem)
  have hwts : w ∈ ts := hts ▸ List.mem_append_right _ List.mem_cons_self
  rw [← Bool.not_eq_true]
  exact fun hheld => (((h.split hts).2.2.held_iff (hbound hwts) id).mp hheld).2 hstill

/-! ## What the routing task pushes -/

theorem mem_changes {ts : List Transition} {rtbl : RoutingTable} (h : rtbl ∈ changes ts) :
    ∃ t ∈ ts, t.after.controlState.rtbl = rtbl := by
  obtain ⟨t,ht,he⟩ := List.mem_map.mp h
  exact ⟨t,List.mem_of_mem_filter ht,he⟩

theorem changes_append (ts ts' : List Transition) : changes (ts ++ ts') = changes ts ++ changes ts' := by
  rw [changes, List.filter_append, List.map_append]
  rfl

theorem RoutingTable.mem_roomSenders {t : RoutingTable} {roomId : RoomID} {exclude : Option SessionID}
    {senders : List Sender} {sender : Sender} (h : t.roomSenders roomId exclude = .ok senders)
    (hm : sender ∈ senders) : ∃ id, t.sender id = some sender := by
  unfold RoutingTable.roomSenders at h
  split at h
  · cases h
  · cases h
    obtain ⟨id,-,hid⟩ := List.mem_filterMap.mp hm
    split at hid
    · cases hid
    · exact ⟨id,hid⟩

theorem mem_channelSenders {t : RoutingTable} {rooms : List RoomID} {sender : Sender}
    (h : sender ∈ (channelSenders t rooms).1) : ∃ id, t.sender id = some sender := by
  induction rooms with
  | nil => cases h
  | cons roomId rooms ih =>
      unfold channelSenders at h
      split at h
      · cases h
      · next senders hsenders =>
          rcases List.mem_append.mp h with hm | hm
          · exact RoutingTable.mem_roomSenders hsenders hm
          · exact ih hm

theorem RoutingTable.mem_targetSenders {t : RoutingTable} {sessionId : SessionID} {target : U8}
    {senders : List Sender} {sender : Sender}
    (h : t.targetSenders sessionId target = .ok (.ok senders)) (hm : sender ∈ senders) :
    ∃ id, t.sender id = some sender := by
  unfold RoutingTable.targetSenders at h
  split at h
  · split at h
    · cases h
    · next roomId hroom =>
        cases hsenders : t.roomSenders roomId (some sessionId) with
        | error panic =>
            rw [hsenders] at h
            cases h
        | ok senders' =>
            rw [hsenders] at h
            cases h
            exact mem_roomSenders hsenders hm
  · cases h

/-- Recipients are looked up in the table. -/
theorem mem_handleRouting_sender {message : RoutingMessage} {t : RoutingTable}
    {routing : Channel RoutingMessage} {d : Delivery} (h : d ∈ (handleRouting message t routing).1) :
    ∃ id, t.sender id = some d.recipient := by
  cases message with
  | update rtbl => cases h
  | shutdown => cases h
  | text id text =>
      obtain ⟨sender,hsender,rfl⟩ := List.mem_map.mp h
      rcases List.mem_append.mp hsender with hsender | hsender
      · obtain ⟨id,-,hid⟩ := List.mem_filterMap.mp hsender
        exact ⟨id,hid⟩
      · exact mem_channelSenders hsender
  | voice id packet =>
      cases packet with
      | ping timestamp => cases h
      | audio target session seqNum payload positionInfo =>
          simp only [handleRouting] at h
          split at h
          · cases h
          · cases h
          · next senders hsenders =>
              obtain ⟨sender,hsender,rfl⟩ := List.mem_map.mp h
              exact RoutingTable.mem_targetSenders hsenders hsender

/-- What is pushed in a step goes to sessions the routing task's table holds. -/
theorem Run.recipient_held {ts : List Transition} {t : Transition} (h : Run ts t.before)
    (step : Step t.before t.events t.after) {id : SessionID} {d : Delivery}
    (hpush : .push id d ∈ t.events) :
    t.before.routingTable.holdsSession (sessionId d.recipient.queue) = true := by
  obtain he | ⟨message,rest,queued,he⟩ := step.dequeues
  · rw [he] at hpush
    cases hpush
  · rw [he] at hpush
    obtain ⟨id',hsender⟩ := mem_handleRouting_sender (mem_push hpush).1
    obtain ⟨session,hl,hrecipient⟩ := Option.map_eq_some_iff.mp hsender
    have hid := (h.owned_tables.1 id' session hl).2
    rw [hrecipient] at hid
    exact hid ▸ (RoutingTable.holdsSession_iff _ _).mpr ⟨session,hl⟩

/-- While the tasks have different ids, what is pushed goes to sessions that authenticated
with their first control packet, and a session that was expelled gets nothing once a table
from after that is installed. -/
theorem push_enrolled {ts ts₁ ts₂ : List Transition} {t : Transition} {s : State} (h : Run ts s)
    (hspawned : s.spawned ≤ 2 ^ 32) (hts : ts = ts₁ ++ t :: ts₂) {id : SessionID} {d : Delivery}
    (hpush : .push id d ∈ t.events) :
    Authenticated (sessionId d.recipient.queue) (processed ts₁) ∧
      ∀ ts₃ u ts₄, ts₁ = ts₃ ++ u :: ts₄ → Expels u (sessionId d.recipient.queue) →
        installed ts₁ <+: changes ts₃ := by
  obtain ⟨hrun,hstep,-⟩ := h.split hts
  have ht : t ∈ ts := hts ▸ List.mem_append_right _ List.mem_cons_self
  have hbefore : t.before.spawned ≤ 2 ^ 32 :=
    hstep.spawned_le.trans ((h.spawned_le t ht).trans hspawned)
  have hheld := hrun.recipient_held hstep hpush
  have hpublished := Published.of_run hrun
  rw [hpublished.routing] at hheld
  obtain ⟨rtbl,hlast⟩ : ∃ rtbl, (installed ts₁).getLast? = some rtbl := by
    cases hlast : (installed ts₁).getLast? with
    | none =>
        rw [hlast] at hheld
        cases hheld
    | some rtbl => exact ⟨rtbl,rfl⟩
  rw [hlast, Option.getD_some] at hheld
  constructor
  · have hmem : rtbl ∈ changes ts₁ :=
      hpublished.queued ▸ List.mem_append_left _ (List.mem_of_getLast? hlast)
    obtain ⟨w,hw,rfl⟩ := mem_changes hmem
    obtain ⟨ts₃,ts₄,rfl⟩ := List.append_of_mem hw
    have hwrun := (hrun.split rfl).2.2
    have hauth := ((hwrun.held_iff ((hrun.spawned_le w hw).trans hbefore) _).mp hheld).1
    rw [List.append_cons, processed_append]
    exact hauth.append _
  · intro ts₃ u ts₄ hsplit hexpels
    have hchanges : changes ts₁ = changes ts₃ ++ changes (u :: ts₄) := by
      rw [hsplit, changes_append]
    have hinstalled : installed ts₁ <+: changes ts₁ := ⟨_,hpublished.queued⟩
    rcases List.prefix_or_prefix_of_prefix hinstalled ⟨_,hchanges.symm⟩ with hpre | ⟨later,hlater⟩
    · exact hpre
    -- a table from after the removal would be the last one installed
    rcases List.eq_nil_or_concat later with rfl | ⟨later,rtbl',rfl⟩
    · rw [← hlater, List.append_nil]
    · exfalso
      rw [List.concat_eq_append] at hlater
      rw [← hlater, ← List.append_assoc, List.getLast?_concat] at hlast
      obtain rfl := Option.some.inj hlast
      rw [← hlater, hchanges] at hinstalled
      have hmem : rtbl' ∈ changes (u :: ts₄) :=
        ((List.prefix_append_right_inj _).mp hinstalled).subset
          (List.mem_append_right _ (List.mem_singleton_self _))
      obtain ⟨w,hw,rfl⟩ := mem_changes hmem
      rw [hrun.gone hbefore hsplit hexpels hw] at hheld
      cases hheld

/-- The first client authenticates, sends itself a message and leaves; it is expelled before
the message is relayed. -/
theorem push_enrolled_leaving : ∃ ts s ts₁ t ts₃ u d, Run ts s ∧ s.spawned ≤ 2 ^ 32 ∧
    ts = ts₁ ++ [t] ∧ .push 0 d ∈ t.events ∧ ts₁ = ts₃ ++ [u] ∧
    Expels u (sessionId d.recipient.queue) ∧
    Authenticated (sessionId d.recipient.queue) (processed ts₁) ∧
      ∀ ts₃ u ts₄, ts₁ = ts₃ ++ u :: ts₄ → Expels u (sessionId d.recipient.queue) →
        installed ts₁ <+: changes ts₃ := by
  have h := Run.nil.snoc (Step.connect rfl)
  have h := h.snoc (Step.greeted (n := 0) rfl)
  have h := h.snoc (Step.registered (n := 0) [] rfl rfl)
  have h := h.snoc (Step.packet (n := 0) (.message .authenticate []) trivial rfl)
  have h := h.snoc (Step.control rfl rfl rfl)
  have h := h.snoc (Step.control rfl rfl rfl)
  have h := h.snoc (Step.routing rfl rfl rfl)
  have h := h.snoc (Step.text (n := 0) toFirst rfl)
  have h := h.snoc (Step.left (n := 0) (Or.inl rfl))
  have h := h.snoc (Step.control rfl rfl rfl)
  have h := h.snoc (Step.routing rfl rfl rfl)
  have hpush := List.mem_cons_of_mem (Event.dequeue (.text 0 toFirst))
    (List.mem_singleton_self (Event.push 0 ⟨⟨0⟩,.textMessage (toFirst.setActor 0)⟩))
  have hspawned : (1 : ℕ) ≤ 2 ^ 32 := by decide
  exact ⟨_,_,_,_,_,_,_,h,hspawned,rfl,hpush,rfl,⟨rfl,rfl⟩,push_enrolled h hspawned rfl hpush⟩

end Atof.Server
