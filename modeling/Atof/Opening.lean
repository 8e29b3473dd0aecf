import Atof.Stutter

/-!
# What the client sends

The client introduces itself with its version, waits for the same version from the server, and
authenticates. Nothing else is sent before that, and afterwards only pings and the audio that
its codec task hands over.
-/
namespace Atof.Client
open Rust Voice Control

variable {F : Type} {O : Opus F} {M : Messages}

/-- What is sent to the server. -/
def sent (actions : List (Action F)) : List (ControlPacket .serverbound) :=
  actions.filterMap fun
    | .sends packet => some packet
    | _ => none

/-- What comes from the server. -/
def received (actions : List (Action F)) : List (ControlPacket .clientbound) :=
  actions.filterMap fun
    | .receives packet => some packet
    | .hears packet => some (.udpTunnel packet)
    | _ => none

@[simp] theorem sent_append (actions actions' : List (Action F)) :
    sent (actions ++ actions') = sent actions ++ sent actions' := List.filterMap_append ..

@[simp] theorem received_append (actions actions' : List (Action F)) :
    received (actions ++ actions') = received actions ++ received actions' :=
  List.filterMap_append ..

/-! ## What is queued for the server -/

/-- Whatever comes in, the connection task is handed what the encoder gave. -/
theorem toConnection_encodeFrames (c : Codec O) :
    ∀ e ∈ (encodeFrames c).1, ∃ output taken, e = .connection (voiceOf output) taken := by
  fun_induction encodeFrames c with
  | case1 c hlen hnone => simp
  | case2 c hlen output encoder he msg hzero =>
      intro e hm
      exact ⟨output,false,List.mem_singleton.mp hm⟩
  | case3 c hlen output encoder he msg connection hsucc r ih =>
      intro e hm
      rcases List.mem_cons.mp hm with rfl | hm
      · exact ⟨output,true,rfl⟩
      · exact ih e hm
  | case4 c hlen => simp

theorem toConnection_handle {c : Codec O} {message : AudioCodecMessage F} {e : Event F}
    (h : e ∈ (handle c message).1) {m : ConnectionMessage} (hm : e.toConnection = some m) :
    ∃ output, m = voiceOf output := by
  cases message with
  | outbound buffer =>
      obtain ⟨output,taken,rfl⟩ := toConnection_encodeFrames _ e h
      cases taken with
      | false => cases hm
      | true => exact ⟨output,(Option.some.inj hm).symm⟩
  | inbound packet =>
      have hplays := handle_plays c packet
      generalize handle c (.inbound packet) = r at h hplays
      cases hplays with
      | bad _ | foreign _ | ping => cases h
      | refused _ _ | taken _ _ =>
          obtain rfl := List.mem_singleton.mp h
          cases hm

/-- What is queued for the server is audio. -/
theorem Run.queued_audio {actions : List (Action F)} {s : State O} (h : Run M actions s) :
    ∀ m ∈ s.connection.queue, ∃ output, m = voiceOf output := by
  have forwarded {c : Codec O} {message : AudioCodecMessage F} {events : List (Event F)}
      {flow : Flow O} (handled : handle c message = (events,flow)) {queue : List ConnectionMessage}
      (hqueue : ∀ m ∈ queue, ∃ output, m = voiceOf output) :
      ∀ m ∈ queue ++ events.filterMap Event.toConnection, ∃ output, m = voiceOf output := by
    intro m hm
    rcases List.mem_append.mp hm with hm | hm
    · exact hqueue m hm
    · obtain ⟨e,he,hm⟩ := List.mem_filterMap.mp hm
      exact toConnection_handle (show e ∈ (handle c message).1 by rwa [handled]) hm
  refine h.invariant (I := fun s => ∀ m ∈ s.connection.queue, ∃ output, m = voiceOf output)
    (by simp [State.init]) fun {s actions s'} hs hstep => ?_
  cases hstep with
  | voice looping queued | control looping queued =>
      intro m hm
      exact hs m (queued ▸ List.mem_cons_of_mem _ hm)
  | codec running queued handled | codecLeaves running queued handled =>
      exact forwarded handled hs
  | clockPanics _ | incompatible _ _ _ | disconnected _ _ | connectionDrained _ _ _
    | codecPanics _ _ _ => simp [State.unwind, State.endConnection]
  | _ => exact hs

/-! ## The dialogue -/

/-- What is sent in the loop: what the encoder gave, to be heard in the room, and pings. -/
def Spoken (M : Messages) (packet : ControlPacket .serverbound) : Prop :=
  (∃ output, packet = .udpTunnel (.audio 0 () 0 (.opus output false) none)) ∨
    ∃ timestamp, packet = .message .ping (M.ping timestamp)

/-- The dialogue of a client and a server. -/
inductive Opened (M : Messages) :
    List (ControlPacket .serverbound) → List (ControlPacket .clientbound) → Prop
  | silent : Opened M [] []
  | unanswered : Opened M [.message .version M.version] []
  | incompatible {packet : ControlPacket .clientbound} (other : packet ≠ .message .version M.version) :
      Opened M [.message .version M.version] [packet]
  | authenticated {rest : List (ControlPacket .serverbound)}
      {more : List (ControlPacket .clientbound)} (spoken : ∀ packet ∈ rest, Spoken M packet) :
      Opened M (.message .version M.version :: .message .authenticate M.authenticate :: rest)
        (.message .version M.version :: more)

/-- How far the dialogue is, by where the connection task is. -/
def Phase (M : Messages) (sends : List (ControlPacket .serverbound))
    (receives : List (ControlPacket .clientbound)) : ConnectionTask → Prop
  | .start => sends = [] ∧ receives = []
  | .sendingVersion | .awaitingVersion =>
      sends = [.message .version M.version] ∧ receives = []
  | .sendingAuthenticate | .looping | .sending => ∃ rest more,
      sends = .message .version M.version :: .message .authenticate M.authenticate :: rest ∧
        receives = .message .version M.version :: more ∧ ∀ packet ∈ rest, Spoken M packet
  | .ended | .dropped => Opened M sends receives

theorem Phase.opened {sends : List (ControlPacket .serverbound)}
    {receives : List (ControlPacket .clientbound)} {t : ConnectionTask}
    (h : Phase M sends receives t) : Opened M sends receives := by
  cases t with
  | start =>
      obtain ⟨rfl,rfl⟩ := h
      exact .silent
  | sendingVersion | awaitingVersion =>
      obtain ⟨rfl,rfl⟩ := h
      exact .unanswered
  | sendingAuthenticate | looping | sending =>
      obtain ⟨rest,more,rfl,rfl,spoken⟩ := h
      exact .authenticated spoken
  | ended | dropped => exact h

/-- In the loop one more packet is sent. -/
theorem Phase.send {sends : List (ControlPacket .serverbound)}
    {receives : List (ControlPacket .clientbound)} (h : Phase M sends receives .looping)
    {packet : ControlPacket .serverbound} (spoken : Spoken M packet) :
    Phase M (sends ++ [packet]) receives .sending := by
  obtain ⟨rest,more,rfl,rfl,hrest⟩ := h
  refine ⟨rest ++ [packet],more,rfl,rfl,fun p hp => ?_⟩
  rcases List.mem_append.mp hp with hp | hp
  · exact hrest p hp
  · exact List.mem_singleton.mp hp ▸ spoken

/-- In the loop one more packet is received. -/
theorem Phase.receive {sends : List (ControlPacket .serverbound)}
    {receives : List (ControlPacket .clientbound)} (h : Phase M sends receives .looping)
    (packet : ControlPacket .clientbound) : Phase M sends (receives ++ [packet]) .looping := by
  obtain ⟨rest,more,rfl,rfl,hrest⟩ := h
  exact ⟨rest,more ++ [packet],rfl,rfl,hrest⟩

theorem Run.phase {actions : List (Action F)} {s : State O} (h : Run M actions s) :
    Phase M (sent actions) (received actions) s.connectionTask := by
  induction h with
  | nil => exact ⟨rfl,rfl⟩
  | @snoc actions actions' s s' run step ih =>
      rw [sent_append, received_append]
      have hvoices := run.queued_audio
      have still {t : ConnectionTask} (hsent : sent actions' = [])
          (hreceived : received actions' = [])
          (hphase : Phase M (sent actions) (received actions) t) :
          Phase M (sent actions ++ sent actions') (received actions ++ received actions') t := by
        rwa [hsent, hreceived, List.append_nil, List.append_nil]
      cases step with
      | sendsVersion start =>
          rw [start] at ih
          obtain ⟨hs,hr⟩ := ih
          rw [hs, hr]
          exact ⟨rfl,rfl⟩
      | versionSent hc | authenticated hc | sent hc =>
          rw [hc] at ih
          exact still rfl rfl ih
      | compatible awaiting =>
          rw [awaiting] at ih
          obtain ⟨hs,hr⟩ := ih
          rw [hs, hr]
          exact ⟨[],[],rfl,rfl,by simp⟩
      | incompatible packet awaiting other =>
          rw [awaiting] at ih
          obtain ⟨hs,hr⟩ := ih
          rw [hs, hr]
          exact .incompatible other
      | pings timestamp looping =>
          rw [looping] at ih
          simpa [sent, received] using ih.send (Or.inr ⟨timestamp,rfl⟩)
      | @voice packet rest looping queued =>
          rw [looping] at ih
          obtain ⟨output,hvoice⟩ := hvoices (.voice packet) (by rw [queued]; exact List.mem_cons_self)
          obtain rfl := ConnectionMessage.voice.inj hvoice
          simpa [sent, received] using ih.send (Or.inl ⟨output,rfl⟩)
      | @control packet rest looping queued =>
          obtain ⟨output,hvoice⟩ := hvoices (.control packet) (by rw [queued]; exact List.mem_cons_self)
          cases hvoice
      | inbound packet looping | ignored packet looping other =>
          have hphase := looping ▸ ih
          simpa [sent, received, looping] using hphase.receive _
      | disconnected _ _ | connectionDrained _ _ _ | clockPanics _ => exact still rfl rfl ih.opened
      | codecPanics _ _ _ => exact still rfl rfl ih.opened
      | _ => exact still rfl rfl ih

/-- What a client of version 1.2.4 says of itself. -/
def Messages.plain : Messages where
  version := [0x08,0x84,0x84,0x04]
  authenticate := []
  ping timestamp := [0x08,BitVec.ofNat 8 timestamp]

end Atof.Client
