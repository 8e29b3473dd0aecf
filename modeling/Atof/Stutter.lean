import Atof.Microphone
import Atof.Tasks

/-!
# The client

The connection task talks to the server, the audio io task to the devices, and the audio codec
task stands between the two. Each has an unbounded queue. The connection task and the audio io
task hold the senders of the codec task's queue, the latter also for the microphone, and the
codec task holds those of the other two. The three are joined in one future, so they take turns
where they wait and a panic in one of them drops all three; the callbacks of the microphone and
of the speakers run at any time on threads of their own, as long as there are streams. Nobody
closes a queue: it is refused from when its task has ended. A task that comes to its end drops
its receiver with what is in it, and its senders.
-/
namespace Atof.Client
open Rust Voice Control
open Server (Channel)

/-- The messages the client makes itself, as the library serialises them. -/
structure Messages where
  version : Bytes
  authenticate : Bytes
  ping : ℕ → Bytes

/-- Where the connection task is. It waits for the server while it writes to it. -/
inductive ConnectionTask where
  | start
  | sendingVersion
  | awaitingVersion
  | sendingAuthenticate
  | looping
  | sending
  | ended
  | dropped
  deriving DecidableEq, Repr

inductive CodecTask where
  | running
  | stopped
  | dropped
  deriving DecidableEq, Repr

/-- Where the audio io task is. From `recording` on there is an input stream, from `playing` on
an output stream. While the task pushes to the ring buffer the speakers may take from it: the
room was looked up before. -/
inductive AudioIOTask (F : Type) where
  | starting
  | recording
  | playing
  | pushing (chunk : List F)
  | ended
  | dropped

namespace AudioIOTask

variable {F : Type}

/-- The microphone's callback can be called. -/
def Records : AudioIOTask F → Prop
  | .recording | .playing | .pushing _ => True
  | _ => False

/-- The speakers' callback can be called. -/
def Plays : AudioIOTask F → Prop
  | .playing | .pushing _ => True
  | _ => False

/-- The task holds its receiver and its sender. -/
def Live : AudioIOTask F → Prop
  | .ended | .dropped => False
  | _ => True

end AudioIOTask

/-- The task holds its receiver and its sender. -/
def ConnectionTask.Live (t : ConnectionTask) : Prop := t ≠ .ended ∧ t ≠ .dropped

structure State {F : Type} (O : Opus F) where
  connection : Channel ConnectionMessage
  codec : Channel (AudioCodecMessage F)
  audioIo : Channel (AudioIOMessage F)
  connectionTask : ConnectionTask
  codecTask : CodecTask
  /-- The codec task's. -/
  ring : Ring F
  encoder : O.Encoder
  decoder : O.Decoder
  audioIoTask : AudioIOTask F
  playback : Ring F

variable {F : Type} {O : Opus F}

/-- Microphone and speakers are to start at once. -/
def State.init (O : Opus F) : State O where
  connection := ⟨[], true⟩
  codec := ⟨[], true⟩
  audioIo := ⟨[.recordingPlay, .playbackPlay], true⟩
  connectionTask := .start
  codecTask := .running
  ring := .empty
  encoder := O.encoder
  decoder := O.decoder
  audioIoTask := .starting
  playback := .empty

/-- How many messages a channel takes, in the terms of the codec task: none, or more than one
message can make it send. -/
def room {α : Type} (c : Channel α) : ℕ := if c.isOpen then capacity else 0

/-- What is sent to the connection task, and taken. -/
def Event.toConnection : Event F → Option ConnectionMessage
  | .connection message true => some message
  | _ => none

def Event.toAudioIo : Event F → Option (AudioIOMessage F)
  | .audioIo message true => some message
  | _ => none

/-- A channel whose receiver is dropped. -/
def gone {α : Type} : Channel α := ⟨[], false⟩

namespace State

/-- What the codec task works with. -/
def worker (s : State O) : Codec O :=
  ⟨s.ring, s.encoder, s.decoder, room s.connection, room s.audioIo⟩

/-- What the codec task keeps after a message. -/
def keep (s : State O) (c : Codec O) : State O :=
  { s with ring := c.ring, encoder := c.encoder, decoder := c.decoder }

/-- What the codec task sends goes to the others' queues. -/
def forward (s : State O) (events : List (Event F)) : State O :=
  { s with
    connection := { s.connection with
      queue := s.connection.queue ++ events.filterMap Event.toConnection }
    audioIo := { s.audioIo with queue := s.audioIo.queue ++ events.filterMap Event.toAudioIo } }

def endConnection (s : State O) : State O :=
  { s with connectionTask := .ended, connection := gone }

def stopCodec (s : State O) : State O := { s with codecTask := .stopped, codec := gone }

def endAudioIo (s : State O) : State O := { s with audioIoTask := .ended, audioIo := gone }

/-- A panic in one of the joined tasks. -/
def unwind (s : State O) : State O :=
  { s with
    connection := gone
    codec := gone
    audioIo := gone
    connectionTask := .dropped
    codecTask := .dropped
    audioIoTask := .dropped }

end State

/-- What the server, the microphone and the speakers have to do with, and the messages that
the codec task and the audio io task take. -/
inductive Action (F : Type) where
  | sends (packet : ControlPacket .serverbound)
  | receives (packet : ControlPacket .clientbound)
  /-- Audio from the server, after the handshake. -/
  | hears (packet : VoicePacket .clientbound)
  | captures (samples : List F)
  /-- What comes out of the ring buffer; in place of nothing the speakers get a zero. -/
  | plays (sample : Option F)
  | handles (message : AudioCodecMessage F)
  | pushes (buffer : List F)
  /-- A device cannot be opened, started or paused. -/
  | fails

section
variable (M : Messages)

/-- One step of one task or one callback. -/
inductive Step : State O → List (Action F) → State O → Prop
  -- the connection task: the handshake
  | sendsVersion {s : State O} (start : s.connectionTask = .start) :
      Step s [.sends (.message .version M.version)] { s with connectionTask := .sendingVersion }
  | versionSent {s : State O} (sending : s.connectionTask = .sendingVersion) :
      Step s [] { s with connectionTask := .awaitingVersion }
  | compatible {s : State O} (awaiting : s.connectionTask = .awaitingVersion) :
      Step s [.receives (.message .version M.version),.sends (.message .authenticate M.authenticate)]
        { s with connectionTask := .sendingAuthenticate }
  | incompatible {s : State O} (packet : ControlPacket .clientbound)
      (awaiting : s.connectionTask = .awaitingVersion) (other : packet ≠ .message .version M.version) :
      Step s [.receives packet] s.endConnection
  | authenticated {s : State O} (sending : s.connectionTask = .sendingAuthenticate) :
      Step s [] { s with connectionTask := .looping }
  -- the connection task: the loop
  | pings {s : State O} (timestamp : ℕ) (looping : s.connectionTask = .looping) :
      Step s [.sends (.message .ping (M.ping timestamp))] { s with connectionTask := .sending }
  | clockPanics {s : State O} (looping : s.connectionTask = .looping) : Step s [] s.unwind
  | voice {s : State O} {packet : VoicePacket .serverbound} {rest : List ConnectionMessage}
      (looping : s.connectionTask = .looping) (queued : s.connection.queue = .voice packet :: rest) :
      Step s [.sends (.udpTunnel packet)]
        { s with connection := { s.connection with queue := rest }, connectionTask := .sending }
  | control {s : State O} {packet : ControlPacket .serverbound} {rest : List ConnectionMessage}
      (looping : s.connectionTask = .looping) (queued : s.connection.queue = .control packet :: rest) :
      Step s [.sends packet]
        { s with connection := { s.connection with queue := rest }, connectionTask := .sending }
  | inbound {s : State O} (packet : VoicePacket .clientbound)
      (looping : s.connectionTask = .looping) :
      Step s [.hears packet] { s with codec := s.codec.offer (.inbound packet) }
  | ignored {s : State O} (packet : ControlPacket .clientbound)
      (looping : s.connectionTask = .looping) (other : ∀ voicePacket, packet ≠ .udpTunnel voicePacket) :
      Step s [.receives packet] s
  | sent {s : State O} (sending : s.connectionTask = .sending) :
      Step s [] { s with connectionTask := .looping }
  | disconnected {s : State O} (live : s.connectionTask.Live) (started : s.connectionTask ≠ .start) :
      Step s [] s.endConnection
  | connectionDrained {s : State O} (looping : s.connectionTask = .looping)
      (drained : s.connection.queue = []) (alone : s.codecTask ≠ .running) :
      Step s [] s.endConnection
  -- the codec task
  | codec {s : State O} {message : AudioCodecMessage F} {rest : List (AudioCodecMessage F)}
      {events : List (Event F)} {c : Codec O} (running : s.codecTask = .running)
      (queued : s.codec.queue = message :: rest)
      (handled : handle s.worker message = (events,.next c)) :
      Step s [.handles message]
        (({ s with codec := { s.codec with queue := rest } }.keep c).forward events)
  | codecLeaves {s : State O} {message : AudioCodecMessage F} {rest : List (AudioCodecMessage F)}
      {events : List (Event F)} (running : s.codecTask = .running)
      (queued : s.codec.queue = message :: rest)
      (handled : handle s.worker message = (events,.left)) :
      Step s [.handles message] (s.forward events).stopCodec
  | codecPanics {s : State O} {message : AudioCodecMessage F} {rest : List (AudioCodecMessage F)}
      {events : List (Event F)} (running : s.codecTask = .running)
      (queued : s.codec.queue = message :: rest)
      (handled : handle s.worker message = (events,.panicked)) :
      Step s [.handles message] s.unwind
  | codecDrained {s : State O} (running : s.codecTask = .running) (drained : s.codec.queue = [])
      (connectionGone : ¬ s.connectionTask.Live) (audioIoGone : ¬ s.audioIoTask.Live) :
      Step s [] s.stopCodec
  -- the audio io task
  | inputOpens {s : State O} (starting : s.audioIoTask = .starting) :
      Step s [] { s with audioIoTask := .recording }
  | inputFails {s : State O} (starting : s.audioIoTask = .starting) : Step s [.fails] s.endAudioIo
  | outputOpens {s : State O} (recording : s.audioIoTask = .recording) :
      Step s [] { s with audioIoTask := .playing }
  | outputFails {s : State O} (recording : s.audioIoTask = .recording) :
      Step s [.fails] s.endAudioIo
  | takes {s : State O} {buffer : List F} {rest : List (AudioIOMessage F)}
      (playing : s.audioIoTask = .playing) (queued : s.audioIo.queue = .playbackInbound buffer :: rest) :
      Step s [.pushes buffer]
        { s with
          audioIo := { s.audioIo with queue := rest }
          audioIoTask := .pushing (buffer.take (capacity - s.playback.samples.length)) }
  | pushed {s : State O} {chunk : List F} (pushing : s.audioIoTask = .pushing chunk) :
      Step s [] { s with audioIoTask := .playing, playback := s.playback.pushSlice chunk }
  | switches {s : State O} {message : AudioIOMessage F} {rest : List (AudioIOMessage F)}
      (playing : s.audioIoTask = .playing) (queued : s.audioIo.queue = message :: rest)
      (other : ∀ buffer, message ≠ .playbackInbound buffer) :
      Step s [] { s with audioIo := { s.audioIo with queue := rest } }
  | switchFails {s : State O} {message : AudioIOMessage F} {rest : List (AudioIOMessage F)}
      (playing : s.audioIoTask = .playing) (queued : s.audioIo.queue = message :: rest)
      (other : ∀ buffer, message ≠ .playbackInbound buffer) : Step s [.fails] s.endAudioIo
  | audioIoDrained {s : State O} (playing : s.audioIoTask = .playing)
      (drained : s.audioIo.queue = []) (alone : s.codecTask ≠ .running) : Step s [] s.endAudioIo
  -- the callbacks
  | captures {s : State O} (samples : List F) (records : s.audioIoTask.Records) :
      Step s [.captures samples] { s with codec := s.codec.offer (.outbound samples) }
  | plays {s : State O} (plays : s.audioIoTask.Plays) :
      Step s [.plays s.playback.samples.head?] { s with playback := s.playback.popSlice 1 }

/-- A run of the client, with what could be seen of it, in order. -/
inductive Run : List (Action F) → State O → Prop
  | nil : Run [] (.init O)
  | snoc {actions actions' : List (Action F)} {s s' : State O} (run : Run actions s)
      (step : Step M s actions' s') : Run (actions ++ actions') s'

end

variable {M : Messages}

/-- What holds at the start and is kept by every step holds after every run. -/
theorem Run.invariant {I : State O → Prop} {actions : List (Action F)} {s : State O}
    (h : Run M actions s) (init : I (.init O))
    (step : ∀ {s actions s'}, I s → Step M s actions s' → I s') : I s := by
  induction h with
  | nil => exact init
  | snoc _ hs ih => exact step ih hs

/-! ## What is there while its task is -/

/-- A queue is open as long as its task is there. -/
structure Tended (s : State O) : Prop where
  connection : s.connection.isOpen = true ↔ s.connectionTask.Live
  codec : s.codec.isOpen = true ↔ s.codecTask = .running
  audioIo : s.audioIo.isOpen = true ↔ s.audioIoTask.Live
  together : s.codecTask = .dropped ↔ s.connectionTask = .dropped
  allDropped : s.audioIoTask = .dropped ↔ s.connectionTask = .dropped

@[simp] theorem isOpen_gone {α : Type} : (gone : Channel α).isOpen = false := rfl

@[simp] theorem queue_gone {α : Type} : (gone : Channel α).queue = [] := rfl

theorem Tended.step {s s' : State O} {actions : List (Action F)} (h : Tended s)
    (hs : Step M s actions s') : Tended s' := by
  have ⟨connection,codec,audioIo,together,allDropped⟩ := h
  have unwound : Tended s.unwind := by
    constructor <;> simp [State.unwind, ConnectionTask.Live, AudioIOTask.Live]
  have disconnected (hlive : s.connectionTask.Live) : Tended s.endConnection := by
    have hdropped := hlive.2
    constructor <;> simp_all [State.endConnection, ConnectionTask.Live]
  have silenced (hlive : s.audioIoTask.Live) : Tended s.endAudioIo := by
    have hdropped : s.audioIoTask ≠ .dropped := fun hd => by simp [hd, AudioIOTask.Live] at hlive
    constructor <;> simp_all [State.endAudioIo, AudioIOTask.Live]
  have stopped (s₁ : State O) (running : s₁.codecTask = .running) (h₁ : Tended s₁) :
      Tended s₁.stopCodec := by
    obtain ⟨connection,codec,audioIo,together,allDropped⟩ := h₁
    constructor <;> simp_all [State.stopCodec]
  cases hs with
  | clockPanics _ | codecPanics _ _ _ => exact unwound
  | incompatible _ hc _ | connectionDrained hc _ _ =>
      exact disconnected (by simp [ConnectionTask.Live, hc])
  | disconnected live _ => exact disconnected live
  | codec running queued handled => exact ⟨connection,codec,audioIo,together,allDropped⟩
  | codecLeaves running queued handled =>
      exact stopped _ running ⟨connection,codec,audioIo,together,allDropped⟩
  | codecDrained running _ _ _ => exact stopped s running h
  | inputFails ha | outputFails ha | switchFails ha _ _ | audioIoDrained ha _ _ =>
      exact silenced (by simp [AudioIOTask.Live, ha])
  | inbound packet hc | captures samples records =>
      exact ⟨connection,by simpa using codec,audioIo,together,allDropped⟩
  | sendsVersion hc | versionSent hc | compatible hc | authenticated hc | pings _ hc | voice hc _
    | control hc _ | sent hc =>
      constructor <;> simp_all [ConnectionTask.Live]
  | inputOpens ha | outputOpens ha | takes ha _ | pushed ha =>
      constructor <;> simp_all [AudioIOTask.Live]
  | ignored _ _ _ | switches _ _ _ | plays _ => exact ⟨connection,codec,audioIo,together,allDropped⟩

theorem Tended.of_run {actions : List (Action F)} {s : State O} (h : Run M actions s) :
    Tended s := by
  refine h.invariant ?_ Tended.step
  constructor <;> simp [State.init, ConnectionTask.Live, AudioIOTask.Live]

/-! ## What the codec task does with a packet -/

/-- What is done with a packet from the server, by what it is. -/
inductive Plays (c : Codec O) : VoicePacket .clientbound → List (Event F) × Flow O → Prop
  | bad {target : U8} {sessionId : U32} {seqNum : U64} {buffer : Bytes} {fin : Bool}
      {positionInfo : Option Bytes} (fails : O.decodeFloat c.decoder buffer frameSize fin = none) :
      Plays c (.audio target sessionId seqNum (.opus buffer fin) positionInfo) ([],.panicked)
  | refused {target : U8} {sessionId : U32} {seqNum : U64} {buffer : Bytes} {fin : Bool}
      {positionInfo : Option Bytes} {b : List F} {decoder : O.Decoder}
      (gives : O.decodeFloat c.decoder buffer frameSize fin = some (b,decoder))
      (full : c.audioIo = 0) :
      Plays c (.audio target sessionId seqNum (.opus buffer fin) positionInfo)
        ([.audioIo (.playbackInbound b) false],.left)
  | taken {target : U8} {sessionId : U32} {seqNum : U64} {buffer : Bytes} {fin : Bool}
      {positionInfo : Option Bytes} {b : List F} {decoder : O.Decoder} {audioIo : ℕ}
      (gives : O.decodeFloat c.decoder buffer frameSize fin = some (b,decoder))
      (takes : c.audioIo = audioIo + 1) :
      Plays c (.audio target sessionId seqNum (.opus buffer fin) positionInfo)
        ([.audioIo (.playbackInbound b) true],.next { c with decoder, audioIo })
  | foreign {target : U8} {sessionId : U32} {seqNum : U64} {payload : VoicePacketPayload}
      {positionInfo : Option Bytes} (other : ∀ buffer fin, payload ≠ .opus buffer fin) :
      Plays c (.audio target sessionId seqNum payload positionInfo) ([],.next c)
  | ping {timestamp : U64} : Plays c (.ping timestamp) ([],.panicked)

theorem handle_plays (c : Codec O) (packet : VoicePacket .clientbound) :
    Plays c packet (handle c (.inbound packet)) := by
  cases packet with
  | ping timestamp => exact .ping
  | audio target sessionId seqNum payload positionInfo =>
      cases payload with
      | celtAlpha frames | celtBeta frames | speex frames => exact .foreign (by simp)
      | opus buffer fin =>
          cases hdecode : O.decodeFloat c.decoder buffer frameSize fin with
          | none =>
              simp only [handle, hdecode]
              exact .bad hdecode
          | some r =>
              obtain ⟨b,decoder⟩ := r
              cases haudio : c.audioIo with
              | zero =>
                  simp only [handle, hdecode, haudio]
                  exact .refused hdecode haudio
              | succ audioIo =>
                  simp only [handle, hdecode, haudio]
                  exact .taken hdecode haudio

/-- Frames are encoded until there is no whole one left, or one is refused; the loop over the
messages is not left. -/
theorem batchFrames_not_left (c : Codec O) : (batchFrames c).2 ≠ .left := by
  fun_induction batchFrames c with
  | case1 c hlen b hne => simp
  | case2 c hlen b hb hnone => simp
  | case3 c hlen b ring hb output encoder he hzero => simp
  | case4 c hlen b ring hb output encoder he connection hsucc r ih => exact ih
  | case5 c hlen => simp

end Atof.Client
