import Atof.ControlPacket

/-!
# The client's audio codec task

The task encodes what the microphone gives and sends it to the connection task, and
decodes what the connection task gives and sends it to the audio io task. Samples are
kept in a ring buffer until they fill a frame. Either receiver may stop at any time,
and from then on refuses what is sent to it; here it takes so many messages more. When
the audio io task refuses, the task leaves its loop. When the connection task refuses, it
leaves the loop over the frames of one buffer, and waits for the next message.
-/
namespace Atof.Client
open Rust Voice Control

/-- The Opus library: encoders and decoders with their state, and calls that can fail. The
encoder is given room for so many bytes of output, the decoder for so many samples. -/
structure Opus (F : Type) where
  Encoder : Type
  Decoder : Type
  encoder : Encoder
  decoder : Decoder
  encodeFloat : Encoder → List F → ℕ → Option (Bytes × Encoder)
  decodeFloat : Decoder → Bytes → ℕ → Bool → Option (List F × Decoder)

/-- `48_000 / 50`. -/
def frameSize : ℕ := 960

/-- `48_000 * 2`. -/
def capacity : ℕ := 96000

/-- Frames of ten milliseconds, for two channels, are encoded. -/
def Opus.Encodes {F : Type} (O : Opus F) : Prop :=
  ∀ encoder frame, frame.length = frameSize → ∃ r, O.encodeFloat encoder frame 1024 = some r

inductive AudioCodecMessage (F : Type) where
  | inbound (packet : VoicePacket .clientbound)
  | outbound (buffer : List F)

inductive ConnectionMessage where
  | voice (packet : VoicePacket .serverbound)
  | control (packet : ControlPacket .serverbound)

inductive AudioIOMessage (F : Type) where
  | recordingPlay
  | recordingPause
  | playbackPlay
  | playbackPause
  | playbackInbound (buffer : List F)

/-! ## The ring buffer -/

structure Ring (F : Type) where
  samples : List F
  fits : samples.length ≤ capacity

namespace Ring

variable {F : Type}

def empty : Ring F := ⟨[], Nat.zero_le _⟩

/-- What does not fit is left out. -/
def pushSlice (r : Ring F) (buffer : List F) : Ring F where
  samples := r.samples ++ buffer.take (capacity - r.samples.length)
  fits := by
    have hfits := r.fits
    rw [List.length_append, List.length_take]
    omega

/-- What is left after some samples were taken out. -/
def popSlice (r : Ring F) (n : ℕ) : Ring F where
  samples := r.samples.drop n
  fits := ((List.drop_sublist _ _).length_le).trans r.fits

theorem length_pushSlice (r : Ring F) (buffer : List F) :
    (r.pushSlice buffer).samples.length = min capacity (r.samples.length + buffer.length) := by
  have hfits := r.fits
  simp only [pushSlice, List.length_append, List.length_take]
  omega

theorem length_popSlice (r : Ring F) (n : ℕ) :
    (r.popSlice n).samples.length = r.samples.length - n := List.length_drop

end Ring

/-! ## The task -/

variable {F : Type}

/-- What the task keeps, and how many messages its receivers still take. -/
structure Codec (O : Opus F) where
  ring : Ring F
  encoder : O.Encoder
  decoder : O.Decoder
  connection : ℕ
  audioIo : ℕ

/-- What the others see of the task. -/
inductive Event (F : Type) where
  | handle (message : AudioCodecMessage F)
  | connection (message : ConnectionMessage) (taken : Bool)
  | audioIo (message : AudioIOMessage F) (taken : Bool)

/-- What is done after a message: the next one, or the loop is left. -/
inductive Flow (O : Opus F) where
  | next (c : Codec O)
  | left
  | panicked

variable {O : Opus F}

/-- The loop over the frames in the ring buffer. -/
def encodeFrames (c : Codec O) : List (Event F) × Flow O :=
  if frameSize ≤ c.ring.samples.length then
    match O.encodeFloat c.encoder (c.ring.samples.take frameSize) 1024 with
    | none => ([], .panicked)
    | some (output, encoder) =>
        let msg := ConnectionMessage.voice (.audio 0 () 0 (.opus output false) none)
        match c.connection with
        | 0 => ([.connection msg false], .next { c with ring := c.ring.popSlice frameSize, encoder })
        | connection + 1 =>
            let r := encodeFrames { c with ring := c.ring.popSlice frameSize, encoder, connection }
            (.connection msg true :: r.1, r.2)
  else ([], .next c)
termination_by c.ring.samples.length
decreasing_by
  rw [Ring.length_popSlice]
  have hpos : 0 < frameSize := by decide
  omega

/-- The body of the loop in `run_audio_codec_task`. -/
def handle (c : Codec O) : AudioCodecMessage F → List (Event F) × Flow O
  | .outbound buffer => encodeFrames { c with ring := c.ring.pushSlice buffer }
  | .inbound (.audio _ _ _ (.opus buffer fin) _) =>
      match O.decodeFloat c.decoder buffer frameSize fin with
      | none => ([], .panicked)
      | some (b, decoder) =>
          match c.audioIo with
          | 0 => ([.audioIo (.playbackInbound b) false], .left)
          | audioIo + 1 =>
              ([.audioIo (.playbackInbound b) true], .next { c with decoder, audioIo })
  | .inbound (.audio ..) => ([], .next c)
  | .inbound (.ping _) => ([], .panicked)

inductive Outcome where
  | returned
  | waiting
  | panicked
  deriving DecidableEq, Repr

/-- The loop, on the messages that come and whether their senders are gone after them. -/
def runFrom (c : Codec O) (ended : Bool) : List (AudioCodecMessage F) → List (Event F) × Outcome
  | [] => ([], if ended then .returned else .waiting)
  | message :: messages =>
      match handle c message with
      | (events, .next c) =>
          let r := runFrom c ended messages
          (.handle message :: (events ++ r.1), r.2)
      | (events, .left) => (.handle message :: events, .returned)
      | (events, .panicked) => (.handle message :: events, .panicked)

def runAudioCodecTask (O : Opus F) (messages : List (AudioCodecMessage F)) (ended : Bool)
    (connection audioIo : ℕ) : List (Event F) × Outcome :=
  runFrom (⟨.empty, O.encoder, O.decoder, connection, audioIo⟩ : Codec O) ended messages

/-! ## Following a shutdown -/

def Event.Refused : Event F → Prop
  | .connection _ taken => taken = false
  | .audioIo _ taken => taken = false
  | .handle _ => False

/-- After a send that was refused no message is handled, and the task returns. -/
def Follows (r : List (Event F) × Outcome) : Prop :=
  ∀ before e after, r.1 = before ++ e :: after → e.Refused →
    (∀ message, .handle message ∉ after) ∧ r.2 = .returned

/-- Until the audio io task refuses something or the task panics, the connection task takes
every frame that fills up; or it refuses one of the last message, after which there are no
senders. -/
def KeepsUp (O : Opus F) (ended : Bool) : List (AudioCodecMessage F) → (held : ℕ) →
    (decoder : O.Decoder) → (connection audioIo : ℕ) → Prop
  | [], _, _, _, _ => True
  | .outbound buffer :: messages, held, decoder, connection, audioIo =>
      let full := min capacity (held + buffer.length)
      if full / frameSize ≤ connection then
        KeepsUp O ended messages (full % frameSize) decoder (connection - full / frameSize) audioIo
      else messages = [] ∧ ended = true
  | .inbound (.audio _ _ _ (.opus buffer fin) _) :: messages, held, decoder, connection, audioIo =>
      match O.decodeFloat decoder buffer frameSize fin, audioIo with
      | some (_, decoder), audioIo + 1 => KeepsUp O ended messages held decoder connection audioIo
      | _, _ => True
  | .inbound (.audio ..) :: messages, held, decoder, connection, audioIo =>
      KeepsUp O ended messages held decoder connection audioIo
  | .inbound (.ping _) :: _, _, _, _, _ => True

/-! ### The frames of one buffer -/

/-- Neither a message nor a send that was refused. -/
def Event.Quiet (e : Event F) : Prop := ¬ e.Refused ∧ ∀ message, e ≠ .handle message

theorem length_popSlice_frame {r : Ring F} {n : ℕ} (h : r.samples.length / frameSize = n + 1) :
    frameSize ≤ r.samples.length ∧ (r.popSlice frameSize).samples.length / frameSize = n ∧
      (r.popSlice frameSize).samples.length % frameSize = r.samples.length % frameSize := by
  rw [Ring.length_popSlice]
  simp only [frameSize] at h ⊢
  omega

/-- One frame is encoded, and the connection task is asked to take it. -/
theorem encodeFrames_frame (hO : O.Encodes) (c : Codec O)
    (hlen : frameSize ≤ c.ring.samples.length) :
    (c.connection = 0 ∧ ∃ message c₁, encodeFrames c = ([.connection message false],.next c₁)) ∨
    ∃ message c₁, encodeFrames c =
        (.connection message true :: (encodeFrames c₁).1,(encodeFrames c₁).2) ∧
      c.connection = c₁.connection + 1 ∧ c₁.ring = c.ring.popSlice frameSize ∧
      c₁.decoder = c.decoder ∧ c₁.audioIo = c.audioIo := by
  obtain ⟨⟨output,encoder⟩,hr⟩ := hO c.encoder (c.ring.samples.take frameSize)
    (by rw [List.length_take, min_eq_left hlen])
  let voice : ConnectionMessage := .voice (.audio 0 () 0 (.opus output false) none)
  cases hc : c.connection with
  | zero =>
      refine Or.inl ⟨rfl,voice,{ c with ring := c.ring.popSlice frameSize, encoder },?_⟩
      rw [encodeFrames, if_pos hlen]
      simp only [hr, hc]
      rfl
  | succ k =>
      refine Or.inr ⟨voice,{ c with ring := c.ring.popSlice frameSize, encoder, connection := k },?_,
        rfl,rfl,rfl,rfl⟩
      rw [encodeFrames, if_pos hlen]
      simp only [hr, hc]
      rfl

/-- The connection task takes all the frames. -/
theorem encodeFrames_taken (hO : O.Encodes) {n : ℕ} {c : Codec O}
    (hn : c.ring.samples.length / frameSize = n) (hconnection : n ≤ c.connection) :
    ∃ events c', encodeFrames c = (events,.next c') ∧ (∀ e ∈ events, e.Quiet) ∧
      c'.ring.samples.length = c.ring.samples.length % frameSize ∧ c'.decoder = c.decoder ∧
      c'.connection = c.connection - n ∧ c'.audioIo = c.audioIo := by
  induction n generalizing c with
  | zero =>
      have hlen : c.ring.samples.length < frameSize := (Nat.div_eq_zero_iff_lt (by decide)).mp hn
      refine ⟨[],c,?_,by simp,(Nat.mod_eq_of_lt hlen).symm,rfl,rfl,rfl⟩
      rw [encodeFrames, if_neg (not_le.mpr hlen)]
  | succ n ih =>
      obtain ⟨hlen,hdiv,hmod⟩ := length_popSlice_frame hn
      obtain ⟨hzero,-⟩ | ⟨message,c₁,he,hsucc,hring,hdecoder,haudio⟩ := encodeFrames_frame hO c hlen
      · rw [hzero] at hconnection
        cases hconnection
      · rw [hsucc] at hconnection
        obtain ⟨events,c',hrest,hquiet,hlen',hdecoder',htaken,haudio'⟩ :=
          ih (hring ▸ hdiv) (Nat.le_of_succ_le_succ hconnection)
        rw [hrest] at he
        refine ⟨_,c',he,?_,hlen'.trans (hring ▸ hmod),hdecoder'.trans hdecoder,?_,
          haudio'.trans haudio⟩
        · intro e hm
          rcases List.mem_cons.mp hm with rfl | hm
          · exact ⟨by simp [Event.Refused],by simp⟩
          · exact hquiet e hm
        · rw [htaken, hsucc, Nat.add_sub_add_right]

/-- The connection task refuses one of the frames. -/
theorem encodeFrames_refused (hO : O.Encodes) {n : ℕ} {c : Codec O}
    (hn : c.ring.samples.length / frameSize = n) (hconnection : c.connection < n) :
    ∃ events message c', encodeFrames c = (events ++ [.connection message false],.next c') ∧
      ∀ e ∈ events, e.Quiet := by
  induction n generalizing c with
  | zero => cases hconnection
  | succ n ih =>
      obtain ⟨hlen,hdiv,-⟩ := length_popSlice_frame hn
      obtain ⟨-,message,c₁,he⟩ | ⟨message,c₁,he,hsucc,hring,-⟩ := encodeFrames_frame hO c hlen
      · exact ⟨[],message,c₁,he,by simp⟩
      · rw [hsucc] at hconnection
        obtain ⟨events,message',c',hrest,hquiet⟩ :=
          ih (hring ▸ hdiv) (Nat.lt_of_succ_lt_succ hconnection)
        rw [hrest] at he
        refine ⟨.connection message true :: events,message',c',he,fun e hm => ?_⟩
        rcases List.mem_cons.mp hm with rfl | hm
        · exact ⟨by simp [Event.Refused],by simp⟩
        · exact hquiet e hm

/-! ### Runs -/

/-- Where nothing was refused yet, what follows counts. -/
theorem follows_append {events : List (Event F)} (h : ∀ e ∈ events, ¬ e.Refused)
    (r : List (Event F) × Outcome) : Follows (events ++ r.1,r.2) ↔ Follows r := by
  constructor
  · intro hf before e after hr
    exact hf (events ++ before) e after (by rw [hr, List.append_assoc])
  · intro hf before e after hr hrefused
    rcases List.append_eq_append_iff.mp hr with ⟨middle,rfl,hmiddle⟩ | ⟨middle,hevents,hmiddle⟩
    · exact hf middle e after hmiddle hrefused
    · cases middle with
      | nil => exact hf [] e after hmiddle.symm hrefused
      | cons e' middle =>
          obtain ⟨rfl,-⟩ := List.cons_eq_cons.mp hmiddle
          exact absurd hrefused (h e (hevents ▸ List.mem_append_right _ List.mem_cons_self))

theorem follows_of_quiet {r : List (Event F) × Outcome} (h : ∀ e ∈ r.1, ¬ e.Refused) :
    Follows r := by
  intro before e after hr hrefused
  exact absurd hrefused (h e (hr ▸ List.mem_append_right _ List.mem_cons_self))

theorem follows_last (e : Event F) : Follows ([e],.returned) := by
  rintro (_ | ⟨e',before⟩) e'' after hr hrefused
  · obtain ⟨-,rfl⟩ := List.cons_eq_cons.mp hr
    exact ⟨fun _ => List.not_mem_nil,rfl⟩
  · obtain ⟨-,hnil⟩ := List.cons_eq_cons.mp hr
    simp at hnil

/-- The messages that are handled show. -/
theorem runFrom_handles (c : Codec O) (ended : Bool) (message : AudioCodecMessage F)
    (messages : List (AudioCodecMessage F)) :
    .handle message ∈ (runFrom c ended (message :: messages)).1 := by
  rw [runFrom]
  split <;> exact List.mem_cons_self

theorem not_refused_handle (message : AudioCodecMessage F) {events : List (Event F)}
    (hquiet : ∀ e ∈ events, e.Quiet) : ∀ e ∈ Event.handle message :: events, ¬ e.Refused := by
  intro e hm
  rcases List.mem_cons.mp hm with rfl | hm
  · exact id
  · exact (hquiet e hm).1

/-- A run that goes on after a message is followed from there. -/
theorem follows_next {c c' : Codec O} {ended : Bool} {message : AudioCodecMessage F}
    {messages : List (AudioCodecMessage F)} {events : List (Event F)}
    (h : handle c message = (events,.next c')) (hquiet : ∀ e ∈ events, e.Quiet) :
    Follows (runFrom c ended (message :: messages)) ↔ Follows (runFrom c' ended messages) := by
  rw [runFrom, h]
  exact follows_append (not_refused_handle message hquiet) _

/-- A refused frame is the last thing that happens only if nothing else comes. -/
theorem follows_refused {c c' : Codec O} {ended : Bool} {message : AudioCodecMessage F}
    {messages : List (AudioCodecMessage F)} {events : List (Event F)} {sent : ConnectionMessage}
    (h : handle c message = (events ++ [.connection sent false],.next c'))
    (hquiet : ∀ e ∈ events, e.Quiet) :
    Follows (runFrom c ended (message :: messages)) ↔ messages = [] ∧ ended = true := by
  have hrun : runFrom c ended (message :: messages) =
      ((.handle message :: events) ++ (.connection sent false :: (runFrom c' ended messages).1),
        (runFrom c' ended messages).2) := by
    rw [runFrom, h]
    simp
  constructor
  · intro hf
    obtain ⟨hhandled,hreturned⟩ := hf _ _ _ (congrArg Prod.fst hrun) rfl
    cases messages with
    | nil =>
        refine ⟨rfl,?_⟩
        cases ended with
        | false =>
            rw [hrun] at hreturned
            cases hreturned
        | true => rfl
    | cons next messages => exact absurd (runFrom_handles c' ended next messages) (hhandled next)
  · rintro ⟨rfl,rfl⟩
    rw [hrun]
    exact (follows_append (not_refused_handle message hquiet) _).mpr (follows_last _)

theorem runFrom_follows_iff (hO : O.Encodes) (ended : Bool) (messages : List (AudioCodecMessage F))
    (c : Codec O) : Follows (runFrom c ended messages) ↔
      KeepsUp O ended messages c.ring.samples.length c.decoder c.connection c.audioIo := by
  induction messages generalizing c with
  | nil => exact iff_of_true (follows_of_quiet (by simp [runFrom])) trivial
  | cons message messages ih =>
      match message with
      | .outbound buffer =>
          let c₁ : Codec O := { c with ring := c.ring.pushSlice buffer }
          have hlen : c₁.ring.samples.length = min capacity (c.ring.samples.length + buffer.length) :=
            Ring.length_pushSlice ..
          rw [KeepsUp, ← hlen]
          split
          · next htakes =>
              obtain ⟨events,c',he,hquiet,hring,hdecoder,htaken,haudio⟩ :=
                encodeFrames_taken hO rfl htakes
              have hnext : handle c (.outbound buffer) = (events,.next c') := he
              rw [follows_next hnext hquiet, ih, hring, hdecoder, htaken, haudio]
          · next hrefuses =>
              obtain ⟨events,sent,c',he,hquiet⟩ :=
                encodeFrames_refused hO rfl (not_le.mp hrefuses)
              exact follows_refused he hquiet
      | .inbound (.ping timestamp) =>
          exact iff_of_true (follows_of_quiet (by simp [runFrom, handle, Event.Refused])) trivial
      | .inbound (.audio target sessionId seqNum (.opus buffer fin) positionInfo) =>
          cases hdecode : O.decodeFloat c.decoder buffer frameSize fin with
          | none =>
              refine iff_of_true (follows_of_quiet ?_) (by simp [KeepsUp, hdecode])
              simp [runFrom, handle, hdecode, Event.Refused]
          | some decoded =>
              obtain ⟨b,decoder⟩ := decoded
              cases haudio : c.audioIo with
              | zero =>
                  refine iff_of_true ?_ (by simp [KeepsUp, hdecode])
                  have hquiet : ∀ e ∈ ([] : List (Event F)), e.Quiet := by simp
                  simp only [runFrom, handle, hdecode, haudio]
                  exact (follows_append (not_refused_handle _ hquiet) ([.audioIo (.playbackInbound b) false],.returned)).mpr
                    (follows_last _)
              | succ audioIo =>
                  have hnext : handle c (.inbound (.audio target sessionId seqNum
                      (.opus buffer fin) positionInfo)) =
                      ([.audioIo (.playbackInbound b) true],.next { c with decoder, audioIo }) := by
                    simp only [handle, hdecode, haudio]
                  rw [follows_next hnext (by simp [Event.Quiet, Event.Refused]), ih]
                  simp only [KeepsUp, hdecode]
      | .inbound (.audio target sessionId seqNum (.celtAlpha frames) positionInfo)
      | .inbound (.audio target sessionId seqNum (.celtBeta frames) positionInfo)
      | .inbound (.audio target sessionId seqNum (.speex frames) positionInfo) =>
          have hquiet : ∀ e ∈ ([] : List (Event F)), e.Quiet := by simp
          rw [follows_next rfl hquiet, ih]
          rfl

/-- The task handles no message after a send that was refused, and returns, exactly if the
connection task takes every frame until the audio io task has refused something, or refuses
one of the last message, after which there are no senders. -/
theorem follows_iff {O : Opus F} (hO : O.Encodes) (messages : List (AudioCodecMessage F))
    (ended : Bool) (connection audioIo : ℕ) :
    Follows (runAudioCodecTask O messages ended connection audioIo) ↔
      KeepsUp O ended messages 0 O.decoder connection audioIo :=
  runFrom_follows_iff hO ended messages _

/-- Silence. -/
def Opus.silent : Opus Unit where
  Encoder := Unit
  Decoder := Unit
  encoder := ()
  decoder := ()
  encodeFloat := fun _ _ _ => some ([],())
  decodeFloat := fun _ _ n _ => some (List.replicate n (),())

theorem Opus.silent_encodes : Opus.silent.Encodes := fun _ _ _ => ⟨_,rfl⟩

section
variable {O : Opus F} {buffer : List F}

/-- One frame fills up, and the connection task has stopped. -/
theorem keepsUp_refused (h : buffer.length = frameSize) (ended : Bool)
    (messages : List (AudioCodecMessage F)) (decoder : O.Decoder) (audioIo : ℕ) :
    KeepsUp O ended (.outbound buffer :: messages) 0 decoder 0 audioIo ↔
      messages = [] ∧ ended = true := by
  have hfull : min capacity (0 + frameSize) / frameSize = 1 := by decide
  simp only [KeepsUp, h, hfull]
  rw [if_neg (by decide)]

theorem not_keepsUp (h : buffer.length = frameSize) (ended : Bool) (decoder : O.Decoder)
    (audioIo : ℕ) : ¬ KeepsUp O ended [.outbound buffer,.outbound []] 0 decoder 0 audioIo := by
  rw [keepsUp_refused h]
  rintro ⟨hnil,-⟩
  cases hnil

end

/-- A frame is refused, and it is in the last message, or there is another. -/
theorem follows_iff_refused : ∃ frame : List Unit, frame.length = frameSize ∧
    KeepsUp .silent true [.outbound frame] 0 () 0 0 ∧
    (Follows (runAudioCodecTask .silent [.outbound frame] true 0 0) ↔
      KeepsUp .silent true [.outbound frame] 0 () 0 0) ∧
    ¬ KeepsUp .silent true [.outbound frame,.outbound []] 0 () 0 0 ∧
    (Follows (runAudioCodecTask .silent [.outbound frame,.outbound []] true 0 0) ↔
      KeepsUp .silent true [.outbound frame,.outbound []] 0 () 0 0) := by
  obtain ⟨frame,hframe⟩ : ∃ frame : List Unit, frame.length = frameSize :=
    ⟨List.replicate frameSize (),List.length_replicate⟩
  exact ⟨frame,hframe,(keepsUp_refused hframe true [] _ 0).mpr ⟨rfl,rfl⟩,
    follows_iff Opus.silent_encodes _ _ _ _,not_keepsUp hframe true _ 0,
    follows_iff Opus.silent_encodes _ _ _ _⟩

/-- The connection task has stopped, and the microphone gives one frame and then nothing. -/
theorem follows_not : ¬ ∀ (F : Type) (O : Opus F), O.Encodes → ∀ messages ended connection audioIo,
    Follows (runAudioCodecTask O messages ended connection audioIo) := by
  intro hall
  obtain ⟨frame,hframe⟩ : ∃ frame : List Unit, frame.length = frameSize :=
    ⟨List.replicate frameSize (),List.length_replicate⟩
  have hf := hall Unit .silent Opus.silent_encodes [.outbound frame,.outbound []] true 0 0
  exact not_keepsUp hframe true Opus.silent.decoder 0 ((runFrom_follows_iff Opus.silent_encodes true _ _).mp hf)

end Atof.Client
