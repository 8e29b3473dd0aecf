import Atof.Capture

/-!
# From the server to the speakers

The connection task hands audio from the server to the codec task, which hands what the decoder
makes of it to the audio io task, which pushes it to the ring buffer as far as there is room;
the speakers' callback takes one sample after another out of it. So what is played is, in
order, the initial parts of the decoded frames, and silence only where the ring is empty.
-/
namespace Atof.Client
open Rust Voice Control
open Server (Channel)

variable {F : Type} {O : Opus F} {M : Messages}

/-- What the decoder makes of the packets among some messages, one after another. -/
inductive Decoded (O : Opus F) : List (AudioCodecMessage F) → List (List F) → O.Decoder → Prop
  | nil : Decoded O [] [] O.decoder
  | opus {messages : List (AudioCodecMessage F)} {frames : List (List F)} {b : List F}
      {decoder decoder' : O.Decoder} {target : U8} {sessionId : U32} {seqNum : U64} {buffer : Bytes}
      {fin : Bool} {positionInfo : Option Bytes} (decoded : Decoded O messages frames decoder)
      (gives : O.decodeFloat decoder buffer frameSize fin = some (b,decoder')) :
      Decoded O
        (messages ++ [.inbound (.audio target sessionId seqNum (.opus buffer fin) positionInfo)])
        (frames ++ [b]) decoder'
  | foreign {messages : List (AudioCodecMessage F)} {frames : List (List F)} {decoder : O.Decoder}
      {target : U8} {sessionId : U32} {seqNum : U64} {payload : VoicePacketPayload}
      {positionInfo : Option Bytes} (decoded : Decoded O messages frames decoder)
      (other : ∀ buffer fin, payload ≠ .opus buffer fin) :
      Decoded O (messages ++ [.inbound (.audio target sessionId seqNum payload positionInfo)])
        frames decoder
  | outbound {messages : List (AudioCodecMessage F)} {frames : List (List F)} {decoder : O.Decoder}
      {samples : List F} (decoded : Decoded O messages frames decoder) :
      Decoded O (messages ++ [.outbound samples]) frames decoder

/-- The frames that the audio io task has taken. -/
def buffered (actions : List (Action F)) : List (List F) :=
  actions.filterMap fun
    | .pushes buffer => some buffer
    | _ => none

/-- What the speakers have got out of the ring buffer. -/
def played (actions : List (Action F)) : List F :=
  actions.filterMap fun
    | .plays sample => sample
    | _ => none

/-- The frames in the audio io task's queue. -/
def frames (queue : List (AudioIOMessage F)) : List (List F) :=
  queue.filterMap fun
    | .playbackInbound buffer => some buffer
    | _ => none

/-- What is being pushed. -/
def AudioIOTask.pending : AudioIOTask F → List F
  | .pushing chunk => chunk
  | _ => []

@[simp] theorem buffered_append (actions actions' : List (Action F)) :
    buffered (actions ++ actions') = buffered actions ++ buffered actions' :=
  List.filterMap_append ..

@[simp] theorem played_append (actions actions' : List (Action F)) :
    played (actions ++ actions') = played actions ++ played actions' := List.filterMap_append ..

@[simp] theorem frames_append (queue queue' : List (AudioIOMessage F)) :
    frames (queue ++ queue') = frames queue ++ frames queue' := List.filterMap_append ..

theorem Step.audioIo_live {s s' : State O} {actions : List (Action F)} (h : Step M s actions s')
    (live' : s'.audioIoTask.Live) : s.audioIoTask.Live := by
  cases h with
  | clockPanics _ | codecPanics _ _ _ | inputFails _ | outputFails _ | switchFails _ _ _
    | audioIoDrained _ _ _ => cases live'
  | inputOpens ha | outputOpens ha | takes ha _ | pushed ha => simp [AudioIOTask.Live, ha]
  | _ => exact live'

/-! ## The ring buffer -/

/-- One sample is popped. -/
theorem Ring.head_popSlice (r : Ring F) :
    r.samples.head?.toList ++ (r.popSlice 1).samples = r.samples := by
  change r.samples.head?.toList ++ r.samples.drop 1 = r.samples
  cases r.samples <;> rfl

/-- The ring buffer has room for what is being pushed, and what came out of it, what is in it
and what is being pushed are parts of the frames. -/
structure Playing (actions : List (Action F)) (s : State O) (parts : List (List F)) : Prop where
  room : s.playback.samples.length + s.audioIoTask.pending.length ≤ capacity
  initial : List.Forall₂ (· <+: ·) parts (buffered actions)
  joined : parts.flatten = played actions ++ s.playback.samples ++ s.audioIoTask.pending

theorem Playing.still {actions actions' : List (Action F)} {s s' : State O}
    {parts : List (List F)} (h : Playing actions s parts) (hbuffered : buffered actions' = [])
    (hplayed : played actions' = []) (playback : s'.playback = s.playback)
    (pending : s'.audioIoTask.pending = s.audioIoTask.pending) :
    Playing (actions ++ actions') s' parts where
  room := by rw [playback, pending]; exact h.room
  initial := by rw [buffered_append, hbuffered, List.append_nil]; exact h.initial
  joined := by rw [played_append, hplayed, List.append_nil, playback, pending, h.joined]

theorem Run.playing {actions : List (Action F)} {s : State O} (h : Run M actions s) :
    s.audioIoTask.Live → ∃ parts, Playing actions s parts := by
  induction h with
  | nil => exact fun _ => ⟨[],⟨Nat.zero_le _,.nil,rfl⟩⟩
  | @snoc actions actions' s s' run step ih =>
      intro live'
      obtain ⟨parts,hparts⟩ := ih (step.audioIo_live live')
      cases step with
      | @takes buffer rest playing queued =>
          have hpending : s.audioIoTask.pending = [] := by rw [playing]; rfl
          refine ⟨parts ++ [buffer.take (capacity - s.playback.samples.length)],?_,?_,?_⟩
          · have hfits := s.playback.fits
            simp only [AudioIOTask.pending, List.length_take]
            omega
          · rw [buffered_append]
            exact List.rel_append hparts.initial (.cons (List.take_prefix _ _) .nil)
          · rw [List.flatten_append, hparts.joined, hpending]
            simp [played, AudioIOTask.pending]
      | @pushed chunk pushing =>
          have hpending : s.audioIoTask.pending = chunk := by rw [pushing]; rfl
          have hroom := hparts.room
          have hjoined := hparts.joined
          rw [hpending] at hroom hjoined
          have hpush : (s.playback.pushSlice chunk).samples = s.playback.samples ++ chunk :=
            congrArg (s.playback.samples ++ ·) (List.take_of_length_le (by omega))
          refine ⟨parts,?_,?_,?_⟩
          · simpa [hpush, AudioIOTask.pending] using hroom
          · simpa [buffered] using hparts.initial
          · simpa [hpush, AudioIOTask.pending, played] using hjoined
      | plays plays =>
          have hjoined := hparts.joined
          rw [← s.playback.head_popSlice] at hjoined
          refine ⟨parts,?_,?_,?_⟩
          · have hpop := s.playback.length_popSlice 1
            exact (Nat.add_le_add_right (hpop ▸ Nat.sub_le _ _) _).trans hparts.room
          · simpa [buffered] using hparts.initial
          · have hhead : played [Action.plays s.playback.samples.head?] =
                s.playback.samples.head?.toList := by
              cases s.playback.samples <;> rfl
            rw [hjoined, played_append, hhead]
            simp only [List.append_assoc]
      | inputOpens ha | outputOpens ha =>
          exact ⟨parts,hparts.still rfl rfl rfl (by rw [ha]; rfl)⟩
      | inputFails _ | outputFails _ | switchFails _ _ _ | audioIoDrained _ _ _ | clockPanics _
        | codecPanics _ _ _ => cases live'
      | _ => exact ⟨parts,hparts.still rfl rfl rfl rfl⟩

/-! ## The decoder -/

/-- The frames of the microphone are nothing to the decoder. -/
theorem decoder_encodeFrames {c c' : Codec O} (h : (encodeFrames c).2 = .next c') :
    c'.decoder = c.decoder := by
  fun_induction encodeFrames c with
  | case1 c hlen hnone => cases h
  | case2 c hlen output encoder he msg hzero =>
      cases h
      rfl
  | case3 c hlen output encoder he msg connection hsucc r ih => exact ih h
  | case4 c hlen =>
      cases h
      rfl

theorem toAudioIo_encodeFrames (c : Codec O) :
    (encodeFrames c).1.filterMap Event.toAudioIo = [] := by
  rw [List.filterMap_eq_nil_iff]
  intro e hm
  obtain ⟨output,taken,rfl⟩ := toConnection_encodeFrames c e hm
  rfl

/-- What one message adds to the frames goes to the audio io task. -/
theorem Decoded.handle {c c' : Codec O} {messages : List (AudioCodecMessage F)}
    {fs : List (List F)} (h : Decoded O messages fs c.decoder) {message : AudioCodecMessage F}
    {events : List (Event F)} (hhandled : Client.handle c message = (events,.next c')) :
    Decoded O (messages ++ [message]) (fs ++ frames (events.filterMap Event.toAudioIo))
      c'.decoder := by
  cases message with
  | outbound samples =>
      have hdecoder := decoder_encodeFrames (congrArg Prod.snd hhandled)
      have hevents := toAudioIo_encodeFrames { c with ring := c.ring.pushSlice samples }
      rw [show (encodeFrames _).1 = events from congrArg Prod.fst hhandled] at hevents
      rw [hevents, hdecoder, show fs ++ frames [] = fs from List.append_nil fs]
      exact h.outbound
  | inbound packet =>
      have hplays := handle_plays c packet
      rw [hhandled] at hplays
      cases hplays with
      | taken gives takes => exact h.opus gives
      | foreign other =>
          rw [show fs ++ frames (List.filterMap Event.toAudioIo []) = fs from List.append_nil fs]
          exact h.foreign other

theorem Run.decoded {actions : List (Action F)} {s : State O} (h : Run M actions s) :
    s.codecTask = .running → s.audioIoTask.Live →
      Decoded O (handled actions) (buffered actions ++ frames s.audioIo.queue) s.decoder := by
  induction h with
  | nil => exact fun _ _ => .nil
  | @snoc actions actions' s s' run step ih =>
      intro running' live'
      have hbefore := ih (step.codec_running running') (step.audioIo_live live')
      have still {s₁ : State O} (hhandled : handled actions' = []) (decoder : s₁.decoder = s.decoder)
          (queue : buffered actions' ++ frames s₁.audioIo.queue = frames s.audioIo.queue) :
          Decoded O (handled (actions ++ actions'))
            (buffered (actions ++ actions') ++ frames s₁.audioIo.queue) s₁.decoder := by
        rw [handled_append, hhandled, List.append_nil, buffered_append, List.append_assoc, queue,
          decoder]
        exact hbefore
      cases step with
      | @codec message rest events c _ queued hhandled =>
          have hnext := Decoded.handle (c := s.worker) hbefore hhandled
          rw [handled_append, buffered_append]
          simpa [handled, buffered, State.forward, State.keep] using hnext
      | takes playing queued => exact still rfl rfl (by rw [queued]; rfl)
      | @switches message rest playing queued other =>
          refine still rfl rfl ?_
          rw [queued]
          cases message with
          | playbackInbound buffer => exact absurd rfl (other buffer)
          | recordingPlay | recordingPause | playbackPlay | playbackPause => rfl
      | codecLeaves _ _ _ | codecPanics _ _ _ | codecDrained _ _ _ _ | clockPanics _ => cases running'
      | inputFails _ | outputFails _ | switchFails _ _ _ | audioIoDrained _ _ _ => cases live'
      | _ => exact still rfl rfl rfl

/-- While the codec task and the audio io task are there, what the speakers have got, what is in
the ring buffer and what is being pushed to it are, in order, initial parts of the frames that
the decoder made of the packets the codec task has taken, up to the frames in the audio io
task's queue; and the packets taken are the first of those that came from the server. -/
theorem server_is_played {actions : List (Action F)} {s : State O} (h : Run M actions s)
    (running : s.codecTask = .running) (live : s.audioIoTask.Live) :
    ∃ parts, parts.flatten = played actions ++ s.playback.samples ++ s.audioIoTask.pending ∧
      List.Forall₂ (· <+: ·) parts (buffered actions) ∧
      Decoded O (handled actions) (buffered actions ++ frames s.audioIo.queue) s.decoder ∧
      handled actions ++ s.codec.queue = offered actions := by
  obtain ⟨parts,hparts⟩ := h.playing live
  exact ⟨parts,hparts.joined,hparts.initial,h.decoded running live,h.codec_balance running⟩

/-- A packet comes from the server, and the speakers get the first sample of its frame. -/
theorem server_is_played_sample : ∃ actions, ∃ s : State .silent, Run .plain actions s ∧
    offered actions = [.inbound (.audio 0 3#32 7 (.opus [1] true) none)] ∧ played actions = [()] ∧
    ∃ parts, parts.flatten = played actions ++ s.playback.samples ++ s.audioIoTask.pending ∧
      List.Forall₂ (· <+: ·) parts (buffered actions) ∧
      Decoded .silent (handled actions) (buffered actions ++ frames s.audioIo.queue) s.decoder ∧
      handled actions ++ s.codec.queue = offered actions := by
  have h : Run .plain [] (.init .silent) := .nil
  have h := h.snoc (.sendsVersion rfl)
  have h := h.snoc (.versionSent rfl)
  have h := h.snoc (.compatible rfl)
  have h := h.snoc (.authenticated rfl)
  have h := h.snoc (.inputOpens rfl)
  have h := h.snoc (.outputOpens rfl)
  have h := h.snoc (.inbound (.audio 0 3#32 7 (.opus [1] true) none) rfl)
  have h := h.snoc (.codec rfl rfl rfl)
  have h := h.snoc (.switches rfl rfl (by simp))
  have h := h.snoc (.switches rfl rfl (by simp))
  have h := h.snoc (.takes rfl rfl)
  have h := h.snoc (.pushed rfl)
  have h := h.snoc (.plays trivial)
  exact ⟨_,_,h,rfl,rfl,server_is_played h rfl trivial⟩

end Atof.Client
