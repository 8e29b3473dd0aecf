import Atof.Opening

/-!
# From the microphone to the server

The microphone's callback hands buffers to the codec task, which cuts them into frames and
hands what the encoder makes of each to the connection task, which sends it. While these tasks
are there nothing is lost on this way, changed or put in another order, whatever else they do
in between.
-/
namespace Atof.Client
open Rust Voice Control
open Server (Channel)

variable {F : Type} {O : Opus F} {M : Messages}

/-- The messages for the codec task, as they come. -/
def offered (actions : List (Action F)) : List (AudioCodecMessage F) :=
  actions.filterMap fun
    | .captures samples => some (.outbound samples)
    | .hears packet => some (.inbound packet)
    | _ => none

/-- The messages that the codec task has taken. -/
def handled (actions : List (Action F)) : List (AudioCodecMessage F) :=
  actions.filterMap fun
    | .handles message => some message
    | _ => none

@[simp] theorem offered_append (actions actions' : List (Action F)) :
    offered (actions ++ actions') = offered actions ++ offered actions' := List.filterMap_append ..

@[simp] theorem handled_append (actions actions' : List (Action F)) :
    handled (actions ++ actions') = handled actions ++ handled actions' := List.filterMap_append ..

theorem captures_of_offered {actions : List (Action F)} {samples : List F}
    (h : .outbound samples ∈ offered actions) : .captures samples ∈ actions := by
  obtain ⟨action,haction,hm⟩ := List.mem_filterMap.mp h
  cases action <;> cases hm
  exact haction

/-! ## The codec task's queue -/

theorem Step.codec_running {s s' : State O} {actions : List (Action F)} (h : Step M s actions s')
    (running' : s'.codecTask = .running) : s.codecTask = .running := by
  cases h with
  | clockPanics _ | codecLeaves _ _ _ | codecPanics _ _ _ | codecDrained _ _ _ _ => cases running'
  | _ => exact running'

theorem Step.connection_live {s s' : State O} {actions : List (Action F)} (h : Step M s actions s')
    (live' : s'.connectionTask.Live) : s.connectionTask.Live := by
  cases h with
  | clockPanics _ | codecPanics _ _ _ => exact absurd rfl live'.2
  | incompatible _ _ _ | disconnected _ _ | connectionDrained _ _ _ => exact absurd rfl live'.1
  | sendsVersion hc | versionSent hc | compatible hc | authenticated hc | pings _ hc | voice hc _
    | control hc _ | sent hc => simp [ConnectionTask.Live, hc]
  | _ => exact live'

/-- What the codec task has taken and what is still in its queue is what was handed to it. -/
theorem Run.codec_balance {actions : List (Action F)} {s : State O} (h : Run M actions s) :
    s.codecTask = .running → handled actions ++ s.codec.queue = offered actions := by
  induction h with
  | nil => exact fun _ => rfl
  | @snoc actions actions' s s' run step ih =>
      intro running'
      have running := step.codec_running running'
      have hopen := (Tended.of_run run).codec.mpr running
      have hbefore := ih running
      rw [handled_append, offered_append, ← hbefore]
      cases step with
      | inbound packet looping | captures samples records =>
          simp [handled, offered, Channel.offer_of_isOpen hopen]
      | codec _ queued _ =>
          rw [queued]
          simp [handled, offered, State.forward, State.keep]
      | codecLeaves _ _ _ | codecPanics _ _ _ | codecDrained _ _ _ _ | clockPanics _ => cases running'
      | _ => simp [handled, offered, State.endConnection, State.endAudioIo]

/-! ## One message -/

/-- What is sent in some acts. -/
def messages (acts : List (Act F)) : List ConnectionMessage :=
  acts.filterMap fun
    | .send message _ => some message
    | _ => none

@[simp] theorem messages_append (acts acts' : List (Act F)) :
    messages (acts ++ acts') = messages acts ++ messages acts' := List.filterMap_append ..

/-- With room for all the frames, none is refused. -/
theorem kept_of_room {c : Codec O} (h : c.ring.samples.length / frameSize ≤ c.connection) :
    Kept (batchFrames c).1 := by
  fun_induction batchFrames c with
  | case1 c hlen b hne => exact absurd (length_block hlen) hne
  | case2 c hlen b hb hnone => simp [Kept]
  | case3 c hlen b ring hb output encoder he hzero =>
      have hframes : 0 < c.ring.samples.length / frameSize := Nat.div_pos hlen (by decide)
      omega
  | case4 c hlen b ring hb output encoder he connection hsucc r ih =>
      obtain ⟨frames,hframes⟩ := Nat.exists_eq_add_one.mpr (Nat.div_pos hlen (by decide))
      obtain ⟨-,hdiv,-⟩ := length_popSlice_frame hframes
      have hrest : Kept r.1 := by
        refine ih ?_
        change (c.ring.popSlice frameSize).samples.length / frameSize ≤ connection
        rw [hdiv]
        omega
      intro message hm
      exact hrest message (by simpa using hm)
  | case5 c hlen => simp [Kept]

theorem toConnection_event {acts : List (Act F)} (h : Kept acts) :
    (acts.filterMap Act.event).filterMap Event.toConnection = messages acts := by
  rw [List.filterMap_filterMap, messages]
  refine List.filterMap_congr fun act hact => ?_
  cases act with
  | assertEq left right => rfl
  | encodeFloat block => rfl
  | send message taken =>
      cases taken with
      | true => rfl
      | false => exact absurd hact (h message)

/-- While the connection task is there, it takes what one message makes the codec task send. -/
theorem handle_sends {s : State O} (hopen : s.connection.isOpen = true)
    {message : AudioCodecMessage F} {events : List (Event F)} {c : Codec O}
    (h : handle s.worker message = (events,.next c)) :
    ∃ acts, handleBatch s.worker message = (acts,.next c) ∧ Kept acts ∧
      events.filterMap Event.toConnection = messages acts := by
  cases message with
  | outbound buffer =>
      let c₁ : Codec O := { s.worker with ring := s.worker.ring.pushSlice buffer }
      have hroom : c₁.ring.samples.length / frameSize ≤ c₁.connection := by
        have hfits := c₁.ring.fits
        have hconnection : c₁.connection = capacity := if_pos hopen
        rw [hconnection]
        exact (Nat.div_le_self _ _).trans hfits
      obtain ⟨hevents,hflow⟩ := Prod.mk.inj ((batchFrames_event c₁).trans h)
      refine ⟨(batchFrames c₁).1,Prod.ext rfl hflow,kept_of_room hroom,?_⟩
      rw [← hevents, toConnection_event (kept_of_room hroom)]
  | inbound packet =>
      have hflow : (handle s.worker (.inbound packet)).2 = .next c := congrArg Prod.snd h
      refine ⟨[],Prod.ext rfl hflow,by simp [Kept],?_⟩
      have hplays := handle_plays s.worker packet
      rw [h] at hplays
      cases hplays with
      | taken _ _ => rfl
      | foreign _ => rfl

/-! ## Every run -/

/-- What is handed to the connection task and is sent, of some packets. -/
def voices (packets : List (ControlPacket .serverbound)) : List ConnectionMessage :=
  packets.filterMap fun
    | .udpTunnel packet => some (.voice packet)
    | _ => none

@[simp] theorem voices_append (packets packets' : List (ControlPacket .serverbound)) :
    voices (packets ++ packets') = voices packets ++ voices packets' := List.filterMap_append ..

/-- What the codec task has done for the microphone, and where it is now. -/
structure Piped (actions : List (Action F)) (s : State O) (acts : List (Act F)) : Prop where
  cut : Cut frameSize (given (handled actions)) (blocks acts) s.ring.samples
  encoded : Encoded O O.encoder acts s.encoder
  forwarded : voices (sent actions) ++ s.connection.queue = messages acts

/-- Steps that leave the codec task alone leave it so. -/
theorem Piped.still {actions actions' : List (Action F)} {s s' : State O} {acts : List (Act F)}
    (h : Piped actions s acts) (hhandled : handled actions' = []) (ring : s'.ring = s.ring)
    (encoder : s'.encoder = s.encoder)
    (queue : voices (sent actions') ++ s'.connection.queue = s.connection.queue) :
    Piped (actions ++ actions') s' acts where
  cut := by rw [handled_append, hhandled, List.append_nil, ring]; exact h.cut
  encoded := by rw [encoder]; exact h.encoded
  forwarded := by rw [sent_append, voices_append, List.append_assoc, queue, h.forwarded]

theorem Run.piped {actions : List (Action F)} {s : State O} (h : Run M actions s)
    (hsize : ∀ samples, .captures samples ∈ actions → samples.length ≤ 95041) :
    s.codecTask = .running → s.connectionTask.Live → ∃ acts, Piped actions s acts := by
  induction h with
  | nil => exact fun _ _ => ⟨[],.stop (show 0 < frameSize by decide),.nil,rfl⟩
  | @snoc actions actions' s s' run step ih =>
      intro running' live'
      have running := step.codec_running running'
      have live := step.connection_live live'
      obtain ⟨acts,hpiped⟩ := ih (fun samples hm => hsize samples (List.mem_append_left _ hm))
        running live
      have hopen := (Tended.of_run run).connection.mpr live
      cases step with
      | @codec message rest events c _ queued hhandled =>
          obtain ⟨acts',hbatch,hkept,hsends⟩ := handle_sends hopen hhandled
          have hgiven : message ∈ offered actions := by
            rw [← run.codec_balance running, queued]
            exact List.mem_append_right _ List.mem_cons_self
          obtain ⟨hcut,hencoded⟩ := handleBatch_cut hbatch hkept hpiped.cut.short fun buffer heq =>
            hsize buffer (List.mem_append_left _ (captures_of_offered (heq ▸ hgiven)))
          refine ⟨acts ++ acts',?_,hpiped.encoded.append hencoded,?_⟩
          · rw [handled_append, given_append, blocks_append]
            exact hpiped.cut.append hcut
          · rw [messages_append, ← hpiped.forwarded, ← hsends]
            simp [sent, State.forward, State.keep]
      | voice looping queued =>
          exact ⟨acts,hpiped.still rfl rfl rfl (by rw [queued]; rfl)⟩
      | control looping queued =>
          obtain ⟨output,hvoice⟩ := run.queued_audio _ (by rw [queued]; exact List.mem_cons_self)
          cases hvoice
      | codecLeaves _ _ _ | codecPanics _ _ _ | codecDrained _ _ _ _ | clockPanics _ => cases running'
      | incompatible _ _ _ | disconnected _ _ | connectionDrained _ _ _ => exact absurd rfl live'.1
      | _ => exact ⟨acts,hpiped.still rfl rfl rfl rfl⟩

/-- While the codec task and the connection task are there, the samples the microphone has given
are, in order, those of the frames that were encoded, less than a frame that is kept, and what
is still in the codec task's queue; and what the encoder made of the frames, one after another,
is what was sent to the server, followed by what is still in the connection task's queue. -/
theorem microphone_is_sent {actions : List (Action F)} {s : State O} (h : Run M actions s)
    (hsize : ∀ samples, .captures samples ∈ actions → samples.length ≤ 95041)
    (running : s.codecTask = .running) (live : s.connectionTask.Live) :
    ∃ acts, Encoded O O.encoder acts s.encoder ∧
      (∀ block ∈ blocks acts, block.length = frameSize) ∧ s.ring.samples.length < frameSize ∧
      (blocks acts).flatten ++ s.ring.samples ++ given s.codec.queue = given (offered actions) ∧
      voices (sent actions) ++ s.connection.queue = messages acts := by
  obtain ⟨acts,hpiped⟩ := h.piped hsize running live
  refine ⟨acts,hpiped.encoded,hpiped.cut.whole,hpiped.cut.short,?_,hpiped.forwarded⟩
  rw [hpiped.cut.joined, ← given_append, h.codec_balance running]

/-! ## Whatever has ended -/

/-- The codec task takes the first of the messages that were handed to it. -/
theorem Run.handled_prefix {actions : List (Action F)} {s : State O} (h : Run M actions s) :
    handled actions <+: offered actions := by
  induction h with
  | nil => exact List.prefix_refl _
  | @snoc actions actions' s s' run step ih =>
      rw [handled_append, offered_append]
      have hbalance := run.codec_balance
      have took {message : AudioCodecMessage F} {rest : List (AudioCodecMessage F)}
          (running : s.codecTask = .running) (queued : s.codec.queue = message :: rest) :
          handled actions ++ [message] <+: offered actions ++ [] := by
        rw [List.append_nil, ← hbalance running, queued]
        exact (List.prefix_append_right_inj _).mpr ⟨rest,rfl⟩
      cases step with
      | codec running queued _ | codecLeaves running queued _ | codecPanics running queued _ =>
          exact took running queued
      | _ => exact (List.append_nil (handled actions)).symm ▸ ih.trans (List.prefix_append _ _)

theorem handleBatch_encoded {c c' : Codec O} {message : AudioCodecMessage F} {acts : List (Act F)}
    (h : handleBatch c message = (acts,.next c')) (hkept : Kept acts) :
    Encoded O c.encoder acts c'.encoder := by
  cases message with
  | outbound buffer =>
      obtain ⟨rfl,hflow⟩ := Prod.mk.inj h
      exact (batchFrames_next hflow hkept).2
  | inbound packet =>
      obtain ⟨rfl,hflow⟩ := Prod.mk.inj h
      rw [(handle_inbound hflow).2]
      exact .nil

theorem toConnection_left {c : Codec O} {message : AudioCodecMessage F} {events : List (Event F)}
    (h : handle c message = (events,.left)) : events.filterMap Event.toConnection = [] := by
  cases message with
  | outbound samples =>
      exact absurd (congrArg Prod.snd ((batchFrames_event _).trans h)) (batchFrames_not_left _)
  | inbound packet =>
      have hplays := handle_plays c packet
      rw [h] at hplays
      cases hplays
      rfl

/-- Whatever has ended since, what was sent to the server is, in order, a first part of what an
encoder made of some frames, one after another. -/
theorem Run.sent_encoded {actions : List (Action F)} {s : State O} (h : Run M actions s) :
    ∃ acts encoder, Encoded O O.encoder acts encoder ∧ voices (sent actions) <+: messages acts ∧
      (s.connectionTask.Live →
        encoder = s.encoder ∧ voices (sent actions) ++ s.connection.queue = messages acts) := by
  induction h with
  | nil => exact ⟨[],O.encoder,.nil,List.prefix_refl _,fun _ => ⟨rfl,rfl⟩⟩
  | @snoc actions actions' s s' run step ih =>
      obtain ⟨acts,encoder,hencoded,hfirst,hlive⟩ := ih
      have still {s₁ : State O} (hvoices : voices (sent actions') = [])
          (hkeeps : s₁.connectionTask.Live → s.connectionTask.Live ∧ s₁.encoder = s.encoder ∧
            s₁.connection.queue = s.connection.queue) :
          ∃ acts encoder, Encoded O O.encoder acts encoder ∧
            voices (sent (actions ++ actions')) <+: messages acts ∧
            (s₁.connectionTask.Live → encoder = s₁.encoder ∧
              voices (sent (actions ++ actions')) ++ s₁.connection.queue = messages acts) := by
        have hsame : voices (sent (actions ++ actions')) = voices (sent actions) := by
          rw [sent_append, voices_append, hvoices, List.append_nil]
        refine ⟨acts,encoder,hencoded,by rwa [hsame],fun live₁ => ?_⟩
        obtain ⟨live,hencoder,hqueue⟩ := hkeeps live₁
        rw [hsame, hencoder, hqueue]
        exact hlive live
      cases step with
      | @codec message rest events c running queued hhandled =>
          by_cases live : s.connectionTask.Live
          · obtain ⟨acts',hbatch,hkept,hsends⟩ :=
              handle_sends ((Tended.of_run run).connection.mpr live) hhandled
            obtain ⟨rfl,hforwarded⟩ := hlive live
            have hall : voices (sent (actions ++ [.handles message])) ++
                (s.connection.queue ++ events.filterMap Event.toConnection) =
                messages (acts ++ acts') := by
              rw [messages_append, ← hforwarded, ← hsends]
              simp [sent]
            exact ⟨acts ++ acts',c.encoder,hencoded.append (handleBatch_encoded hbatch hkept),
              ⟨_,hall⟩,fun _ => ⟨rfl,hall⟩⟩
          · exact still rfl fun live₁ => absurd live₁ live
      | codecLeaves running queued hhandled =>
          refine still rfl fun live₁ => ⟨live₁,rfl,?_⟩
          simp [State.forward, State.stopCodec, toConnection_left hhandled]
      | @voice packet rest looping queued =>
          have live : s.connectionTask.Live := by simp [ConnectionTask.Live, looping]
          obtain ⟨rfl,hforwarded⟩ := hlive live
          have hall : voices (sent (actions ++ [.sends (.udpTunnel packet)])) ++ rest =
              messages acts := by
            rw [← hforwarded, queued]
            simp [sent, voices]
          exact ⟨acts,s.encoder,hencoded,⟨_,hall⟩,fun _ => ⟨rfl,hall⟩⟩
      | control looping queued =>
          obtain ⟨output,hvoice⟩ := run.queued_audio _ (by rw [queued]; exact List.mem_cons_self)
          cases hvoice
      | clockPanics _ | codecPanics _ _ _ => exact still rfl fun live₁ => absurd rfl live₁.2
      | incompatible _ _ _ | disconnected _ _ | connectionDrained _ _ _ =>
          exact still rfl fun live₁ => absurd rfl live₁.1
      | sendsVersion hc | versionSent hc | compatible hc | authenticated hc | pings _ hc | sent hc =>
          exact still rfl fun _ => ⟨by simp [ConnectionTask.Live, hc],rfl,rfl⟩
      | _ => exact still rfl fun live₁ => ⟨live₁,rfl,rfl⟩

/-- The microphone gives a frame and one sample more, and the codec task takes them. -/
theorem microphone_is_sent_frame : ∃ actions, ∃ s : State .silent, Run .plain actions s ∧
    s.codec.queue = [] ∧ (given (offered actions)).length = 961 ∧
    ∃ acts, Encoded .silent () acts s.encoder ∧
      (∀ block ∈ blocks acts, block.length = 960) ∧ s.ring.samples.length < 960 ∧
      (blocks acts).flatten ++ s.ring.samples ++ given s.codec.queue = given (offered actions) ∧
      voices (sent actions) ++ s.connection.queue = messages acts := by
  obtain ⟨buffer,hbuffer⟩ : ∃ buffer : List Unit, buffer.length = 961 :=
    ⟨List.replicate 961 (),List.length_replicate⟩
  have h : Run .plain [] (.init .silent) := .nil
  have h := h.snoc (.inputOpens rfl)
  have h := h.snoc (.captures buffer trivial)
  let start : Codec .silent := ⟨Ring.empty.pushSlice buffer,(),(),capacity,capacity⟩
  obtain ⟨c,hc⟩ := batchFrames_returns Opus.silent_encodes start
  have hflow : (encodeFrames start).2 = .next c := by
    rw [← batchFrames_event]
    exact hc
  have h := h.snoc (.codec rfl rfl (Prod.ext rfl hflow))
  refine ⟨_,_,h,rfl,?_,microphone_is_sent h ?_ rfl ⟨by simp [State.forward, State.keep, State.init],
    by simp [State.forward, State.keep, State.init]⟩⟩
  · simpa [offered, given] using hbuffer
  · simp [hbuffer]

/-! ## From the beginning on -/

/-- In every run the client first sends its version and nothing else, until the server has
answered with the same version as the first thing it sends; then it authenticates, and after
that it sends only pings and audio for its own room, which is, in order, what an encoder made of
some frames, one after another. -/
theorem client_opens {actions : List (Action F)} {s : State O} (h : Run M actions s) :
    Opened M (sent actions) (received actions) ∧
      ∃ acts encoder, Encoded O O.encoder acts encoder ∧ voices (sent actions) <+: messages acts := by
  obtain ⟨acts,encoder,hencoded,hfirst,-⟩ := h.sent_encoded
  exact ⟨h.phase.opened,acts,encoder,hencoded,hfirst⟩

/-- With one frame in the ring and a connection task that is there, one packet is sent. -/
theorem encodeFrames_one {c : Codec O} (hlen : c.ring.samples.length = frameSize) {output : Bytes}
    {encoder : O.Encoder} {connection : ℕ}
    (he : O.encodeFloat c.encoder c.ring.samples 1024 = some (output,encoder))
    (hsucc : c.connection = connection + 1) :
    ∃ c', encodeFrames c = ([.connection (voiceOf output) true],.next c') := by
  have hrest : ¬ frameSize ≤ (c.ring.popSlice frameSize).samples.length := by
    rw [Ring.length_popSlice, hlen]
    decide
  refine ⟨{ c with ring := c.ring.popSlice frameSize, encoder, connection },?_⟩
  rw [encodeFrames, if_pos hlen.ge, List.take_of_length_le hlen.le, he]
  simp only [hsucc]
  rw [encodeFrames, if_neg hrest]
  rfl

/-- A client that has sent one frame and a ping. -/
theorem run_speaker : ∃ actions, ∃ s : State .silent, Run .plain actions s ∧
    sent actions = [.message .version Messages.plain.version,.message .authenticate [],
      .udpTunnel (.audio 0 () 0 (.opus [] false) none),
      .message .ping (Messages.plain.ping 5)] := by
  obtain ⟨buffer,hbuffer⟩ : ∃ buffer : List Unit, buffer.length = frameSize :=
    ⟨List.replicate frameSize (),List.length_replicate⟩
  have h : Run .plain [] (.init .silent) := .nil
  have h := h.snoc (.sendsVersion rfl)
  have h := h.snoc (.versionSent rfl)
  have h := h.snoc (.compatible rfl)
  have h := h.snoc (.authenticated rfl)
  have h := h.snoc (.inputOpens rfl)
  have h := h.snoc (.captures buffer trivial)
  obtain ⟨c,hc⟩ := encodeFrames_one
    (c := (⟨Ring.empty.pushSlice buffer,(),(),capacity,capacity⟩ : Codec .silent))
    (by simp [Ring.length_pushSlice, hbuffer, Ring.empty, capacity, frameSize]) rfl
    (show capacity = 95999 + 1 from rfl)
  have h := h.snoc (.codec rfl rfl hc)
  have h := h.snoc (.voice rfl rfl)
  have h := h.snoc (.sent rfl)
  have h := h.snoc (.pings 5 rfl)
  exact ⟨_,_,h,rfl⟩

/-- A server of the same version answers, and the client speaks and pings. -/
theorem client_opens_speaking : ∃ actions, ∃ s : State .silent, Run .plain actions s ∧
    sent actions = [.message .version Messages.plain.version,.message .authenticate [],
      .udpTunnel (.audio 0 () 0 (.opus [] false) none),
      .message .ping (Messages.plain.ping 5)] ∧
    Opened .plain (sent actions) (received actions) ∧
      ∃ acts encoder, Encoded .silent () acts encoder ∧
        voices (sent actions) <+: messages acts := by
  obtain ⟨actions,s,h,hsent⟩ := run_speaker
  exact ⟨actions,s,h,hsent,client_opens h⟩

end Atof.Client
