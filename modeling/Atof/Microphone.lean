import Atof.AudioCodec

/-!
# Batching of the microphone's samples

Buffers of any length come in and frames of one length go out. After each buffer the ring
holds less than a frame, so a buffer that leaves room for that fits in whole, and nothing
is lost: the frames and what is left in the ring are what came in. This needs to see the
frames as they are handed to the encoder, and the assertion about each.
-/
namespace Atof.Client
open Rust Voice Control

/-! ## Cutting a list -/

section
variable {α : Type} {n : ℕ} {input more rest rest' : List α} {blocks blocks' : List (List α)}

/-- A list as blocks of one length and less than a block that is left. -/
structure Cut (n : ℕ) (input : List α) (blocks : List (List α)) (rest : List α) : Prop where
  joined : blocks.flatten ++ rest = input
  whole : ∀ block ∈ blocks, block.length = n
  short : rest.length < n

theorem Cut.stop (h : input.length < n) : Cut n input [] input := ⟨rfl,by simp,h⟩

theorem Cut.block (h : Cut n (input.drop n) blocks rest) (hn : n ≤ input.length) :
    Cut n input (input.take n :: blocks) rest where
  joined := by rw [List.flatten_cons, List.append_assoc, h.joined, List.take_append_drop]
  whole block hblock := by
    rcases List.mem_cons.mp hblock with rfl | hblock
    · rw [List.length_take, min_eq_left hn]
    · exact h.whole block hblock
  short := h.short

/-- What is left goes before what comes next. -/
theorem Cut.append (h : Cut n input blocks rest) (h' : Cut n (rest ++ more) blocks' rest') :
    Cut n (input ++ more) (blocks ++ blocks') rest' where
  joined := by
    rw [List.flatten_append, List.append_assoc, h'.joined, ← List.append_assoc, h.joined]
  whole block hblock := by
    rcases List.mem_append.mp hblock with hblock | hblock
    · exact h.whole block hblock
    · exact h'.whole block hblock
  short := h'.short

end

/-! ## The loop over the frames -/

variable {F : Type} {O : Opus F}

/-- What the task does for the microphone. -/
inductive Act (F : Type) where
  | assertEq (left right : ℕ)
  | encodeFloat (block : List F)
  | send (message : ConnectionMessage) (taken : Bool)

/-- `VoicePacket::Audio` with the encoder's output. -/
def voiceOf (output : Bytes) : ConnectionMessage :=
  .voice (.audio 0 () 0 (.opus output false) none)

/-- The loop over the frames in the ring buffer, each of which is popped and asserted to be
whole. -/
def batchFrames (c : Codec O) : List (Act F) × Flow O :=
  if frameSize ≤ c.ring.samples.length then
    let b := c.ring.samples.take frameSize
    let ring := c.ring.popSlice frameSize
    if b.length ≠ frameSize then ([.assertEq b.length frameSize], .panicked)
    else match O.encodeFloat c.encoder b 1024 with
      | none => ([.assertEq b.length frameSize, .encodeFloat b], .panicked)
      | some (output, encoder) =>
          match c.connection with
          | 0 => ([.assertEq b.length frameSize, .encodeFloat b, .send (voiceOf output) false],
              .next { c with ring, encoder })
          | connection + 1 =>
              let r := batchFrames { c with ring, encoder, connection }
              (.assertEq b.length frameSize :: .encodeFloat b :: .send (voiceOf output) true :: r.1,
                r.2)
  else ([], .next c)
termination_by c.ring.samples.length
decreasing_by
  rw [Ring.length_popSlice]
  have hpos : 0 < frameSize := by decide
  omega

/-- The body of the loop in `run_audio_codec_task`, as far as the microphone is concerned. -/
def handleBatch (c : Codec O) : AudioCodecMessage F → List (Act F) × Flow O
  | .outbound buffer => batchFrames { c with ring := c.ring.pushSlice buffer }
  | .inbound packet => ([], (handle c (.inbound packet)).2)

/-- What the connection task sees of it. -/
def Act.event : Act F → Option (Event F)
  | .send message taken => some (.connection message taken)
  | _ => none

/-- A block that is popped is whole. -/
theorem length_block {r : Ring F} (h : frameSize ≤ r.samples.length) :
    (r.samples.take frameSize).length = frameSize := by
  rw [List.length_take, min_eq_left h]

/-- It is the same loop. -/
theorem batchFrames_event (c : Codec O) :
    ((batchFrames c).1.filterMap Act.event,(batchFrames c).2) = encodeFrames c := by
  fun_induction batchFrames c with
  | case1 c hlen b hne => exact absurd (length_block hlen) hne
  | case2 c hlen b hb hnone =>
      rw [encodeFrames, if_pos hlen, hnone]
      rfl
  | case3 c hlen b ring hb output encoder he hzero =>
      rw [encodeFrames, if_pos hlen, he]
      simp only [hzero]
      rfl
  | case4 c hlen b ring hb output encoder he connection hsucc r ih =>
      rw [encodeFrames, if_pos hlen, he]
      simp only [hsucc]
      exact congrArg (fun p : List (Event F) × Flow O =>
        (.connection (voiceOf output) true :: p.1,p.2)) ih
  | case5 c hlen => rw [encodeFrames, if_neg hlen]; rfl

theorem eq_of_mem_assertEq {n m left right : ℕ} {acts : List (Act F)} (hnm : ¬ n ≠ m)
    (h : .assertEq left right ∈ .assertEq n m :: acts)
    (hacts : .assertEq left right ∈ acts → left = right) : left = right := by
  rcases List.mem_cons.mp h with heq | h
  · obtain ⟨rfl,rfl⟩ := Act.assertEq.inj heq
    exact not_not.mp hnm
  · exact hacts h

/-- The assertion holds whenever it is reached. -/
theorem assertEq_batchFrames {c : Codec O} {left right : ℕ}
    (h : .assertEq left right ∈ (batchFrames c).1) : left = right := by
  fun_induction batchFrames c with
  | case1 c hlen b hne => exact absurd (length_block hlen) hne
  | case2 c hlen b hb hnone => exact eq_of_mem_assertEq hb h (by simp)
  | case3 c hlen b ring hb output encoder he hzero => exact eq_of_mem_assertEq hb h (by simp)
  | case4 c hlen b ring hb output encoder he connection hsucc r ih =>
      exact eq_of_mem_assertEq hb h fun h => ih (by simpa using h)
  | case5 c hlen => cases h

/-- The blocks handed to the encoder. -/
def blocks (acts : List (Act F)) : List (List F) :=
  acts.filterMap fun
    | .encodeFloat block => some block
    | _ => none

@[simp] theorem blocks_append (acts acts' : List (Act F)) :
    blocks (acts ++ acts') = blocks acts ++ blocks acts' := List.filterMap_append ..

/-- Block after block is asserted to be whole and encoded, and what the encoder gives is
sent in one message, which is taken. -/
inductive Encoded (O : Opus F) : O.Encoder → List (Act F) → O.Encoder → Prop
  | nil {encoder : O.Encoder} : Encoded O encoder [] encoder
  | block {encoder encoder₁ encoder₂ : O.Encoder} {block : List F} {output : Bytes}
      {acts : List (Act F)} (gives : O.encodeFloat encoder block 1024 = some (output,encoder₁))
      (next : Encoded O encoder₁ acts encoder₂) : Encoded O encoder
        (.assertEq frameSize frameSize :: .encodeFloat block :: .send (voiceOf output) true :: acts)
        encoder₂

theorem Encoded.append {encoder encoder₁ encoder₂ : O.Encoder} {acts acts' : List (Act F)}
    (h : Encoded O encoder acts encoder₁) (h' : Encoded O encoder₁ acts' encoder₂) :
    Encoded O encoder (acts ++ acts') encoder₂ := by
  induction h with
  | nil => exact h'
  | block gives _ ih => exact .block gives (ih h')

/-- The connection task takes what it is sent. -/
def Kept (acts : List (Act F)) : Prop := ∀ message, .send message false ∉ acts

/-- A loop that goes on to the next message has cut up what is in the ring. -/
theorem batchFrames_next {c c' : Codec O} (h : (batchFrames c).2 = .next c')
    (hkept : Kept (batchFrames c).1) :
    Cut frameSize c.ring.samples (blocks (batchFrames c).1) c'.ring.samples ∧
      Encoded O c.encoder (batchFrames c).1 c'.encoder := by
  fun_induction batchFrames c with
  | case1 c hlen b hne => cases h
  | case2 c hlen b hb hnone => cases h
  | case3 c hlen b ring hb output encoder he hzero =>
      cases h
      exact absurd (by simp) (hkept (voiceOf output))
  | case4 c hlen b ring hb output encoder he connection hsucc r ih =>
      have hrest : Kept r.1 := fun message hm => hkept message (by simp [hm])
      obtain ⟨hcut,hencoded⟩ := ih h hrest
      refine ⟨hcut.block hlen,?_⟩
      rw [not_not.mp hb]
      exact .block he hencoded
  | case5 c hlen =>
      cases h
      exact ⟨.stop (not_le.mp hlen),.nil⟩

/-- With an encoder that takes frames, the loop goes on to the next message. -/
theorem batchFrames_returns (hO : O.Encodes) (c : Codec O) : ∃ c', (batchFrames c).2 = .next c' := by
  fun_induction batchFrames c with
  | case1 c hlen b hne => exact absurd (length_block hlen) hne
  | case2 c hlen b hb hnone =>
      obtain ⟨r,hr⟩ := hO c.encoder b (length_block hlen)
      rw [hr] at hnone
      cases hnone
  | case3 c hlen b ring hb output encoder he hzero => exact ⟨_,rfl⟩
  | case4 c hlen b ring hb output encoder he connection hsucc r ih => exact ih
  | case5 c hlen => exact ⟨_,rfl⟩

/-! ## Every run -/

/-- What the microphone has given. -/
def given (messages : List (AudioCodecMessage F)) : List F :=
  messages.flatMap fun
    | .outbound buffer => buffer
    | .inbound _ => []

@[simp] theorem given_append (messages messages' : List (AudioCodecMessage F)) :
    given (messages ++ messages') = given messages ++ given messages' := List.flatMap_append

/-- The task after some messages, and what it has done for the microphone. -/
inductive Handled (O : Opus F) (connection audioIo : ℕ) :
    List (AudioCodecMessage F) → List (Act F) → Codec O → Prop
  | nil : Handled O connection audioIo [] [] ⟨.empty,O.encoder,O.decoder,connection,audioIo⟩
  | snoc {messages : List (AudioCodecMessage F)} {acts acts' : List (Act F)} {c c' : Codec O}
      {message : AudioCodecMessage F} (handled : Handled O connection audioIo messages acts c)
      (step : handleBatch c message = (acts',.next c')) :
      Handled O connection audioIo (messages ++ [message]) (acts ++ acts') c'

/-- Messages from the connection task leave the samples alone. -/
theorem handle_inbound {c c' : Codec O} {packet : VoicePacket .clientbound}
    (h : (handle c (.inbound packet)).2 = .next c') :
    c'.ring = c.ring ∧ c'.encoder = c.encoder := by
  cases packet with
  | ping timestamp => cases h
  | audio target sessionId seqNum payload positionInfo =>
      cases payload with
      | celtAlpha frames | celtBeta frames | speex frames =>
          cases h
          exact ⟨rfl,rfl⟩
      | opus buffer fin =>
          simp only [handle] at h
          split at h
          · cases h
          · split at h
            · cases h
            · cases h
              exact ⟨rfl,rfl⟩

/-- What is left of a frame and a buffer that is not too long fit into the ring. -/
theorem pushSlice_fits {r : Ring F} {buffer : List F} (hr : r.samples.length < frameSize)
    (hbuffer : buffer.length ≤ 95041) : (r.pushSlice buffer).samples = r.samples ++ buffer := by
  have hroom : buffer.length ≤ capacity - r.samples.length := by
    simp only [frameSize, capacity] at hr ⊢
    omega
  exact congrArg (r.samples ++ ·) (List.take_of_length_le hroom)

/-- One message keeps the samples together. -/
theorem handleBatch_cut {c c' : Codec O} {acts : List (Act F)} {message : AudioCodecMessage F}
    (h : handleBatch c message = (acts,.next c')) (hkept : Kept acts)
    (hshort : c.ring.samples.length < frameSize)
    (hsize : ∀ buffer, message = .outbound buffer → buffer.length ≤ 95041) :
    Cut frameSize (c.ring.samples ++ given [message]) (blocks acts) c'.ring.samples ∧
      Encoded O c.encoder acts c'.encoder := by
  cases message with
  | outbound buffer =>
      have hfits := pushSlice_fits hshort (hsize buffer rfl)
      obtain ⟨rfl,hflow⟩ := Prod.mk.inj h
      have hnext := batchFrames_next hflow hkept
      rw [hfits] at hnext
      simpa [given] using hnext
  | inbound packet =>
      obtain ⟨rfl,hflow⟩ := Prod.mk.inj h
      obtain ⟨hring,hencoder⟩ := handle_inbound hflow
      rw [hring, hencoder]
      exact ⟨by simpa [given, blocks] using Cut.stop hshort,.nil⟩

/-- The samples of every buffer that is not too long are handed to the encoder in order, in
whole blocks and one message each, and less than a block is left in the ring; the assertion
holds whatever comes next, and any buffer is got through. -/
theorem batching (hO : O.Encodes) {connection audioIo : ℕ} {messages : List (AudioCodecMessage F)}
    {acts : List (Act F)} {c : Codec O} (h : Handled O connection audioIo messages acts c)
    (hsize : ∀ buffer, .outbound buffer ∈ messages → buffer.length ≤ 95041) (hkept : Kept acts) :
    (blocks acts).flatten ++ c.ring.samples = given messages ∧
    (∀ block ∈ blocks acts, block.length = frameSize) ∧
    c.ring.samples.length < frameSize ∧
    Encoded O O.encoder acts c.encoder ∧
    (∀ message left right, .assertEq left right ∈ (handleBatch c message).1 → left = right) ∧
    ∀ buffer, ∃ acts' c', handleBatch c (.outbound buffer) = (acts',.next c') := by
  have hcut : Cut frameSize (given messages) (blocks acts) c.ring.samples ∧
      Encoded O O.encoder acts c.encoder := by
    induction h with
    | nil => exact ⟨.stop (show 0 < frameSize by decide),.nil⟩
    | @snoc messages acts acts' c c' message handled step ih =>
        obtain ⟨hcut,hencoded⟩ := ih (fun buffer hm => hsize buffer (List.mem_append_left _ hm))
          fun message hm => hkept message (List.mem_append_left _ hm)
        obtain ⟨hcut',hencoded'⟩ := handleBatch_cut step
          (fun message hm => hkept message (List.mem_append_right _ hm)) hcut.short
          fun buffer he => hsize buffer (by simp [he])
        rw [given_append, blocks_append]
        exact ⟨hcut.append hcut',hencoded.append hencoded'⟩
  refine ⟨hcut.1.joined,hcut.1.whole,hcut.1.short,hcut.2,fun message left right hm => ?_,
    fun buffer => ?_⟩
  · cases message with
    | outbound buffer => exact assertEq_batchFrames hm
    | inbound packet => cases hm
  · obtain ⟨c',hc'⟩ := batchFrames_returns hO { c with ring := c.ring.pushSlice buffer }
    exact ⟨_,c',Prod.ext rfl hc'⟩

/-- A connection task with room for all the frames takes them. -/
theorem kept_batchFrames (hO : O.Encodes) {c : Codec O}
    (h : c.ring.samples.length / frameSize ≤ c.connection) : Kept (batchFrames c).1 := by
  obtain ⟨events,c',he,hquiet,-⟩ := encodeFrames_taken hO rfl h
  rw [← batchFrames_event] at he
  obtain ⟨rfl,-⟩ := Prod.mk.inj he
  intro message hm
  exact (hquiet _ (List.mem_filterMap.mpr ⟨_,hm,rfl⟩)).1 rfl

/-- A frame and one sample more. -/
theorem batching_frame : ∃ (buffer : List Unit) (acts : List (Act Unit)) (c : Codec .silent),
    Handled .silent 1 0 [.outbound buffer] acts c ∧ buffer.length = 961 ∧
    (blocks acts).flatten ++ c.ring.samples = buffer ∧ (∀ block ∈ blocks acts, block.length = 960) ∧
    c.ring.samples.length < 960 := by
  obtain ⟨buffer,hbuffer⟩ : ∃ buffer : List Unit, buffer.length = 961 :=
    ⟨List.replicate 961 (),List.length_replicate⟩
  let start : Codec .silent := ⟨Ring.empty.pushSlice buffer,(),(),1,0⟩
  have hfull : start.ring.samples.length / frameSize ≤ 1 := by
    rw [Ring.length_pushSlice, hbuffer]
    decide
  obtain ⟨c,hc⟩ := batchFrames_returns Opus.silent_encodes start
  have hhandled : Handled Opus.silent 1 0 [.outbound buffer] (batchFrames start).1 c :=
    Handled.nil.snoc (Prod.ext rfl hc)
  obtain ⟨hjoined,hwhole,hshort,-⟩ := batching Opus.silent_encodes hhandled
    (by simp [hbuffer]) (kept_batchFrames Opus.silent_encodes hfull)
  exact ⟨buffer,_,c,hhandled,hbuffer,by simpa [given] using hjoined,hwhole,hshort⟩

end Atof.Client
