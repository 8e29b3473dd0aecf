import Atof.Conversion

/-!
# Streams of frames, some of them bad

The typed codec takes a frame off the buffer before it looks at the body. A reader
that goes on after errors therefore gets one result for each frame, and a body that
does not parse has no effect on the frames around it.
-/
namespace Atof.Control
open Rust Voice Framing

variable {P : Protobuf} {dst : VoicePacketDst}

theorem controlDecode_consumes {buf rest : Bytes} {c : ControlPacket dst}
    (h : controlDecode P dst buf = .ok (.ok (some c),rest)) : rest.length < buf.length := by
  obtain ⟨⟨answer,left⟩,hd,h⟩ := bind_eq_ok.mp h
  rcases answer with e | _ | r
  · cases h
  · cases h
  · obtain ⟨result,-,h⟩ := bind_eq_ok.mp h
    cases result <;> cases h
    exact decode_consumes hd

variable (P dst)

def controlCodec : Decoder U8 (ControlPacket dst) IoError Panic :=
  ⟨controlDecode P dst,controlDecode_consumes⟩

/-- What a frame gives the reader of a stream. -/
inductive Yields (r : RawControlPacket) : Io (ControlPacket dst) → Prop
  | ok {c : ControlPacket dst} (converts : Converts P r (.ok c)) : Yields r (.ok c)
  | error {e : P.Error} (converts : Converts P r (.error e : Except P.Error (ControlPacket dst))) :
      Yields r (.error (P.intoIo e))

variable {P dst}

theorem Yields.unique {r : RawControlPacket} {a b : Io (ControlPacket dst)}
    (ha : Yields P dst r a) (hb : Yields P dst r b) : a = b := by
  obtain ⟨ha⟩ | ⟨ha⟩ := ha <;> obtain ⟨hb⟩ | ⟨hb⟩ := hb <;>
    rw [← tryFrom_iff] at ha hb <;> rw [ha] at hb <;> cases hb <;> rfl

/-- The typed codec is the raw one with the packets converted. -/
theorem controlCodec_eq : controlCodec P dst = rawControlCodec.convert fun r =>
    (tryFrom P dst r).map fun result => result.mapError P.intoIo := by
  have hdecode : controlDecode P dst = (rawControlCodec.convert fun r =>
      (tryFrom P dst r).map fun result => result.mapError P.intoIo).decode := by
    funext buf
    have hraw : rawControlCodec.decode buf = decode buf := rfl
    simp only [controlDecode, Decoder.convert, hraw, bind, Except.bind]
    rcases decode buf with panic | ⟨_ | _ | r,rest⟩
    · rfl
    · rfl
    · rfl
    · simp only
      rcases tryFrom P dst r with panic | _ | c <;> rfl
  cases h : rawControlCodec.convert _
  rw [controlCodec]
  congr 1
  rw [hdecode, h]

/-- Going on after errors, the codec gives one result for each frame, in their order,
however the stream is cut; an incomplete frame at the end is left. -/
theorem feed_resuming (P : Protobuf) (dst : VoicePacketDst) (frames : List RawControlPacket)
    (hlen : ∀ r ∈ frames, r.bytes.length ≤ 0x7fffff) (chunks : List Bytes) (tail : Bytes)
    (hwait : decode tail = .ok (.ok none,tail))
    (hcut : chunks.flatten = frames.foldl (fun buf r => encode r buf) [] ++ tail) :
    ∃ results, (controlCodec P dst).resuming.feed [] chunks = .ok ⟨results,none,tail⟩ ∧
      List.Forall₂ (Yields P dst) frames results := by
  choose g hg using tryFrom_returns P dst
  have htranslates := rawControlCodec_stable.translates_resuming (f := fun r =>
    (tryFrom P dst r).map fun result => result.mapError P.intoIo) (g := fun r =>
    (g r).mapError P.intoIo) fun r => by rw [hg]; rfl
  rw [foldl_encode, List.nil_append] at hcut
  refine ⟨frames.map fun r => (g r).mapError P.intoIo,?_,?_⟩
  · rw [controlCodec_eq, htranslates.feed rawControlCodec_stable,
      feed_frames frames hlen chunks tail hwait hcut]
    rfl
  · rw [List.forall₂_map_right_iff, List.forall₂_same]
    intro r _
    have hconverts := tryFrom_iff.mp (hg r)
    cases hr : g r with
    | error e => exact .error (hr ▸ hconverts)
    | ok c => exact .ok (hr ▸ hconverts)

/-- A voice body cut short between two frames that are good, cut in the first header,
and the start of another frame. -/
theorem feed_resuming_cut :
    ∃ results, (controlCodec blank .serverbound).resuming.feed []
        [[0,3],[0,0,0,0,0,1,0,0,0,3,0x80,5,9,0,77,0,0,0,0,0]] = .ok ⟨results,none,[0]⟩ ∧
      List.Forall₂ (Yields blank .serverbound) [⟨3,[]⟩,⟨1,[0x80,5,9]⟩,⟨77,[]⟩] results :=
  feed_resuming blank .serverbound [⟨3,[]⟩,⟨1,[0x80,5,9]⟩,⟨77,[]⟩] (by decide) _ [0] (by decide)
    (by decide)

end Atof.Control
