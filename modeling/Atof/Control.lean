import Atof.Rust
import Atof.BigEndian
import Atof.Framing

/-!
# Control frames

A frame is a packet id, the length of the body and the body, the numbers in
network order. The decoder takes a frame only when it is there as a whole, and
refuses a length above the limit as soon as the header is there. The encoder has
no limit: it writes the low 32 bits of the length.
-/
namespace Atof.Control
open Rust BigEndian Framing

structure RawControlPacket where
  id : U16
  bytes : Bytes
  deriving DecidableEq, Repr

def maxLen : ℕ := 0x7fffff

def packetTooLong : IoError := ⟨.other, some "packet too long"⟩

/-- `RawControlCodec::decode`. The header is read through a cursor, which the length
check keeps in bounds. -/
def decode (buf : Bytes) : Checked (Io (Option RawControlPacket) × Bytes) :=
  if 6 ≤ buf.length then
    let id := ofBytes 16 (buf.take 2)
    let len := (ofBytes 32 ((buf.drop 2).take 4)).toNat
    if len > maxLen then .ok (.error packetTooLong, buf)
    else if 6 + len ≤ buf.length then do
      let (bytes, buf) ← BytesMut.splitTo buf (6 + len)
      let bytes ← BytesMut.advance bytes 6
      return (.ok (some ⟨id, bytes⟩), buf)
    else .ok (.ok none, buf)
  else .ok (.ok none, buf)

/-- `RawControlCodec::encode`, appending to the buffer. -/
def encode (item : RawControlPacket) (dst : Bytes) : Bytes :=
  dst ++ toBytes 2 item.id ++ toBytes 4 (BitVec.ofNat 32 item.bytes.length) ++ item.bytes

/-! ## The decoder by its header -/

/-- The length in the header. -/
def lenField (buf : Bytes) : ℕ := (ofBytes 32 ((buf.drop 2).take 4)).toNat

theorem lenField_append {buf : Bytes} (h : 6 ≤ buf.length) (more : Bytes) :
    lenField (buf ++ more) = lenField buf := by
  rw [lenField, lenField, List.drop_append_of_le_length (by omega),
    List.take_append_of_le_length (by rw [List.length_drop]; omega)]

theorem decode_short {buf : Bytes} (h : buf.length < 6) : decode buf = .ok (.ok none,buf) :=
  if_neg (by omega)

theorem decode_long {buf : Bytes} (h : 6 ≤ buf.length) (hlen : maxLen < lenField buf) :
    decode buf = .ok (.error packetTooLong,buf) :=
  (if_pos h).trans (if_pos hlen)

theorem decode_incomplete {buf : Bytes} (h : 6 ≤ buf.length) (hlen : lenField buf ≤ maxLen)
    (hbuf : buf.length < 6 + lenField buf) : decode buf = .ok (.ok none,buf) :=
  (if_pos h).trans ((if_neg (not_lt.mpr hlen)).trans (if_neg (not_le.mpr hbuf)))

theorem decode_whole {buf : Bytes} (h : 6 ≤ buf.length) (hlen : lenField buf ≤ maxLen)
    (hbuf : 6 + lenField buf ≤ buf.length) : decode buf =
      .ok (.ok (some ⟨ofBytes 16 (buf.take 2),(buf.take (6 + lenField buf)).drop 6⟩),
        buf.drop (6 + lenField buf)) := by
  refine (if_pos h).trans ((if_neg (not_lt.mpr hlen)).trans ((if_pos hbuf).trans ?_))
  change BytesMut.splitTo buf (6 + lenField buf) >>= _ = _
  rw [BytesMut.splitTo_of_le hbuf]
  change BytesMut.advance (buf.take (6 + lenField buf)) 6 >>= _ = _
  rw [BytesMut.advance_of_le (by rw [List.length_take]; omega)]
  rfl

/-- The four answers, by what the header says. -/
theorem decode_cases (buf : Bytes) :
    (decode buf = .ok (.ok none,buf) ∧
      (buf.length < 6 ∨ lenField buf ≤ maxLen ∧ buf.length < 6 + lenField buf)) ∨
    (decode buf = .ok (.error packetTooLong,buf) ∧ 6 ≤ buf.length ∧ maxLen < lenField buf) ∨
    (decode buf = .ok (.ok (some ⟨ofBytes 16 (buf.take 2),(buf.take (6 + lenField buf)).drop 6⟩),
      buf.drop (6 + lenField buf)) ∧
      6 ≤ buf.length ∧ lenField buf ≤ maxLen ∧ 6 + lenField buf ≤ buf.length) := by
  by_cases h : 6 ≤ buf.length
  · by_cases hlen : maxLen < lenField buf
    · exact Or.inr (Or.inl ⟨decode_long h hlen,h,hlen⟩)
    · by_cases hbuf : 6 + lenField buf ≤ buf.length
      · exact Or.inr (Or.inr ⟨decode_whole h (by omega) hbuf,h,by omega,hbuf⟩)
      · exact Or.inl ⟨decode_incomplete h (by omega) (by omega),Or.inr ⟨by omega,by omega⟩⟩
  · exact Or.inl ⟨decode_short (by omega),Or.inl (by omega)⟩

theorem decode_consumes {buf rest : Bytes} {p : RawControlPacket}
    (h : decode buf = .ok (.ok (some p),rest)) : rest.length < buf.length := by
  rcases decode_cases buf with ⟨hd,-⟩ | ⟨hd,-⟩ | ⟨hd,h6,-,hbuf⟩
  · rw [hd] at h
    cases h
  · rw [hd] at h
    cases h
  · rw [hd] at h
    cases h
    rw [List.length_drop]
    omega

/-- The codec as the reader of a stream sees it. -/
def rawControlCodec : Decoder U8 RawControlPacket IoError Panic := ⟨decode,decode_consumes⟩

theorem rawControlCodec_stable : rawControlCodec.Stable where
  returns buf := by
    rcases decode_cases buf with ⟨hd,-⟩ | ⟨hd,-⟩ | ⟨hd,-⟩ <;> exact ⟨_,hd⟩
  item {buf rest p} h more := by
    change decode buf = _ at h
    rcases decode_cases buf with ⟨hd,-⟩ | ⟨hd,-⟩ | ⟨hd,h6,hlen,hbuf⟩
    · rw [hd] at h
      cases h
    · rw [hd] at h
      cases h
    · rw [hd] at h
      cases h
      have hf := lenField_append h6 more
      have hd' := decode_whole (show 6 ≤ (buf ++ more).length by simp; omega) (hf ▸ hlen)
        (by rw [hf, List.length_append]; omega)
      rw [hf, List.take_append_of_le_length (by omega), List.take_append_of_le_length hbuf,
        List.drop_append_of_le_length hbuf] at hd'
      exact hd'
  wait {buf rest} h := by
    change decode buf = _ at h
    rcases decode_cases buf with ⟨hd,-⟩ | ⟨hd,-⟩ | ⟨hd,-⟩
    all_goals
      rw [hd] at h
      cases h
    rfl
  fail {buf rest e} h := by
    change decode buf = _ at h
    rcases decode_cases buf with ⟨hd,-⟩ | ⟨hd,h6,hlen⟩ | ⟨hd,-⟩
    · rw [hd] at h
      cases h
    · rw [hd] at h
      cases h
      refine ⟨rfl,fun more => decode_long (by simp; omega) ?_⟩
      rwa [lenField_append h6]
    · rw [hd] at h
      cases h

/-! ## Round trip -/

/-- One frame on its own. -/
def frame (p : RawControlPacket) : Bytes := encode p []

theorem encode_eq (p : RawControlPacket) (dst : Bytes) : encode p dst = dst ++ frame p := by
  simp [frame, encode]

/-- A stream of frames, one encoded after another. -/
theorem foldl_encode (ps : List RawControlPacket) (dst : Bytes) :
    ps.foldl (fun dst p => encode p dst) dst = dst ++ ps.flatMap frame := by
  induction ps generalizing dst with
  | nil => simp
  | cons p ps ih => rw [List.foldl_cons, ih, encode_eq, List.flatMap_cons, List.append_assoc]

theorem frame_append (p : RawControlPacket) (more : Bytes) :
    frame p ++ more = toBytes 2 p.id ++ (toBytes 4 (BitVec.ofNat 32 p.bytes.length) ++
      (p.bytes ++ more)) := by
  simp [frame, encode]

/-- The length field has 32 bits, whatever is framed. -/
theorem lenField_frame (p : RawControlPacket) (more : Bytes) :
    lenField (frame p ++ more) = p.bytes.length % 2 ^ 32 := by
  rw [frame_append, lenField, List.drop_left' (length_toBytes 2 p.id),
    List.take_left' (length_toBytes 4 _), ofBytes_toBytes (by norm_num), BitVec.toNat_ofNat]

theorem decode_frame (p : RawControlPacket) (hp : p.bytes.length ≤ maxLen) (more : Bytes) :
    decode (frame p ++ more) = .ok (.ok (some p),more) := by
  have hframe := frame_append p more
  have h2 := length_toBytes 2 p.id
  have h4 := length_toBytes 4 (BitVec.ofNat 32 p.bytes.length)
  have hfield : lenField (frame p ++ more) = p.bytes.length := by
    rw [lenField_frame, Nat.mod_eq_of_lt]
    unfold maxLen at hp
    omega
  have hlen : (frame p ++ more).length = 6 + p.bytes.length + more.length := by
    rw [hframe]
    simp only [List.length_append, h2, h4]
    omega
  rw [decode_whole (by omega) (by omega) (by omega), hfield]
  have hhead : (toBytes 2 p.id ++ toBytes 4 (BitVec.ofNat 32 p.bytes.length)).length = 6 := by
    rw [List.length_append, h2, h4]
  have hsplit : frame p ++ more = (toBytes 2 p.id ++ toBytes 4 (BitVec.ofNat 32 p.bytes.length)) ++
      p.bytes ++ more := by
    simp [hframe]
  have hbody : ((toBytes 2 p.id ++ toBytes 4 (BitVec.ofNat 32 p.bytes.length)) ++
      p.bytes).length = 6 + p.bytes.length := by
    rw [List.length_append, hhead]
  have hid : ofBytes 16 ((frame p ++ more).take 2) = p.id := by
    rw [hframe, List.take_left' h2, ofBytes_toBytes (by norm_num)]
  have hbytes : ((frame p ++ more).take (6 + p.bytes.length)).drop 6 = p.bytes := by
    rw [hsplit, List.take_left' hbody, List.drop_left' hhead]
  have hrest : (frame p ++ more).drop (6 + p.bytes.length) = more := by
    rw [hsplit, List.drop_left' hbody]
  rw [hid, hbytes, hrest]

/-- Frames within the limit are taken off one by one; an incomplete one is left. -/
theorem feed_frames (frames : List RawControlPacket)
    (hlen : ∀ r ∈ frames, r.bytes.length ≤ maxLen) (chunks : List Bytes) (tail : Bytes)
    (hwait : decode tail = .ok (.ok none,tail)) (hcut : chunks.flatten = frames.flatMap frame ++ tail) :
    rawControlCodec.feed [] chunks = .ok ⟨frames,none,tail⟩ := by
  have hempty : rawControlCodec.decode [] = .ok (.ok none,[]) :=
    show decode [] = _ from decode_short (by decide)
  have htail : rawControlCodec.decode tail = .ok (.ok none,tail) := hwait
  rw [rawControlCodec_stable.feed_eq_drain hempty, hcut, List.nil_append,
    Decoder.drain_encoded decode_frame frames hlen, Decoder.drain_wait htail]
  simp [Except.map, Drained.prepend]

/-- Frames within the limit come back one by one, however the stream is cut. -/
theorem feed_encode (ps : List RawControlPacket) (hps : ∀ p ∈ ps, p.bytes.length ≤ 0x7fffff)
    (chunks : List Bytes) (hcut : chunks.flatten = ps.foldl (fun dst p => encode p dst) []) :
    rawControlCodec.feed [] chunks = .ok ⟨ps,none,[]⟩ := by
  rw [foldl_encode, List.nil_append, ← List.append_nil (ps.flatMap frame)] at hcut
  exact feed_frames ps hps chunks [] (decode_short (by decide)) hcut

/-- An empty frame and one byte, cut in the second header and before the byte. -/
theorem feed_encode_two :
    rawControlCodec.feed [] [[0,3,0,0,0,0,0],[],[9,0,0,0,1],[7]] =
      .ok ⟨[⟨3,[]⟩,⟨9,[7]⟩],none,[]⟩ :=
  feed_encode [⟨3,[]⟩,⟨9,[7]⟩] (by decide) _ (by decide)

/-! ## Any stream -/

theorem toBytes_ofBytes_of_length {w n : ℕ} {bs : Bytes} (hl : bs.length = n) (hw : 8 * n ≤ w) :
    toBytes n (ofBytes w bs) = bs := hl ▸ toBytes_ofBytes (hl ▸ hw)

/-- What is taken off is the frame of what is returned. -/
theorem eq_frame_of_decode {buf rest : Bytes} {p : RawControlPacket}
    (h : decode buf = .ok (.ok (some p),rest)) : buf = frame p ++ rest := by
  rcases decode_cases buf with ⟨hd,-⟩ | ⟨hd,-⟩ | ⟨hd,h6,-,hbuf⟩
  · rw [hd] at h
    cases h
  · rw [hd] at h
    cases h
  rw [hd] at h
  cases h
  have hid : toBytes 2 (ofBytes 16 (buf.take 2)) = buf.take 2 :=
    toBytes_ofBytes_of_length (List.length_take_of_le (by omega)) (by norm_num)
  have hbody : ((buf.take (6 + lenField buf)).drop 6).length = lenField buf := by
    rw [List.length_drop, List.length_take_of_le hbuf, Nat.add_sub_cancel_left]
  have hlen : toBytes 4 (BitVec.ofNat 32 (lenField buf)) = (buf.drop 2).take 4 := by
    rw [lenField, BitVec.ofNat_toNat, BitVec.setWidth_eq]
    refine toBytes_ofBytes_of_length (List.length_take_of_le ?_) (by norm_num)
    rw [List.length_drop]
    omega
  have hhead : buf.take 2 ++ (buf.drop 2).take 4 = buf.take 6 := List.take_add.symm
  have hfront : buf.take 6 ++ (buf.take (6 + lenField buf)).drop 6 =
      buf.take (6 + lenField buf) := by
    conv_rhs => rw [← List.take_append_drop 6 (buf.take (6 + lenField buf)), List.take_take]
    rw [Nat.min_eq_left (by omega)]
  rw [frame, encode, List.nil_append, hid, hbody, hlen, hhead, hfront, List.take_append_drop]

/-- What a stream is decoded to, and what is left of it, do not depend on how it was
cut; encoding it again gives back the stream. Waiting and failing take nothing. -/
theorem feed_lossless (chunks chunks' : List Bytes) (hcut : chunks.flatten = chunks'.flatten) :
    (∃ r, rawControlCodec.feed [] chunks = .ok r ∧ rawControlCodec.feed [] chunks' = .ok r ∧
      r.items.foldl (fun dst p => encode p dst) [] ++ r.rest = chunks.flatten) ∧
    ∀ buf rest, (decode buf = .ok (.ok none,rest) ∨ ∃ e, decode buf = .ok (.error e,rest)) →
      rest = buf := by
  have hwait : rawControlCodec.decode [] = .ok (.ok none,[]) :=
    show decode [] = _ from decode_short (by decide)
  obtain ⟨r,hr,-⟩ := rawControlCodec_stable.drain_spec chunks.flatten
  refine ⟨⟨r,?_,?_,?_⟩,?_⟩
  · rw [rawControlCodec_stable.feed_eq_drain hwait, List.nil_append, hr]
  · rw [rawControlCodec_stable.feed_eq_drain hwait, List.nil_append, ← hcut, hr]
  · rw [foldl_encode, List.nil_append]
    exact rawControlCodec_stable.drain_exact eq_frame_of_decode _ r hr
  · rintro buf rest (h | ⟨e,h⟩)
    · exact rawControlCodec_stable.wait h
    · exact (rawControlCodec_stable.fail h).1

/-- A frame and a header whose length is one above the limit, cut in two ways. -/
theorem feed_lossless_long :
    (∃ r, rawControlCodec.feed [] [[0,3,0,0],[0,0,0,0,0,0x80,0],[0]] = .ok r ∧
      rawControlCodec.feed [] [[0],[3,0,0,0,0,0,0,0,0x80,0,0]] = .ok r ∧
      r.items.foldl (fun dst p => encode p dst) [] ++ r.rest =
        [[0,3,0,0],[0,0,0,0,0,0x80,0],[0]].flatten) ∧
    ∀ buf rest, (decode buf = .ok (.ok none,rest) ∨ ∃ e, decode buf = .ok (.error e,rest)) →
      rest = buf :=
  feed_lossless [[0,3,0,0],[0,0,0,0,0,0x80,0],[0]] [[0],[3,0,0,0,0,0,0,0,0x80,0,0]] (by decide)

end Atof.Control
