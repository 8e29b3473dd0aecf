import Atof.BigEndian
import Atof.Rust

/-!
# Ping and pong datagrams

Both are of fixed size, with their fields one after another in big-endian order; the ping has
four zero bytes before its id. A byte string is read as a packet exactly when it is what is
written for it.
-/
namespace Atof.Ping
open Rust BigEndian

structure PingPacket where
  id : U64
  deriving DecidableEq, Repr

structure PongPacket where
  id : U64
  version : U32
  users : U32
  maxUsers : U32
  bandwidth : U32
  deriving DecidableEq, Repr

inductive ParsePingError where
  | invalidSize
  | invalidHeader
  deriving DecidableEq, Repr

inductive ParsePongError where
  | invalidSize
  deriving DecidableEq, Repr

/-- `buf[i..j]`. -/
def slice (buf : Bytes) (i j : ℕ) : Bytes := (buf.drop i).take (j - i)

def PingPacket.tryFrom (buf : Bytes) : Except ParsePingError PingPacket :=
  if buf.length = 12 then
    if slice buf 0 4 ≠ [0,0,0,0] then .error .invalidHeader
    else .ok { id := ofBytes 64 (slice buf 4 12) }
  else .error .invalidSize

/-- `<[u8; 12]>::from`. -/
def PingPacket.bytes (packet : PingPacket) : Bytes := [0,0,0,0] ++ toBytes 8 packet.id

def PongPacket.tryFrom (buf : Bytes) : Except ParsePongError PongPacket :=
  if buf.length = 24 then
    .ok { version := ofBytes 32 (slice buf 0 4)
          id := ofBytes 64 (slice buf 4 12)
          users := ofBytes 32 (slice buf 12 16)
          maxUsers := ofBytes 32 (slice buf 16 20)
          bandwidth := ofBytes 32 (slice buf 20 24) }
  else .error .invalidSize

/-- `<[u8; 24]>::from`. -/
def PongPacket.bytes (packet : PongPacket) : Bytes :=
  toBytes 4 packet.version ++ toBytes 8 packet.id ++ toBytes 4 packet.users ++
    toBytes 4 packet.maxUsers ++ toBytes 4 packet.bandwidth

/-! ## Slices -/

theorem slice_append {buf : Bytes} {i j k : ℕ} (hij : i ≤ j) (hjk : j ≤ k) :
    slice buf i j ++ slice buf j k = slice buf i k := by
  have hdrop : buf.drop j = (buf.drop i).drop (j - i) := by
    rw [List.drop_drop, Nat.add_sub_cancel' hij]
  have hlen : k - i = (j - i) + (k - j) := by omega
  rw [slice, slice, slice, hdrop, hlen, List.take_add]

theorem slice_all {buf : Bytes} {n : ℕ} (h : buf.length = n) : slice buf 0 n = buf := by
  rw [slice, List.drop_zero, Nat.sub_zero, ← h, List.take_length]

theorem length_slice {buf : Bytes} {i j : ℕ} (h : j ≤ buf.length) : (slice buf i j).length = j - i := by
  rw [slice, List.length_take, List.length_drop]
  omega

/-- A slice is what is written for the word that is read from it. -/
theorem toBytes_slice {w n : ℕ} {buf : Bytes} {i j : ℕ} (h : j ≤ buf.length) (hn : j - i = n)
    (hw : 8 * n ≤ w) : toBytes n (ofBytes w (slice buf i j)) = slice buf i j := by
  have hlen := (length_slice h).trans hn
  have hread : toBytes (slice buf i j).length (ofBytes w (slice buf i j)) = slice buf i j :=
    toBytes_ofBytes (by rwa [hlen])
  rwa [hlen] at hread

theorem slice_front {front rest : Bytes} {j : ℕ} (h : front.length = j) :
    slice (front ++ rest) 0 j = front := by
  rw [slice, List.drop_zero, Nat.sub_zero, List.take_left' h]

theorem slice_skip {front rest : Bytes} {i j : ℕ} (h : front.length ≤ i) :
    slice (front ++ rest) i j = slice rest (i - front.length) (j - front.length) := by
  rw [slice, slice, List.drop_append, List.drop_of_length_le h, List.nil_append,
    Nat.sub_sub_sub_cancel_right h]

/-! ## Exactness -/

theorem PingPacket.bytes_of_tryFrom {buf : Bytes} {packet : PingPacket}
    (h : tryFrom buf = .ok packet) : buf = packet.bytes := by
  unfold tryFrom at h
  split_ifs at h with hsize hheader
  cases h
  rw [not_not] at hheader
  calc buf = slice buf 0 4 ++ slice buf 4 12 := by
        rw [slice_append (by decide) (by decide), slice_all hsize]
    _ = _ := by simp (disch := omega) only [bytes, hheader, toBytes_slice]

theorem PingPacket.tryFrom_bytes (packet : PingPacket) : tryFrom packet.bytes = .ok packet := by
  have hsize : packet.bytes.length = 12 := by simp [bytes]
  have hheader : slice packet.bytes 0 4 = [0,0,0,0] := slice_front rfl
  have hid : slice packet.bytes 4 12 = toBytes 8 packet.id := by
    rw [bytes, slice_skip (by decide)]
    exact slice_all (length_toBytes ..)
  rw [tryFrom, if_pos hsize, if_neg (not_not.mpr hheader), hid, ofBytes_toBytes (by decide)]

theorem PongPacket.bytes_of_tryFrom {buf : Bytes} {packet : PongPacket}
    (h : tryFrom buf = .ok packet) : buf = packet.bytes := by
  unfold tryFrom at h
  split_ifs at h with hsize
  cases h
  calc buf = slice buf 0 4 ++ slice buf 4 12 ++ slice buf 12 16 ++ slice buf 16 20 ++
        slice buf 20 24 := by
        rw [slice_append (by decide) (by decide), slice_append (by decide) (by decide),
          slice_append (by decide) (by decide), slice_append (by decide) (by decide),
          slice_all hsize]
    _ = _ := by simp (disch := omega) only [bytes, toBytes_slice]

theorem PongPacket.tryFrom_bytes (packet : PongPacket) : tryFrom packet.bytes = .ok packet := by
  have hsize : packet.bytes.length = 24 := by simp [bytes]
  rw [tryFrom, if_pos hsize]
  simp (disch := simp) [bytes, slice_skip, slice_front, slice_all, ofBytes_toBytes]

/-- For both kinds of packets: what is read is what is written, and nothing else is read; what
is refused has another size, or is a ping of the right size with another header. -/
theorem reads_exactly (buf : Bytes) :
    (∀ packet, PingPacket.tryFrom buf = .ok packet ↔ buf = packet.bytes) ∧
    (PingPacket.tryFrom buf = .error .invalidSize ↔ buf.length ≠ 12) ∧
    (PingPacket.tryFrom buf = .error .invalidHeader ↔ buf.length = 12 ∧ buf.take 4 ≠ [0,0,0,0]) ∧
    (∀ packet, PongPacket.tryFrom buf = .ok packet ↔ buf = packet.bytes) ∧
    (PongPacket.tryFrom buf = .error .invalidSize ↔ buf.length ≠ 24) := by
  refine ⟨fun packet => ⟨PingPacket.bytes_of_tryFrom,fun h => h ▸ packet.tryFrom_bytes⟩,?_,?_,
    fun packet => ⟨PongPacket.bytes_of_tryFrom,fun h => h ▸ packet.tryFrom_bytes⟩,?_⟩
  · unfold PingPacket.tryFrom
    split_ifs <;> simp_all
  · unfold PingPacket.tryFrom slice
    split_ifs <;> simp_all
  · unfold PongPacket.tryFrom
    split_ifs <;> simp_all

end Atof.Ping
