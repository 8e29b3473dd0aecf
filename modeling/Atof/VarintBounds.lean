import Atof.VarintGrammar

/-!
# How long variable-length integers are

The writer emits ten bytes at most: the complement form puts one byte before an integer
that is written without it. The reader takes any number of these bytes, one nested call
for each, before the byte that says how many more there are.
-/
namespace Atof.Varint
open Rust BigEndian

/-! ## What is written -/

theorem length_writeVarint_pos (value : U64) : 1 ≤ (writeVarint value).length := by
  fun_induction writeVarint value <;> simp

/-- Without the complement form there are at most nine bytes. -/
theorem length_writeVarint_of_lt {value : U64} (h : value.toNat < 2 ^ 63) :
    (writeVarint value).length ≤ 9 := by
  have htop : ¬ value &&& 0x8000000000000000#64 = 0x8000000000000000#64 := by
    rw [and_top_eq]
    omega
  rw [writeVarint, if_neg htop]
  split_ifs <;> simp

theorem length_writeVarint_le (value : U64) : (writeVarint value).length ≤ 10 := by
  by_cases htop : value.toNat < 2 ^ 63
  · exact (length_writeVarint_of_lt htop).trans (by norm_num)
  · have hinner : (writeVarint (~~~value)).length ≤ 9 := by
      refine length_writeVarint_of_lt ?_
      rw [BitVec.toNat_not]
      omega
    rw [writeVarint]
    split_ifs with h1 h2
    · simp
    · rw [List.length_cons]
      omega
    all_goals exact absurd ((and_top_eq value).mpr (not_lt.mp htop)) h2

/-- What was written is read back, and of what follows nothing is read; and it is between
one and ten bytes. -/
theorem round_trip (value : U64) (rest : Bytes) :
    readVarint (writeVarint value ++ rest) = .ok (value,rest) ∧
      1 ≤ (writeVarint value).length ∧ (writeVarint value).length ≤ 10 :=
  ⟨readVarint_writeVarint value rest,length_writeVarint_pos value,length_writeVarint_le value⟩

/-! ## What is read -/

/-- A call of `read_varint`: what it returns, what it leaves of the source whether or not it
succeeds, and the number of calls it nests, itself included. -/
structure Reading where
  result : Io U64
  unread : Bytes
  calls : ℕ

/-- `self.read_u8()?` and what is done with the byte. -/
def Reading.withU8 (source : Bytes) (next : U8 → Bytes → Reading) : Reading :=
  match source with
  | [] => ⟨.error .failedToFill, [], 1⟩
  | b :: rest => next b rest

/-- `read_varint` on a source with the given unread bytes. -/
def reading : Bytes → Reading
  | [] => ⟨.error .failedToFill, [], 1⟩
  | b0 :: rest =>
    if b0 &&& 0b11111100#8 = 0b11111000#8 then
      let inner := reading rest
      ⟨inner.result.map fun value => ~~~value, inner.unread, inner.calls + 1⟩
    else if b0 &&& 0b11111100#8 = 0b11111100#8 then
      ⟨.ok (~~~(b0 &&& 0x03#8).setWidth 64), rest, 1⟩
    else if b0 &&& 0b10000000#8 = 0#8 then
      ⟨.ok ((b0 &&& 0b01111111#8).setWidth 64), rest, 1⟩
    else Reading.withU8 rest fun b1 rest =>
    if b0 &&& 0b01000000#8 = 0#8 then
      ⟨.ok ((b0 &&& 0b00111111#8).setWidth 64 <<< 8 ||| b1.setWidth 64), rest, 1⟩
    else Reading.withU8 rest fun b2 rest =>
    if b0 &&& 0b00100000#8 = 0#8 then
      ⟨.ok ((b0 &&& 0b00011111#8).setWidth 64 <<< 16 ||| b1.setWidth 64 <<< 8 |||
        b2.setWidth 64), rest, 1⟩
    else Reading.withU8 rest fun b3 rest =>
    if b0 &&& 0b00010000#8 = 0#8 then
      ⟨.ok ((b0 &&& 0x0F#8).setWidth 64 <<< 24 ||| b1.setWidth 64 <<< 16 |||
        b2.setWidth 64 <<< 8 ||| b3.setWidth 64), rest, 1⟩
    else Reading.withU8 rest fun b4 rest =>
    if b0 &&& 0b00000100#8 = 0#8 then
      ⟨.ok (b1.setWidth 64 <<< 24 ||| b2.setWidth 64 <<< 16 ||| b3.setWidth 64 <<< 8 |||
        b4.setWidth 64), rest, 1⟩
    else Reading.withU8 rest fun b5 rest =>
    Reading.withU8 rest fun b6 rest =>
    Reading.withU8 rest fun b7 rest =>
    Reading.withU8 rest fun b8 rest =>
      ⟨.ok (b1.setWidth 64 <<< 56 ||| b2.setWidth 64 <<< 48 ||| b3.setWidth 64 <<< 40 |||
        b4.setWidth 64 <<< 32 ||| b5.setWidth 64 <<< 24 ||| b6.setWidth 64 <<< 16 |||
        b7.setWidth 64 <<< 8 ||| b8.setWidth 64), rest, 1⟩

/-- The value and what is left, where there is a value. -/
def Reading.outcome (r : Reading) : Io (U64 × Bytes) := r.result.map fun value => (value,r.unread)

theorem Reading.outcome_withU8 (source : Bytes) (next : U8 → Bytes → Reading) :
    (withU8 source next).outcome = readU8 source >>= fun p => (next p.1 p.2).outcome := by
  cases source <;> rfl

/-- It is the same reader. -/
theorem reading_outcome (buf : Bytes) : (reading buf).outcome = readVarint buf := by
  induction buf with
  | nil => rfl
  | cons b0 rest ih =>
      rw [reading, readVarint, ← ih]
      split_ifs with t1 t2 t3
      · cases hr : (reading rest).result <;> simp [Reading.outcome, hr, Except.map, bind, Except.bind, pure, Except.pure]
      · rfl
      · rfl
      all_goals
        simp only [Reading.outcome_withU8]
        rfl

/-- The bytes a call takes off its source. -/
def bytesRead (buf : Bytes) : ℕ := buf.length - (reading buf).unread.length

/-- A first byte of the complement form. -/
def isComplement (b0 : U8) : Bool := b0 &&& 0b11111100#8 = 0b11111000#8

/-- How many bytes the first one of the other forms announces, itself included. -/
def formLength (b0 : U8) : ℕ :=
  if b0 &&& 0b11111100#8 = 0b11111100#8 then 1
  else if b0 &&& 0b10000000#8 = 0#8 then 1
  else if b0 &&& 0b01000000#8 = 0#8 then 2
  else if b0 &&& 0b00100000#8 = 0#8 then 3
  else if b0 &&& 0b00010000#8 = 0#8 then 4
  else if b0 &&& 0b00000100#8 = 0#8 then 5
  else 9

/-- The complement bytes at the start, and what the byte after them announces. -/
def announced (buf : Bytes) : ℕ :=
  (buf.takeWhile isComplement).length + ((buf.dropWhile isComplement).head?.map formLength).getD 0

theorem Reading.withU8_eq {source : Bytes} {next : U8 → Bytes → Reading} {n : ℕ}
    (h : ∀ b rest, (next b rest).unread = rest.drop n ∧ (next b rest).calls = 1) :
    (withU8 source next).unread = source.drop (n + 1) ∧ (withU8 source next).calls = 1 := by
  cases source with
  | nil => exact ⟨rfl,rfl⟩
  | cons b rest => exact h b rest

/-- The forms other than the complement nest no call. -/
theorem reading_form {b0 : U8} (h : isComplement b0 = false) (rest : Bytes) :
    (reading (b0 :: rest)).unread = rest.drop (formLength b0 - 1) ∧
      (reading (b0 :: rest)).calls = 1 := by
  rw [reading, if_neg (of_decide_eq_false h), formLength]
  split_ifs
  · exact ⟨rfl,rfl⟩
  · exact ⟨rfl,rfl⟩
  all_goals repeat' refine Reading.withU8_eq fun _ _ => ?_
  all_goals exact ⟨rfl,rfl⟩

theorem formLength_pos (b0 : U8) : 1 ≤ formLength b0 := by
  unfold formLength
  split_ifs <;> norm_num

/-- A call takes what is announced, or all there is, and each complement byte nests another
call in it. -/
theorem reading_announced (buf : Bytes) : (reading buf).unread = buf.drop (announced buf) ∧
    (reading buf).calls = (buf.takeWhile isComplement).length + 1 := by
  induction buf with
  | nil => exact ⟨rfl,rfl⟩
  | cons b0 rest ih =>
      rw [announced, List.takeWhile_cons, List.dropWhile_cons]
      cases h : isComplement b0 with
      | true =>
          rw [reading, if_pos (of_decide_eq_true h), if_pos rfl, if_pos rfl, List.length_cons,
            Nat.add_right_comm, List.drop_succ_cons]
          exact ⟨ih.1,congrArg (· + 1) ih.2⟩
      | false =>
          have hpos := formLength_pos b0
          obtain ⟨hunread,hcalls⟩ := reading_form h rest
          refine ⟨?_,hcalls⟩
          rw [hunread]
          simp [List.drop_cons hpos]

theorem bytesRead_eq (buf : Bytes) : bytesRead buf = min buf.length (announced buf) := by
  rw [bytesRead, (reading_announced buf).1, List.length_drop]
  omega

/-- At most the ten bytes of the longest integer that is written are read. Every nested
call but the last has read a byte. -/
def Bounded (buf : Bytes) : Prop := bytesRead buf ≤ 10 ∧ (reading buf).calls ≤ 11

/-- At most ten bytes are read exactly if there are no more, or the complement bytes at the
start and the form after them announce no more. -/
theorem bounded_iff (buf : Bytes) : Bounded buf ↔ buf.length ≤ 10 ∨ announced buf ≤ 10 := by
  have hcalls : (reading buf).calls ≤ bytesRead buf + 1 := by
    have hrun := (List.takeWhile_sublist isComplement (l := buf)).length_le
    rw [(reading_announced buf).2, bytesRead_eq, announced]
    omega
  rw [Bounded]
  have hread := bytesRead_eq buf
  omega

/-- Eleven complement bytes. -/
theorem not_bounded : ¬ ∀ buf, Bounded buf := by
  intro h
  have hread := (h (List.replicate 11 0xf8)).1
  revert hread
  decide

/-- The calls that are nested grow with the source. -/
theorem calls_replicate (n : ℕ) : (reading (List.replicate n 0xf8)).calls = n + 1 := by
  have h : isComplement 0xf8 = true := by decide
  rw [(reading_announced _).2, List.takeWhile_replicate_eq_filter, List.filter_replicate, if_pos h,
    List.length_replicate]

end Atof.Varint
