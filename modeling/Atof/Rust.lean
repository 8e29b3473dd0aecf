import Mathlib.Tactic

/-!
# Machine words, panics and byte buffers

The words are bit vectors of the widths the source declares; `as` casts are
`setWidth` and `signExtend`. A call either returns or panics, and the two
outcomes are kept apart by `Checked`. Arithmetic written with `+` in the source
wraps in a release build and panics in a debug build; `Overflow` names the build
and every such addition takes it as an argument.

A `BytesMut` is the list of its bytes. Only the operations that can panic are
given here; `len`, `is_empty`, `put_u8` and `put_slice` are `length`, `isEmpty`
and list append. A reader is the list of bytes it has not yet returned.
-/
namespace Atof.Rust

abbrev U8 := BitVec 8
abbrev U16 := BitVec 16
abbrev U32 := BitVec 32
abbrev U64 := BitVec 64
abbrev U128 := BitVec 128
abbrev Bytes := List U8

/-- Why a call did not return. -/
inductive Panic where
  | overflow
  | outOfBounds
  | explicit
  deriving DecidableEq, Repr

abbrev Checked := Except Panic

/-- A sequence returns when both steps do. -/
theorem bind_eq_ok {ε α β : Type} {x : Except ε α} {f : α → Except ε β} {b : β} :
    x >>= f = .ok b ↔ ∃ a, x = .ok a ∧ f a = .ok b := by
  cases x <;> simp [bind, Except.bind]

/-- The build profile: overflow wraps (release) or panics (debug). -/
inductive Overflow where
  | wrap
  | panic
  deriving DecidableEq, Repr

def Overflow.addU32 : Overflow → U32 → U32 → Checked U32
  | .wrap, a, b => .ok (a + b)
  | .panic, a, b => if BitVec.uaddOverflow a b then .error .overflow else .ok (a + b)

/-- Signed addition; the operands are the two's complement words. -/
def Overflow.addI32 : Overflow → U32 → U32 → Checked U32
  | .wrap, a, b => .ok (a + b)
  | .panic, a, b => if BitVec.saddOverflow a b then .error .overflow else .ok (a + b)

/-- An addition that returns has returned the wrapped sum. -/
theorem Overflow.addU32_eq {mode : Overflow} {a b c : U32} (h : mode.addU32 a b = .ok c) :
    c = a + b := by
  cases mode with
  | wrap => simpa [addU32] using h.symm
  | panic =>
      simp only [addU32] at h
      split at h <;> simp_all

theorem Overflow.addI32_eq {mode : Overflow} {a b c : U32} (h : mode.addI32 a b = .ok c) :
    c = a + b := by
  cases mode with
  | wrap => simpa [addI32] using h.symm
  | panic =>
      simp only [addI32] at h
      split at h <;> simp_all

/-- What fails only by overflow, and that in a debug build only. -/
def Overflow.Sums {α : Type} (mode : Overflow) (x : Checked α) : Prop :=
  (∃ a, x = .ok a) ∨ mode = .panic ∧ x = .error .overflow

theorem Overflow.Sums.bind {α β : Type} {mode : Overflow} {x : Checked α} {f : α → Checked β}
    (hx : mode.Sums x) (hf : ∀ a, mode.Sums (f a)) : mode.Sums (x >>= f) := by
  rcases hx with ⟨a,rfl⟩ | ⟨hmode,rfl⟩
  · exact hf a
  · exact Or.inr ⟨hmode,rfl⟩

/-- A sum that is checked in a debug build. -/
theorem Overflow.Sums.checked {α : Type} (overflows : Prop) [Decidable overflows] (a : α) :
    Overflow.panic.Sums (if overflows then .error .overflow else .ok a) := by
  by_cases h : overflows
  · exact Or.inr ⟨rfl,if_pos h⟩
  · exact Or.inl ⟨_,if_neg h⟩

theorem Overflow.sums_addU32 (mode : Overflow) (a b : U32) : mode.Sums (mode.addU32 a b) := by
  cases mode with
  | wrap => exact Or.inl ⟨_,rfl⟩
  | panic => exact .checked _ _

theorem Overflow.sums_addI32 (mode : Overflow) (a b : U32) : mode.Sums (mode.addI32 a b) := by
  cases mode with
  | wrap => exact Or.inl ⟨_,rfl⟩
  | panic => exact .checked _ _

/-- Below the limit both builds agree. -/
theorem Overflow.addU32_of_lt (mode : Overflow) {a b : U32}
    (h : a.toNat + b.toNat < 2 ^ 32) : mode.addU32 a b = .ok (a + b) := by
  cases mode with
  | wrap => rfl
  | panic =>
      have hn : ¬ BitVec.uaddOverflow a b := by simpa [BitVec.uaddOverflow] using h
      exact if_neg hn

theorem Overflow.addI32_of_bounds (mode : Overflow) {a b : U32}
    (hlo : -2 ^ 31 ≤ a.toInt + b.toInt) (hhi : a.toInt + b.toInt < 2 ^ 31) :
    mode.addI32 a b = .ok (a + b) := by
  cases mode with
  | wrap => rfl
  | panic =>
      have hn : ¬ BitVec.saddOverflow a b := by
        simp only [BitVec.saddOverflow, Bool.or_eq_true, decide_eq_true_eq]
        norm_num at hlo hhi ⊢
        omega
      exact if_neg hn

inductive ErrorKind where
  | unexpectedEof
  | invalidData
  | other
  deriving DecidableEq, Repr

/-- `io::Error`; an error made from a bare kind carries no message. -/
structure IoError where
  kind : ErrorKind
  message : Option String
  deriving DecidableEq, Repr

abbrev Io := Except IoError

/-- What `read_exact` reports on a short source. -/
def IoError.failedToFill : IoError :=
  ⟨.unexpectedEof, some "failed to fill whole buffer"⟩

/-- `read_u8` on a source with the given unread bytes. -/
def readU8 : Bytes → Io (U8 × Bytes)
  | [] => .error .failedToFill
  | b :: rest => .ok (b, rest)

namespace BytesMut

def advance (buf : Bytes) (n : ℕ) : Checked Bytes :=
  if n ≤ buf.length then .ok (buf.drop n) else .error .outOfBounds

/-- The first `n` bytes and what stays in the buffer. -/
def splitTo (buf : Bytes) (n : ℕ) : Checked (Bytes × Bytes) :=
  if n ≤ buf.length then .ok (buf.take n, buf.drop n) else .error .outOfBounds

/-- `split_off` keeps the first `n` bytes and returns the others. -/
def splitOff (buf : Bytes) (n : ℕ) : Checked (Bytes × Bytes) :=
  if n ≤ buf.length then .ok (buf.take n, buf.drop n) else .error .outOfBounds

def resize (buf : Bytes) (n : ℕ) (value : U8) : Bytes :=
  buf.take n ++ List.replicate (n - buf.length) value

@[simp] theorem length_resize (buf : Bytes) (n : ℕ) (value : U8) :
    (resize buf n value).length = n := by
  simp only [resize, List.length_append, List.length_take, List.length_replicate]
  omega

theorem advance_of_le {buf : Bytes} {n : ℕ} (h : n ≤ buf.length) :
    advance buf n = .ok (buf.drop n) := if_pos h

theorem splitTo_of_le {buf : Bytes} {n : ℕ} (h : n ≤ buf.length) :
    splitTo buf n = .ok (buf.take n, buf.drop n) := if_pos h

theorem splitTo_eq {buf front rest : Bytes} {n : ℕ}
    (h : splitTo buf n = .ok (front, rest)) :
    n ≤ buf.length ∧ front = buf.take n ∧ rest = buf.drop n := by
  unfold splitTo at h
  split at h
  · cases h
    exact ⟨‹_›,rfl,rfl⟩
  · cases h

theorem length_rest_le {buf front rest : Bytes} {n : ℕ}
    (h : splitTo buf n = .ok (front, rest)) : rest.length ≤ buf.length := by
  rw [(splitTo_eq h).2.2, List.length_drop]
  omega

theorem splitOff_of_le {buf : Bytes} {n : ℕ} (h : n ≤ buf.length) :
    splitOff buf n = .ok (buf.take n, buf.drop n) := if_pos h

end BytesMut
end Atof.Rust
