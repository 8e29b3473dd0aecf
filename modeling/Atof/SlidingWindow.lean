import Mathlib.Tactic
import Mathlib.Logic.Function.Basic

/-!
# Sliding windows with one mark per slot

A window accepts positions one at a time. Beyond its top every position is new;
at most `reach` below it a position is accepted when its slot does not carry its
mark. Accepting writes the mark and moves the top up. Slots may be shared by
positions far apart and marks may coincide; all that is assumed is that positions
less than `reach` apart have different slots.

The ghost list of accepted positions is what the slots stand for: inside the
window a position that was accepted is still marked, so it is not accepted again.
-/
namespace Atof.SlidingWindow

structure Window (K V : Type*) where
  top : ℕ
  marks : K → V

variable {K V : Type*} (slot : ℕ → K) (mark : ℕ → V) (reach : ℕ)

/-- What the window still knows about the positions it has accepted. -/
structure Inv (w : Window K V) (seen : List ℕ) : Prop where
  nodup : seen.Nodup
  le_top : ∀ p ∈ seen, p ≤ w.top
  marked : ∀ p ∈ seen, w.top < p + reach → w.marks (slot p) = mark p

theorem Inv.empty (w : Window K V) : Inv slot mark reach w [] :=
  ⟨List.nodup_nil,by simp,by simp⟩

variable [DecidableEq K]

/-- Accepting one position. -/
inductive Accepts (w : Window K V) : ℕ → Window K V → Prop
  | ahead {p : ℕ} (h : w.top < p) :
      Accepts w p ⟨p,Function.update w.marks (slot p) (mark p)⟩
  | behind {p : ℕ} (below : p ≤ w.top) (near : w.top < p + reach)
      (unmarked : w.marks (slot p) ≠ mark p) :
      Accepts w p ⟨w.top,Function.update w.marks (slot p) (mark p)⟩

variable {slot mark reach}

theorem Accepts.top_le {w w' : Window K V} {p : ℕ} (h : Accepts slot mark reach w p w') :
    w.top ≤ w'.top ∧ p ≤ w'.top := by
  cases h with
  | ahead h => exact ⟨h.le,le_rfl⟩
  | behind below => exact ⟨le_rfl,below⟩

/-- An accepted position was not accepted before. -/
theorem Accepts.fresh {w w' : Window K V} {seen : List ℕ} {p : ℕ}
    (h : Accepts slot mark reach w p w') (inv : Inv slot mark reach w seen) : p ∉ seen := by
  intro hp
  cases h with
  | ahead h => exact absurd (inv.le_top p hp) (not_le.mpr h)
  | behind _ near unmarked => exact unmarked (inv.marked p hp near)

/-- Accepting keeps the invariant: a slot is overwritten only from outside the
window, or by a position that was not marked there. -/
theorem Inv.accepts {w w' : Window K V} {seen : List ℕ} {p : ℕ}
    (hslot : ∀ p q, p < q + reach → q < p + reach → slot p = slot q → p = q)
    (h : Accepts slot mark reach w p w') (inv : Inv slot mark reach w seen) :
    Inv slot mark reach w' (p :: seen) := by
  have hfresh := h.fresh inv
  refine ⟨List.nodup_cons.mpr ⟨hfresh,inv.nodup⟩,?_,?_⟩
  · intro q hq
    rcases List.mem_cons.mp hq with rfl | hq
    · exact h.top_le.2
    · exact (inv.le_top q hq).trans h.top_le.1
  · intro q hq hnear
    rcases List.mem_cons.mp hq with rfl | hq
    · cases h <;> simp
    · have hle := inv.le_top q hq
      have hold : w.marks (slot q) = mark q := inv.marked q hq (lt_of_le_of_lt h.top_le.1 hnear)
      have hne : slot q ≠ slot p := by
        intro hs
        have hqp : q = p := by
          cases h with
          | ahead h => exact hslot q p (by omega) hnear hs
          | behind below near _ => exact hslot q p (by omega) (by simp at hnear; omega) hs
        exact hfresh (hqp ▸ hq)
      cases h <;> simpa [Function.update_of_ne hne] using hold

end Atof.SlidingWindow
