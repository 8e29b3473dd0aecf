import Mathlib.Data.Finset.Card
import Mathlib.Tactic

/-!
# Counting what is missing

Things arrive, and one that comes too early passes over others, which are missing from then
on; a missing thing may turn up late. A counter that goes up by what is passed over and down
by one for each thing that comes late is at least the number of missing things, if only what
is missing comes late.
-/
namespace Atof.Missing

variable {α : Type*}

inductive Arrival (α : Type*) where
  | ahead (passed : List α) (a : α)
  | late (a : α)

/-- What an arrival does to the counter. -/
def Arrival.change : Arrival α → ℤ
  | .ahead passed _ => passed.length
  | .late _ => -1

variable [DecidableEq α]

/-- What is missing after an arrival. -/
def Arrival.after (out : Finset α) : Arrival α → Finset α
  | .ahead passed a => (out ∪ passed.toFinset).erase a
  | .late a => out.erase a

/-- Only what is missing comes late. -/
def Arrival.Known (out : Finset α) : Arrival α → Prop
  | .ahead _ _ => True
  | .late a => a ∈ out

instance (out : Finset α) (e : Arrival α) : Decidable (e.Known out) :=
  match e with
  | .ahead _ _ => inferInstanceAs (Decidable True)
  | .late a => inferInstanceAs (Decidable (a ∈ out))

/-- Whatever comes late is missing when it comes. -/
def Covered (out : Finset α) : List (Arrival α) → Prop
  | [] => True
  | e :: es => e.Known out ∧ Covered (e.after out) es

instance Covered.decidable (out : Finset α) : (es : List (Arrival α)) → Decidable (Covered out es)
  | [] => inferInstanceAs (Decidable True)
  | e :: es => have := Covered.decidable (e.after out) es; inferInstanceAs (Decidable (_ ∧ _))

/-- More is not missing than the counter says. -/
theorem Arrival.card_after_le {out : Finset α} {e : Arrival α} (h : e.Known out) :
    ((e.after out).card : ℤ) ≤ out.card + e.change := by
  cases e with
  | ahead passed a =>
      have hunion := Finset.card_union_le out passed.toFinset
      have hpassed := passed.toFinset_card_le
      have herase := Finset.card_erase_le (s := out ∪ passed.toFinset) (a := a)
      simp only [after, change]
      omega
  | late a =>
      have herase := Finset.card_erase_add_one (show a ∈ out from h)
      simp only [after, change]
      omega

end Atof.Missing
