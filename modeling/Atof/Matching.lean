import Mathlib.Logic.Equiv.Basic
import Mathlib.SetTheory.Cardinal.NatCard
import Mathlib.Data.List.Infix

/-!
# Permutations through given points

A list of pairs says what a permutation does at some points. It is a matching if
equal keys go with equal values and the other way round, so repetitions are
allowed. Every matching extends to a permutation of the whole type: the points are
corrected one after another by a swap, which moves no other point of the list.
-/
namespace Atof.Matching

variable {α β : Type*}

def IsMatching (ps : List (α × β)) : Prop := ∀ p ∈ ps, ∀ q ∈ ps, p.1 = q.1 ↔ p.2 = q.2

theorem matching_cons {p : α × β} {ps : List (α × β)} :
    IsMatching (p :: ps) ↔ IsMatching ps ∧ ∀ q ∈ ps, p.1 = q.1 ↔ p.2 = q.2 := by
  constructor
  · intro h
    exact ⟨fun q hq r hr => h q (List.mem_cons_of_mem p hq) r (List.mem_cons_of_mem p hr),
      fun q hq => h p List.mem_cons_self q (List.mem_cons_of_mem p hq)⟩
  · rintro ⟨hps,hp⟩ q hq r hr
    rcases List.mem_cons.mp hq with rfl | hq <;> rcases List.mem_cons.mp hr with hr | hr
    · rw [hr]
      exact iff_of_true rfl rfl
    · exact hp r hr
    · rw [hr, eq_comm, hp q hq, eq_comm]
    · exact hps q hq r hr

/-- A pair that shares nothing with the others can be added. -/
theorem matching_fresh {p : α × β} {ps : List (α × β)} (h : IsMatching ps)
    (hkey : ∀ q ∈ ps, p.1 ≠ q.1) (hvalue : ∀ q ∈ ps, p.2 ≠ q.2) : IsMatching (p :: ps) :=
  matching_cons.mpr ⟨h,fun q hq => iff_of_false (hkey q hq) (hvalue q hq)⟩

theorem matching_append {ps qs : List (α × β)} (hps : IsMatching ps) (hqs : IsMatching qs)
    (h : ∀ p ∈ ps, ∀ q ∈ qs, p.1 = q.1 ↔ p.2 = q.2) : IsMatching (ps ++ qs) := by
  intro p hp q hq
  rcases List.mem_append.mp hp with hp | hp <;> rcases List.mem_append.mp hq with hq | hq
  · exact hps p hp q hq
  · exact h p hp q hq
  · rw [eq_comm, h q hq p hp, eq_comm]
  · exact hqs p hp q hq

/-- A map that tells the keys apart and the values apart keeps a matching. -/
theorem IsMatching.map {γ : Type*} {ps : List (α × α)} (h : IsMatching ps) {f : α → γ}
    (hf : ∀ p ∈ ps, ∀ q ∈ ps, (f p.1 = f q.1 → p.1 = q.1) ∧ (f p.2 = f q.2 → p.2 = q.2)) :
    IsMatching (ps.map (Prod.map f f)) := by
  intro p' hp' q' hq'
  obtain ⟨p,hp,rfl⟩ := List.mem_map.mp hp'
  obtain ⟨q,hq,rfl⟩ := List.mem_map.mp hq'
  obtain ⟨h₁,h₂⟩ := hf p hp q hq
  exact ⟨fun e => congrArg f ((h p hp q hq).mp (h₁ e)),
    fun e => congrArg f ((h p hp q hq).mpr (h₂ e))⟩

theorem IsMatching.exists_perm [DecidableEq α] {ps : List (α × α)} (h : IsMatching ps) :
    ∃ e : Equiv.Perm α, ∀ p ∈ ps, e p.1 = p.2 := by
  induction ps with
  | nil => exact ⟨Equiv.refl α,fun _ hp => absurd hp List.not_mem_nil⟩
  | cons p ps ih =>
      obtain ⟨hps,hp⟩ := matching_cons.mp h
      obtain ⟨e,he⟩ := ih hps
      refine ⟨e.trans (Equiv.swap (e p.1) p.2),fun q hq => ?_⟩
      rw [Equiv.trans_apply]
      rcases List.mem_cons.mp hq with rfl | hq
      · exact Equiv.swap_apply_left _ _
      by_cases hkey : p.1 = q.1
      · rw [← hkey, (hp q hq).mp hkey]
        exact Equiv.swap_apply_left _ _
      · have hvalue : q.2 ≠ p.2 := fun hv => hkey ((hp q hq).mpr hv.symm)
        rw [Equiv.swap_apply_of_ne_of_ne (fun hv => hkey (e.injective hv).symm) (he q hq ▸ hvalue),
          he q hq]

/-- A list shorter than the type leaves something out. -/
theorem exists_notMem [Finite α] (l : List α) (h : l.length < Nat.card α) : ∃ a, a ∉ l := by
  by_contra hall
  simp only [not_exists, not_not] at hall
  have hsurj : Function.Surjective l.get := fun a => List.mem_iff_get.mp (hall a)
  have hcard := Nat.card_le_card_of_surjective l.get hsurj
  rw [Nat.card_fin] at hcard
  omega

end Atof.Matching
