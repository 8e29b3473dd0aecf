import Mathlib.Order.WellFounded
import Mathlib.Tactic

/-!
# Fair schedules

A course of states goes on for ever, and in each step somebody moves or nobody does. A move
that is fair is not put off for ever. If a rank that nothing raises falls with every such
move, then what stops the moves comes about.
-/
namespace Atof.Fairness

variable {σ α : Type*}

/-- Once the move stays possible it is made. -/
def Weak (Move : σ → σ → Prop) (r : ℕ → σ) : Prop :=
  ∀ i, ∃ j, i ≤ j ∧ ((∃ s', Move (r j) s') → Move (r j) (r (j + 1)))

/-- If the move is possible again and again it is made again and again. -/
def Strong (Move : σ → σ → Prop) (r : ℕ → σ) : Prop :=
  (∀ i, ∃ j, i ≤ j ∧ ∃ s', Move (r j) s') → ∀ i, ∃ j, i ≤ j ∧ Move (r j) (r (j + 1))

/-- What a step keeps is kept from then on. -/
theorem stable {P : σ → Prop} {r : ℕ → σ} {i : ℕ} (hi : P (r i))
    (keeps : ∀ j, i ≤ j → P (r j) → P (r (j + 1))) : ∀ j, i ≤ j → P (r j) := by
  intro j hj
  induction j, hj using Nat.le_induction with
  | base => exact hi
  | succ j hj ih => exact keeps j hj ih

/-! ## Courses of a system -/

/-- A system from its start on: in each step somebody moves, or nobody does. -/
structure Course (start : σ) (Moves : σ → σ → Prop) (r : ℕ → σ) : Prop where
  init : r 0 = start
  step : ∀ i, r (i + 1) = r i ∨ Moves (r i) (r (i + 1))

section
variable {start : σ} {Moves : σ → σ → Prop} {r : ℕ → σ}

/-- What a move keeps is kept along a course. -/
theorem Course.keeps {I : σ → Prop} (h : Course start Moves r) {i j : ℕ} (hij : i ≤ j)
    (hi : I (r i)) (step : ∀ {s s'}, I s → Moves s s' → I s') : I (r j) := by
  refine stable hi (fun k _ hk => ?_) j hij
  obtain hsame | hmove := h.step k
  · rwa [hsame]
  · exact step hk hmove

/-- Nothing happens any more where nobody can move. -/
theorem Course.final (h : Course start Moves r) {i j : ℕ} (hij : i ≤ j)
    (hfinal : ∀ s', ¬ Moves (r i) s') : r j = r i := by
  induction j, hij using Nat.le_induction with
  | base => rfl
  | succ j hij ih =>
      obtain hsame | hmove := h.step j
      · exact hsame.trans ih
      · exact absurd (ih ▸ hmove) (hfinal _)

/-- A course can stop, and go on with one move more. -/
theorem Course.extend (h : Course start Moves r) {n : ℕ} {s s' : σ} (hlast : ∀ i, n ≤ i → r i = s)
    (hmove : Moves s s') : ∃ r', Course start Moves r' ∧ (∀ i, n + 1 ≤ i → r' i = s') ∧
      ∀ i, i ≤ n → r' i = r i := by
  refine ⟨fun i => if i ≤ n then r i else s',⟨?_,fun i => ?_⟩,fun i hi => if_neg (by omega),
    fun i hi => if_pos hi⟩
  · exact (if_pos (Nat.zero_le _)).trans h.init
  · rcases lt_trichotomy i n with hi | rfl | hi
    · simpa only [if_pos hi.le, if_pos (show i + 1 ≤ n from hi)] using h.step i
    · right
      simpa [hlast _ le_rfl] using hmove
    · left
      simp only [if_neg (not_le.mpr hi), if_neg (show ¬ i + 1 ≤ n by omega)]

theorem Course.rest (start : σ) (Moves : σ → σ → Prop) : Course start Moves fun _ => start :=
  ⟨rfl,fun _ => Or.inl rfl⟩

/-- A course that ends where nobody can move was fair. -/
theorem Weak.of_final {Move : σ → σ → Prop} {n : ℕ} {s : σ} (hlast : ∀ i, n ≤ i → r i = s)
    (hfinal : ∀ s', ¬ Move s s') : Weak Move r := by
  intro i
  refine ⟨max i n,le_max_left _ _,?_⟩
  rintro ⟨s',hmove⟩
  rw [hlast _ (le_max_right _ _)] at hmove
  exact absurd hmove (hfinal s')

theorem Strong.of_final {Move : σ → σ → Prop} {n : ℕ} {s : σ} (hlast : ∀ i, n ≤ i → r i = s)
    (hfinal : ∀ s', ¬ Move s s') : Strong Move r := by
  intro again
  obtain ⟨j,hj,s',hmove⟩ := again n
  rw [hlast j hj] at hmove
  exact absurd hmove (hfinal s')

end

/-! ## Ranks -/

section
variable [Preorder α]

variable [WellFoundedLT α]

/-- A rank that nothing raises does not fall again and again. -/
theorem not_falls_forever (rank : ℕ → α) {i : ℕ} (keeps : ∀ j, i ≤ j → rank (j + 1) ≤ rank j)
    (falls : ∀ k, i ≤ k → ∃ j, k ≤ j ∧ rank (j + 1) < rank j) : False := by
  have key : ∀ a, ∀ k, i ≤ k → rank k = a → False := by
    intro a
    induction a using WellFoundedLT.induction with
    | ind a ih =>
        intro k hk ha
        obtain ⟨j,hj,hlt⟩ := falls k hk
        have hle : rank j ≤ a := ha ▸ antitoneOn_nat_Ici_of_succ_le keeps hk (hk.trans hj) hj
        exact ih (rank (j + 1)) (hlt.trans_le hle) (j + 1) (by omega) rfl
  exact key (rank i) i le_rfl rfl

variable {Move : σ → σ → Prop} {r : ℕ → σ} (Q : σ → Prop) (rank : σ → α) {i : ℕ}

/-- Moves that lower the rank until something comes about bring it about. -/
theorem reaches_of_moves
    (moves : ∀ k, i ≤ k → ∃ j, k ≤ j ∧ (Q (r j) ∨ Move (r j) (r (j + 1))))
    (keeps : ∀ j, i ≤ j → ¬ Q (r j) → ¬ Q (r (j + 1)) → rank (r (j + 1)) ≤ rank (r j))
    (falls : ∀ j, i ≤ j → ¬ Q (r j) → ¬ Q (r (j + 1)) → Move (r j) (r (j + 1)) →
      rank (r (j + 1)) < rank (r j)) :
    ∃ j, i ≤ j ∧ Q (r j) := by
  by_contra hnever
  have never (j : ℕ) (hj : i ≤ j) : ¬ Q (r j) := fun hq => hnever ⟨j,hj,hq⟩
  have quiet (j : ℕ) (hj : i ≤ j) : rank (r (j + 1)) ≤ rank (r j) :=
    keeps j hj (never j hj) (never (j + 1) (by omega))
  refine not_falls_forever (fun j => rank (r j)) quiet fun k hk => ?_
  obtain ⟨j,hj,hq | hmove⟩ := moves k hk
  · exact absurd hq (never j (hk.trans hj))
  · exact ⟨j,hj,falls j (hk.trans hj) (never j (hk.trans hj)) (never (j + 1) (by omega)) hmove⟩

/-- A move that is possible until something comes about. -/
theorem Weak.reaches (fair : Weak Move r)
    (live : ∀ j, i ≤ j → ¬ Q (r j) → ∃ s', Move (r j) s')
    (keeps : ∀ j, i ≤ j → ¬ Q (r j) → ¬ Q (r (j + 1)) → rank (r (j + 1)) ≤ rank (r j))
    (falls : ∀ j, i ≤ j → ¬ Q (r j) → ¬ Q (r (j + 1)) → Move (r j) (r (j + 1)) →
      rank (r (j + 1)) < rank (r j)) :
    ∃ j, i ≤ j ∧ Q (r j) := by
  refine reaches_of_moves Q rank (fun k hk => ?_) keeps falls
  obtain ⟨j,hj,hmove⟩ := fair k
  refine ⟨j,hj,?_⟩
  by_cases hq : Q (r j)
  · exact Or.inl hq
  · exact Or.inr (hmove (live j (hk.trans hj) hq))

/-- A move that is possible again and again, until something comes about. -/
theorem Strong.reaches (fair : Strong Move r)
    (live : ∀ k, i ≤ k → ∃ j, k ≤ j ∧ (Q (r j) ∨ ∃ s', Move (r j) s'))
    (keeps : ∀ j, i ≤ j → ¬ Q (r j) → ¬ Q (r (j + 1)) → rank (r (j + 1)) ≤ rank (r j))
    (falls : ∀ j, i ≤ j → ¬ Q (r j) → ¬ Q (r (j + 1)) → Move (r j) (r (j + 1)) →
      rank (r (j + 1)) < rank (r j)) :
    ∃ j, i ≤ j ∧ Q (r j) := by
  by_contra hnever
  have never (j : ℕ) (hj : i ≤ j) : ¬ Q (r j) := fun hq => hnever ⟨j,hj,hq⟩
  have again : ∀ k, ∃ j, k ≤ j ∧ ∃ s', Move (r j) s' := by
    intro k
    obtain ⟨j,hj,hq | hmove⟩ := live (max i k) (le_max_left _ _)
    · exact absurd hq (never j ((le_max_left _ _).trans hj))
    · exact ⟨j,(le_max_right _ _).trans hj,hmove⟩
  refine hnever (reaches_of_moves Q rank (fun k _ => ?_) keeps falls)
  obtain ⟨j,hj,hmove⟩ := fair again k
  exact ⟨j,hj,Or.inr hmove⟩

end

/-! ## Counts -/

section
variable {Move : σ → σ → Prop} {r : ℕ → σ} {Stop : ℕ → Prop} {count : ℕ → ℕ} {goal i : ℕ}

/-- Moves that raise a count up to a goal, until something stops them. -/
theorem counts_of_moves
    (moves : ∀ k, i ≤ k → ∃ j, k ≤ j ∧ ((Stop j ∨ goal ≤ count j) ∨ Move (r j) (r (j + 1))))
    (keeps : ∀ j, i ≤ j → count j ≤ count (j + 1))
    (counts : ∀ j, i ≤ j → ¬ Stop (j + 1) → Move (r j) (r (j + 1)) → count j < count (j + 1)) :
    ∃ j, i ≤ j ∧ (Stop j ∨ goal ≤ count j) := by
  refine @reaches_of_moves ℕ ℕ _ _ (fun j _ => Move (r j) (r (j + 1))) id
    (fun j => Stop j ∨ goal ≤ count j) (fun j => goal - count j) i moves
    (fun j hj _ _ => Nat.sub_le_sub_left (keeps j hj) goal) (fun j hj hq hq' hmove => ?_)
  have hcount : count j < count (j + 1) := counts j hj (fun hs => hq' (Or.inl hs)) hmove
  have hgoal : count j < goal := not_le.mp fun hle => hq (Or.inr hle)
  exact Nat.sub_lt_sub_left hgoal hcount

theorem Weak.counts (fair : Weak Move r)
    (live : ∀ j, i ≤ j → ¬ Stop j → count j < goal → ∃ s', Move (r j) s')
    (keeps : ∀ j, i ≤ j → count j ≤ count (j + 1))
    (counts : ∀ j, i ≤ j → ¬ Stop (j + 1) → Move (r j) (r (j + 1)) → count j < count (j + 1)) :
    ∃ j, i ≤ j ∧ (Stop j ∨ goal ≤ count j) := by
  refine counts_of_moves (fun k hk => ?_) keeps counts
  obtain ⟨j,hj,hmove⟩ := fair k
  refine ⟨j,hj,?_⟩
  by_cases hq : Stop j ∨ goal ≤ count j
  · exact Or.inl hq
  · obtain ⟨hgoes,hgoal⟩ := not_or.mp hq
    exact Or.inr (hmove (live j (hk.trans hj) hgoes (not_le.mp hgoal)))

theorem Strong.counts (fair : Strong Move r)
    (live : ∀ k, i ≤ k → ∃ j, k ≤ j ∧ (Stop j ∨ goal ≤ count j ∨ ∃ s', Move (r j) s'))
    (keeps : ∀ j, i ≤ j → count j ≤ count (j + 1))
    (counts : ∀ j, i ≤ j → ¬ Stop (j + 1) → Move (r j) (r (j + 1)) → count j < count (j + 1)) :
    ∃ j, i ≤ j ∧ (Stop j ∨ goal ≤ count j) := by
  by_contra hnever
  have again : ∀ k, ∃ j, k ≤ j ∧ ∃ s', Move (r j) s' := by
    intro k
    obtain ⟨j,hj,hq⟩ := live (max i k) (le_max_left _ _)
    rcases or_assoc.mpr hq with hq | hmove
    · exact absurd ⟨j,(le_max_left _ _).trans hj,hq⟩ hnever
    · exact ⟨j,(le_max_right _ _).trans hj,hmove⟩
  refine hnever (counts_of_moves (fun k _ => ?_) keeps counts)
  obtain ⟨j,hj,hmove⟩ := fair again k
  exact ⟨j,hj,Or.inr hmove⟩

end

end Atof.Fairness
