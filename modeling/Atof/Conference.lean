import Mathlib.Data.Set.Insert
import Mathlib.Tactic

/-!
# A conference

There is one room. Participants come and go, and what one of them says all the others who are
there hear, at once and each once; besides, something can be told to some of those who are there.
What a participant hears is then what the others say while it is there, so two of them who stay
hear the same of all the others, in the same order.
-/
namespace Atof.Conference

variable {P M : Type}

inductive Label (P M : Type) where
  | joins (p : P)
  | leaves (p : P)
  | speaks (speaker : P) (message : M) (hearers : List P)
  | tells (message : M) (recipients : List P)
  deriving DecidableEq

inductive Step (room : Set P) : Label P M → Set P → Prop
  | joins {p : P} (outside : p ∉ room) : Step room (.joins p) (insert p room)
  | leaves {p : P} (inside : p ∈ room) : Step room (.leaves p) (room \ {p})
  | speaks {speaker : P} {message : M} {hearers : List P} (inside : speaker ∈ room)
      (once : hearers.Nodup) (others : ∀ p, p ∈ hearers ↔ p ≠ speaker ∧ p ∈ room) :
      Step room (.speaks speaker message hearers) room
  | tells {message : M} {recipients : List P} (inside : ∀ p ∈ recipients, p ∈ room) :
      Step room (.tells message recipients) room

theorem Step.once {room room' : Set P} {speaker : P} {message : M} {hearers : List P}
    (h : Step room (.speaks speaker message hearers) room') : hearers.Nodup := by
  cases h with
  | speaks _ once _ => exact once

theorem Step.left {room room' : Set P} {p : P} (h : Step room (.leaves p : Label P M) room') :
    p ∉ room' := by
  cases h with
  | leaves _ => simp

/-- A conference from the empty room on. -/
inductive Run : List (Label P M) → Set P → Prop
  | nil : Run [] ∅
  | snoc {labels : List (Label P M)} {l : Label P M} {room room' : Set P} (run : Run labels room)
      (step : Step room l room') : Run (labels ++ [l]) room'

/-- Up to each of its labels a run is a run. -/
theorem Run.front {labels labels' : List (Label P M)} {room : Set P}
    (h : Run (labels ++ labels') room) : ∃ room', Run labels room' := by
  induction labels' using List.reverseRecOn generalizing room with
  | nil => exact ⟨room,List.append_nil labels ▸ h⟩
  | append_singleton labels' l ih =>
      rw [← List.append_assoc] at h
      generalize hlabels : labels ++ labels' ++ [l] = all at h
      cases h with
      | nil => simp at hlabels
      | snoc run step =>
          obtain ⟨rfl,-⟩ := List.append_inj' hlabels rfl
          exact ih run

section
variable [DecidableEq P] (p : P)

/-! ## Who is there -/

def Label.presence (inside : Bool) : Label P M → Bool
  | .joins q => inside || decide (p = q)
  | .leaves q => inside && decide (p ≠ q)
  | _ => inside

/-- Whether `p` is there afterwards. -/
def present (inside : Bool) (labels : List (Label P M)) : Bool := labels.foldl (Label.presence p) inside

theorem Step.presence {room room' : Set P} {l : Label P M} (h : Step room l room') {inside : Bool}
    (hp : inside = true ↔ p ∈ room) : l.presence p inside = true ↔ p ∈ room' := by
  cases h with
  | joins outside => simp [Label.presence, hp, or_comm]
  | leaves inside => simp [Label.presence, hp]
  | speaks _ _ _ | tells _ => exact hp

theorem Run.present_iff {labels : List (Label P M)} {room : Set P} (h : Run labels room) :
    present p false labels = true ↔ p ∈ room := by
  induction h with
  | nil => simp [present]
  | snoc run step ih =>
      rw [present, List.foldl_append]
      exact step.presence p ih

theorem present_of_stays {labels : List (Label P M)} (stays : .leaves p ∉ labels) :
    present p true labels = true := by
  induction labels with
  | nil => rfl
  | cons l labels ih =>
      obtain ⟨hl,hlabels⟩ := not_or.mp (mt List.mem_cons.mpr stays)
      have hstill : l.presence p true = true := by
        cases l with
        | leaves q => simpa [Label.presence] using hl
        | joins q | speaks speaker message hearers | tells message recipients => rfl
      rw [present, List.foldl_cons, hstill]
      exact ih hlabels

/-! ## What is heard -/

/-- What `p` hears of it, and from whom. -/
def Label.hears : Label P M → List (P × M)
  | .speaks speaker message hearers => if p ∈ hearers then [(speaker,message)] else []
  | _ => []

def hears (labels : List (Label P M)) : List (P × M) := labels.flatMap (Label.hears p)

/-- What someone else says with it. -/
def Label.utterance : Label P M → List (P × M)
  | .speaks speaker message _ => if p ≠ speaker then [(speaker,message)] else []
  | _ => []

/-- What the others say while `p` is there. -/
def attended (inside : Bool) : List (Label P M) → List (P × M)
  | [] => []
  | l :: labels =>
      (if inside then l.utterance p else []) ++ attended (l.presence p inside) labels

theorem attended_append (inside : Bool) (labels labels' : List (Label P M)) :
    attended p inside (labels ++ labels') =
      attended p inside labels ++ attended p (present p inside labels) labels' := by
  induction labels generalizing inside with
  | nil => rfl
  | cons l labels ih =>
      rw [List.cons_append, attended, attended, ih, List.append_assoc]
      rfl

theorem Step.hears_eq {room room' : Set P} {l : Label P M} (h : Step room l room') {inside : Bool}
    (hp : inside = true ↔ p ∈ room) : l.hears p = if inside then l.utterance p else [] := by
  cases h with
  | speaks _ once others =>
      cases inside with
      | true => simp [Label.hears, Label.utterance, others, hp.mp rfl]
      | false =>
          have hout : p ∉ room := fun hmem => by simpa using hp.mpr hmem
          simp [Label.hears, others, hout]
  | joins _ | leaves _ | tells _ => simp [Label.hears, Label.utterance]

/-- A participant hears what the others say while it is there, and nothing else. -/
theorem Run.hears_eq {labels : List (Label P M)} {room : Set P} (h : Run labels room) :
    hears p labels = attended p false labels := by
  induction h with
  | nil => rfl
  | @snoc labels l room room' run step ih =>
      rw [hears, List.flatMap_append, attended_append, ← ih]
      simp only [List.flatMap_singleton, attended, List.append_nil]
      rw [step.hears_eq p (run.present_iff p)]
      rfl

theorem Run.hears_after {labels labels' : List (Label P M)} {room : Set P}
    (h : Run (labels ++ labels') room) :
    hears p labels' = attended p (present p false labels) labels' := by
  obtain ⟨room',hfront⟩ := h.front
  have hall := h.hears_eq p
  rw [hears, List.flatMap_append, attended_append, ← hfront.hears_eq p] at hall
  exact List.append_cancel_left hall

theorem attended_of_stays {labels : List (Label P M)} (stays : .leaves p ∉ labels) :
    attended p true labels = labels.flatMap (Label.utterance p) := by
  induction labels with
  | nil => rfl
  | cons l labels ih =>
      obtain ⟨hl,hlabels⟩ := not_or.mp (mt List.mem_cons.mpr stays)
      have hstays : .leaves p ∉ [l] := fun hmem => hl (List.mem_singleton.mp hmem)
      have hstill := present_of_stays p hstays
      rw [present, List.foldl_cons, List.foldl_nil] at hstill
      rw [attended, if_pos rfl, hstill, ih hlabels, List.flatMap_cons]

theorem filter_utterances (q : P) (labels : List (Label P M)) :
    (labels.flatMap (Label.utterance p)).filter (fun e => e.1 ≠ q) =
      (labels.flatMap (Label.utterance q)).filter (fun e => e.1 ≠ p) := by
  rw [List.filter_flatMap, List.filter_flatMap]
  refine List.flatMap_congr fun l _ => ?_
  cases l with
  | speaks speaker message hearers =>
      by_cases hp : p = speaker
        <;> by_cases hq : q = speaker <;> simp [Label.utterance, hp, hq, Ne.symm]
  | joins _ | leaves _ | tells _ _ => rfl

/-- Two participants who stay hear the same of all the others, in the same order. -/
theorem Run.agree {labels labels' : List (Label P M)} {room : Set P} {q : P}
    (h : Run (labels ++ labels') room) (hp : present p false labels = true)
    (hq : present q false labels = true) (pStays : .leaves p ∉ labels')
    (qStays : .leaves q ∉ labels') :
    (hears p labels').filter (fun e => e.1 ≠ q) = (hears q labels').filter (fun e => e.1 ≠ p) := by
  rw [h.hears_after p, h.hears_after q, hp, hq, attended_of_stays p pStays,
    attended_of_stays q qStays]
  exact filter_utterances p q labels'

end
end Atof.Conference
