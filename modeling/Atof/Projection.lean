import Mathlib.Tactic

/-!
# One key's view of a log

A machine takes messages, each for one key or for none, and a view shows what it
holds for a key. When every message changes the view of its own key only, the view
after a run is a fold over that key's messages, however they were interleaved with
the others.
-/
namespace Atof.Projection

variable {K M S C : Type} [DecidableEq K] (key : M → Option K) (after : S → M → S)

/-- The messages for a key, one after another. -/
def replay (k : K) (s : S) (ms : List M) : S :=
  ms.foldl (fun s m => if key m = some k then after s m else s) s

@[simp] theorem replay_nil (k : K) (s : S) : replay key after k s [] = s := rfl

theorem replay_cons (k : K) (s : S) (m : M) (ms : List M) :
    replay key after k s (m :: ms) =
      replay key after k (if key m = some k then after s m else s) ms := rfl

theorem replay_append (k : K) (s : S) (ms ms' : List M) :
    replay key after k s (ms ++ ms') = replay key after k (replay key after k s ms) ms' :=
  List.foldl_append

theorem replay_snoc (k : K) (s : S) (ms : List M) (m : M) :
    replay key after k s (ms ++ [m]) =
      if key m = some k then after (replay key after k s ms) m else replay key after k s ms := by
  rw [replay_append, replay_cons, replay_nil]

theorem replay_eq_foldl (k : K) (s : S) (ms : List M) :
    replay key after k s ms = (ms.filter fun m => key m = some k).foldl after s := by
  simp [replay, List.foldl_filter]

/-- What the key's messages keep holds in the end. -/
theorem replay_invariant {P : S → Prop} {k : K} {s : S} {ms : List M} (hs : P s)
    (step : ∀ s m, m ∈ ms → key m = some k → P s → P (after s m)) :
    P (replay key after k s ms) := by
  induction ms generalizing s with
  | nil => exact hs
  | cons m ms ih =>
      rw [replay_cons]
      refine ih ?_ fun s m' hm => step s m' (List.mem_cons_of_mem _ hm)
      split
      · next hk => exact step s m List.mem_cons_self hk hs
      · exact hs

/-- A run of a machine, with the messages it took. -/
inductive Steps (step : C → M → C → Prop) (c : C) : List M → C → Prop
  | nil : Steps step c [] c
  | snoc {ms : List M} {m : M} {c' c'' : C} (steps : Steps step c ms c') (last : step c' m c'') :
      Steps step c (ms ++ [m]) c''

variable {key after}

/-- One step seen from every key is a run seen from every key. -/
theorem Steps.view {step : C → M → C → Prop} (view : C → K → S)
    (hview : ∀ {c m c'}, step c m c' → ∀ k, view c' k =
      if key m = some k then after (view c k) m else view c k)
    {ms : List M} {c c' : C} (h : Steps step c ms c') (k : K) :
    view c' k = replay key after k (view c k) ms := by
  induction h with
  | nil => rfl
  | snoc _ last ih => rw [replay_snoc, hview last, ih]

end Atof.Projection
