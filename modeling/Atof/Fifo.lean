import Mathlib.Tactic

/-!
# The log of a queue

Messages are put in at the end of a queue and taken out at its front, one at a time.
The contents before and after a step say which it was. Over a run of steps what was
taken out and what is still in are together what was put in, in order, so the step
that put a message in is the one before which as much had been put in as was taken
out before the message.
-/
namespace Atof.Fifo

variable {α T : Type}

inductive Moves (q : List α) : List α → Prop
  | still : Moves q q
  | put (m : α) : Moves q (q ++ [m])
  | take {m : α} {rest : List α} (front : q = m :: rest) : Moves q rest

/-- What was put in between two contents. -/
def puts (q q' : List α) : List α := q'.drop q.length

/-- What was taken out. -/
def takes (q q' : List α) : List α := q.take (q.length - q'.length)

@[simp] theorem puts_self (q : List α) : puts q q = [] := List.drop_length

@[simp] theorem takes_self (q : List α) : takes q q = [] := by simp [takes]

@[simp] theorem puts_append (q ms : List α) : puts q (q ++ ms) = ms := List.drop_left

@[simp] theorem takes_append (q ms : List α) : takes q (q ++ ms) = [] := by simp [takes]

@[simp] theorem puts_cons (m : α) (rest : List α) : puts (m :: rest) rest = [] := by simp [puts]

@[simp] theorem takes_cons (m : α) (rest : List α) : takes (m :: rest) rest = [m] := by simp [takes]

theorem Moves.of_append {q ms : List α} (h : ms.length ≤ 1) : Moves q (q ++ ms) := by
  match ms with
  | [] => exact (List.append_nil q).symm ▸ .still
  | [m] => exact .put m

theorem Moves.balance {q q' : List α} (h : Moves q q') : takes q q' ++ q' = q ++ puts q q' := by
  cases h with
  | still => simp
  | put m => simp
  | take front => simp [front]

theorem Moves.length_puts {q q' : List α} (h : Moves q q') : (puts q q').length ≤ 1 := by
  cases h with
  | still => simp
  | put m => simp
  | take front => simp [front]

/-! ## Runs -/

section
variable (before after : T → List α)

/-- Steps that follow on one another, from the empty queue to these contents. -/
inductive Trace : List T → List α → Prop
  | nil : Trace [] []
  | snoc {ts : List T} {t : T} (trace : Trace ts (before t)) (moves : Moves (before t) (after t)) :
      Trace (ts ++ [t]) (after t)

def put (ts : List T) : List α := ts.flatMap fun t => puts (before t) (after t)

def taken (ts : List T) : List α := ts.flatMap fun t => takes (before t) (after t)

theorem put_append (ts ts' : List T) :
    put before after (ts ++ ts') = put before after ts ++ put before after ts' :=
  List.flatMap_append

theorem taken_append (ts ts' : List T) :
    taken before after (ts ++ ts') = taken before after ts ++ taken before after ts' :=
  List.flatMap_append

theorem put_singleton (t : T) : put before after [t] = puts (before t) (after t) :=
  List.flatMap_singleton ..

theorem taken_singleton (t : T) : taken before after [t] = takes (before t) (after t) :=
  List.flatMap_singleton ..

end

variable {before after : T → List α}

theorem Trace.balance {ts : List T} {q : List α} (h : Trace before after ts q) :
    taken before after ts ++ q = put before after ts := by
  induction h with
  | nil => rfl
  | snoc trace moves ih =>
      rw [taken_append, put_append, taken_singleton, put_singleton, List.append_assoc,
        moves.balance, ← List.append_assoc, ih]

/-- Steps that put in one message at most each put in a given list at this message. -/
theorem exists_of_flatMap {f : T → List α} {ts : List T} (hf : ∀ t ∈ ts, (f t).length ≤ 1)
    {ms rest : List α} {m : α} (h : ts.flatMap f = ms ++ m :: rest) :
    ∃ ts₁ t ts₂, ts = ts₁ ++ t :: ts₂ ∧ f t = [m] ∧ ts₁.flatMap f = ms := by
  induction ts generalizing ms with
  | nil => simp at h
  | cons t ts ih =>
      have hrest := fun t' ht => hf t' (List.mem_cons_of_mem t ht)
      rw [List.flatMap_cons] at h
      match hft : f t with
      | [] =>
          rw [hft, List.nil_append] at h
          obtain ⟨ts₁,u,ts₂,rfl,hu,hms⟩ := ih hrest h
          exact ⟨t :: ts₁,u,ts₂,rfl,hu,by rw [List.flatMap_cons, hft, hms]; rfl⟩
      | [m'] =>
          rw [hft] at h
          rcases List.cons_eq_append_iff.mp h with ⟨rfl,hm⟩ | ⟨ms',rfl,htail⟩
          · obtain ⟨rfl,-⟩ := List.cons_eq_cons.mp hm
            exact ⟨[],t,ts,rfl,hft,rfl⟩
          · obtain ⟨ts₁,u,ts₂,rfl,hu,hms⟩ := ih hrest htail
            exact ⟨t :: ts₁,u,ts₂,rfl,hu,by rw [List.flatMap_cons, hft, hms]; rfl⟩
      | m₁ :: m₂ :: ms' =>
          have hlen := hf t List.mem_cons_self
          simp [hft] at hlen

theorem Trace.moves {ts : List T} {q : List α} (h : Trace before after ts q) :
    ∀ t ∈ ts, Moves (before t) (after t) := by
  induction h with
  | nil => simp
  | @snoc ts t trace moves ih =>
      intro u hu
      rcases List.mem_append.mp hu with hu | hu
      · exact ih u hu
      · exact List.mem_singleton.mp hu ▸ moves

/-- The message at the front was put in by the step before which everything had been put
in that is taken out by now. -/
theorem Trace.front {ts : List T} {m : α} {rest : List α}
    (h : Trace before after ts (m :: rest)) :
    ∃ ts₁ t ts₂, ts = ts₁ ++ t :: ts₂ ∧ puts (before t) (after t) = [m] ∧
      put before after ts₁ = taken before after ts :=
  exists_of_flatMap (fun t ht => (h.moves t ht).length_puts) h.balance.symm

end Atof.Fifo
