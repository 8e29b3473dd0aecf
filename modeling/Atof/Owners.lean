import Atof.Lifecycle
import Atof.Traffic

/-!
# Who a handle belongs to

A session task registers with its id and the handle of its own queue. The handle is
kept under that id in every table it comes to, so in every table an id leads to the
queue of a task with that id. While the tasks have different ids it leads to one.
-/
namespace Atof.Server
open Rust Control Projection Fifo

theorem sessionId_injective {n m : ℕ} (hn : n < 2 ^ 32) (hm : m < 2 ^ 32)
    (h : sessionId n = sessionId m) : n = m := by
  have htoNat := congrArg BitVec.toNat h
  simpa only [sessionId, BitVec.toNat_ofNat, Nat.mod_eq_of_lt hn, Nat.mod_eq_of_lt hm] using htoNat

/-- The control task holds a handle of this queue for this session. -/
def ControlState.Sends (c : ControlState) (id : SessionID) (queue : ℕ) : Prop :=
  (∃ session, c.unauth.lookup id = some session ∧ session.send.queue = queue) ∨
    ∃ session, c.rtbl.sessions.lookup id = some session ∧ session.sender.queue = queue

theorem lookup_of_erase {V : Type} {m : HashMap SessionID V} {id id' : SessionID} {v : V}
    (h : (m.erase id').lookup id = some v) : m.lookup id = some v := by
  by_cases hid : id = id'
  · rw [hid, AList.lookup_erase] at h
    cases h
  · rwa [AList.lookup_erase_ne hid] at h

theorem lookup_of_insert {V : Type} {m : HashMap SessionID V} {id id' : SessionID} {v v' : V}
    (h : (m.insert id' v').lookup id = some v) : (id = id' ∧ v = v') ∨ m.lookup id = some v := by
  by_cases hid : id = id'
  · rw [hid, AList.lookup_insert] at h
    exact Or.inl ⟨hid,(Option.some.inj h).symm⟩
  · exact Or.inr (by rwa [AList.lookup_insert_ne hid] at h)

/-- A handle is handed over with a registration, and then moves between the tables. -/
theorem handleControl_sends {message : ControlMessage} {c c' : ControlState}
    {control control' : Channel ControlMessage} {routing routing' : Channel RoutingMessage}
    (h : handleControl message c control routing = .ok (c',control',routing')) {id : SessionID}
    {queue : ℕ} (hs : c'.Sends id queue) :
    c.Sends id queue ∨ ∃ session, message = .addSession id session ∧ session.send.queue = queue := by
  cases handleControl_handled h with
  | enrolled unheld waiting authenticates isOpen =>
      rcases hs with ⟨session,hl,hq⟩ | ⟨session,hl,hq⟩
      · exact Or.inl (Or.inl ⟨session,lookup_of_erase hl,hq⟩)
      · rcases lookup_of_insert hl with ⟨rfl,rfl⟩ | hl
        · exact Or.inl (Or.inl ⟨_,waiting,hq⟩)
        · exact Or.inl (Or.inr ⟨session,hl,hq⟩)
  | dropped _ _ _ | withdrawn _ =>
      rcases hs with ⟨session,hl,hq⟩ | hs
      · exact Or.inl (Or.inl ⟨session,lookup_of_erase hl,hq⟩)
      · exact Or.inl (Or.inr hs)
  | added =>
      rcases hs with ⟨session,hl,hq⟩ | hs
      · rcases lookup_of_insert hl with ⟨rfl,rfl⟩ | hl
        · exact Or.inr ⟨_,rfl,hq⟩
        · exact Or.inl (Or.inl ⟨session,hl,hq⟩)
      · exact Or.inl (Or.inr hs)
  | expelled absent returned isOpen =>
      rcases hs with hs | ⟨session,hl,hq⟩
      · exact Or.inl (Or.inl hs)
      · rw [RoutingTable.sessions_expelSession returned] at hl
        exact Or.inl (Or.inr ⟨session,lookup_of_erase hl,hq⟩)
  | known _ => exact Or.inl hs
  | unknown _ _ => exact Or.inl hs
  | refused _ _ => exact Or.inl hs
  | shutdown => exact Or.inl hs

namespace State

/-- A handle of this queue for this session, in the control task or on its way to it. -/
def Sends (s : State) (id : SessionID) (queue : ℕ) : Prop :=
  s.controlState.Sends id queue ∨
    ∃ session, .addSession id session ∈ s.control.queue ∧ session.send.queue = queue

end State

/-! ## Every run -/

/-- Tasks that have begun are counted, and a handle under an id is that of a task with
this id. -/
structure Owned (s : State) : Prop where
  born : ∀ n, s.session n ≠ .unborn → n < s.spawned
  handles : ∀ id queue, s.Sends id queue → queue < s.spawned ∧ id = sessionId queue

theorem Step.spawned_le {s s' : State} {events : List Event} (h : Step s events s') :
    s.spawned ≤ s'.spawned := by
  have hspeech := h.speech.2
  generalize puts s.control.queue s'.control.queue = ms at hspeech
  cases hspeech with
  | connect _ spawned => exact spawned ▸ Nat.le_succ _
  | silent _ spawned | shutdown _ spawned | moved _ _ _ spawned | registered _ _ spawned
    | packet _ _ spawned | left _ _ spawned => exact spawned.ge

theorem Step.born {s s' : State} {events : List Event} (h : Step s events s')
    (hborn : ∀ n, s.session n ≠ .unborn → n < s.spawned) :
    ∀ n, s'.session n ≠ .unborn → n < s'.spawned := by
  have updated {n : ℕ} {t : SessionTask} (hn : n < s'.spawned)
      (session : s'.session = Function.update s.session n t) :
      ∀ k, s'.session k ≠ .unborn → k < s'.spawned := by
    intro k hk
    by_cases hkn : k = n
    · exact hkn ▸ hn
    · rw [session, Function.update_of_ne hkn] at hk
      exact (hborn k hk).trans_le h.spawned_le
  have hspeech := h.speech.2
  generalize puts s.control.queue s'.control.queue = ms at hspeech
  cases hspeech with
  | connect session spawned => exact updated (spawned ▸ Nat.lt_succ_self _) session
  | moved born _ session _ => exact updated ((hborn _ born).trans_le h.spawned_le) session
  | @registered n _ awaiting session _ =>
      exact updated ((hborn n (by simp [awaiting])).trans_le h.spawned_le) session
  | @left n listens session _ =>
      refine updated ((hborn n ?_).trans_le h.spawned_le) session
      rcases listens with hs | hs <;> simp [hs]
  | silent session spawned | shutdown session spawned | packet _ session spawned =>
      rwa [session, spawned]

/-- A task that has ended stays so. -/
theorem Step.ended {s s' : State} {events : List Event} (h : Step s events s')
    (hborn : ∀ n, s.session n ≠ .unborn → n < s.spawned) {n : ℕ} (hn : s.session n = .ended) :
    s'.session n = .ended := by
  have other {m : ℕ} {t : SessionTask} (session : s'.session = Function.update s.session m t)
      (ht : t = .ended ∨ s.session m ≠ .ended) : s'.session n = .ended := by
    by_cases hnm : n = m
    · subst hnm
      rw [session, Function.update_self]
      exact ht.resolve_right fun hne => hne hn
    · rwa [session, Function.update_of_ne hnm]
  have hspeech := h.speech.2
  generalize puts s.control.queue s'.control.queue = ms at hspeech
  cases hspeech with
  | connect session spawned =>
      have hne : n ≠ s.spawned := (hborn n (by simp [hn])).ne
      rwa [session, Function.update_of_ne hne]
  | moved born on session spawned =>
      refine other session ?_
      rcases on with rfl | ⟨-,hm⟩ | ⟨-,hm | hm⟩
      · exact Or.inl rfl
      all_goals exact Or.inr (by simp [hm])
  | registered awaiting session spawned => exact other session (Or.inr (by simp [awaiting]))
  | left listens session spawned => exact other session (Or.inl rfl)
  | silent session spawned | shutdown session spawned | packet running session spawned =>
      rwa [session]

theorem Speech.registers {s s' : State} {said : List ControlMessage} (h : Speech s s' said)
    {id : SessionID} {session : UnAuthSession} (hm : .addSession id session ∈ said) :
    s.session session.send.queue = .awaitingVersion ∧ id = sessionId session.send.queue := by
  cases h with
  | registered awaiting _ _ =>
      cases List.mem_singleton.mp hm
      exact ⟨awaiting,rfl⟩
  | shutdown _ _ | packet _ _ _ | left _ _ _ => cases List.mem_singleton.mp hm
  | silent _ _ | connect _ _ | moved _ _ _ _ => cases hm

/-- A new handle is that of a task that registers. -/
theorem Step.sends {s s' : State} {events : List Event} {id : SessionID} {queue : ℕ}
    (h : Step s events s') (hs : s'.Sends id queue) :
    s.Sends id queue ∨ s.session queue = .awaitingVersion ∧ id = sessionId queue := by
  cases h.controlQueue with
  | tells hqueue state speech =>
      rcases hs with hs | ⟨session,hm,rfl⟩
      · exact Or.inl (Or.inl (state ▸ hs))
      · rw [hqueue] at hm
        rcases List.mem_append.mp hm with hm | hm
        · exact Or.inl (Or.inr ⟨session,hm,rfl⟩)
        · exact Or.inr (speech.registers hm)
  | handles queued left handled _ _ =>
      refine Or.inl ?_
      rcases hs with hs | ⟨session,hm,hsend⟩
      · rcases handleControl_sends handled hs with hs | ⟨session,rfl,hsend⟩
        · exact Or.inl hs
        · exact Or.inr ⟨session,by rw [queued]; exact List.mem_cons_self,hsend⟩
      · rw [left] at hm
        exact Or.inr ⟨session,by rw [queued]; exact List.mem_cons_of_mem _ hm,hsend⟩

theorem Owned.of_run {ts : List Transition} {s : State} (h : Run ts s) : Owned s := by
  refine h.invariant ⟨fun n hn => absurd rfl hn,?_⟩ fun hs step => ⟨step.born hs.born,?_⟩
  · rintro id queue ((⟨session,hl,-⟩ | ⟨session,hl,-⟩) | ⟨session,hmem,-⟩)
    · cases hl
    · cases hl
    · cases hmem
  · intro id queue hsends
    rcases step.sends hsends with hsends | ⟨awaiting,hid⟩
    · exact ⟨(hs.handles id queue hsends).1.trans_le step.spawned_le,(hs.handles id queue hsends).2⟩
    · exact ⟨(hs.born queue (by simp [awaiting])).trans_le step.spawned_le,hid⟩

theorem Run.spawned_le {ts : List Transition} {s : State} (h : Run ts s) :
    ∀ t ∈ ts, t.after.spawned ≤ s.spawned := by
  induction h with
  | nil => simp
  | snoc run step ih =>
      intro t ht
      rcases List.mem_append.mp ht with ht | ht
      · exact (ih t ht).trans step.spawned_le
      · obtain rfl := List.mem_singleton.mp ht
        exact le_rfl

/-- The handles in a table are those of tasks with the ids they are kept under. -/
def RoutingTable.Owned (spawned : ℕ) (t : RoutingTable) : Prop :=
  ∀ id session, t.sessions.lookup id = some session →
    session.sender.queue < spawned ∧ id = sessionId session.sender.queue

theorem Run.owned_tables {ts : List Transition} {s : State} (h : Run ts s) :
    s.routingTable.Owned s.spawned ∧
      ∀ rtbl ∈ updates s.routing.queue, rtbl.Owned s.spawned := by
  refine h.tables (fun id session hl => by cases hl) fun t ht id session hl => ?_
  obtain ⟨ts₁,-,-,hrun⟩ := h.split_of_mem ht
  obtain ⟨hq,hid⟩ := (Owned.of_run hrun).handles id _ (Or.inl (Or.inr ⟨session,hl,rfl⟩))
  exact ⟨hq.trans_le (h.spawned_le t ht),hid⟩

end Atof.Server
