import Atof.Owners

/-!
# Sessions that are gone

A session task that ends tells the control task, or never told it anything, or ends
because the last handle of its queue is gone. In each case what the control task has
queued for the session leaves it in neither table. The numbers of the session tasks
are cut to 32 bits, so this is so while their numbers are ids.
-/
namespace Atof.Server
open Rust Control Projection

/-- Once all tasks of a session have ended and their messages are handled, the control
task has forgotten the session. -/
def NoGhosts (s : State) : Prop :=
  ∀ id : SessionID, (∀ n, n < s.spawned → sessionId n = id → s.session n = .ended) →
    (∀ m ∈ s.control.queue, m.sessionId ≠ some id) →
    id ∉ s.controlState.unauth ∧ s.controlState.rtbl.holdsSession id = false

/-! ## What is still to be handled -/

/-- No session in both tables. -/
def Standing.Proper (s : Standing) : Prop := ¬ (s.unauth = true ∧ s.held = true)

theorem Standing.Proper.packet {s : Standing} (h : s.Proper) {id : SessionID}
    {packet : ControlPacket .serverbound} : (s.after (.packet id packet)).Proper := by
  rcases s with ⟨unauth,_ | _⟩
  · exact fun hp => by cases hp.1
  · exact h

theorem Standing.Proper.removeSession {s : Standing} (h : s.Proper) (id : SessionID) :
    s.after (.removeSession id) = .absent := by
  rcases s with ⟨_ | _,_ | _⟩
  · rfl
  · rfl
  · rfl
  · exact absurd ⟨rfl,rfl⟩ h

namespace State

/-- Where a session will stand once all that is queued is handled. -/
def settled (s : State) (id : SessionID) : Standing :=
  replay ControlMessage.sessionId Standing.after id (s.controlState.standing id) s.control.queue

theorem settled_snoc {s s' : State} {m : ControlMessage}
    (state : s'.controlState = s.controlState) (queue : s'.control.queue = s.control.queue ++ [m])
    (id : SessionID) : s'.settled id =
      if m.sessionId = some id then (s.settled id).after m else s.settled id := by
  rw [settled, queue, state, replay_snoc]
  rfl

end State

/-- While the control queue is open: handles belong to session tasks, and a session whose
task does not listen will be in neither table. -/
structure Settled (s : State) : Prop where
  running : s.controlTask = .running
  born : ∀ n, s.session n ≠ .unborn → n < s.spawned
  owned : ∀ id queue, s.Sends id queue → queue < s.spawned ∧ id = sessionId queue
  proper : ∀ n, n < 2 ^ 32 → (s.settled (sessionId n)).Proper
  absent : ∀ n, n < 2 ^ 32 → ¬ s.Listens n → s.settled (sessionId n) = .absent

/-! ## One step -/

namespace State

@[simp] theorem setSession_session (s : State) (n m : ℕ) (t : SessionTask) :
    (s.setSession n t).session m = if m = n then t else s.session m := by
  simp [setSession, Function.update_apply]

theorem setSession_listens_ne {s : State} {n m : ℕ} {t : SessionTask} (h : m ≠ n) :
    (s.setSession n t).Listens m ↔ s.Listens m := by
  simp [Listens, h]

end State

/-- Nothing new is to be handled, and no session stops listening that is not settled. -/
theorem Settled.mono {s s' : State} (h : Settled s) (settled : ∀ id, s'.settled id = s.settled id)
    (sends : ∀ id queue, s'.Sends id queue → s.Sends id queue)
    (task : s'.controlTask = s.controlTask) (spawned : s.spawned ≤ s'.spawned)
    (born : ∀ n, s'.session n ≠ .unborn → n < s'.spawned)
    (absent : ∀ n, n < 2 ^ 32 → ¬ s'.Listens n → s.settled (sessionId n) = .absent) :
    Settled s' where
  running := task.trans h.running
  born := born
  owned id queue hs :=
    ⟨(h.owned id queue (sends id queue hs)).1.trans_le spawned,(h.owned id queue (sends id queue hs)).2⟩
  proper n hn := by
    rw [settled]
    exact h.proper n hn
  absent n hn hl := by
    rw [settled]
    exact absent n hn hl

/-- Nothing that the control task can see has changed. -/
theorem Settled.congr {s s' : State} (h : Settled s) (control : s'.control = s.control)
    (state : s'.controlState = s.controlState) (task : s'.controlTask = s.controlTask)
    (spawned : s.spawned ≤ s'.spawned) (born : ∀ n, s'.session n ≠ .unborn → n < s'.spawned)
    (absent : ∀ n, n < 2 ^ 32 → ¬ s'.Listens n → s.settled (sessionId n) = .absent) :
    Settled s' := by
  refine h.mono (fun id => ?_) (fun id queue hs => ?_) task spawned born absent
  · rw [State.settled, State.settled, control, state]
  · rwa [State.Sends, control, state] at hs

/-- A session task has sent a message of its own. -/
theorem Settled.send {s s' : State} {n : ℕ} {m : ControlMessage} (h : Settled s)
    (hn : n < s.spawned) (hspawned : s.spawned ≤ 2 ^ 32) (hm : m.sessionId = some (sessionId n))
    (state : s'.controlState = s.controlState) (queue : s'.control.queue = s.control.queue ++ [m])
    (task : s'.controlTask = s.controlTask) (spawned : s'.spawned = s.spawned)
    (others : ∀ k, k ≠ n → s'.session k = s.session k)
    (handle : ∀ id session, m = .addSession id session → session.send.queue = n)
    (proper : ((s.settled (sessionId n)).after m).Proper)
    (self : s'.Listens n ∨ (s.settled (sessionId n)).after m = .absent) : Settled s' := by
  have hself : s'.settled (sessionId n) = (s.settled (sessionId n)).after m := by
    rw [State.settled_snoc state queue, if_pos hm]
  have hother {k : ℕ} (hk : k < 2 ^ 32) (hne : k ≠ n) :
      s'.settled (sessionId k) = s.settled (sessionId k) := by
    rw [State.settled_snoc state queue, hm, if_neg]
    exact fun he => hne (sessionId_injective hk (hn.trans_le hspawned) (Option.some.inj he).symm)
  refine ⟨task.trans h.running,fun k hk => ?_,fun id q hs => ?_,fun k hk => ?_,fun k hk hl => ?_⟩
  · rw [spawned]
    by_cases hkn : k = n
    · rwa [hkn]
    · exact h.born k (by rwa [← others k hkn])
  · rw [spawned]
    rcases hs with hs | ⟨session,hmem,hq⟩
    · rw [state] at hs
      exact h.owned id q (Or.inl hs)
    · rw [queue] at hmem
      rcases List.mem_append.mp hmem with hmem | hmem
      · exact h.owned id q (Or.inr ⟨session,hmem,hq⟩)
      · obtain rfl := List.mem_singleton.mp hmem
        rw [← hq, handle id session rfl]
        exact ⟨hn,Option.some.inj hm⟩
  · by_cases hkn : k = n
    · rwa [hkn, hself]
    · rw [hother hk hkn]
      exact h.proper k hk
  · by_cases hkn : k = n
    · subst hkn
      rw [hself]
      exact self.resolve_left hl
    · rw [hother hk hkn]
      refine h.absent k hk fun hs => hl ?_
      rwa [State.Listens, others k hkn]

/-- Without a handle anywhere the queue has nothing to register, and the session is in
neither table. -/
theorem Settled.unreferenced {s : State} (h : Settled s) (hspawned : s.spawned ≤ 2 ^ 32) {n : ℕ}
    (hn : n < 2 ^ 32) (unreferenced : ¬ s.Handles n) : s.settled (sessionId n) = .absent := by
  have hnone : ∀ queue, ¬ s.Sends (sessionId n) queue := by
    intro queue hs
    obtain ⟨hq,hid⟩ := h.owned _ _ hs
    obtain rfl := sessionId_injective hn (hq.trans_le hspawned) hid
    refine unreferenced (Or.inl ⟨h.running,?_⟩)
    rcases hs with (⟨session,hl,hs⟩ | ⟨session,hl,hs⟩) | ⟨session,hmem,hs⟩
    · exact Or.inl ⟨_,session,hl,hs⟩
    · exact Or.inr (Or.inl ⟨_,session,hl,hs⟩)
    · exact Or.inr (Or.inr ⟨_,session,hmem,hs⟩)
  have hstanding : s.controlState.standing (sessionId n) = .absent := by
    refine Standing.ext (Bool.eq_false_iff.mpr fun hu => ?_) (Bool.eq_false_iff.mpr fun hh => ?_)
    · obtain ⟨session,hl⟩ := Option.isSome_iff_exists.mp hu
      exact hnone _ (Or.inl (Or.inl ⟨session,hl,rfl⟩))
    · obtain ⟨session,hl⟩ := (RoutingTable.holdsSession_iff _ _).mp hh
      exact hnone _ (Or.inl (Or.inr ⟨session,hl,rfl⟩))
  refine replay_invariant (P := fun standing : Standing => standing = .absent) _ _ hstanding ?_
  rintro _ m hmem hm rfl
  cases m with
  | addSession id session =>
      cases hm
      exact absurd (Or.inr ⟨session,hmem,rfl⟩) (hnone _)
  | packet _ _ | removeSession _ | shutdown => rfl

/-- A session task has gone on without a message. -/
theorem Settled.move {s s' : State} {n : ℕ} {t : SessionTask} (h : Settled s)
    (hn : s.session n ≠ .unborn) (control : s'.control = s.control)
    (state : s'.controlState = s.controlState) (task : s'.controlTask = s.controlTask)
    (spawned : s'.spawned = s.spawned) (session : s'.session = Function.update s.session n t)
    (absent : n < 2 ^ 32 → ¬ s'.Listens n → s.settled (sessionId n) = .absent) : Settled s' := by
  have hother {k : ℕ} (hk : k ≠ n) : s'.session k = s.session k := by
    rw [session, Function.update_of_ne hk]
  refine h.congr control state task spawned.ge (fun k hk => ?_) fun k hk hl => ?_
  · rw [spawned]
    by_cases hkn : k = n
    · rw [hkn]
      exact h.born n hn
    · exact h.born k (by rwa [← hother hkn])
  · by_cases hkn : k = n
    · subst hkn
      exact absent hk hl
    · refine h.absent k hk fun hs => hl ?_
      rwa [State.Listens, hother hkn]

/-- The control task has handled the first message of the queue. -/
theorem Settled.handle {s : State} {m : ControlMessage} {rest : List ControlMessage}
    {controlState : ControlState} {control : Channel ControlMessage}
    {routing : Channel RoutingMessage} (h : Settled s) (queued : s.control.queue = m :: rest)
    (handled : handleControl m s.controlState { s.control with queue := rest } s.routing =
      .ok (controlState,control,routing)) :
    Settled { s with controlState, control, routing } := by
  have hqueue : control.queue = rest := (handleControl_queue handled).1
  refine h.mono (fun id => ?_) (fun id q hs => ?_) rfl le_rfl h.born h.absent
  · simp only [State.settled, hqueue, queued, replay_cons]
    rw [handleControl_standing handled]
  · rcases hs with hs | ⟨session,hmem,hq⟩
    · rcases handleControl_sends handled hs with hs | ⟨session,rfl,hq⟩
      · exact Or.inl hs
      · exact Or.inr ⟨session,by rw [queued]; exact List.mem_cons_self,hq⟩
    · refine Or.inr ⟨session,?_,hq⟩
      rw [queued]
      exact List.mem_cons_of_mem _ (hqueue ▸ hmem)

/-- The accept task has asked for the shutdown. -/
theorem Settled.shut {s s' : State} (h : Settled s) (state : s'.controlState = s.controlState)
    (queue : s'.control.queue = s.control.queue ++ [.shutdown])
    (task : s'.controlTask = s.controlTask) (spawned : s'.spawned = s.spawned)
    (session : s'.session = s.session) : Settled s' := by
  refine h.mono (fun id => ?_) (fun id q hs => ?_) task spawned.ge (fun n hn => ?_) fun n hn hl => ?_
  · rw [State.settled_snoc state queue]
    rfl
  · rcases hs with hs | ⟨registered,hmem,hq⟩
    · rw [state] at hs
      exact Or.inl hs
    · rw [queue] at hmem
      rcases List.mem_append.mp hmem with hmem | hmem
      · exact Or.inr ⟨registered,hmem,hq⟩
      · cases List.mem_singleton.mp hmem
  · rw [session] at hn
    exact spawned ▸ h.born n hn
  · rw [State.Listens, session] at hl
    exact h.absent n hn hl

/-- What the open queue makes of a step. -/
theorem Settled.step {s s' : State} {events : List Event} (h : Settled s)
    (hspawned : s'.spawned ≤ 2 ^ 32) (hopen : s'.control.isOpen = true) (hs : Step s events s') :
    Settled s' := by
  cases hs with
  | connect accepting =>
      have hunborn : s.session s.spawned = .unborn := by
        by_contra hne
        exact lt_irrefl _ (h.born s.spawned hne)
      have hother {k : ℕ} (hk : k ≠ s.spawned) := State.setSession_listens_ne (s := s)
        (t := .greeting) hk
      refine h.congr rfl rfl rfl (Nat.le_succ _) (fun k hk => ?_) fun k hk hl => h.absent k hk ?_
      · by_cases hks : k = s.spawned
        · exact hks ▸ Nat.lt_succ_self _
        · refine Nat.lt_succ_of_lt (h.born k ?_)
          simpa [hks] using hk
      · by_cases hks : k = s.spawned
        · rw [hks]
          simp [State.Listens, hunborn]
        · exact fun hs => hl ((hother hks).mpr hs)
  | stop accepting sent =>
      obtain ⟨-,rfl⟩ := Channel.expectSend_eq_ok sent
      exact h.shut rfl rfl rfl rfl rfl
  | @greeted n greeting =>
      refine h.move (n := n) (by rw [greeting]; decide) rfl rfl rfl rfl rfl fun hn _ => h.absent n hn ?_
      simp [State.Listens, greeting]
  | @refused n handshake =>
      have hborn : s.session n ≠ .unborn := by
        rcases handshake with hn | hn <;> rw [hn] <;> decide
      refine h.move hborn rfl rfl rfl rfl rfl fun hn _ => h.absent n hn ?_
      rcases handshake with hs | hs <;> simp [State.Listens, hs]
  | @registered n control version awaiting sent =>
      obtain ⟨-,rfl⟩ := Channel.send_eq_some sent
      have hn := h.born n (by rw [awaiting]; decide)
      have habsent := h.absent n (hn.trans_le hspawned) (by simp [State.Listens, awaiting])
      refine h.send (m := .addSession (sessionId n) ⟨version,⟨n⟩⟩) hn hspawned rfl rfl rfl rfl rfl
        (fun k hk => by simp [hk]) (fun id session he => by cases he; rfl) ?_ (Or.inl ?_)
      · rw [habsent]
        exact fun hp => by cases hp.2
      · simp [State.Listens]
  | @denied n version awaiting failed =>
      refine h.move (n := n) (by rw [awaiting]; decide) rfl rfl rfl rfl rfl fun hn _ => h.absent n hn ?_
      simp [State.Listens, awaiting]
  | @ping n running | @take n packet rest running queued =>
      refine h.move (n := n) (by rw [running]; decide) rfl rfl rfl rfl rfl fun _ hl => absurd ?_ hl
      simp [State.Listens]
  | @packet n packet control running =>
      have hn := h.born n (by rw [running]; decide)
      rw [Channel.offer_of_isOpen (by simpa using hopen)]
      exact h.send (m := .packet (sessionId n) packet) hn hspawned rfl rfl rfl rfl rfl
        (fun _ _ => rfl) (fun _ _ he => by cases he)
        (Standing.Proper.packet (h.proper n (hn.trans_le hspawned))) (Or.inl (Or.inl running))
  | @written n writing =>
      refine h.move (n := n) (by rw [writing]; decide) rfl rfl rfl rfl rfl fun _ hl => absurd ?_ hl
      simp [State.Listens]
  | @finished n running empty unreferenced =>
      exact h.move (n := n) (by rw [running]; decide) rfl rfl rfl rfl rfl
        fun hn _ => h.unreferenced hspawned hn unreferenced
  | @left n listens =>
      have hn := h.born n (by rcases listens with hl | hl <;> rw [hl] <;> decide)
      have hproper := h.proper n (hn.trans_le hspawned)
      have hgone := hproper.removeSession (sessionId n)
      rw [State.leave, Channel.offer_of_isOpen (by simpa [State.leave] using hopen)]
      exact h.send (m := .removeSession (sessionId n)) hn hspawned rfl rfl rfl rfl rfl
        (fun k hk => by simp [hk]) (fun _ _ he => by cases he)
        (by rw [hgone]; exact fun hp => by cases hp.1) (Or.inr hgone)
  | control running queued handled => exact h.handle queued handled
  | @routing message rest ds routingTable routing running queued handled =>
      obtain ⟨inbound,he⟩ := State.deliverAll_eq { s with routingTable, routing } ds
      rw [he]
      exact h.congr rfl rfl rfl le_rfl h.born h.absent
  | stopPanics _ _ | controlPanics _ _ _ | controlStops _ _ _ _ | controlStopPanics _ _ _ _
      | routingPanics _ _ _ => cases hopen
  | joined _ _ | voice _ _ | text _ _ | routingStops _ _ _ =>
      exact h.congr rfl rfl rfl le_rfl h.born h.absent

/-! ## Every run -/

/-- The queue is not opened again. -/
theorem Step.control_isOpen {s s' : State} {events : List Event} (h : Step s events s')
    (hopen : s'.control.isOpen = true) : s.control.isOpen = true := by
  cases h with
  | stop _ sent => exact (Channel.expectSend_eq_ok sent).1
  | registered _ _ sent => exact (Channel.send_eq_some sent).1
  | packet _ _ _ => simpa using hopen
  | left _ => simpa [State.leave] using hopen
  | control running queued handled => exact (handleControl_queue handled).2 hopen
  | @routing message rest ds routingTable routing running queued handled =>
      obtain ⟨inbound,he⟩ := State.deliverAll_eq { s with routingTable, routing } ds
      rw [he] at hopen
      exact hopen
  | stopPanics _ _ | controlPanics _ _ _ | controlStops _ _ _ _ | controlStopPanics _ _ _ _
      | routingPanics _ _ _ => cases hopen
  | _ => exact hopen

theorem Settled.init : Settled .init where
  running := rfl
  born n hn := absurd rfl hn
  owned id queue hs := by
    rcases hs with (⟨session,hl,-⟩ | ⟨session,hl,-⟩) | ⟨session,hmem,-⟩
    · cases hl
    · cases hl
    · cases hmem
  proper n _ hp := by cases hp.1
  absent n _ _ := rfl

theorem Settled.of_run {ts : List Transition} {s : State} (h : Run ts s) :
    s.spawned ≤ 2 ^ 32 → s.control.isOpen = true → Settled s := by
  refine h.invariant (I := fun s => s.spawned ≤ 2 ^ 32 → s.control.isOpen = true → Settled s)
    (fun _ _ => Settled.init) ?_
  intro s events s' ih hs hspawned hopen
  have hsettled := ih (hs.spawned_le.trans hspawned) (hs.control_isOpen hopen)
  exact hsettled.step hspawned hopen hs

/-- In every run with no more connections than there are ids, sessions that are gone are
forgotten. The control queue is open until the shutdown is handled. -/
theorem no_ghosts {ts : List Transition} {s : State} (h : Run ts s)
    (hspawned : s.spawned ≤ 2 ^ 32) (hopen : s.control.isOpen = true) : NoGhosts s := by
  intro id hended hqueue
  have hsettled := Settled.of_run h hspawned hopen
  obtain ⟨n,hn,rfl⟩ : ∃ n, n < 2 ^ 32 ∧ sessionId n = id :=
    ⟨id.toNat,id.isLt,by rw [sessionId, BitVec.ofNat_toNat, BitVec.setWidth_eq]⟩
  have hlistens : ¬ s.Listens n := by
    have hsession : s.session n = .unborn ∨ s.session n = .ended := by
      by_cases hborn : s.session n = .unborn
      · exact Or.inl hborn
      · exact Or.inr (hended n (hsettled.born n hborn) rfl)
    rcases hsession with hs | hs <;> simp [State.Listens, hs]
  have habsent := hsettled.absent n hn hlistens
  have hstanding : s.controlState.standing (sessionId n) = .absent := by
    rw [← habsent, State.settled, replay_eq_foldl, List.filter_eq_nil_iff.mpr]
    · rfl
    · intro m hm
      simpa using hqueue m hm
  refine ⟨fun hmem => ?_,congrArg Standing.held hstanding⟩
  have hnone := congrArg Standing.unauth hstanding
  rw [show (s.controlState.standing (sessionId n)).unauth = true from AList.lookup_isSome.mpr hmem]
    at hnone
  cases hnone

/-- The first client authenticates and goes away. -/
theorem no_ghosts_left : ∃ ts s, Run ts s ∧ s.session 0 = .ended ∧ s.control.queue = [] ∧
    NoGhosts s := by
  have h := Run.nil.snoc (Step.connect rfl)
  have h := h.snoc (Step.greeted (n := 0) rfl)
  have h := h.snoc (Step.registered (n := 0) [] rfl rfl)
  have h := h.snoc (Step.packet (n := 0) (.message .authenticate []) trivial rfl)
  have h := h.snoc (Step.control rfl rfl rfl)
  have h := h.snoc (Step.control rfl rfl rfl)
  have h := h.snoc (Step.left (n := 0) (Or.inl rfl))
  have h := h.snoc (Step.control rfl rfl rfl)
  exact ⟨_,_,h,rfl,rfl,no_ghosts h (by decide) rfl⟩

/-! ## More connections than ids -/

/-- So many clients have connected and nothing else has happened. -/
def State.connected (k : ℕ) : State :=
  { State.init with spawned := k, session := fun n => if n < k then .greeting else .unborn }

theorem run_connected (k : ℕ) : ∃ ts, Run ts (State.connected k) := by
  induction k with
  | zero => exact ⟨[],Run.nil⟩
  | succ k ih =>
      obtain ⟨ts,h⟩ := ih
      have hsession : Function.update (State.connected k).session k .greeting =
          (State.connected (k + 1)).session := by
        funext n
        simp only [State.connected, Function.update_apply]
        split_ifs <;> first | rfl | omega
      have hstate : { (State.connected k).setSession k .greeting with spawned := k + 1 } =
          State.connected (k + 1) := by
        rw [State.setSession, hsession]
        rfl
      exact ⟨_,hstate ▸ h.snoc (Step.connect rfl)⟩

/-- The handles that a table with the first session has. -/
theorem tableHandles_first {n : ℕ}
    (h : State.TableHandles ((∅ : RoutingTable).enrollSession 0 [] ⟨0⟩) n) : n = 0 := by
  obtain ⟨id,session,hl,hq⟩ := h
  rcases lookup_of_insert hl with ⟨-,rfl⟩ | hl
  · exact hq.symm
  · cases hl

/-- Two clients have the first id. The second has registered after the first had
authenticated, and has been taken for it when the first left. -/
theorem run_twin : ∃ ts s, Run ts s ∧ s.spawned = 2 ^ 32 + 1 ∧
    s.control = ⟨[],true⟩ ∧ s.controlState = ⟨∅,(∅ : RoutingTable).enrollSession 0 [] ⟨0⟩⟩ ∧
    s.routing.queue = [.update ((∅ : RoutingTable).enrollSession 0 [] ⟨0⟩)] ∧
    s.routingTable = ∅ ∧ s.session 0 = .ended ∧ s.session (2 ^ 32) = .running ∧
    s.inbound (2 ^ 32) = [] := by
  obtain ⟨ts,h⟩ := run_connected (2 ^ 32 + 1)
  have h := h.snoc (Step.greeted (n := 0) rfl)
  have h := h.snoc (Step.registered (n := 0) [] rfl rfl)
  have h := h.snoc (Step.packet (n := 0) (.message .authenticate []) trivial rfl)
  have h := h.snoc (Step.control rfl rfl rfl)
  have h := h.snoc (Step.control rfl rfl rfl)
  have h := h.snoc (Step.greeted (n := 2 ^ 32) rfl)
  have h := h.snoc (Step.registered (n := 2 ^ 32) [] rfl rfl)
  have h := h.snoc (Step.control rfl rfl rfl)
  have h := h.snoc (Step.left (n := 0) (Or.inl rfl))
  have h := h.snoc (Step.control rfl rfl rfl)
  exact ⟨_,_,h,rfl,rfl,rfl,rfl,rfl,rfl,rfl,rfl⟩

/-- When the second's queue is closed both are gone, and the table still has their id. -/
theorem ghost : ¬ ∀ ts s, Run ts s → s.control.isOpen = true → NoGhosts s := by
  intro hall
  obtain ⟨ts,s,h,hspawned,hcontrol,hstate,hrouting,htable,hfirst,hsecond,hinbound⟩ := run_twin
  have unreferenced : ¬ s.Handles (2 ^ 32) := by
    rw [State.Handles, hcontrol, hstate, hrouting, htable]
    rintro (⟨-,⟨id,session,hl,-⟩ | hn | ⟨id,session,hm,-⟩⟩ | ⟨-,⟨id,session,hl,-⟩ | ⟨t,hm,hn⟩⟩)
    · cases hl
    · cases tableHandles_first hn
    · cases hm
    · cases hl
    · cases List.mem_singleton.mp hm
      cases tableHandles_first hn
  have hfinished := h.snoc (Step.finished hsecond hinbound unreferenced)
  have hghost := hall _ _ hfinished (congrArg Channel.isOpen hcontrol) 0 ?_ ?_
  · have hheld := hghost.2
    rw [show (s.setSession (2 ^ 32) .ended).controlState = s.controlState from rfl, hstate] at hheld
    cases hheld
  · intro n hn hid
    have htoNat : n % 2 ^ 32 = 0 := by simpa [sessionId] using congrArg BitVec.toNat hid
    rw [show (s.setSession (2 ^ 32) .ended).spawned = s.spawned from rfl, hspawned] at hn
    rw [State.setSession_session]
    split
    · rfl
    · next hne =>
        have hzero : n = 0 := by omega
        rw [hzero, hfirst]
  · intro m hm
    rw [show (s.setSession (2 ^ 32) .ended).control = s.control from rfl, hcontrol] at hm
    cases hm

end Atof.Server
