import Atof.Completion

/-!
# After a panic

The control, the routing and the accept task are joined in one future, so a panic of the
routing task, which a client can bring about, drops all three and closes their queues. The
session tasks go on on their own, with nobody to talk to.
-/
namespace Atof.Server
open Rust Voice Control

/-- The three joined tasks are dropped and nothing has changed that they worked on, but that
the session tasks may have taken from the front of their queues. -/
structure Frozen (s s' : State) : Prop where
  dropped : s'.acceptTask = .dropped ∧ s'.controlTask = .dropped ∧ s'.routingTask = .dropped
  closed : s'.control.isOpen = false ∧ s'.routing.isOpen = false
  spawned : s'.spawned = s.spawned
  control : s'.control = s.control ∧ s'.controlState = s.controlState
  routing : s'.routing = s.routing ∧ s'.routingTable = s.routingTable
  inbound : ∀ n, s'.inbound n <:+ s.inbound n

theorem Channel.offer_of_closed {α : Type} {c : Channel α} (h : c.isOpen = false) (message : α) :
    c.offer message = c := by
  rcases c.offer_cases message with he | ⟨hopen,-⟩
  · exact he
  · cases hopen.symm.trans h

theorem Frozen.quiet {s s' : State} (h : Frozen s s') : Quiet s' := by
  obtain ⟨ha,hc,hr⟩ := h.dropped
  simp [Quiet, ha, hc, hr]

theorem Frozen.step {s s₁ s₂ : State} {events : List Event} (h : Frozen s s₁)
    (hs : Step s₁ events s₂) : Frozen s s₂ ∧ events = [] := by
  have hquiet := h.quiet
  have ⟨dropped,closed,spawned,control,routing,inbound⟩ := h
  cases hs with
  | connect ha | stop ha _ | stopPanics ha _ => exact absurd ha hquiet.1
  | joined ha _ => cases dropped.1.symm.trans ha
  | registered version awaiting sent => cases closed.1.symm.trans (Channel.send_eq_some sent).1
  | voice packet running | text message running =>
      refine ⟨⟨dropped,?_,spawned,control,?_,inbound⟩,rfl⟩
      · rwa [Channel.offer_of_closed closed.2]
      · rwa [Channel.offer_of_closed closed.2]
  | packet packet _ running =>
      refine ⟨⟨dropped,?_,spawned,?_,routing,inbound⟩,rfl⟩
      · rwa [Channel.offer_of_closed closed.1]
      · rwa [Channel.offer_of_closed closed.1]
  | left listens =>
      unfold State.leave
      refine ⟨⟨dropped,?_,spawned,?_,routing,inbound⟩,rfl⟩
      · rwa [Channel.offer_of_closed closed.1]
      · rwa [Channel.offer_of_closed closed.1]
  | @take m packet rest running queued =>
      refine ⟨⟨dropped,closed,spawned,control,routing,fun n => ?_⟩,rfl⟩
      by_cases hn : n = m
      · subst hn
        have hin := inbound n
        rw [queued] at hin
        simpa using (List.suffix_cons packet rest).trans hin
      · simpa [Function.update_of_ne hn] using inbound n
  | control hc _ _ | controlPanics hc _ _ | controlStops hc _ _ _ | controlStopPanics hc _ _ _ =>
      exact absurd hc hquiet.2.1
  | routing hr _ _ | routingPanics hr _ _ | routingStops hr _ _ => exact absurd hr hquiet.2.2
  | _ => exact ⟨⟨dropped,closed,spawned,control,routing,inbound⟩,rfl⟩

theorem Frozen.of_panic {s s' : State} {events : List Event} (hs : Step s events s')
    (h : Transition.RoutingPanics ⟨s,events,s'⟩) : Frozen s' s' := by
  obtain ⟨hevents,hdropped⟩ := h
  cases hs with
  | @routing message rest ds routingTable routing running queued handled =>
      obtain ⟨inbound,he⟩ := State.deliverAll_eq { s with routingTable, routing } ds
      rw [he] at hdropped
      cases running.symm.trans hdropped
  | routingPanics running queued failed =>
      exact ⟨⟨rfl,rfl,rfl⟩,⟨rfl,rfl⟩,rfl,⟨rfl,rfl⟩,⟨rfl,rfl⟩,fun n => List.suffix_rfl⟩
  | _ => exact absurd rfl hevents

/-- A panic of the routing task is the end of the server but for the session tasks: whatever
their clients send, nothing is relayed or handled any more, no table changes and no connection
is accepted, and a session task gets only what was in its queue. -/
theorem panic_is_final {ts ts₁ ts₂ : List Transition} {t : Transition} {s : State} (h : Run ts s)
    (hts : ts = ts₁ ++ t :: ts₂) (hpanic : t.RoutingPanics) :
    Frozen t.after s ∧ ∀ u ∈ ts₂, u.events = [] := by
  induction h generalizing ts₂ with
  | nil => simp at hts
  | @snoc ts s s' events run step ih =>
      rcases List.eq_nil_or_concat ts₂ with rfl | ⟨ts₂,last,rfl⟩
      · obtain ⟨rfl,rfl⟩ := List.concat_inj.mp (by simpa using hts)
        exact ⟨.of_panic step hpanic,by simp⟩
      · rw [List.concat_eq_append, ← List.cons_append, ← List.append_assoc] at hts
        obtain ⟨hbefore,hlast⟩ := List.append_inj' hts rfl
        obtain ⟨hfrozen,hsilent⟩ := ih hbefore
        obtain ⟨hnow,hevents⟩ := hfrozen.step step
        refine ⟨hnow,fun u hu => ?_⟩
        rcases List.mem_append.mp (List.concat_eq_append ▸ hu) with hu | hu
        · exact hsilent u hu
        · obtain rfl := (List.mem_singleton.mp hu).trans (List.singleton_inj.mp hlast).symm
          exact hevents

/-- A client that has not authenticated sends an audio ping, and audio after it. -/
theorem panic_is_final_ping : ∃ ts₁ t u s, Run (ts₁ ++ [t,u]) s ∧ t.RoutingPanics ∧
    s.session 0 = .running ∧ Frozen t.after s ∧ ∀ u' ∈ [u], u'.events = [] := by
  have h := Run.nil.snoc (Step.connect rfl)
  have h := h.snoc (Step.greeted (n := 0) rfl)
  have h := h.snoc (Step.registered (n := 0) [] rfl rfl)
  have h := h.snoc (Step.voice (n := 0) (.ping 7) rfl)
  have h := h.snoc (Step.routingPanics rfl rfl rfl)
  have h := h.snoc (Step.voice (n := 0) (.audio 0 () 7 (.opus [1] true) none) rfl)
  rw [List.append_assoc] at h
  refine ⟨_,_,_,_,h,⟨List.cons_ne_nil _ _,rfl⟩,rfl,panic_is_final h rfl ⟨List.cons_ne_nil _ _,rfl⟩⟩

end Atof.Server
