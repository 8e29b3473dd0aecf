import Atof.Fairness
import Atof.Playback

/-!
# When the client returns

The codec task and the audio io task each hold a sender of the other's queue, so neither sees
the end of its own before the other has ended. The codec task does not stop when the connection
task has, and so the client goes on recording after the server is gone, until a device fails.
If one has failed and the connection is lost too, or the codec task has noticed, then the other
tasks follow.
-/
namespace Atof.Client
open Rust Voice Control Fairness

variable {F : Type} {O : Opus F} {M : Messages}

/-! ## While the devices work -/

/-- The loop over the messages is left when the audio io task refuses a frame. -/
theorem audioIo_closed_of_left {s : State O} {message : AudioCodecMessage F}
    {events : List (Event F)} (h : handle s.worker message = (events,.left)) :
    s.audioIo.isOpen = false := by
  cases message with
  | outbound samples =>
      refine absurd (congrArg Prod.snd ((batchFrames_event _).trans h)) (batchFrames_not_left _)
  | inbound packet =>
      have hplays := handle_plays s.worker packet
      rw [h] at hplays
      cases hplays with
      | refused gives full =>
          by_contra hopen
          have hroom : s.worker.audioIo = capacity := if_pos (Bool.not_eq_false _ ▸ hopen)
          rw [full] at hroom
          cases hroom

/-- The codec task stops only when the audio io task has ended. -/
theorem Run.audioIo_first {actions : List (Action F)} {s : State O} (h : Run M actions s) :
    s.codecTask = .stopped → s.audioIoTask = .ended := by
  induction h with
  | nil => exact fun hs => by cases hs
  | @snoc actions actions' s s' run step ih =>
      have htended := Tended.of_run run
      have ended (running : s.codecTask = .running) (hgone : ¬ s.audioIoTask.Live) :
          s.audioIoTask = .ended := by
        have hdropped : s.audioIoTask ≠ .dropped := fun hd => by
          rw [htended.together.mpr (htended.allDropped.mp hd)] at running
          cases running
        cases ha : s.audioIoTask with
        | ended => rfl
        | dropped => exact absurd ha hdropped
        | starting | recording | playing | pushing chunk =>
            rw [ha] at hgone
            exact absurd trivial hgone
      intro hstopped
      cases step with
      | codecLeaves running queued handled =>
          refine ended running fun hlive => ?_
          have hclosed := audioIo_closed_of_left handled
          rw [htended.audioIo.mpr hlive] at hclosed
          cases hclosed
      | codecDrained running drained connectionGone audioIoGone => exact ended running audioIoGone
      | clockPanics _ | codecPanics _ _ _ => cases hstopped
      | inputFails _ | outputFails _ | switchFails _ _ _ | audioIoDrained _ _ _ => rfl
      | inputOpens ha | outputOpens ha | takes ha _ | pushed ha => cases (ih hstopped).symm.trans ha
      | _ => exact ih hstopped

/-- The audio io task ends only when a device fails. -/
theorem Run.audioIo_stays {actions : List (Action F)} {s : State O} (h : Run M actions s)
    (works : .fails ∉ actions) : s.audioIoTask ≠ .ended := by
  induction h with
  | nil => simp [State.init]
  | @snoc actions actions' s s' run step ih =>
      have haudio := ih fun hm => works (List.mem_append_left _ hm)
      cases step with
      | inputFails _ | outputFails _ | switchFails _ _ _ => exact absurd (by simp) works
      | audioIoDrained playing drained alone =>
          have htended := Tended.of_run run
          cases hcodec : s.codecTask with
          | running => exact absurd hcodec alone
          | stopped => cases (run.audioIo_first hcodec).symm.trans playing
          | dropped =>
              have hdropped := htended.allDropped.mpr (htended.together.mp hcodec)
              cases hdropped.symm.trans playing
      | clockPanics _ | codecPanics _ _ _ | inputOpens _ | outputOpens _ | takes _ _ | pushed _ =>
          simp [State.unwind]
      | _ => exact haudio

/-- As long as no device fails, the codec task and the audio io task are both there or were
both dropped in a panic, so the client does not return, whatever becomes of the connection. -/
theorem client_stays {actions : List (Action F)} {s : State O} (h : Run M actions s)
    (works : .fails ∉ actions) :
    s.codecTask = .running ∧ s.audioIoTask.Live ∨
      s.codecTask = .dropped ∧ s.audioIoTask = .dropped := by
  have htended := Tended.of_run h
  have haudio := h.audioIo_stays works
  cases hcodec : s.codecTask with
  | stopped => exact absurd (h.audioIo_first hcodec) haudio
  | dropped => exact Or.inr ⟨rfl,htended.allDropped.mpr (htended.together.mp hcodec)⟩
  | running =>
      refine Or.inl ⟨rfl,?_⟩
      cases ha : s.audioIoTask with
      | ended => exact absurd ha haudio
      | dropped =>
          rw [htended.together.mpr (htended.allDropped.mp ha)] at hcodec
          cases hcodec
      | starting | recording | playing | pushing chunk => trivial

/-- The server goes away, and the microphone goes on. -/
theorem client_stays_disconnected : ∃ actions, ∃ s : State .silent, Run .plain actions s ∧
    s.connectionTask = .ended ∧ .captures [(),()] ∈ actions ∧
    (s.codecTask = .running ∧ s.audioIoTask.Live ∨
      s.codecTask = .dropped ∧ s.audioIoTask = .dropped) := by
  have h : Run .plain [] (.init .silent) := .nil
  have h := h.snoc (.inputOpens rfl)
  have h := h.snoc (.sendsVersion rfl)
  have h := h.snoc (.disconnected ⟨by simp,by simp⟩ (by simp))
  have h := h.snoc (.captures [(),()] trivial)
  exact ⟨_,_,h,rfl,by simp,client_stays h (by simp)⟩

/-! ## After a device has failed -/

/-- The codec task goes on. -/
inductive CodecGoesOn (s : State O) : State O → Prop
  | handles {message : AudioCodecMessage F} {rest : List (AudioCodecMessage F)}
      {events : List (Event F)} {c : Codec O} (running : s.codecTask = .running)
      (queued : s.codec.queue = message :: rest)
      (handled : handle s.worker message = (events,.next c)) :
      CodecGoesOn s (({ s with codec := { s.codec with queue := rest } }.keep c).forward events)
  | leaves {message : AudioCodecMessage F} {rest : List (AudioCodecMessage F)}
      {events : List (Event F)} (running : s.codecTask = .running)
      (queued : s.codec.queue = message :: rest)
      (handled : handle s.worker message = (events,.left)) :
      CodecGoesOn s (s.forward events).stopCodec
  | panics {message : AudioCodecMessage F} {rest : List (AudioCodecMessage F)}
      {events : List (Event F)} (running : s.codecTask = .running)
      (queued : s.codec.queue = message :: rest)
      (handled : handle s.worker message = (events,.panicked)) : CodecGoesOn s s.unwind
  | drained (running : s.codecTask = .running) (drained : s.codec.queue = [])
      (connectionGone : ¬ s.connectionTask.Live) (audioIoGone : ¬ s.audioIoTask.Live) :
      CodecGoesOn s s.stopCodec

/-- The connection task turns to its queue. -/
inductive ConnectionGoesOn (s : State O) : State O → Prop
  | voice {packet : VoicePacket .serverbound} {rest : List ConnectionMessage}
      (looping : s.connectionTask = .looping) (queued : s.connection.queue = .voice packet :: rest) :
      ConnectionGoesOn s
        { s with connection := { s.connection with queue := rest }, connectionTask := .sending }
  | control {packet : ControlPacket .serverbound} {rest : List ConnectionMessage}
      (looping : s.connectionTask = .looping) (queued : s.connection.queue = .control packet :: rest) :
      ConnectionGoesOn s
        { s with connection := { s.connection with queue := rest }, connectionTask := .sending }
  | drained (looping : s.connectionTask = .looping) (drained : s.connection.queue = [])
      (alone : s.codecTask ≠ .running) : ConnectionGoesOn s s.endConnection

variable (M)

theorem CodecGoesOn.step {s s' : State O} (h : CodecGoesOn s s') : ∃ actions, Step M s actions s' := by
  cases h with
  | handles running queued handled => exact ⟨_,.codec running queued handled⟩
  | leaves running queued handled => exact ⟨_,.codecLeaves running queued handled⟩
  | panics running queued handled => exact ⟨_,.codecPanics running queued handled⟩
  | drained running drained connectionGone audioIoGone =>
      exact ⟨_,.codecDrained running drained connectionGone audioIoGone⟩

theorem ConnectionGoesOn.step {s s' : State O} (h : ConnectionGoesOn s s') :
    ∃ actions, Step M s actions s' := by
  cases h with
  | voice looping queued => exact ⟨_,.voice looping queued⟩
  | control looping queued => exact ⟨_,.control looping queued⟩
  | drained looping drained alone => exact ⟨_,.connectionDrained looping drained alone⟩

/-- The client from its start on: in each step one task or callback goes on, or none does. -/
def Course (r : ℕ → State O) : Prop :=
  Fairness.Course (State.init O) (fun s s' => ∃ actions, Step M s actions s') r

/-- The codec task is not put off for ever, nor is the connection task's own queue by pings and
what the server sends. -/
structure Fair (r : ℕ → State O) : Prop where
  codec : Weak CodecGoesOn r
  connection : Strong ConnectionGoesOn r

/-- The server does not keep the connection task waiting for ever: it answers and reads what it
is sent, or it goes away. -/
def ServerGoesOn (r : ℕ → State O) : Prop :=
  ∀ i, ∃ j, i ≤ j ∧ ((r j).connectionTask = .looping ∨ ¬ (r j).connectionTask.Live)

variable {M}

/-- What a step keeps is kept along a course. -/
theorem Course.keeps {I : State O → Prop} {r : ℕ → State O} (h : Course M r) {i j : ℕ}
    (hij : i ≤ j) (hi : I (r i)) (step : ∀ {s actions s'}, I s → Step M s actions s' → I s') :
    I (r j) := by
  refine Fairness.Course.keeps h hij hi ?_
  rintro s s' hs ⟨actions,hstep⟩
  exact step hs hstep

theorem CodecGoesOn.of_running {s : State O} (running : s.codecTask = .running)
    (connectionGone : ¬ s.connectionTask.Live) (audioIoGone : ¬ s.audioIoTask.Live) :
    ∃ s', CodecGoesOn s s' := by
  cases hqueue : s.codec.queue with
  | nil => exact ⟨_,.drained running hqueue connectionGone audioIoGone⟩
  | cons message rest =>
      obtain ⟨events,hevents⟩ : ∃ events, (handle s.worker message).1 = events := ⟨_,rfl⟩
      cases hflow : (handle s.worker message).2 with
      | next c => exact ⟨_,.handles running hqueue (Prod.ext hevents hflow)⟩
      | left => exact ⟨_,.leaves running hqueue (Prod.ext hevents hflow)⟩
      | panicked => exact ⟨_,.panics running hqueue (Prod.ext hevents hflow)⟩

theorem CodecGoesOn.queue_lt {s s' : State O} (h : CodecGoesOn s s')
    (running' : s'.codecTask = .running) : s'.codec.queue.length < s.codec.queue.length := by
  cases h with
  | handles running queued handled => simp [queued, State.forward, State.keep]
  | leaves _ _ _ | panics _ _ _ | drained _ _ _ _ => cases running'

theorem ConnectionGoesOn.of_looping {s : State O} (looping : s.connectionTask = .looping)
    (alone : s.codecTask ≠ .running) : ∃ s', ConnectionGoesOn s s' := by
  cases hqueue : s.connection.queue with
  | nil => exact ⟨_,.drained looping hqueue alone⟩
  | cons message rest =>
      cases message with
      | voice packet => exact ⟨_,.voice looping hqueue⟩
      | control packet => exact ⟨_,.control looping hqueue⟩

theorem ConnectionGoesOn.queue_lt {s s' : State O} (h : ConnectionGoesOn s s')
    (live' : s'.connectionTask.Live) : s'.connection.queue.length < s.connection.queue.length := by
  cases h with
  | voice looping queued | control looping queued => simp [queued]
  | drained _ _ _ => exact absurd rfl live'.1

theorem AudioIOTask.Records.live {t : AudioIOTask F} (h : t.Records) : t.Live := by
  cases t with
  | recording | playing | pushing chunk => trivial
  | starting | ended | dropped => cases h

theorem AudioIOTask.Plays.live {t : AudioIOTask F} (h : t.Plays) : t.Live := by
  cases t with
  | playing | pushing chunk => trivial
  | starting | recording | ended | dropped => cases h

/-- With the other two gone, nobody adds to the codec task's queue. -/
theorem Step.codec_queue_le {s s' : State O} {actions : List (Action F)} (h : Step M s actions s')
    (connectionGone : ¬ s.connectionTask.Live) (audioIoGone : ¬ s.audioIoTask.Live)
    (running' : s'.codecTask = .running) : s'.codec.queue.length ≤ s.codec.queue.length := by
  cases h with
  | inbound packet looping => exact absurd (by simp [ConnectionTask.Live, looping]) connectionGone
  | captures samples records => exact absurd records.live audioIoGone
  | codec running queued handled =>
      exact (CodecGoesOn.handles running queued handled).queue_lt running' |>.le
  | clockPanics _ | codecLeaves _ _ _ | codecPanics _ _ _ | codecDrained _ _ _ _ => cases running'
  | _ => exact le_rfl

/-- With the codec task gone, nobody adds to the connection task's queue. -/
theorem Step.connection_queue_le {s s' : State O} {actions : List (Action F)}
    (h : Step M s actions s') (codecGone : s.codecTask ≠ .running) :
    s'.connection.queue.length ≤ s.connection.queue.length := by
  cases h with
  | voice looping queued | control looping queued => simp [queued]
  | codec running _ _ | codecLeaves running _ _ | codecPanics running _ _
    | codecDrained running _ _ _ => exact absurd running codecGone
  | clockPanics _ | incompatible _ _ _ | disconnected _ _ | connectionDrained _ _ _ =>
      exact Nat.zero_le _
  | _ => exact le_rfl

/-- The codec task drains its queue. -/
theorem Course.codec_stops {r : ℕ → State O} (h : Course M r) (fair : Fair r) {i : ℕ}
    (connectionGone : ¬ (r i).connectionTask.Live) (audioIoGone : ¬ (r i).audioIoTask.Live) :
    ∃ j, i ≤ j ∧ (r j).codecTask ≠ .running := by
  have hgone {j : ℕ} (hj : i ≤ j) :
      ¬ (r j).connectionTask.Live ∧ ¬ (r j).audioIoTask.Live :=
    h.keeps (I := fun s => ¬ s.connectionTask.Live ∧ ¬ s.audioIoTask.Live) hj
      ⟨connectionGone,audioIoGone⟩ fun hs hstep =>
        ⟨fun hlive => hs.1 (hstep.connection_live hlive),fun hlive => hs.2 (hstep.audioIo_live hlive)⟩
  refine fair.codec.reaches (fun s => s.codecTask ≠ .running) (fun s => s.codec.queue.length)
    (fun j hj running => ?_) (fun j hj _ running => ?_) (fun j hj _ running hmove => ?_)
  · exact CodecGoesOn.of_running (not_not.mp running) (hgone hj).1 (hgone hj).2
  · obtain hsame | ⟨actions,hs⟩ := h.step j
    · rw [hsame]
    · exact hs.codec_queue_le (hgone hj).1 (hgone hj).2 (not_not.mp running)
  · exact hmove.queue_lt (not_not.mp running)

/-- The connection task drains its queue, or the server goes away first. -/
theorem Course.connection_ends {r : ℕ → State O} (h : Course M r) (fair : Fair r)
    (server : ServerGoesOn r) {i : ℕ} (codecGone : (r i).codecTask ≠ .running) :
    ∃ j, i ≤ j ∧ ¬ (r j).connectionTask.Live := by
  have hgone {j : ℕ} (hj : i ≤ j) : (r j).codecTask ≠ .running :=
    h.keeps (I := fun s => s.codecTask ≠ .running) hj codecGone fun hs hstep running' =>
      hs (hstep.codec_running running')
  refine fair.connection.reaches (fun s => ¬ s.connectionTask.Live)
    (fun s => s.connection.queue.length) (fun k hk => ?_) (fun j hj _ _ => ?_)
    (fun j hj _ live hmove => hmove.queue_lt (not_not.mp live))
  · obtain ⟨j,hj,hserver⟩ := server k
    refine ⟨j,hj,?_⟩
    rcases hserver with looping | hended
    · exact Or.inr (ConnectionGoesOn.of_looping looping (hgone (hk.trans hj)))
    · exact Or.inl hended
  · obtain hsame | ⟨actions,hs⟩ := h.step j
    · rw [hsame]
    · exact hs.connection_queue_le (hgone hj)

/-- None of the three tasks is there any more. -/
def Returned (s : State O) : Prop :=
  ¬ s.connectionTask.Live ∧ s.codecTask ≠ .running ∧ ¬ s.audioIoTask.Live

/-- Nothing happens any more. -/
theorem Returned.final {s s' : State O} {actions : List (Action F)} (h : Returned s) :
    ¬ Step M s actions s' := by
  obtain ⟨hconnection,hcodec,haudio⟩ := h
  have live {t : ConnectionTask} (hc : s.connectionTask = t) (hlive : t.Live) : False :=
    hconnection (hc ▸ hlive)
  have audio {t : AudioIOTask F} (ha : s.audioIoTask = t) (hlive : t.Live) : False :=
    haudio (ha ▸ hlive)
  intro hs
  cases hs with
  | sendsVersion hc | versionSent hc | compatible hc | incompatible _ hc _ | authenticated hc
    | pings _ hc | clockPanics hc | voice hc _ | control hc _ | inbound _ hc | ignored _ hc _
    | sent hc | connectionDrained hc _ _ => exact live hc ⟨by simp,by simp⟩
  | disconnected hlive _ => exact hconnection hlive
  | codec hr _ _ | codecLeaves hr _ _ | codecPanics hr _ _ | codecDrained hr _ _ _ =>
      exact hcodec hr
  | inputOpens ha | inputFails ha | outputOpens ha | outputFails ha | takes ha _ | pushed ha
    | switches ha _ _ | switchFails ha _ _ | audioIoDrained ha _ _ => exact audio ha trivial
  | captures _ records => exact haudio records.live
  | plays plays => exact haudio plays.live

/-- In every fair course in which the audio io task ends, as a device fails, and the connection
task ends too or the codec task has stopped, and in which the server does not keep the connection
task waiting for ever, the client returns, or it panics; after that nothing happens any more. -/
theorem client_returns {r : ℕ → State O} (h : Course M r) (fair : Fair r)
    (server : ServerGoesOn r) {i : ℕ} (audioIoGone : ¬ (r i).audioIoTask.Live)
    (other : ¬ (r i).connectionTask.Live ∨ (r i).codecTask ≠ .running) :
    ∃ j, i ≤ j ∧ Returned (r j) ∧ ∀ k, j ≤ k → r k = r j := by
  have haudio {j : ℕ} (hj : i ≤ j) : ¬ (r j).audioIoTask.Live :=
    h.keeps (I := fun s => ¬ s.audioIoTask.Live) hj audioIoGone fun hs hstep live =>
      hs (hstep.audioIo_live live)
  obtain ⟨j,hj,hcodec⟩ : ∃ j, i ≤ j ∧ (r j).codecTask ≠ .running := by
    rcases other with connectionGone | codecGone
    · exact h.codec_stops fair connectionGone audioIoGone
    · exact ⟨i,le_rfl,codecGone⟩
  obtain ⟨k,hk,hconnection⟩ := h.connection_ends fair server hcodec
  have hgone : (r k).codecTask ≠ .running :=
    h.keeps (I := fun s => s.codecTask ≠ .running) hk hcodec fun hs hstep running' =>
      hs (hstep.codec_running running')
  have hreturned : Returned (r k) := ⟨hconnection,hgone,haudio (hj.trans hk)⟩
  refine ⟨k,hj.trans hk,hreturned,fun m hm => Fairness.Course.final h hm ?_⟩
  rintro s' ⟨actions,hs⟩
  exact hreturned.final hs

/-! ### A client that returns -/

/-- A run is the beginning of a course in which nothing happens afterwards. -/
theorem Run.course {actions : List (Action F)} {s : State O} (h : Run M actions s) :
    ∃ r, Course M r ∧ ∃ n, ∀ i, n ≤ i → r i = s := by
  induction h with
  | nil => exact ⟨_,Fairness.Course.rest _ _,0,fun _ _ => rfl⟩
  | snoc run step ih =>
      obtain ⟨r,hr,n,hlast⟩ := ih
      obtain ⟨r',hr',hlast',-⟩ := Fairness.Course.extend hr hlast ⟨_,step⟩
      exact ⟨r',hr',_,hlast'⟩

theorem Returned.fair (M : Messages) {r : ℕ → State O} {s : State O} {n : ℕ} (h : Returned s)
    (hlast : ∀ i, n ≤ i → r i = s) : Fair r ∧ ServerGoesOn r := by
  refine ⟨⟨.of_final hlast fun _ hs => ?_,.of_final hlast fun _ hs => ?_⟩,fun i => ?_⟩
  · obtain ⟨actions,hstep⟩ := hs.step M
    exact h.final hstep
  · obtain ⟨actions,hstep⟩ := hs.step M
    exact h.final hstep
  · exact ⟨max i n,le_max_left _ _,Or.inr (by rw [hlast _ (le_max_right _ _)]; exact h.1)⟩

/-- There is no microphone, and the server goes away; the codec task is still there. -/
theorem client_returns_mute : ∃ r : ℕ → State .silent, Course .plain r ∧ Fair r ∧
    ServerGoesOn r ∧ ∃ i, ¬ (r i).audioIoTask.Live ∧ ¬ (r i).connectionTask.Live ∧
      (r i).codecTask = .running ∧
      ∃ j, i ≤ j ∧ Returned (r j) ∧ ∀ k, j ≤ k → r k = r j := by
  have h : Run .plain [] (.init .silent) := .nil
  have h := h.snoc (.inputFails rfl)
  have h := h.snoc (.sendsVersion rfl)
  have h := h.snoc (.disconnected ⟨by simp,by simp⟩ (by simp))
  obtain ⟨r,hr,n,hlast⟩ := h.course
  obtain ⟨r',hr',hlast',hsame⟩ := Fairness.Course.extend hr hlast
    ⟨_,.codecDrained rfl rfl (fun live => live.1 rfl) id⟩
  have hn := (hsame n le_rfl).trans (hlast n le_rfl)
  have hreturned : Returned (r' (n + 1)) := by
    rw [hlast' _ le_rfl]
    exact ⟨fun live => live.1 rfl,by simp [State.stopCodec],id⟩
  obtain ⟨fair,server⟩ := hreturned.fair Messages.plain
    fun i hi => (hlast' i hi).trans (hlast' _ le_rfl).symm
  have audioIoGone : ¬ (r' n).audioIoTask.Live := by
    rw [hn]
    exact id
  have connectionGone : ¬ (r' n).connectionTask.Live := by
    rw [hn]
    exact fun live => live.1 rfl
  refine ⟨r',hr',fair,server,n,audioIoGone,connectionGone,by rw [hn]; rfl,?_⟩
  exact client_returns hr' fair server audioIoGone (Or.inl connectionGone)

end Atof.Client
