import Mathlib.Tactic

/-!
# Incremental decoders

A decoder looks at a buffer and either takes an item off it, asks for more, or
fails; it may also panic. A reader appends what it receives and drains the buffer
until the decoder asks for more; it stops for good at a failure.

A decoder is stable when bytes arriving later do not change an answer already
given, and when it leaves the buffer alone unless it takes an item. Then nothing
depends on how the stream was cut.
-/
namespace Atof.Framing

/-- Items come off the buffer, so draining ends. -/
structure Decoder (β α ε π : Type) where
  decode : List β → Except π (Except ε (Option α) × List β)
  consumes : ∀ {buf rest : List β} {a : α},
    decode buf = .ok (.ok (some a),rest) → rest.length < buf.length

/-- What came off a buffer, the failure if there was one, and what is left. -/
structure Drained (β α ε : Type) where
  items : List α
  error : Option ε
  rest : List β
  deriving DecidableEq

variable {β α ε π : Type}

def Drained.prepend (items : List α) (d : Drained β α ε) : Drained β α ε :=
  { d with items := items ++ d.items }

@[simp] theorem Drained.prepend_nil (d : Drained β α ε) : d.prepend [] = d := rfl

@[simp] theorem Drained.prepend_prepend (as bs : List α) (d : Drained β α ε) :
    (d.prepend bs).prepend as = d.prepend (as ++ bs) := by
  simp [prepend]

namespace Decoder

variable (d : Decoder β α ε π)

/-- Decoding until the decoder asks for more or fails. -/
def drain (buf : List β) : Except π (Drained β α ε) :=
  match h : d.decode buf with
  | .error panic => .error panic
  | .ok (.error e,rest) => .ok ⟨[],some e,rest⟩
  | .ok (.ok none,rest) => .ok ⟨[],none,rest⟩
  | .ok (.ok (some a),rest) =>
      have := d.consumes h
      (drain rest).map (Drained.prepend [a])
termination_by buf.length

/-- Appending the chunks one by one, with a drain after each; what arrives after a
failure is only appended. -/
def feed (buf : List β) : List (List β) → Except π (Drained β α ε)
  | [] => .ok ⟨[],none,buf⟩
  | chunk :: chunks =>
      match d.drain (buf ++ chunk) with
      | .error panic => .error panic
      | .ok ⟨items,some e,rest⟩ => .ok ⟨items,some e,rest ++ chunks.flatten⟩
      | .ok ⟨items,none,rest⟩ => (feed rest chunks).map (Drained.prepend items)

/-- Answers survive what is appended, and only an item changes the buffer. -/
structure Stable : Prop where
  returns : ∀ buf, ∃ r, d.decode buf = .ok r
  item : ∀ {buf rest a}, d.decode buf = .ok (.ok (some a),rest) →
    ∀ more, d.decode (buf ++ more) = .ok (.ok (some a),rest ++ more)
  wait : ∀ {buf rest}, d.decode buf = .ok (.ok none,rest) → rest = buf
  fail : ∀ {buf rest e}, d.decode buf = .ok (.error e,rest) →
    rest = buf ∧ ∀ more, d.decode (buf ++ more) = .ok (.error e,buf ++ more)

variable {d} {buf rest : List β} {items : List α}

theorem drain_item {a : α} (h : d.decode buf = .ok (.ok (some a),rest)) :
    d.drain buf = (d.drain rest).map (Drained.prepend [a]) := by
  rw [drain]
  split <;> simp_all

theorem drain_wait (h : d.decode buf = .ok (.ok none,rest)) :
    d.drain buf = .ok ⟨[],none,rest⟩ := by
  rw [drain]
  split <;> simp_all

theorem drain_fail {e : ε} (h : d.decode buf = .ok (.error e,rest)) :
    d.drain buf = .ok ⟨[],some e,rest⟩ := by
  rw [drain]
  split <;> simp_all

namespace Stable

/-- A drain returns, and stops where the decoder waits or fails. -/
theorem drain_spec (h : d.Stable) (buf : List β) : ∃ r, d.drain buf = .ok r ∧
    match r.error with
    | none => d.decode r.rest = .ok (.ok none,r.rest)
    | some e => d.decode r.rest = .ok (.error e,r.rest) := by
  induction hn : buf.length using Nat.strongRecOn generalizing buf with
  | ind n ih =>
      obtain ⟨⟨answer,rest⟩,hd⟩ := h.returns buf
      match answer, hd with
      | .error e, hd =>
          obtain ⟨rfl,-⟩ := h.fail hd
          exact ⟨_,drain_fail hd,hd⟩
      | .ok none, hd =>
          obtain rfl := h.wait hd
          exact ⟨_,drain_wait hd,hd⟩
      | .ok (some a), hd =>
          obtain ⟨r,hr,hrest⟩ := ih rest.length (hn ▸ d.consumes hd) rest rfl
          exact ⟨r.prepend [a],by rw [drain_item hd, hr]; rfl,hrest⟩

/-- Draining a longer buffer takes the same items first. -/
theorem drain_append (h : d.Stable) (buf more : List β) (r : Drained β α ε)
    (hr : d.drain buf = .ok r) : d.drain (buf ++ more) =
      match r.error with
      | none => (d.drain (r.rest ++ more)).map (Drained.prepend r.items)
      | some e => .ok ⟨r.items,some e,r.rest ++ more⟩ := by
  induction hn : buf.length using Nat.strongRecOn generalizing buf r with
  | ind n ih =>
      obtain ⟨⟨answer,rest⟩,hd⟩ := h.returns buf
      match answer, hd with
      | .error e, hd =>
          obtain ⟨rfl,hmore⟩ := h.fail hd
          rw [drain_fail hd] at hr
          cases hr
          exact drain_fail (hmore more)
      | .ok none, hd =>
          obtain rfl := h.wait hd
          rw [drain_wait hd] at hr
          cases hr
          cases d.drain (rest ++ more) <;> rfl
      | .ok (some a), hd =>
          obtain ⟨r',hr',-⟩ := h.drain_spec rest
          rw [drain_item hd, hr'] at hr
          cases hr
          rw [drain_item (h.item hd more), ih rest.length (hn ▸ d.consumes hd) rest r' hr' rfl]
          rcases r' with ⟨items,_ | e,left⟩
          · simp only [Drained.prepend]
            cases d.drain (left ++ more) <;> simp [Except.map]
          · rfl

/-- Feeding chunks is draining the whole stream at once. -/
theorem feed_eq_drain (h : d.Stable) {buf : List β} (hbuf : d.decode buf = .ok (.ok none,buf))
    (chunks : List (List β)) : d.feed buf chunks = d.drain (buf ++ chunks.flatten) := by
  induction chunks generalizing buf with
  | nil => rw [feed, List.flatten_nil, List.append_nil, drain_wait hbuf]
  | cons chunk chunks ih =>
      obtain ⟨r,hr,hrest⟩ := h.drain_spec (buf ++ chunk)
      rw [feed, hr, List.flatten_cons, ← List.append_assoc, h.drain_append _ _ r hr]
      rcases r with ⟨items,_ | e,rest⟩
      · simp only
        rw [ih hrest]
      · rfl

end Stable

/-- Draining a concatenation of frames, each of which holds an item, whatever
follows. -/
theorem drain_frames {γ : Type} {frame : γ → List β} {item : γ → α} {ok : γ → Prop}
    (h : ∀ c, ok c → ∀ more, d.decode (frame c ++ more) = .ok (.ok (some (item c)),more))
    (cs : List γ) (hcs : ∀ c ∈ cs, ok c) (more : List β) :
    d.drain (cs.flatMap frame ++ more) = (d.drain more).map (Drained.prepend (cs.map item)) := by
  induction cs with
  | nil => cases hm : d.drain more <;> simp [Except.map, hm]
  | cons c cs ih =>
      rw [List.flatMap_cons, List.append_assoc, drain_item (h c (hcs c (by simp)) _),
        ih fun c' hc' => hcs c' (by simp [hc'])]
      cases d.drain more <;> simp [Except.map]

/-- Draining a concatenation of encoded items, whatever follows. -/
theorem drain_encoded {encode : α → List β} {ok : α → Prop}
    (h : ∀ a, ok a → ∀ more, d.decode (encode a ++ more) = .ok (.ok (some a),more))
    (as : List α) (has : ∀ a ∈ as, ok a) (more : List β) :
    d.drain (as.flatMap encode ++ more) = (d.drain more).map (Drained.prepend as) := by
  rw [drain_frames h as has more, List.map_id']

/-- If every item comes off as its own encoding, a drain loses nothing. -/
theorem Stable.drain_exact (h : d.Stable) {encode : α → List β}
    (hexact : ∀ {buf rest a}, d.decode buf = .ok (.ok (some a),rest) → buf = encode a ++ rest)
    (buf : List β) (r : Drained β α ε) (hr : d.drain buf = .ok r) :
    r.items.flatMap encode ++ r.rest = buf := by
  induction hn : buf.length using Nat.strongRecOn generalizing buf r with
  | ind n ih =>
      obtain ⟨⟨answer,rest⟩,hd⟩ := h.returns buf
      match answer, hd with
      | .error e, hd =>
          rw [drain_fail hd] at hr
          cases hr
          exact (h.fail hd).1
      | .ok none, hd =>
          rw [drain_wait hd] at hr
          cases hr
          exact h.wait hd
      | .ok (some a), hd =>
          obtain ⟨r',hr',-⟩ := h.drain_spec rest
          rw [drain_item hd, hr'] at hr
          cases hr
          rw [hexact hd, ← ih rest.length (hn ▸ d.consumes hd) rest r' hr' rfl]
          simp [Drained.prepend]

/-! ## Items that may be refused -/

variable {γ : Type}

/-- Each item that comes off is converted, and a conversion may fail. -/
def convert (d : Decoder β α ε π) (f : α → Except π (Except ε γ)) : Decoder β γ ε π where
  decode buf :=
    match d.decode buf with
    | .error panic => .error panic
    | .ok (.error e,rest) => .ok (.error e,rest)
    | .ok (.ok none,rest) => .ok (.ok none,rest)
    | .ok (.ok (some a),rest) => (f a).map fun r => (r.map some,rest)
  consumes {buf rest c} h := by
    split at h
    · cases h
    · cases h
    · cases h
    · next a rest' hd =>
        rcases hf : f a with panic | e | c'
        all_goals
          rw [hf] at h
          cases h
        exact d.consumes hd

/-- Going on after errors. An error that takes nothing off the buffer would come back
for ever, and ends the drain. -/
def resuming (d : Decoder β α ε π) : Decoder β (Except ε α) ε π where
  decode buf :=
    match d.decode buf with
    | .error panic => .error panic
    | .ok (.error e,rest) =>
        if rest.length < buf.length then .ok (.ok (some (.error e)),rest) else .ok (.error e,rest)
    | .ok (.ok none,rest) => .ok (.ok none,rest)
    | .ok (.ok (some a),rest) => .ok (.ok (some (.ok a)),rest)
  consumes {buf rest r} h := by
    split at h
    · cases h
    · split at h
      · next hlt =>
          cases h
          exact hlt
      · cases h
    · cases h
    · next hd =>
        cases h
        exact d.consumes hd

/-- One decoder answers as another does, with every item translated. -/
def Translates (g : α → γ) (d : Decoder β α ε π) (d' : Decoder β γ ε π) : Prop :=
  ∀ buf, d'.decode buf = (d.decode buf).map fun r => (r.1.map (Option.map g),r.2)

/-- A conversion that never panics, gone on after, translates the items. -/
theorem Stable.translates_resuming (h : d.Stable) {f : α → Except π (Except ε γ)}
    {g : α → Except ε γ} (hf : ∀ a, f a = .ok (g a)) :
    Translates g d (d.convert f).resuming := by
  intro buf
  obtain ⟨⟨answer,rest⟩,hd⟩ := h.returns buf
  match answer, hd with
  | .error e, hd =>
      obtain ⟨rfl,-⟩ := h.fail hd
      simp [resuming, convert, hd, Except.map]
  | .ok none, hd => simp [resuming, convert, hd, Except.map]
  | .ok (some a), hd =>
      have hlt := d.consumes hd
      cases hg : g a <;> simp [resuming, convert, hd, hf, hg, hlt, Except.map]

theorem Translates.drain {g : α → γ} {d' : Decoder β γ ε π} (h : Translates g d d')
    (hd : d.Stable) (buf : List β) :
    d'.drain buf = (d.drain buf).map fun r => ⟨r.items.map g,r.error,r.rest⟩ := by
  induction hn : buf.length using Nat.strongRecOn generalizing buf with
  | ind n ih =>
      have hbuf := h buf
      obtain ⟨⟨answer,rest⟩,hr⟩ := hd.returns buf
      rw [hr] at hbuf
      match answer, hr with
      | .error e, hr => rw [drain_fail hr, drain_fail hbuf]; rfl
      | .ok none, hr => rw [drain_wait hr, drain_wait hbuf]; rfl
      | .ok (some a), hr =>
          rw [drain_item hr, drain_item hbuf, ih rest.length (hn ▸ d.consumes hr) rest rfl]
          cases d.drain rest <;> rfl

/-- Translating the items of a stream, however it is cut. -/
theorem Translates.feed {g : α → γ} {d' : Decoder β γ ε π} (h : Translates g d d')
    (hd : d.Stable) (buf : List β) (chunks : List (List β)) :
    d'.feed buf chunks = (d.feed buf chunks).map fun r => ⟨r.items.map g,r.error,r.rest⟩ := by
  induction chunks generalizing buf with
  | nil => rfl
  | cons chunk chunks ih =>
      obtain ⟨r,hr,-⟩ := hd.drain_spec (buf ++ chunk)
      rw [Decoder.feed, Decoder.feed, h.drain hd, hr]
      rcases r with ⟨items,_ | e,rest⟩
      · simp only [Except.map, ih]
        cases d.feed rest chunks <;> simp [Drained.prepend]
      · rfl

end Decoder
end Atof.Framing
