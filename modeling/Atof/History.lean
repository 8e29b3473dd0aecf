import Atof.Replay

/-!
# What the history remembers

The history keeps the second byte of the last nonce accepted for each low byte,
and zero where there is none. A datagram at or behind the receiver's nonce is
called a repeat on the strength of that byte alone. The two ways it misleads are
a slot never written, for a nonce whose second byte is zero, and a slot written
for another nonce with the same two low bytes; in a run without them every
`Repeat` has a cause.
-/
namespace Atof.History
open Rust Voice Crypt CryptState Replay

variable {encodeDst decodeDst : VoicePacketDst} {aes : Key → Equiv.Perm U128}
  {s₀ s s' : CryptState encodeDst decodeDst} {cs : List (Call encodeDst decodeDst)}

/-- The states `generate_new` and `new_from` build. -/
inductive Fresh : CryptState encodeDst decodeDst → Prop
  | generated (key : Key) : Fresh (generateNew key)
  | restored (key : Key) (encryptNonce decryptNonce : Vector U8 16) :
      Fresh (newFrom key encryptNonce decryptNonce)

theorem Fresh.history (h : Fresh s) (b : U8) : s.decryptHistory b = 0#8 := by
  cases h <;> rfl

/-- The last of some nonces whose low byte is given. -/
def lastWith (b : U8) (nonces : List U128) : Option U128 :=
  nonces.reverse.find? fun n => n.setWidth 8 = b

theorem lastWith_snoc (b : U8) (nonces : List U128) (n : U128) :
    lastWith b (nonces ++ [n]) = if n.setWidth 8 = b then some n else lastWith b nonces := by
  by_cases hn : n.setWidth 8 = b <;> simp [lastWith, hn]

theorem lastWith_mem {b : U8} {nonces : List U128} {n : U128} (h : lastWith b nonces = some n) :
    n ∈ nonces :=
  List.mem_reverse.mp (List.mem_of_find?_eq_some h)

/-- A call writes the slot of the nonce it accepts, and no other. -/
theorem Decrypts.history {buf : Bytes} {r : Except DecryptError (Io (VoicePacket decodeDst))}
    (h : Decrypts aes s buf r s') : s'.decryptHistory =
      if r.isOk then
        Function.update s.decryptHistory ((s.nonceAt (buf.headD 0)).setWidth 8)
          (mark (s.nonceAt (buf.headD 0)))
      else s.decryptHistory := by
  cases h with
  | eof | repeated | late | mac => rfl
  | @ahead nonce0 | @behind nonce0 =>
      simp only [List.headD_cons, setWidth_nonceAt]
      rfl

theorem history_of_run (h : Run aes s₀ cs s) (b : U8) : s.decryptHistory b =
    ((lastWith b (acceptedNonces cs)).map mark).getD (s₀.decryptHistory b) := by
  induction h with
  | nil => rfl
  | @snoc cs c run step ih =>
      rw [Decrypts.history step, acceptedNonces_snoc]
      cases hc : c.accepted with
      | false => simpa [show c.result.isOk = false from hc] using ih
      | true =>
          rw [if_pos (show c.result.isOk = true from hc), if_pos rfl, lastWith_snoc]
          by_cases hb : c.nonce.setWidth 8 = b
          · rw [if_pos hb, ← hb]
            exact Function.update_self _ _ _
          · rw [if_neg hb]
            exact (Function.update_of_ne (Ne.symm hb) _ _).trans ih

/-- A whole datagram at or behind the receiver's nonce, by less than thirty. -/
def AtOrBehind (c : Call encodeDst decodeDst) : Prop :=
  4 ≤ c.datagram.length ∧ -30 < c.before.lead (c.datagram.headD 0) ∧
    c.before.lead (c.datagram.headD 0) ≤ 0

/-- The byte in the slot tells the datagram's nonce from any other that it could
have been written for, and from the initial zero. -/
def SlotTells (earlier : List (Call encodeDst decodeDst)) (c : Call encodeDst decodeDst) : Prop :=
  match lastWith (c.nonce.setWidth 8) (acceptedNonces earlier) with
  | some n => n = c.nonce ∨ mark n ≠ mark c.nonce
  | none => mark c.nonce ≠ 0#8

/-- Every `Repeat` is preceded by an `Ok` under the same nonce. -/
def RepeatsHaveCause : List (Call encodeDst decodeDst) → Prop :=
  AtEachCall fun earlier c => c.result = .error .repeated → c.nonce ∈ acceptedNonces earlier

/-- The condition on a run: where a datagram at or behind arrives, its slot tells. -/
def SlotsTell : List (Call encodeDst decodeDst) → Prop :=
  AtEachCall fun earlier c => AtOrBehind c → SlotTells earlier c

instance (c : Call encodeDst decodeDst) : Decidable (AtOrBehind c) :=
  inferInstanceAs (Decidable (_ ∧ _ ∧ _))

instance (earlier : List (Call encodeDst decodeDst)) (c : Call encodeDst decodeDst) :
    Decidable (SlotTells earlier c) := by
  unfold SlotTells
  split <;> infer_instance

instance (cs : List (Call encodeDst decodeDst)) : Decidable (SlotsTell cs) :=
  inferInstanceAs (Decidable (∀ i, (h : i < cs.length) → AtOrBehind cs[i] → _))

/-- What makes `decrypt` answer `Repeat`. -/
theorem Decrypts.repeated_iff {buf : Bytes}
    (h : Decrypts aes s buf (.error .repeated) s') :
    4 ≤ buf.length ∧ -30 < s.lead (buf.headD 0) ∧ s.lead (buf.headD 0) ≤ 0 ∧
      s.decryptHistory (buf.headD 0) = mark (s.nonceAt (buf.headD 0)) := by
  cases h with
  | repeated whole near behind marked => exact ⟨by simpa using whole,near,behind,marked⟩

/-- When the slot tells, a repeat was accepted before. -/
theorem Run.cause {c : Call encodeDst decodeDst} (hfresh : Fresh s₀)
    (hrun : Run aes s₀ cs c.before)
    (hd : Decrypts aes c.before c.datagram (.error .repeated) s')
    (htells : AtOrBehind c → SlotTells cs c) : c.nonce ∈ acceptedNonces cs := by
  obtain ⟨whole,near,behind,marked⟩ := Decrypts.repeated_iff hd
  have hslot : c.nonce.setWidth 8 = c.datagram.headD 0 := setWidth_nonceAt _ _
  have ht := htells ⟨whole,near,behind⟩
  have hmark : c.before.decryptHistory (c.datagram.headD 0) = mark c.nonce := marked
  rw [history_of_run hrun, hfresh.history, ← hslot] at hmark
  unfold SlotTells at ht
  cases hl : lastWith (c.nonce.setWidth 8) (acceptedNonces cs) with
  | none =>
      rw [hl] at ht hmark
      exact absurd hmark.symm ht
  | some n =>
      rw [hl] at ht hmark
      rcases ht with rfl | hne
      · exact lastWith_mem hl
      · exact absurd hmark hne

theorem repeatsHaveCause_of_slotsTell (mode : Overflow) (aes : Key → Equiv.Perm U128)
    (s₀ : CryptState encodeDst decodeDst) (hfresh : Fresh s₀) (bufs : List Bytes)
    (htell : SlotsTell (calls mode aes s₀ bufs)) :
    RepeatsHaveCause (calls mode aes s₀ bufs) := by
  intro i hi hrep
  obtain ⟨s',hrun⟩ := Run.of_calls mode aes s₀ bufs
  obtain ⟨hbefore,hd⟩ := hrun.atEachCall i hi
  rw [hrep] at hd
  exact Run.cause hfresh hbefore hd (htell i hi)

/-- The same datagram twice, accepted and then refused. -/
theorem repeatsHaveCause_of_slotsTell_twice :
    RepeatsHaveCause (calls .panic identity fromZero [[0x1f,0x7c,0,0],[0x1f,0x7c,0,0]]) ∧
    (calls .panic identity fromZero [[0x1f,0x7c,0,0],[0x1f,0x7c,0,0]]).map Call.accepted =
      [true,false] :=
  ⟨repeatsHaveCause_of_slotsTell .panic identity fromZero (.restored _ _ _) _ (by decide +kernel),
    by decide +kernel⟩

/-- The first datagram a fresh receiver sees may be called a repeat. -/
theorem repeat_without_cause : ¬ ∀ (mode : Overflow) (aes : Key → Equiv.Perm U128)
    (s₀ : CryptState .clientbound .serverbound), Fresh s₀ → ∀ bufs : List Bytes,
    bufs.length < 2 ^ 16 → RepeatsHaveCause (calls mode aes s₀ bufs) := by
  intro h
  have hcause := h .panic identity (generateNew (Vector.replicate 16 0)) (.generated _)
    [[0,0,0,0]] (by decide) 0 (by decide +kernel) (by decide +kernel)
  simp [acceptedNonces] at hcause

end Atof.History
