import Atof.Crypt
import Atof.SlidingWindow

/-!
# Rejection and replay of datagrams

A receiver runs `decrypt` on one datagram after another; a run records for each
call the state it started from. As long as no datagram is thirty or more behind,
the receiver is a sliding window over the nonces counted from twenty-nine below
its first one, and a nonce is accepted once. The branch for such datagrams leaves
the rewound nonce in place, which breaks both that and the rule that a rejected
datagram changes nothing.
-/
namespace Atof.Replay
open Rust Voice Crypt CryptState SlidingWindow

variable {encodeDst decodeDst : VoicePacketDst}

/-! ## Rejection -/

/-- The receiving half of the state. -/
def Unchanged (s s' : CryptState encodeDst decodeDst) : Prop :=
  s'.decryptNonce = s.decryptNonce ∧ s'.decryptHistory = s.decryptHistory ∧
    s'.good = s.good ∧ s'.late = s.late ∧ s'.lost = s.lost

/-- A whole header whose nonce byte is thirty or more behind the receiver's. -/
def FarBehind (s : CryptState encodeDst decodeDst) (buf : Bytes) : Prop :=
  4 ≤ buf.length ∧ s.lead (buf.headD 0) ≤ -30

instance (s : CryptState encodeDst decodeDst) (buf : Bytes) : Decidable (FarBehind s buf) :=
  inferInstanceAs (Decidable (_ ∧ _))

/-- A datagram far behind is refused, and the receiver's nonce goes back to it. -/
theorem decrypt_farBehind (mode : Overflow) (aes : Key → Equiv.Perm U128)
    {s : CryptState encodeDst decodeDst} {buf : Bytes} (h : FarBehind s buf) :
    ∃ rest, decrypt mode aes s buf =
      .ok (.error .late,{ s with decryptNonce := s.nonceAt (buf.headD 0) },rest) := by
  obtain ⟨hlen,hfar⟩ := h
  match buf, hlen, hfar with
  | nonce0 :: tag0 :: tag1 :: tag2 :: body, _, hfar =>
      have hf : s.lead nonce0 ≤ -30 := hfar
      refine ⟨body,?_⟩
      simp only [decrypt, resolve_tooLate hf]
      rfl

theorem nonceAt_ne {s : CryptState encodeDst decodeDst} {nonce0 : U8} (h : s.lead nonce0 ≠ 0) :
    s.nonceAt nonce0 ≠ s.decryptNonce := by
  intro he
  have hz : BitVec.ofInt 128 (s.lead nonce0) = 0 := by simpa [nonceAt] using he
  have ht := congrArg BitVec.toInt hz
  have hb := s.lead_bounds nonce0
  rw [BitVec.toInt_ofInt, Int.bmod_eq_of_le (by omega) (by omega)] at ht
  exact h ht

/-- A refusal changes nothing, unless the datagram is far behind. -/
theorem Decrypts.refused {aes : Key → Equiv.Perm U128}
    {s s' : CryptState encodeDst decodeDst} {buf : Bytes} {e : DecryptError}
    (h : Decrypts aes s buf (.error e) s') (hnear : ¬ FarBehind s buf) : s' = s := by
  cases h with
  | eof | repeated | mac => rfl
  | late whole far => exact absurd ⟨by simpa using whole,far⟩ hnear

/-- Rejection leaves no trace exactly when the datagram is not far behind. -/
theorem rejected_unchanged_iff (mode : Overflow) (aes : Key → Equiv.Perm U128)
    (s : CryptState encodeDst decodeDst) (buf : Bytes) :
    (∀ e s' rest, decrypt mode aes s buf = .ok (.error e,s',rest) → Unchanged s s') ↔
      ¬ FarBehind s buf := by
  constructor
  · intro h hfar
    obtain ⟨rest,hd⟩ := decrypt_farBehind mode aes hfar
    have hlead : s.lead (buf.headD 0) ≠ 0 := by
      have := hfar.2
      omega
    exact nonceAt_ne hlead (h _ _ _ hd).1
  · intro hnot e s' rest hd
    obtain rfl := Decrypts.refused (decrypt_spec hd) hnot
    exact ⟨rfl,rfl,rfl,rfl,rfl⟩

/-- Nonce 0, and a header byte thirty behind it. -/
theorem rejected_changed : ¬ ∀ (mode : Overflow) (aes : Key → Equiv.Perm U128)
    (s : CryptState .clientbound .serverbound) (buf : Bytes) (e : DecryptError)
    (s' : CryptState .clientbound .serverbound) (rest : Bytes),
    decrypt mode aes s buf = .ok (.error e,s',rest) → Unchanged s s' := by
  intro h
  have hfar : FarBehind (newFrom (Vector.replicate 16 0) (Vector.replicate 16 0)
      (Vector.replicate 16 0) : CryptState .clientbound .serverbound) [0xe2,0,0,0] := by decide
  obtain ⟨rest,hd⟩ := decrypt_farBehind .wrap (fun _ => Equiv.refl _) hfar
  have hn := (h _ _ _ _ _ _ _ hd).1
  revert hn
  decide

/-! ## Runs -/

/-- A call of `decrypt` that returned. -/
structure Call (encodeDst decodeDst : VoicePacketDst) where
  before : CryptState encodeDst decodeDst
  datagram : Bytes
  result : Except DecryptError (Io (VoicePacket decodeDst))
  after : CryptState encodeDst decodeDst

namespace Call

/-- Accepted means authenticated, whatever the packet inside parses to. -/
def accepted (c : Call encodeDst decodeDst) : Bool := c.result.isOk

/-- The nonce the datagram is resolved to. -/
def nonce (c : Call encodeDst decodeDst) : U128 := c.before.nonceAt (c.datagram.headD 0)

end Call

/-- The calls on a sequence of datagrams; a call that panics is the end of it. -/
def calls (mode : Overflow) (aes : Key → Equiv.Perm U128) :
    CryptState encodeDst decodeDst → List Bytes → List (Call encodeDst decodeDst)
  | _, [] => []
  | s, buf :: bufs =>
      match decrypt mode aes s buf with
      | .error _ => []
      | .ok (r,s',_) => ⟨s,buf,r,s'⟩ :: calls mode aes s' bufs

/-- The nonces under which the calls that returned `Ok` authenticated, in order. -/
def acceptedNonces (cs : List (Call encodeDst decodeDst)) : List U128 :=
  (cs.filter Call.accepted).map Call.nonce

/-- A run from a state, one call after another. -/
inductive Run (aes : Key → Equiv.Perm U128) (s₀ : CryptState encodeDst decodeDst) :
    List (Call encodeDst decodeDst) → CryptState encodeDst decodeDst → Prop
  | nil : Run aes s₀ [] s₀
  | snoc {cs : List (Call encodeDst decodeDst)} {c : Call encodeDst decodeDst}
      (run : Run aes s₀ cs c.before) (step : Decrypts aes c.before c.datagram c.result c.after) :
      Run aes s₀ (cs ++ [c]) c.after

variable {aes : Key → Equiv.Perm U128} {s₀ s s' : CryptState encodeDst decodeDst}
  {cs earlier later : List (Call encodeDst decodeDst)} {c : Call encodeDst decodeDst}

theorem Run.append_calls (mode : Overflow) (h : Run aes s₀ cs s) (bufs : List Bytes) :
    ∃ s', Run aes s₀ (cs ++ calls mode aes s bufs) s' := by
  induction bufs generalizing cs s with
  | nil => exact ⟨s,by simpa [calls] using h⟩
  | cons buf bufs ih =>
      match hd : decrypt mode aes s buf with
      | .error _ => exact ⟨s,by simpa [calls, hd] using h⟩
      | .ok (r,s₁,_) =>
          obtain ⟨s',hs'⟩ := ih (Run.snoc (c := ⟨s,buf,r,s₁⟩) h (decrypt_spec hd))
          exact ⟨s',by simpa [calls, hd] using hs'⟩

theorem Run.of_calls (mode : Overflow) (aes : Key → Equiv.Perm U128)
    (s : CryptState encodeDst decodeDst) (bufs : List Bytes) :
    ∃ s', Run aes s (calls mode aes s bufs) s' := by
  simpa using Run.append_calls mode Run.nil bufs

/-- A call of a run comes after a run of its own. -/
theorem Run.split (h : Run aes s₀ (earlier ++ c :: later) s) :
    Run aes s₀ earlier c.before ∧ Decrypts aes c.before c.datagram c.result c.after := by
  generalize hcs : earlier ++ c :: later = cs at h
  induction h generalizing later with
  | nil => simp at hcs
  | @snoc cs c' run step ih =>
      rcases later.eq_nil_or_concat with rfl | ⟨later,last,rfl⟩
      · obtain ⟨rfl,hc⟩ := List.append_inj' hcs rfl
        cases hc
        exact ⟨run,step⟩
      · rw [List.concat_eq_append, ← List.cons_append, ← List.append_assoc] at hcs
        exact ih (List.append_inj' hcs rfl).1

/-- A property of each call of a run and the calls before it. -/
def AtEachCall (P : List (Call encodeDst decodeDst) → Call encodeDst decodeDst → Prop)
    (cs : List (Call encodeDst decodeDst)) : Prop :=
  ∀ i, (h : i < cs.length) → P (cs.take i) cs[i]

theorem Run.atEachCall (h : Run aes s₀ cs s) : AtEachCall (fun earlier c =>
    Run aes s₀ earlier c.before ∧ Decrypts aes c.before c.datagram c.result c.after) cs := by
  intro i hi
  rw [← List.take_append_drop i cs, List.drop_eq_getElem_cons hi] at h
  exact h.split

theorem acceptedNonces_snoc (cs : List (Call encodeDst decodeDst))
    (c : Call encodeDst decodeDst) : acceptedNonces (cs ++ [c]) =
      if c.accepted then acceptedNonces cs ++ [c.nonce] else acceptedNonces cs := by
  cases hc : c.accepted <;> simp [acceptedNonces, List.filter_append, hc]

/-! ## The receiver as a window -/

/-- Nonces counted from a base. -/
def position (base : U128) (p : ℕ) : U128 := base + BitVec.ofNat 128 p

def slot (base : U128) (p : ℕ) : U8 := (position base p).setWidth 8

theorem slot_separates (base : U128) (p q : ℕ) (hp : p < q + 30) (hq : q < p + 30)
    (h : slot base p = slot base q) : p = q := by
  simp only [slot, position, BitVec.setWidth_add _ _ (show 8 ≤ 128 by norm_num)] at h
  have h' := congrArg BitVec.toNat (add_left_cancel h)
  simp only [BitVec.toNat_setWidth, BitVec.toNat_ofNat] at h'
  omega

theorem position_injOn {base : U128} {p q : ℕ} (hp : p < 2 ^ 128) (hq : q < 2 ^ 128)
    (h : position base p = position base q) : p = q := by
  have h' := congrArg BitVec.toNat (add_left_cancel h)
  rwa [BitVec.toNat_ofNat, BitVec.toNat_ofNat, Nat.mod_eq_of_lt hp, Nat.mod_eq_of_lt hq] at h'

/-- A signed step from a position is a position, unless it goes below the base. -/
theorem position_add_ofInt (base : U128) {p : ℕ} {d : ℤ} (h : 0 ≤ p + d) :
    position base p + BitVec.ofInt 128 d = position base (p + d).toNat := by
  rw [position, position, add_assoc, ← BitVec.ofInt_natCast, ← BitVec.ofInt_natCast,
    Int.toNat_of_nonneg h, ← BitVec.ofInt_add]

theorem nonceAt_eq_position {base : U128} {top : ℕ} (nonce0 : U8)
    (hs : s.decryptNonce = position base top) (h : 0 ≤ top + s.lead nonce0) :
    s.nonceAt nonce0 = position base (top + s.lead nonce0).toNat := by
  rw [nonceAt, hs, position_add_ofInt base h]

/-- The window a state stands for, its top nonce being at the given position. -/
def window (s : CryptState encodeDst decodeDst) (top : ℕ) : Window U8 U8 := ⟨top,s.decryptHistory⟩

/-- An accepting step of the window for nonces counted from a base. -/
abbrev Takes (base : U128) : Window U8 U8 → ℕ → Window U8 U8 → Prop :=
  Accepts (slot base) (fun p => mark (position base p)) 30

/-- An accepting call is an accepting step of the window: the position accepted is
the lead away from the top, and the top moves up to it. -/
theorem Decrypts.takes {base : U128} {top : ℕ} {buf : Bytes} {result : Io (VoicePacket decodeDst)}
    (h : Decrypts aes s buf (.ok result) s') (hs : s.decryptNonce = position base top)
    (htop : 29 ≤ top) :
    ∃ p : ℕ, (p : ℤ) = top + s.lead (buf.headD 0) ∧ s.nonceAt (buf.headD 0) = position base p ∧
      s'.decryptNonce = position base (max top p) ∧
      Takes base (window s top) p (window s' (max top p)) := by
  cases h with
  | @ahead nonce0 buf _ whole lead authentic =>
      have hn := nonceAt_eq_position nonce0 hs (by omega)
      generalize hp : (top + s.lead nonce0).toNat = p at hn
      have hslot : slot base p = nonce0 := by rw [slot, ← hn, setWidth_nonceAt]
      refine ⟨p,by simp only [List.headD_cons]; omega,hn,?_⟩
      rw [Nat.max_eq_right (by omega)]
      refine ⟨hn,?_⟩
      have h : Takes base (window s top) p _ := Accepts.ahead (by simp only [window]; omega)
      rw [hslot, ← hn] at h
      exact h
  | @behind nonce0 buf _ whole near behind unmarked authentic =>
      have hn := nonceAt_eq_position nonce0 hs (by omega)
      generalize hp : (top + s.lead nonce0).toNat = p at hn
      have hslot : slot base p = nonce0 := by rw [slot, ← hn, setWidth_nonceAt]
      refine ⟨p,by simp only [List.headD_cons]; omega,hn,?_⟩
      rw [Nat.max_eq_left (by omega)]
      refine ⟨hs,?_⟩
      have h : Takes base (window s top) p _ :=
        Accepts.behind (by simp only [window]; omega) (by simp only [window]; omega)
          (by rw [hslot, ← hn]; exact unmarked)
      rw [hslot, ← hn] at h
      exact h

/-- A run as the window sees it: the accepted positions, latest first, and the
position of the receiver's nonce, which a call moves by at most 127. -/
structure Windowed (base : U128) (cs : List (Call encodeDst decodeDst))
    (s : CryptState encodeDst decodeDst) (top : ℕ) (seen : List ℕ) : Prop where
  nonce : s.decryptNonce = position base top
  low : 29 ≤ top
  high : top ≤ 29 + 127 * cs.length
  accepted : acceptedNonces cs = (seen.map (position base)).reverse
  inv : Inv (slot base) (fun p => mark (position base p)) 30 (window s top) seen

namespace Windowed

variable {base : U128} {top : ℕ} {seen : List ℕ}

/-- A state before any call, with positions counted so that it is at 29. -/
theorem fresh (s : CryptState encodeDst decodeDst) :
    Windowed (s.decryptNonce - 29) [] s 29 [] :=
  ⟨by rw [position]; exact (sub_add_cancel _ _).symm,le_rfl,by simp,rfl,Inv.empty _ _ _ _⟩

theorem rejected (h : Windowed base cs s top seen) (hc : c.accepted = false) :
    Windowed base (cs ++ [c]) s top seen := by
  refine ⟨h.nonce,h.low,?_,?_,h.inv⟩
  · have := h.high
    rw [List.length_append]
    omega
  · rw [acceptedNonces_snoc, hc]
    exact h.accepted

theorem takes {p top' : ℕ} (h : Windowed base cs s top seen) (hc : c.accepted = true)
    (hn : c.nonce = position base p) (hs' : s'.decryptNonce = position base top')
    (ht : Takes base (window s top) p (window s' top')) (hle : top' ≤ top + 127) :
    Windowed base (cs ++ [c]) s' top' (p :: seen) := by
  refine ⟨hs',h.low.trans ht.top_le.1,?_,?_,h.inv.accepts (slot_separates base) ht⟩
  · have := h.high
    rw [List.length_append, List.length_singleton]
    omega
  · rw [acceptedNonces_snoc, hc, if_pos rfl, h.accepted, hn]
    simp

theorem step (h : Windowed base cs c.before top seen)
    (hd : Decrypts aes c.before c.datagram c.result c.after)
    (hnear : ¬ FarBehind c.before c.datagram) :
    ∃ top' seen', Windowed base (cs ++ [c]) c.after top' seen' := by
  obtain ⟨before,datagram,result,after⟩ := c
  dsimp only at h hd hnear
  cases result with
  | ok result =>
      obtain ⟨p,hp,hn,hs',ht⟩ := Decrypts.takes hd h.nonce h.low
      have hb := before.lead_bounds (datagram.headD 0)
      exact ⟨_,_,h.takes rfl hn hs' ht (by omega)⟩
  | error e =>
      obtain rfl := Decrypts.refused hd hnear
      exact ⟨top,seen,h.rejected rfl⟩

theorem of_run (h : Run aes s₀ cs s) (hnear : ∀ c ∈ cs, ¬ FarBehind c.before c.datagram) :
    ∃ top seen, Windowed (s₀.decryptNonce - 29) cs s top seen := by
  induction h with
  | nil => exact ⟨29,[],fresh s₀⟩
  | snoc run hd ih =>
      obtain ⟨top,seen,h⟩ := ih fun c hc => hnear c (List.mem_append_left _ hc)
      exact h.step hd (hnear _ (by simp))

/-- The positions of a run that is not too long are different nonces. -/
theorem nodup (h : Windowed base cs s top seen) (hlen : cs.length < 2 ^ 120) :
    (acceptedNonces cs).Nodup := by
  have hsmall : ∀ p ∈ seen, p < 2 ^ 128 := fun p hp => by
    have := h.inv.le_top p hp
    have := h.high
    simp only [window] at *
    omega
  rw [h.accepted, List.nodup_reverse]
  refine (List.nodup_map_iff_inj_on h.inv.nodup).mpr fun p hp q hq hpq => ?_
  exact position_injOn (hsmall p hp) (hsmall q hq) hpq

end Windowed

theorem length_calls_le (mode : Overflow) (aes : Key → Equiv.Perm U128)
    (s : CryptState encodeDst decodeDst) (bufs : List Bytes) :
    (calls mode aes s bufs).length ≤ bufs.length := by
  induction bufs generalizing s with
  | nil => simp [calls]
  | cons buf bufs ih =>
      match hd : decrypt mode aes s buf with
      | .error _ => simp [calls, hd]
      | .ok (r,s₁,_) => simpa [calls, hd] using ih s₁

/-- No nonce authenticates two datagrams of a run without one far behind. -/
theorem acceptedNonces_nodup (mode : Overflow) (aes : Key → Equiv.Perm U128) (key : Key)
    (encryptNonce decryptNonce : Vector U8 16) (bufs : List Bytes)
    (hlen : bufs.length < 2 ^ 120)
    (hnear : ∀ c ∈ calls mode aes
      (newFrom key encryptNonce decryptNonce : CryptState encodeDst decodeDst) bufs,
      ¬ FarBehind c.before c.datagram) :
    (acceptedNonces (calls mode aes
      (newFrom key encryptNonce decryptNonce : CryptState encodeDst decodeDst) bufs)).Nodup := by
  obtain ⟨s',hrun⟩ := Run.of_calls mode aes
    (newFrom key encryptNonce decryptNonce : CryptState encodeDst decodeDst) bufs
  obtain ⟨top,seen,h⟩ := Windowed.of_run hrun hnear
  exact h.nodup (lt_of_le_of_lt (length_calls_le _ _ _ _) hlen)

/-- A session from nonce zero, and its cipher if that is the identity. -/
def fromZero : CryptState .clientbound .serverbound :=
  newFrom (Vector.replicate 16 0) (Vector.replicate 16 0) (Vector.replicate 16 0)

def identity (_ : Key) : Equiv.Perm U128 := Equiv.refl _

/-- Two datagrams, with one lost between them. -/
theorem acceptedNonces_nodup_two :
    (acceptedNonces (calls .panic identity fromZero [[0x1f,0x7c,0,0],[0x21,0x84,0,0]])).Nodup ∧
    acceptedNonces (calls .panic identity fromZero [[0x1f,0x7c,0,0],[0x21,0x84,0,0]]) =
      [31,33] :=
  ⟨acceptedNonces_nodup .panic identity _ _ _ _ (by decide) (by decide +kernel),
    by decide +kernel⟩

/-- Nonce 31 is accepted, a datagram thirty behind rewinds the receiver to 1, and
the first datagram is accepted again. -/
theorem acceptedNonces_repeat : ¬ ∀ (mode : Overflow) (aes : Key → Equiv.Perm U128) (key : Key)
    (encryptNonce decryptNonce : Vector U8 16) (bufs : List Bytes), bufs.length < 2 ^ 120 →
    (acceptedNonces (calls mode aes (newFrom key encryptNonce decryptNonce :
      CryptState .clientbound .serverbound) bufs)).Nodup := by
  intro h
  have hrun := h .panic identity (Vector.replicate 16 0) (Vector.replicate 16 0)
    (Vector.replicate 16 0) [[0x1f,0x7c,0,0],[1,0,0,0],[0x1f,0x7c,0,0]] (by decide)
  revert hrun
  decide +kernel

end Atof.Replay
