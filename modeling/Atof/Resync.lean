import Atof.CryptRoundTrip
import Atof.HonestNetwork
import Atof.Missing

/-!
# Lost packets and a receiver that is told its nonce

`lost` goes up by the packets that an accepted one passes over and down by one for each that
comes late, on the assumption that it was counted when it was passed over. A receiver that
is given a nonce, at the start or by `set_decrypt_nonce`, has passed over nothing, and a
packet from before that nonce is taken off a count it was never in.
-/
namespace Atof.Resync
open Rust Voice Crypt CryptState CryptRoundTrip Replay HonestNetwork Missing

variable {encodeDst decodeDst dst senderDst receiverDst : VoicePacketDst}
  {aes : Key → Equiv.Perm U128}

/-! ## Calls and the packets they pass over -/

/-- What is called on a receiver. -/
inductive Op where
  | decrypt (datagram : Bytes)
  | setDecryptNonce (nonce : Vector U8 16)
  deriving DecidableEq

/-- A call that returned. -/
structure Step (encodeDst decodeDst : VoicePacketDst) where
  before : CryptState encodeDst decodeDst
  op : Op
  after : CryptState encodeDst decodeDst

/-- The calls one after another; one that panics is the end of it. -/
def steps (mode : Overflow) (aes : Key → Equiv.Perm U128) :
    CryptState encodeDst decodeDst → List Op → List (Step encodeDst decodeDst)
  | _, [] => []
  | s, .decrypt datagram :: ops =>
      match decrypt mode aes s datagram with
      | .error _ => []
      | .ok (_,s',_) => ⟨s,.decrypt datagram,s'⟩ :: steps mode aes s' ops
  | s, .setDecryptNonce nonce :: ops =>
      ⟨s,.setDecryptNonce nonce,s.setDecryptNonce nonce⟩ ::
        steps mode aes (s.setDecryptNonce nonce) ops

/-- The nonces between the receiver's and that of a datagram ahead of it. -/
def passed (s : CryptState encodeDst decodeDst) (nonce0 : U8) : List U128 :=
  (List.range' 1 (s.lead nonce0 - 1).toNat).map (position s.decryptNonce)

/-- A datagram that authenticates ahead of the receiver passes over the nonces in between,
and one at or behind it that is not taken for a repeat comes late. -/
def arrival (aes : Key → Equiv.Perm U128) (s : CryptState encodeDst decodeDst) :
    Op → Option (Arrival U128)
  | .decrypt (nonce0 :: buf) =>
      let nonce := s.nonceAt nonce0
      if buf.length < 3 ∨ s.tagMatches aes nonce (buf.take 3) (buf.drop 3) = false then none
      else if 0 < s.lead nonce0 then some (.ahead (passed s nonce0) nonce)
      else if s.lead nonce0 ≤ -30 ∨ s.decryptHistory nonce0 = mark nonce then none
      else some (.late nonce)
  | _ => none

def arrivals (aes : Key → Equiv.Perm U128) (cs : List (Step encodeDst decodeDst)) :
    List (Arrival U128) :=
  cs.filterMap fun c => arrival aes c.before c.op

theorem Decrypts.arrival_error {s s' : CryptState encodeDst decodeDst} {datagram : Bytes}
    {e : DecryptError} (h : Decrypts aes s datagram (.error e) s') :
    arrival aes s (.decrypt datagram) = none := by
  cases h with
  | eof short =>
      match datagram, short with
      | [], _ => rfl
      | _ :: buf, short => exact if_pos (Or.inl (Nat.lt_of_succ_lt_succ short))
  | @repeated nonce0 buf whole near behind marked =>
      simp only [arrival, if_neg (not_lt.mpr behind), if_pos (Or.inr marked), ite_self]
  | @late nonce0 buf whole far =>
      have hbehind : ¬ 0 < s.lead nonce0 := by omega
      simp only [arrival, if_neg hbehind, if_pos (Or.inl far), ite_self]
  | mac whole near mismatch => exact if_pos (Or.inr mismatch)

theorem Decrypts.arrival_ok {s s' : CryptState encodeDst decodeDst} {datagram : Bytes}
    {result : Io (VoicePacket decodeDst)} (h : Decrypts aes s datagram (.ok result) s') :
    let nonce0 := datagram.headD 0
    arrival aes s (.decrypt datagram) = some (if 0 < s.lead nonce0 then
      .ahead (passed s nonce0) (s.nonceAt nonce0) else .late (s.nonceAt nonce0)) := by
  have hauth : ∀ {nonce0 : U8} {buf : Bytes}, 3 ≤ buf.length →
      s.tagMatches aes (s.nonceAt nonce0) (buf.take 3) (buf.drop 3) = true →
      ¬ (buf.length < 3 ∨
        s.tagMatches aes (s.nonceAt nonce0) (buf.take 3) (buf.drop 3) = false) :=
    fun whole authentic => not_or.mpr ⟨not_lt.mpr whole,by simp [authentic]⟩
  cases h with
  | @ahead nonce0 _ _ whole lead authentic =>
      change _ = some (if 0 < s.lead nonce0 then _ else _)
      simp only [arrival, if_neg (hauth whole authentic), if_pos lead]
      rfl
  | @behind nonce0 _ _ whole near behind unmarked authentic =>
      have hlate : ¬ (s.lead nonce0 ≤ -30 ∨ s.decryptHistory nonce0 = mark (s.nonceAt nonce0)) :=
        not_or.mpr ⟨not_le.mpr near,unmarked⟩
      change _ = some (if 0 < s.lead nonce0 then _ else _)
      simp only [arrival, if_neg (hauth whole authentic), if_neg (not_lt.mpr behind), if_neg hlate]
      rfl

theorem length_passed {s : CryptState encodeDst decodeDst} {nonce0 : U8} (h : 0 < s.lead nonce0) :
    ((passed s nonce0).length : ℤ) = s.lead nonce0 - 1 := by
  rw [passed, List.length_map, List.length_range']
  omega

/-- `lost` changes as the counter of what is missing does. -/
theorem Decrypts.lost {s s' : CryptState encodeDst decodeDst} {datagram : Bytes}
    {r : Except DecryptError (Io (VoicePacket decodeDst))} (h : Decrypts aes s datagram r s') :
    s'.lost = s.lost +
      BitVec.ofInt 32 ((arrival aes s (.decrypt datagram)).elim 0 Arrival.change) := by
  cases r with
  | error e =>
      have hs' : s'.lost = s.lost := by cases h <;> rfl
      rw [hs', Decrypts.arrival_error h]
      exact (add_zero _).symm
  | ok result =>
      obtain ⟨-,-,-,hlost⟩ := Decrypts.counts h
      rw [hlost, Decrypts.arrival_ok h, Option.elim_some]
      split_ifs with hlead
      · rw [max_eq_left hlead.le, ← length_passed hlead]
        rfl
      · rw [max_eq_right (not_lt.mp hlead)]
        rfl

theorem change_le (aes : Key → Equiv.Perm U128) (s : CryptState encodeDst decodeDst) (op : Op) :
    (arrival aes s op).elim 0 Arrival.change ≤ 126 := by
  match op with
  | .setDecryptNonce _ | .decrypt [] => exact (by norm_num : (0 : ℤ) ≤ 126)
  | .decrypt (nonce0 :: buf) =>
      have hb := (s.lead_bounds nonce0).2
      simp only [arrival]
      split_ifs with hauth hahead hlate
      · norm_num
      · rw [Option.elim_some, Arrival.change, length_passed hahead]
        omega
      · norm_num
      · norm_num [Arrival.change]

/-! ## Runs -/

/-- One call of a run, and the calls after it. -/
theorem steps_cons (mode : Overflow) (aes : Key → Equiv.Perm U128)
    (s : CryptState encodeDst decodeDst) (op : Op) (ops : List Op) :
    steps mode aes s (op :: ops) = [] ∨ ∃ s', steps mode aes s (op :: ops) =
      ⟨s,op,s'⟩ :: steps mode aes s' ops ∧
      s'.lost = s.lost + BitVec.ofInt 32 ((arrival aes s op).elim 0 Arrival.change) := by
  cases op with
  | setDecryptNonce nonce => exact Or.inr ⟨_,rfl,(add_zero s.lost).symm⟩
  | decrypt datagram =>
      match hd : decrypt mode aes s datagram with
      | .error _ => exact Or.inl (by simp only [steps, hd])
      | .ok (r,s',rest) =>
          exact Or.inr ⟨s',by simp only [steps, hd],Decrypts.lost (decrypt_spec hd)⟩

/-- The counter stands for a number that is not below that of what is missing. -/
structure Tally (s : CryptState encodeDst decodeDst) (out : Finset U128) (n : ℤ) : Prop where
  lost : s.lost = BitVec.ofInt 32 n
  missing : out.card ≤ n

theorem Tally.step {s s' : CryptState encodeDst decodeDst} {out : Finset U128} {n : ℤ}
    {e : Option (Arrival U128)} (h : Tally s out n) (hknown : ∀ a ∈ e, a.Known out)
    (hs' : s'.lost = s.lost + BitVec.ofInt 32 (e.elim 0 Arrival.change)) :
    Tally s' (e.elim out (Arrival.after out)) (n + e.elim 0 Arrival.change) := by
  refine ⟨by rw [hs', h.lost, BitVec.ofInt_add],?_⟩
  cases e with
  | none => simpa using h.missing
  | some a => exact (Arrival.card_after_le (hknown a rfl)).trans (Int.add_le_add_right h.missing _)

theorem Tally.lost_le {s : CryptState encodeDst decodeDst} {out : Finset U128} {n : ℤ}
    (h : Tally s out n) (hlt : n < 2 ^ 31) : s.lost.toNat ≤ 2 ^ 31 - 1 := by
  have hmissing := h.missing
  rw [h.lost, BitVec.toNat_ofInt]
  omega

theorem covered_cons {out : Finset U128} {c : Step encodeDst decodeDst}
    {cs : List (Step encodeDst decodeDst)} : Covered out (arrivals aes (c :: cs)) ↔
      (∀ a ∈ arrival aes c.before c.op, a.Known out) ∧
        Covered ((arrival aes c.before c.op).elim out (Arrival.after out)) (arrivals aes cs) := by
  rw [arrivals, List.filterMap_cons]
  cases arrival aes c.before c.op with
  | none => exact (and_iff_right (by simp)).symm
  | some a => exact and_congr_left' (by simp)

theorem Tally.steps {mode : Overflow} {s : CryptState encodeDst decodeDst} {ops : List Op}
    {out : Finset U128} {n : ℤ} (h : Tally s out n) (hlt : n + 126 * ops.length < 2 ^ 31)
    (hcovered : Covered out (arrivals aes (steps mode aes s ops))) :
    ∀ c ∈ steps mode aes s ops, c.after.lost.toNat ≤ 2 ^ 31 - 1 := by
  induction ops generalizing s out n with
  | nil => simp [Resync.steps]
  | cons op ops ih =>
      have hchange := change_le aes s op
      rw [List.length_cons] at hlt
      rcases steps_cons mode aes s op ops with hnil | ⟨s',hcons,hs'⟩
      · simp [hnil]
      rw [hcons] at hcovered ⊢
      obtain ⟨hknown,hcovered⟩ := covered_cons.mp hcovered
      have h' : Tally s' ((arrival aes s op).elim out (Arrival.after out))
          (n + (arrival aes s op).elim 0 Arrival.change) := h.step hknown hs'
      intro c hc
      rcases List.mem_cons.mp hc with rfl | hc
      · exact h'.lost_le (by omega)
      · exact ih h' (by omega) hcovered c hc

/-- If only what was passed over comes late, `lost` stays the count of a signed word that is
not negative. -/
theorem lost_le_of_covered (mode : Overflow) (aes : Key → Equiv.Perm U128) (key : Key)
    (encryptNonce decryptNonce : Vector U8 16) (ops : List Op) (hlen : ops.length < 2 ^ 24)
    (hcovered : Covered ∅ (arrivals aes (steps mode aes
      (newFrom key encryptNonce decryptNonce : CryptState encodeDst decodeDst) ops))) :
    ∀ c ∈ steps mode aes
      (newFrom key encryptNonce decryptNonce : CryptState encodeDst decodeDst) ops,
      c.after.lost.toNat ≤ 2 ^ 31 - 1 :=
  Tally.steps (n := 0) ⟨rfl,by simp⟩ (by omega) hcovered

/-- Nonces 257 and 259 arrive, and then 258, which was passed over. -/
theorem lost_le_of_covered_three :
    let ops := [[1,4,4,0],[3,12,4,0],[2,8,4,0]].map Op.decrypt
    let run : List (Step .clientbound .serverbound) :=
      steps .panic identity (newFrom (Vector.replicate 16 0) (Vector.replicate 16 0)
        ((Vector.replicate 16 0).set 1 1)) ops
    (∀ c ∈ run, c.after.lost.toNat ≤ 2 ^ 31 - 1) ∧
      run.map (fun c => c.after.lost) = [0,1,0] :=
  ⟨lost_le_of_covered .panic identity _ _ _ _ (by decide) (by decide +kernel),by decide +kernel⟩

/-! ## A receiver that keeps its own nonce -/

/-- Every position above the start that was not accepted is missing. -/
def Gaps (base : U128) (top : ℕ) (seen : List ℕ) (out : Finset U128) : Prop :=
  ∀ q, 29 < q → q ≤ top → q ∉ seen → position base q ∈ out

theorem Gaps.late {base : U128} {top p : ℕ} {seen : List ℕ} {out : Finset U128}
    (h : Gaps base top seen out) (htop : top < 2 ^ 128) (hp : p ≤ top) :
    Gaps base top (p :: seen) (out.erase (position base p)) := by
  intro q hq hle hnew
  obtain ⟨hne,hseen⟩ := not_or.mp (mt List.mem_cons.mpr hnew)
  refine Finset.mem_erase.mpr ⟨fun he => hne ?_,h q hq hle hseen⟩
  exact position_injOn (by omega) (by omega) he

theorem Gaps.ahead {base : U128} {top p : ℕ} {seen : List ℕ} {out : Finset U128}
    {nonce0 : U8} {s : CryptState encodeDst decodeDst} (h : Gaps base top seen out)
    (hs : s.decryptNonce = position base top) (hp : (p : ℤ) = top + s.lead nonce0)
    (hsmall : p < 2 ^ 128) :
    Gaps base p (p :: seen) ((out ∪ (passed s nonce0).toFinset).erase (position base p)) := by
  intro q hq hle hnew
  obtain ⟨hne,hseen⟩ := not_or.mp (mt List.mem_cons.mpr hnew)
  refine Finset.mem_erase.mpr ⟨fun he => hne ?_,Finset.mem_union.mpr ?_⟩
  · exact position_injOn (by omega) (by omega) he
  rcases le_or_gt q top with htop | htop
  · exact Or.inl (h q hq htop hseen)
  · refine Or.inr (List.mem_toFinset.mpr (List.mem_map.mpr ⟨q - top,?_,?_⟩))
    · exact List.mem_range'_1.mpr (by omega)
    · rw [hs, position, position, position, add_assoc, ← BitVec.ofNat_add,
        Nat.add_sub_cancel' htop.le]

theorem position_sub_toInt (base : U128) {p : ℕ} (hp : p < 2 ^ 127) :
    (position base p - position base 29).toInt = p - 29 := by
  have hp29 : (29 + (p - 29 : ℤ)).toNat = p := by omega
  have hadd := position_add_ofInt base (p := 29) (d := p - 29) (by omega)
  rw [Nat.cast_ofNat, hp29] at hadd
  rw [← hadd, add_sub_cancel_left, BitVec.toInt_ofInt, Int.bmod_eq_of_le (by omega) (by omega)]

/-- One call: what comes late was missing, and the gaps are known as before. -/
theorem Gaps.step {base : U128} {cs : List (Call encodeDst decodeDst)}
    {c : Call encodeDst decodeDst} {top : ℕ} {seen : List ℕ} {out : Finset U128}
    (hw : Windowed base cs c.before top seen) (h : Gaps base top seen out)
    (hlen : cs.length < 2 ^ 119) (hd : Decrypts aes c.before c.datagram c.result c.after)
    (hnear : ¬ FarBehind c.before c.datagram)
    (hafter : c.accepted = true → 0 < (c.nonce - position base 29).toInt) :
    let e := arrival aes c.before (.decrypt c.datagram)
    (∀ a ∈ e, a.Known out) ∧ ∃ top' seen', Windowed base (cs ++ [c]) c.after top' seen' ∧
      Gaps base top' seen' (e.elim out (Arrival.after out)) := by
  obtain ⟨s,buf,result,s'⟩ := c
  dsimp only at hw hd hnear hafter ⊢
  cases result with
  | error e =>
      obtain rfl := Decrypts.refused hd hnear
      rw [Decrypts.arrival_error hd]
      exact ⟨by simp,top,seen,hw.rejected rfl,h⟩
  | ok result =>
      obtain ⟨p,hp,hn,hs',ht⟩ := Decrypts.takes hd hw.nonce hw.low
      have hlead := s.lead_bounds (buf.headD 0)
      have hhigh := hw.high
      have hw' := hw.takes (c := ⟨s,buf,.ok result,s'⟩) rfl hn hs' ht (by omega)
      have hstart := hafter rfl
      rw [Call.nonce, hn, position_sub_toInt base (by omega)] at hstart
      rw [Decrypts.arrival_ok hd, hn]
      by_cases hahead : 0 < s.lead (buf.headD 0)
      · rw [if_pos hahead]
        rw [max_eq_right (by omega)] at hw'
        exact ⟨fun a ha => Option.mem_some.mp ha ▸ trivial,_,_,hw',
          h.ahead hw.nonce hp (by omega)⟩
      · rw [if_neg hahead]
        have hle : p ≤ top := by omega
        rw [max_eq_left hle] at hw'
        refine ⟨fun a ha => Option.mem_some.mp ha ▸ ?_,_,_,hw',h.late (by omega) hle⟩
        exact h p (by omega) hle (ht.fresh hw.inv)

theorem Gaps.steps {mode : Overflow} {base : U128} {s : CryptState encodeDst decodeDst}
    {bufs : List Bytes} {cs : List (Call encodeDst decodeDst)} {top : ℕ} {seen : List ℕ}
    {out : Finset U128} (hw : Windowed base cs s top seen) (h : Gaps base top seen out)
    (hlen : cs.length + bufs.length < 2 ^ 119)
    (hcalls : ∀ c ∈ calls mode aes s bufs, ¬ FarBehind c.before c.datagram ∧
      (c.accepted = true → 0 < (c.nonce - position base 29).toInt)) :
    Covered out (arrivals aes (steps mode aes s (bufs.map .decrypt))) := by
  induction bufs generalizing cs s top seen out with
  | nil => trivial
  | cons buf bufs ih =>
      rw [List.length_cons] at hlen
      rw [calls] at hcalls
      rw [List.map_cons, Resync.steps]
      cases hd : decrypt mode aes s buf with
      | error _ => trivial
      | ok result =>
          obtain ⟨r,s',rest⟩ := result
          rw [hd] at hcalls
          obtain ⟨⟨hnear,hafter⟩,hrest⟩ := List.forall_mem_cons.mp hcalls
          obtain ⟨hknown,top',seen',hw',h'⟩ := Gaps.step hw h (by omega) (decrypt_spec hd)
            hnear hafter
          refine covered_cons.mpr ⟨hknown,ih hw' h' ?_ hrest⟩
          rw [List.length_append, List.length_singleton]
          omega

/-- A receiver that is told no nonce, with nothing far behind it and nothing from before its
start. -/
theorem covered_of_near (mode : Overflow) (aes : Key → Equiv.Perm U128)
    (s : CryptState encodeDst decodeDst) (bufs : List Bytes) (hlen : bufs.length < 2 ^ 119)
    (hcalls : ∀ c ∈ calls mode aes s bufs, ¬ FarBehind c.before c.datagram ∧
      (c.accepted = true → 0 < (c.nonce - s.decryptNonce).toInt)) :
    Covered ∅ (arrivals aes (steps mode aes s (bufs.map .decrypt))) := by
  have hw := Windowed.fresh s
  have hgaps : Gaps (s.decryptNonce - 29) 29 [] ∅ := fun q hq hle => absurd hle (by omega)
  rw [hw.nonce] at hcalls
  exact Gaps.steps hw hgaps (by simpa using hlen) hcalls

/-! ## A packet from before a nonce that was set -/

/-- A datagram at or behind a nonce that nothing was passed over to reach. -/
theorem lost_wraps (mode : Overflow) (aes : Key → Equiv.Perm U128) (s : CryptState receiverDst dst)
    (nonce : U128) (packet : VoicePacket dst) {plain : Bytes}
    (hcodec : decode dst (encode packet []) = .ok (.ok (some packet),plain))
    (hlo : -29 ≤ (nonce - s.decryptNonce).toInt) (hhi : (nonce - s.decryptNonce).toInt ≤ 0)
    (hmark : s.decryptHistory (nonce.setWidth 8) ≠ mark nonce)
    (hroom : HasRoom s) (hlost : s.lost = 0) :
    ∃ s', decrypt mode aes s (sealed (aes s.key) nonce packet) = .ok (.ok (.ok packet),s',plain) ∧
      s'.lost.toNat = 2 ^ 32 - 1 := by
  have hlead := lead_setWidth s nonce (by omega) (by omega)
  have hn := nonceAt_setWidth s nonce (by omega) (by omega)
  have ha := resolve_behind (show -30 < s.lead (nonce.setWidth 8) by omega) (by omega)
  rw [hn, if_neg hmark] at ha
  have hcounts : Counts mode s (-1) := HasRoom.counts (fun _ => hroom) (by decide) (by decide)
  refine ⟨_,decrypt_sealed mode hcodec ha rfl hcounts,?_⟩
  change (s.lost + -1).toNat = _
  rw [hlost]
  rfl

/-- Both ends start at nonce 256. Two pings are sent, the receiver is told the nonce of the
second, and the first one arrives. -/
theorem lost_below_zero : ¬ ∀ (mode : Overflow) (aes : Key → Equiv.Perm U128) (key : Key)
    (encryptNonce decryptNonce : Vector U8 16) (sender : CryptState .serverbound .clientbound)
    (packets : List (VoicePacket .serverbound)) (ops : List Op),
    sender.key = key →
    (∀ buf, Op.decrypt buf ∈ ops → buf ∈ sent aes sender packets) →
    (∀ nonce, Op.setDecryptNonce nonce ∈ ops →
      ∃ k ≤ packets.length, fromLeBytes nonce = sender.encryptNonce + BitVec.ofNat 128 k) →
    ops.length < 2 ^ 24 →
    ∀ c ∈ steps mode aes (newFrom key encryptNonce decryptNonce :
      CryptState .clientbound .serverbound) ops, c.after.lost.toNat ≤ 2 ^ 31 - 1 := by
  intro h
  let zero : Vector U8 16 := Vector.replicate 16 0
  let start : Vector U8 16 := zero.set 1 1
  let told : Vector U8 16 := start.set 0 2
  let sender : CryptState .serverbound .clientbound := newFrom zero start zero
  let receiver : CryptState .clientbound .serverbound := newFrom zero zero start
  let first : Bytes := sealed (identity zero) 257 (.ping 0 : VoicePacket .serverbound)
  have hcodec : decode .serverbound (encode (.ping 0 : VoicePacket .serverbound) []) =
      .ok (.ok (some (.ping 0)),[0x20,0]) := by decide +kernel
  obtain ⟨s',hs',hlost⟩ := lost_wraps .panic identity (receiver.setDecryptNonce told) 257 _ hcodec
    (by decide +kernel) (by decide +kernel) (by decide +kernel) (by decide +kernel) rfl
  have hsent : first ∈ sent identity sender [.ping 0,.ping 0] := by
    have hnonce : sender.encryptNonce + 1 = 257 := by decide +kernel
    rw [sent_cons, hnonce]
    exact List.mem_cons_self
  have hstep : (⟨receiver.setDecryptNonce told,.decrypt first,s'⟩ : Step _ _) ∈
      steps .panic identity receiver [.setDecryptNonce told,.decrypt first] := by
    refine List.mem_cons_of_mem _ ?_
    rw [steps, show decrypt .panic identity (receiver.setDecryptNonce told) first = _ from hs']
    exact List.mem_cons_self
  have hle := h .panic identity zero zero start sender [.ping 0,.ping 0]
    [.setDecryptNonce told,.decrypt first] rfl (by simpa using hsent)
    (by simpa using ⟨2,by decide,by decide +kernel⟩) (by decide) _ hstep
  dsimp only at hle
  omega

end Atof.Resync
