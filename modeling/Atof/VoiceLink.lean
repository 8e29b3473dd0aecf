import Atof.Replay
import Atof.CryptRoundTrip

/-!
# Two peers and a network that loses

Both directions go through one `CryptState` at each end. The network keeps the order of a
direction and loses what it likes, and a receiver may be given any nonce at any time. If not more
than 126 datagrams in a row are lost before one arrives, as a lead is a signed byte, and a
receiver is given no nonce but the sender's while nothing is on the way, what arrives is what
was sent, and the counters say how much of it arrived, whatever goes on in the other direction.
No two packets are sealed under one nonce, whatever the network and the ends do.
-/
namespace Atof.Crypt
open Rust BigEndian Voice

/-- `u128::to_le_bytes`. -/
def toLeBytes (x : U128) : Vector U8 16 := ⟨(toBytes 16 x).reverse.toArray,by simp⟩

theorem fromLeBytes_toLeBytes (x : U128) : fromLeBytes (toLeBytes x) = x := by
  simp [fromLeBytes, toLeBytes, ofBytes_toBytes]

namespace CryptState

variable {encodeDst decodeDst : VoicePacketDst}

def getEncryptNonce (s : CryptState encodeDst decodeDst) : Vector U8 16 := toLeBytes s.encryptNonce

def getDecryptNonce (s : CryptState encodeDst decodeDst) : Vector U8 16 := toLeBytes s.decryptNonce

end CryptState
end Atof.Crypt

namespace Atof.VoiceLink
open Rust Voice Crypt CryptState CryptRoundTrip Replay

variable {dst senderDst receiverDst : VoicePacketDst} {aes : Key → Equiv.Perm U128}
  {mode : Overflow}

/-- What can be seen of one direction. -/
inductive Seen (dst : VoicePacketDst) where
  | sent (nonce : U128) (packet : VoicePacket dst)
  | lost
  | got (result : Checked (Except DecryptError (Io (VoicePacket dst))))
  | told (nonce : Vector U8 16)
  | panicked

/-- One step in one direction, from a sender to a receiver, with the datagrams on the way, oldest
first. A panic in `decrypt` may leave the receiver half changed. -/
inductive Transfer (mode : Overflow) (aes : Key → Equiv.Perm U128)
    (s : CryptState dst senderDst) (flight : List Bytes) (r : CryptState receiverDst dst) :
    Seen dst → CryptState dst senderDst → List Bytes → CryptState receiverDst dst → Prop
  | sends {s' : CryptState dst senderDst} {datagram : Bytes} (packet : VoicePacket dst)
      (buf : Bytes) (sealing : encrypt aes s packet buf = .ok (s',datagram)) :
      Transfer mode aes s flight r (.sent s'.encryptNonce packet) s' (flight ++ [datagram]) r
  | sendPanics {e : Panic} (packet : VoicePacket dst) (buf : Bytes)
      (sealing : encrypt aes s packet buf = .error e) :
      Transfer mode aes s flight r .panicked s flight r
  | loses {datagram : Bytes} {rest : List Bytes} (queued : flight = datagram :: rest) :
      Transfer mode aes s flight r .lost s rest r
  | arrives {datagram plain : Bytes} {rest : List Bytes}
      {result : Except DecryptError (Io (VoicePacket dst))} {r' : CryptState receiverDst dst}
      (queued : flight = datagram :: rest)
      (opening : decrypt mode aes r datagram = .ok (result,r',plain)) :
      Transfer mode aes s flight r (.got (.ok result)) s rest r'
  | arrivalPanics {datagram : Bytes} {rest : List Bytes} {e : Panic}
      {r' : CryptState receiverDst dst} (queued : flight = datagram :: rest)
      (opening : decrypt mode aes r datagram = .error e)
      (keeps : r'.key = r.key ∧ r'.encryptNonce = r.encryptNonce) :
      Transfer mode aes s flight r (.got (.error e)) s rest r'
  | resyncs (nonce : Vector U8 16) :
      Transfer mode aes s flight r (.told nonce) s flight (r.setDecryptNonce nonce)

/-- Two ends and both directions between them. -/
structure Link (a b : VoicePacketDst) where
  left : CryptState a b
  right : CryptState b a
  up : List Bytes
  down : List Bytes

variable {a b : VoicePacketDst}

inductive Step (mode : Overflow) (aes : Key → Equiv.Perm U128) (L : Link a b) :
    List (Seen a) → List (Seen b) → Link a b → Prop
  | up {event : Seen a} {left : CryptState a b} {flight : List Bytes} {right : CryptState b a}
      (transfer : Transfer mode aes L.left L.up L.right event left flight right) :
      Step mode aes L [event] [] ⟨left,right,flight,L.down⟩
  | down {event : Seen b} {left : CryptState a b} {flight : List Bytes} {right : CryptState b a}
      (transfer : Transfer mode aes L.right L.down L.left event right flight left) :
      Step mode aes L [] [event] ⟨left,right,L.up,flight⟩

/-- A run of the link, with what could be seen of each direction, in order. -/
inductive Run (mode : Overflow) (aes : Key → Equiv.Perm U128) (left : CryptState a b)
    (right : CryptState b a) : List (Seen a) → List (Seen b) → Link a b → Prop
  | nil : Run mode aes left right [] [] ⟨left,right,[],[]⟩
  | snoc {up up' : List (Seen a)} {down down' : List (Seen b)} {L L' : Link a b}
      (run : Run mode aes left right up down L) (step : Step mode aes L up' down' L') :
      Run mode aes left right (up ++ up') (down ++ down') L'

/-! ## What is seen -/

/-- The packets sent, each with the nonce that was taken for it. -/
def sealings (seen : List (Seen dst)) : List (U128 × VoicePacket dst) :=
  seen.filterMap fun
    | .sent nonce packet => some (nonce,packet)
    | _ => none

/-- The packets sent. -/
def sents (seen : List (Seen dst)) : List (VoicePacket dst) := (sealings seen).map Prod.snd

/-- What became of the datagrams that are no longer on the way. -/
def fates (seen : List (Seen dst)) :
    List (Option (Checked (Except DecryptError (Io (VoicePacket dst))))) :=
  seen.filterMap fun
    | .lost => some none
    | .got result => some (some result)
    | _ => none

/-- The sender's nonce. -/
def nonceAfter (start : U128) (seen : List (Seen dst)) : U128 :=
  ((sealings seen).map Prod.fst).getLast?.getD start

/-- Of the datagrams that were lost, how many one that arrived has passed over, how many were
skipped when the receiver was given a nonce, and how many were lost since then. -/
structure Losses where
  passed : ℕ
  skipped : ℕ
  recent : ℕ
  deriving DecidableEq, Repr

def Losses.after (l : Losses) : Seen dst → Losses
  | .lost => { l with recent := l.recent + 1 }
  | .got _ => ⟨l.passed + l.recent,l.skipped,0⟩
  | .told _ => ⟨l.passed,l.skipped + l.recent,0⟩
  | _ => l

def losses (seen : List (Seen dst)) : Losses := seen.foldl Losses.after ⟨0,0,0⟩

@[simp] theorem sealings_append (seen seen' : List (Seen dst)) :
    sealings (seen ++ seen') = sealings seen ++ sealings seen' := List.filterMap_append ..

@[simp] theorem sents_append (seen seen' : List (Seen dst)) :
    sents (seen ++ seen') = sents seen ++ sents seen' := by simp [sents]

@[simp] theorem fates_append (seen seen' : List (Seen dst)) :
    fates (seen ++ seen') = fates seen ++ fates seen' := List.filterMap_append ..

@[simp] theorem losses_snoc (seen : List (Seen dst)) (event : Seen dst) :
    losses (seen ++ [event]) = (losses seen).after event := List.foldl_concat ..

theorem length_sents (seen : List (Seen dst)) : (sents seen).length = (sealings seen).length :=
  List.length_map ..

theorem losses_eq (seen : List (Seen dst)) : (losses seen).passed + (losses seen).skipped +
    (losses seen).recent = (fates seen).countP Option.isNone := by
  induction seen using List.reverseRecOn with
  | nil => rfl
  | append_singleton seen event ih =>
      rw [losses_snoc, fates_append, List.countP_append, ← ih]
      cases event with
      | sent nonce packet | panicked => rfl
      | lost => exact (Nat.add_assoc _ _ 1).symm
      | got result =>
          change (losses seen).passed + (losses seen).recent + (losses seen).skipped + 0 = _ + 0
          omega
      | told nonce =>
          change (losses seen).passed + ((losses seen).skipped + (losses seen).recent) + 0 = _ + 0
          omega

/-! ## What is kept to -/

/-- Not more than 126 datagrams are lost before one arrives, since the last one arrived or the
receiver was given a nonce. -/
def Near (before : List (Seen dst)) : Seen dst → Prop
  | .got _ => (losses before).recent ≤ 126
  | _ => True

/-- The receiver is given the sender's nonce, while nothing is on the way. -/
def Timely (start : U128) (before : List (Seen dst)) : Seen dst → Prop
  | .told nonce => (fates before).length = (sealings before).length ∧
      fromLeBytes nonce = nonceAfter start before
  | _ => True

/-- What the network and the ends have to keep to in one direction, from the nonce that the
sender starts with on. Nothing in the code sees to it. -/
inductive Kept (start : U128) : List (Seen dst) → Prop
  | nil : Kept start []
  | snoc {before : List (Seen dst)} {event : Seen dst} (kept : Kept start before)
      (near : Near before event) (timely : Timely start before event) :
      Kept start (before ++ [event])

theorem Kept.last {start : U128} {before : List (Seen dst)} {event : Seen dst}
    (h : Kept start (before ++ [event])) :
    Kept start before ∧ Near before event ∧ Timely start before event := by
  generalize hseen : before ++ [event] = seen at h
  cases h with
  | nil => simp at hseen
  | snoc kept near timely =>
      obtain ⟨rfl,rfl⟩ := List.concat_inj.mp (by simpa using hseen)
      exact ⟨kept,near,timely⟩

/-- If it arrived, the packet came out. -/
def Meets (packet : VoicePacket dst)
    (fate : Option (Checked (Except DecryptError (Io (VoicePacket dst))))) : Prop :=
  ∀ result, fate = some result → result = .ok (.ok (.ok packet))

theorem position_add (base : U128) (p q : ℕ) : position (position base p) q = position base (p + q) := by
  rw [position, position, position, add_assoc, ← BitVec.ofNat_add]

/-- The datagrams of some packets, one nonce after another. -/
def sealedFrom (aes : Equiv.Perm U128) (nonce : U128) : List (VoicePacket dst) → List Bytes
  | [] => []
  | packet :: packets => sealed aes (nonce + 1) packet :: sealedFrom aes (nonce + 1) packets

theorem sealedFrom_append (aes : Equiv.Perm U128) (nonce : U128) (packets : List (VoicePacket dst))
    (packet : VoicePacket dst) : sealedFrom aes nonce (packets ++ [packet]) =
      sealedFrom aes nonce packets ++ [sealed aes (position nonce packets.length + 1) packet] := by
  induction packets generalizing nonce with
  | nil => simp [sealedFrom, position]
  | cons first packets ih =>
      have hnonce : position (nonce + 1) packets.length = position nonce (packets.length + 1) :=
        (position_add nonce 1 packets.length).trans (by rw [Nat.add_comm])
      rw [List.cons_append, sealedFrom, sealedFrom, ih, hnonce, List.length_cons, List.cons_append]

theorem toInt_position_sub (base : U128) {p : ℕ} (hp : p < 2 ^ 127) :
    (position base p - base).toInt = p := by
  rw [position, add_sub_cancel_left, ← BitVec.ofInt_natCast, BitVec.toInt_ofInt,
    Int.bmod_eq_of_le (by omega) (by omega)]

/-- A datagram with few lost before it is opened, and counted with those. -/
theorem decrypt_next (mode : Overflow) (aes : Key → Equiv.Perm U128)
    (r : CryptState receiverDst dst) {n : ℕ} (hn : n ≤ 126)
    {packet : VoicePacket dst} (hp : packet.Representable) (hgood : r.good.toNat + 1 < 2 ^ 32)
    (hlate : r.late = 0) (hlost : r.lost.toNat + n < 2 ^ 31) :
    ∃ plain r', decrypt mode aes r (sealed (aes r.key) (position r.decryptNonce (n + 1)) packet) =
        .ok (.ok (.ok packet),r',plain) ∧
      r'.key = r.key ∧ r'.decryptNonce = position r.decryptNonce (n + 1) ∧
      r'.good.toNat = r.good.toNat + 1 ∧ r'.late = 0 ∧ r'.lost.toNat = r.lost.toNat + n := by
  have hsub := toInt_position_sub r.decryptNonce (show n + 1 < 2 ^ 127 by omega)
  have hlead := lead_setWidth r (position r.decryptNonce (n + 1)) (by omega) (by omega)
  have hnonce := nonceAt_setWidth r (position r.decryptNonce (n + 1)) (by omega) (by omega)
  rw [hsub] at hlead
  have hresolve := resolve_ahead
    (show 0 < r.lead ((position r.decryptNonce (n + 1)).setWidth 8) by omega)
  have hdelta : BitVec.ofInt 32 (r.lead ((position r.decryptNonce (n + 1)).setWidth 8) - 1) =
      BitVec.ofNat 32 n := by
    rw [hlead, ← BitVec.ofInt_natCast]
    congr 1
    omega
  rw [hnonce, hdelta] at hresolve
  have hn32 : (BitVec.ofNat 32 n).toNat = n := Nat.mod_eq_of_lt (by omega)
  have hlostInt : r.lost.toInt = r.lost.toNat := BitVec.toInt_eq_toNat_of_lt (by omega)
  have hnInt : (BitVec.ofNat 32 n).toInt = n := by
    rw [BitVec.toInt_eq_toNat_of_lt (by omega), hn32]
  have hadd : mode.addI32 r.lost (BitVec.ofNat 32 n) = .ok (r.lost + BitVec.ofNat 32 n) :=
    Overflow.addI32_of_bounds _ (by omega) (by omega)
  obtain ⟨plain,hdecode⟩ := decode_encode hp
  refine ⟨plain,_,decrypt_sealed mode hdecode hresolve rfl ⟨?_,?_,hadd⟩,rfl,rfl,?_,hlate,?_⟩
  · exact Overflow.addU32_of_lt _ hgood
  · rw [hlate]
    exact Overflow.addU32_of_lt _ (by decide)
  · exact BitVec.toNat_add_of_lt hgood
  · change (r.lost + BitVec.ofNat 32 n).toNat = _
    rw [BitVec.toNat_add_of_lt (by omega), hn32]

/-! ## One step -/

/-- What the receiver knows of the sender, and what is on the way between them. -/
structure Following (aes : Key → Equiv.Perm U128) (start : U128) (s : CryptState dst senderDst)
    (flight : List Bytes) (r : CryptState receiverDst dst) (seen : List (Seen dst)) : Prop where
  calm : .panicked ∉ seen
  key : r.key = s.key
  nonce : s.encryptNonce = nonceAfter start seen
  settled : ∃ settled pending, sents seen = settled ++ pending ∧
    flight = sealedFrom (aes r.key) (position r.decryptNonce (losses seen).recent) pending ∧
    s.encryptNonce = position r.decryptNonce ((losses seen).recent + pending.length) ∧
    List.Forall₂ Meets settled (fates seen)
  good : r.good.toNat = (fates seen).countP Option.isSome
  late : r.late = 0
  lost : r.lost.toNat = (losses seen).passed

theorem position_zero (base : U128) : position base 0 = base := by simp [position]

theorem position_succ (base : U128) (p : ℕ) : position base p + 1 = position base (p + 1) :=
  position_add base p 1

/-- The first datagram on the way is that of the first packet that is not settled. -/
theorem sealedFrom_eq_cons {aes : Equiv.Perm U128} {base : U128} {n : ℕ}
    {packets : List (VoicePacket dst)} {datagram : Bytes} {rest : List Bytes}
    (h : datagram :: rest = sealedFrom aes (position base n) packets) :
    ∃ packet packets', packets = packet :: packets' ∧
      datagram = sealed aes (position base (n + 1)) packet ∧
      rest = sealedFrom aes (position base (n + 1)) packets' := by
  cases packets with
  | nil => cases h
  | cons packet packets =>
      rw [sealedFrom, position_succ] at h
      obtain ⟨hdatagram,hrest⟩ := List.cons_eq_cons.mp h
      exact ⟨packet,packets,rfl,hdatagram,hrest⟩

theorem nonceAfter_sent (start nonce : U128) (seen : List (Seen dst)) (packet : VoicePacket dst) :
    nonceAfter start (seen ++ [.sent nonce packet]) = nonce := by
  have hsealings : sealings (seen ++ [.sent nonce packet]) = sealings seen ++ [(nonce,packet)] :=
    sealings_append ..
  simp [nonceAfter, hsealings]

theorem nonceAfter_other (start : U128) (seen : List (Seen dst)) {event : Seen dst}
    (h : sealings [event] = []) : nonceAfter start (seen ++ [event]) = nonceAfter start seen := by
  rw [nonceAfter, sealings_append, h, List.append_nil, nonceAfter]

namespace Following

variable {start : U128} {s : CryptState dst senderDst} {flight : List Bytes}
  {r : CryptState receiverDst dst} {seen : List (Seen dst)}

theorem sends (h : Following aes start s flight r seen) (packet : VoicePacket dst) :
    Following aes start
      ({ s with encryptNonce := s.encryptNonce + 1 } : CryptState dst senderDst)
      (flight ++ [sealed (aes s.key) (s.encryptNonce + 1) packet]) r
      (seen ++ [.sent (s.encryptNonce + 1) packet]) := by
  obtain ⟨calm,key,-,⟨settled,pending,hsents,hflight,hnonce,hfates⟩,good,late,lost⟩ := h
  have hsent : sents (seen ++ [.sent (s.encryptNonce + 1) packet]) = sents seen ++ [packet] :=
    sents_append ..
  have hfates' : fates (seen ++ [.sent (s.encryptNonce + 1) packet]) = fates seen := by
    rw [fates_append]
    exact List.append_nil _
  have hlosses : losses (seen ++ [.sent (s.encryptNonce + 1) packet]) = losses seen :=
    losses_snoc ..
  refine ⟨by simpa using calm,key,(nonceAfter_sent start (s.encryptNonce + 1) seen packet).symm,
    ⟨settled,pending ++ [packet],?_,?_,?_,hfates'.symm ▸ hfates⟩,by rw [hfates', good],late,
    by rw [hlosses, lost]⟩
  · rw [hsent, hsents, List.append_assoc]
  · rw [hlosses, hflight, sealedFrom_append, position_add, ← hnonce, key]
  · rw [hlosses, List.length_append, List.length_singleton, ← Nat.add_assoc, ← position_succ,
      ← hnonce]

/-- When a datagram is on its way no more, the first packet that was not settled is. -/
theorem settles {event : Seen dst} {settled pending : List (VoicePacket dst)}
    {packet : VoicePacket dst} (he : sents [event] = [])
    (hsents : sents seen = settled ++ packet :: pending) :
    sents (seen ++ [event]) = (settled ++ [packet]) ++ pending := by
  rw [sents_append, he, List.append_nil, hsents, List.append_assoc, List.singleton_append]

theorem loses (h : Following aes start s flight r seen) {datagram : Bytes} {rest : List Bytes}
    (queued : flight = datagram :: rest) : Following aes start s rest r (seen ++ [.lost]) := by
  obtain ⟨calm,key,nonce,⟨settled,pending,hsents,hflight,hnonce,hfates⟩,good,late,lost⟩ := h
  obtain ⟨packet,pending',rfl,-,hrest⟩ := sealedFrom_eq_cons (queued.symm.trans hflight)
  have hlosses : losses (seen ++ [.lost]) =
      { losses seen with recent := (losses seen).recent + 1 } := losses_snoc ..
  refine ⟨by simpa using calm,key,nonce.trans (nonceAfter_other start seen rfl).symm,
    ⟨settled ++ [packet],pending',settles rfl hsents,by rw [hlosses, hrest],?_,?_⟩,?_,late,
    by rw [hlosses, lost]⟩
  · rw [hlosses, hnonce, List.length_cons, Nat.add_right_comm, Nat.add_assoc]
  · rw [fates_append]
    exact List.rel_append hfates (.cons (fun result hr => by cases hr) .nil)
  · rw [fates_append, List.countP_append, good]
    rfl

/-- The next datagram is opened, if not too many are lost before it. -/
theorem opens (h : Following aes start s flight r seen) {datagram : Bytes} {rest : List Bytes}
    (queued : flight = datagram :: rest) (near : (losses seen).recent ≤ 126)
    (hpackets : ∀ packet ∈ sents seen, packet.Representable)
    (hlen : (sents seen).length < 2 ^ 31) (mode : Overflow) :
    ∃ packet plain r', decrypt mode aes r datagram = .ok (.ok (.ok packet),r',plain) ∧
      Following aes start s rest r' (seen ++ [.got (.ok (.ok (.ok packet)))]) := by
  obtain ⟨calm,key,nonce,⟨settled,pending,hsents,hflight,hnonce,hfates⟩,good,late,lost⟩ := h
  obtain ⟨packet,pending',rfl,rfl,hrest⟩ := sealedFrom_eq_cons (queued.symm.trans hflight)
  have hgood : (fates seen).countP Option.isSome ≤ (fates seen).length := List.countP_le_length
  have hlost : (fates seen).countP Option.isNone ≤ (fates seen).length := List.countP_le_length
  have hcount : (fates seen).length + (pending'.length + 1) = (sents seen).length := by
    rw [hsents, List.length_append, hfates.length_eq, List.length_cons]
  rw [← losses_eq] at hlost
  obtain ⟨plain,r',hopening,hkey,hn,hgood',hlate',hlost'⟩ := decrypt_next mode aes r near
    (hpackets packet (by rw [hsents]; simp)) (by omega) late (by omega)
  have hlosses : losses (seen ++ [.got (.ok (.ok (.ok packet)))]) =
      ⟨(losses seen).passed + (losses seen).recent,(losses seen).skipped,0⟩ := losses_snoc ..
  refine ⟨packet,plain,r',hopening,by simpa using calm,hkey.trans key,
    nonce.trans (nonceAfter_other start seen rfl).symm,
    ⟨settled ++ [packet],pending',settles rfl hsents,?_,?_,?_⟩,?_,hlate',
    by rw [hlosses, hlost', lost]⟩
  · rw [hlosses, hrest, hkey, hn, position_zero]
  · rw [hlosses, hnonce, hn, position_add, List.length_cons, Nat.zero_add, Nat.add_right_comm,
      Nat.add_assoc]
  · rw [fates_append]
    exact List.rel_append hfates (.cons (fun result hr => (Option.some.inj hr).symm) .nil)
  · rw [fates_append, List.countP_append, hgood', good]
    rfl

/-- A nonce that is given in time skips what was lost since the last arrival. -/
theorem resyncs (h : Following aes start s flight r seen) {given : Vector U8 16}
    (timely : Timely start seen (.told given)) :
    Following aes start s flight (r.setDecryptNonce given) (seen ++ [.told given]) := by
  obtain ⟨calm,key,nonce,⟨settled,pending,hsents,hflight,-,hfates⟩,good,late,lost⟩ := h
  obtain ⟨hnothing,hgiven⟩ := timely
  obtain rfl : pending = [] := by
    rw [← length_sents, hsents, List.length_append, ← hfates.length_eq] at hnothing
    exact List.eq_nil_of_length_eq_zero (by omega)
  have hfates' : fates (seen ++ [.told given]) = fates seen := by
    rw [fates_append]
    exact List.append_nil _
  have hlosses : losses (seen ++ [.told given]) =
      ⟨(losses seen).passed,(losses seen).skipped + (losses seen).recent,0⟩ := losses_snoc ..
  have hsents' : sents (seen ++ [.told given]) = settled ++ [] := by
    rw [sents_append, hsents]
    exact List.append_nil _
  have htold : (r.setDecryptNonce given).decryptNonce = s.encryptNonce := hgiven.trans nonce.symm
  refine ⟨by simpa using calm,key,nonce.trans (nonceAfter_other start seen rfl).symm,
    ⟨settled,[],hsents',hflight,?_,hfates'.symm ▸ hfates⟩,by rw [hfates']; exact good,late,
    by rw [hlosses]; exact lost⟩
  rw [hlosses, htold]
  exact (position_zero _).symm

end Following

/-- To open a datagram leaves alone what the receiver seals with. -/
theorem decrypt_keeps {r r' : CryptState receiverDst dst} {datagram plain : Bytes}
    {result : Except DecryptError (Io (VoicePacket dst))}
    (h : decrypt mode aes r datagram = .ok (result,r',plain)) :
    r'.key = r.key ∧ r'.encryptNonce = r.encryptNonce := by
  cases decrypt_spec h <;> exact ⟨rfl,rfl⟩

section
variable {s s' : CryptState dst senderDst} {flight flight' : List Bytes}
  {r r' : CryptState receiverDst dst} {event : Seen dst}

theorem Transfer.sender (h : Transfer mode aes s flight r event s' flight' r') :
    s' = { s with encryptNonce := s'.encryptNonce } := by
  cases h with
  | sends packet buf sealing =>
      rw [encrypt_eq] at sealing
      cases sealing
      rfl
  | _ => rfl

theorem Transfer.receiver (h : Transfer mode aes s flight r event s' flight' r') :
    r'.key = r.key ∧ r'.encryptNonce = r.encryptNonce := by
  cases h with
  | arrives queued opening => exact decrypt_keeps opening
  | arrivalPanics queued opening keeps => exact keeps
  | _ => exact ⟨rfl,rfl⟩

end

/-- Each end starts where the other does, and nothing was counted. -/
structure Paired (left : CryptState a b) (right : CryptState b a) : Prop where
  key : right.key = left.key
  up : right.decryptNonce = left.encryptNonce
  down : left.decryptNonce = right.encryptNonce
  leftCounters : left.good = 0 ∧ left.late = 0 ∧ left.lost = 0
  rightCounters : right.good = 0 ∧ right.late = 0 ∧ right.lost = 0

/-- The one makes a key and nonces, and the other is told them. -/
theorem paired_generateNew (key : Key) :
    let server : CryptState a b := generateNew key
    Paired server (newFrom key server.getDecryptNonce server.getEncryptNonce : CryptState b a) :=
  ⟨rfl,fromLeBytes_toLeBytes _,(fromLeBytes_toLeBytes _).symm,⟨rfl,rfl,rfl⟩,⟨rfl,rfl,rfl⟩⟩

theorem Following.start {s : CryptState dst senderDst} {r : CryptState receiverDst dst}
    (key : r.key = s.key) (nonce : r.decryptNonce = s.encryptNonce)
    (counters : r.good = 0 ∧ r.late = 0 ∧ r.lost = 0) :
    Following aes s.encryptNonce s [] r [] where
  calm := by simp
  key := key
  nonce := rfl
  settled := ⟨[],[],rfl,rfl,by rw [nonce]; exact (position_zero _).symm,.nil⟩
  good := by rw [counters.1]; rfl
  late := counters.2.1
  lost := by rw [counters.2.2]; rfl

/-- The sender's nonce counts the packets, and each was sealed under the next. -/
structure Counting (base nonce : U128) (seen : List (Seen dst)) : Prop where
  nonce : nonce = position base (sealings seen).length
  sealings : (sealings seen).map Prod.fst = (List.range' 1 (sealings seen).length).map (position base)

theorem Counting.start (base : U128) : Counting base base ([] : List (Seen dst)) :=
  ⟨(position_zero base).symm,rfl⟩

theorem Transfer.counting {s s' : CryptState dst senderDst} {flight flight' : List Bytes}
    {r r' : CryptState receiverDst dst} {seen : List (Seen dst)} {event : Seen dst} {base : U128}
    (step : Transfer mode aes s flight r event s' flight' r')
    (h : Counting base s.encryptNonce seen) : Counting base s'.encryptNonce (seen ++ [event]) := by
  have still (he : sealings [event] = []) : Counting base s.encryptNonce (seen ++ [event]) := by
    have hsame : sealings (seen ++ [event]) = sealings seen := by
      rw [sealings_append, he, List.append_nil]
    exact ⟨by rw [hsame]; exact h.nonce,by rw [hsame]; exact h.sealings⟩
  cases step with
  | sends packet buf sealing =>
      rw [encrypt_eq] at sealing
      cases sealing
      have hsealings : sealings (seen ++ [.sent (s.encryptNonce + 1) packet]) =
          sealings seen ++ [(s.encryptNonce + 1,packet)] := sealings_append ..
      have hnext : s.encryptNonce + 1 = position base ((sealings seen).length + 1) := by
        rw [h.nonce, position_succ]
      refine ⟨?_,?_⟩
      · rw [hsealings, List.length_append, List.length_singleton]
        exact hnext
      · rw [hsealings, List.length_append, List.length_singleton, List.map_append, h.sealings,
          List.range'_concat, List.map_append, Nat.one_mul, Nat.add_comm 1]
        exact congrArg (fun nonce => _ ++ [nonce]) hnext
  | _ => exact still rfl

/-- The packets of a direction are sealed under the nonces after the first, one after another. -/
theorem Run.nonces {left : CryptState a b} {right : CryptState b a} {up : List (Seen a)}
    {down : List (Seen b)} {L : Link a b} (h : Run mode aes left right up down L) :
    (sealings up).map Prod.fst =
        (List.range' 1 (sealings up).length).map (position left.encryptNonce) ∧
      (sealings down).map Prod.fst =
        (List.range' 1 (sealings down).length).map (position right.encryptNonce) := by
  suffices hall : Counting left.encryptNonce L.left.encryptNonce up ∧
      Counting right.encryptNonce L.right.encryptNonce down from
    ⟨hall.1.sealings,hall.2.sealings⟩
  induction h with
  | nil => exact ⟨.start _,.start _⟩
  | @snoc up up' down down' L L' run step ih =>
      cases step with
      | up transfer =>
          refine ⟨transfer.counting ih.1,?_⟩
          rw [List.append_nil, transfer.receiver.2]
          exact ih.2
      | down transfer =>
          refine ⟨?_,transfer.counting ih.2⟩
          rw [List.append_nil, transfer.receiver.2]
          exact ih.1

/-- An end that `generate_new` made, and one that seals with the nonces the first opens with, never
seal two packets under the same nonce, neither in one direction nor in the two, before one has
sent `2 ^ 127`; whatever is lost, and whatever nonces either is given to open with. -/
theorem nonces_nodup {key : Key} {right : CryptState b a}
    (paired : right.encryptNonce = (generateNew key : CryptState a b).decryptNonce)
    {up : List (Seen a)} {down : List (Seen b)} {L : Link a b}
    (h : Run mode aes (generateNew key) right up down L)
    (hup : (sealings up).length < 2 ^ 127) (hdown : (sealings down).length < 2 ^ 127) :
    ((sealings up).map Prod.fst ++ (sealings down).map Prod.fst).Nodup := by
  obtain ⟨hup',hdown'⟩ := h.nonces
  have hright : right.encryptNonce = position 0 (2 ^ 127) :=
    paired.trans (show 1#128 <<< 127 = position 0 (2 ^ 127) by decide)
  have hshift : position (position 0 (2 ^ 127)) = position 0 ∘ (2 ^ 127 + ·) :=
    funext fun p => position_add 0 (2 ^ 127) p
  rw [hup', hdown', hright, hshift, ← List.map_map]
  change (List.map (position 0) _ ++ _).Nodup
  rw [← List.map_append]
  refine List.Nodup.map_on ?_ (List.nodup_append.mpr ⟨List.nodup_range',?_,?_⟩)
  · intro p hp q hq heq
    have hsmall {p : ℕ} (hp : p ∈ List.range' 1 (sealings up).length ++
        (List.range' 1 (sealings down).length).map (2 ^ 127 + ·)) : p < 2 ^ 128 := by
      simp only [List.mem_append, List.mem_map, List.mem_range'_1] at hp
      omega
    exact position_injOn (hsmall hp) (hsmall hq) heq
  · exact List.Nodup.map (fun p q heq => Nat.add_left_cancel heq) List.nodup_range'
  · intro p hp q hq heq
    simp only [List.mem_map, List.mem_range'_1] at hp hq
    omega

/-- Both ends send once, and both are given another nonce while the datagrams are on the way. -/
theorem nonces_nodup_two : ∃ up down, ∃ L : Link .clientbound .serverbound,
    Run .panic (fun _ => Equiv.refl _) (generateNew (.replicate 16 0))
      (newFrom (.replicate 16 0) (toLeBytes (1#128 <<< 127)) (toLeBytes 0)) up down L ∧
    L.up.length = 1 ∧ .told (.replicate 16 9) ∈ up ∧ .told (.replicate 16 9) ∈ down ∧
    (sealings up).map Prod.fst ++ (sealings down).map Prod.fst = [1#128,1#128 <<< 127 + 1#128] ∧
    ((sealings up).map Prod.fst ++ (sealings down).map Prod.fst).Nodup := by
  have h : Run .panic (fun _ => Equiv.refl _)
      (generateNew (.replicate 16 0) : CryptState .clientbound .serverbound)
      (newFrom (.replicate 16 0) (toLeBytes (1#128 <<< 127)) (toLeBytes 0)) [] [] _ := .nil
  have h := h.snoc (.up (.sends (.ping 1) [] (encrypt_eq _ _ _)))
  have h := h.snoc (.up (.resyncs (.replicate 16 9)))
  have h := h.snoc (.down (.resyncs (.replicate 16 9)))
  have h := h.snoc (.down (.sends (.ping 5) [] (encrypt_eq _ _ _)))
  refine ⟨_,_,_,h,rfl,List.mem_of_getElem? (i := 1) rfl,List.mem_of_getElem? (i := 0) rfl,?_,
    nonces_nodup (paired_generateNew _).down.symm h (by decide) (by decide)⟩
  decide +kernel

end Atof.VoiceLink
