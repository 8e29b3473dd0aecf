import Atof.Replay
import Atof.CryptRoundTrip
import Atof.BindingCipher

/-!
# Counters on an honest network

A sender seals packets one after another; the network delivers any of the
datagrams, in any order and any number of times. Counting from the nonce both
ends start with, the receiver's nonce is the highest position accepted, `good`
the number of positions accepted, and `lost` the difference of the two. A
datagram far behind is refused but moves the receiver's nonce back, and the
positions in between are then counted a second time.
-/
namespace Atof.HonestNetwork
open Rust Voice Crypt CryptState CryptRoundTrip Replay SlidingWindow BindingCipher

variable {dst senderDst receiverDst : VoicePacketDst} {aes : Key → Equiv.Perm U128}

/-! ## The sender and the statistics -/

/-- The datagrams of a sender, each under the nonce after the last one's. -/
def sent (aes : Key → Equiv.Perm U128) (sender : CryptState dst senderDst) :
    List (VoicePacket dst) → List Bytes
  | [] => []
  | packet :: packets =>
      match encrypt aes sender packet [] with
      | .error _ => []
      | .ok (sender',datagram) => datagram :: sent aes sender' packets

theorem sent_cons (sender : CryptState dst senderDst) (packet : VoicePacket dst)
    (packets : List (VoicePacket dst)) : sent aes sender (packet :: packets) =
      sealed (aes sender.key) (sender.encryptNonce + 1) packet ::
        sent aes ({ sender with encryptNonce := sender.encryptNonce + 1 } :
          CryptState dst senderDst) packets := by
  simp only [sent, encrypt_eq]

theorem length_sent (aes : Key → Equiv.Perm U128) (sender : CryptState dst senderDst)
    (packets : List (VoicePacket dst)) :
    (sent aes sender packets).length = packets.length := by
  induction packets generalizing sender with
  | nil => rfl
  | cons packet packets ih => rw [sent_cons, List.length_cons, ih, List.length_cons]

/-- A tag is accepted under the nonce the datagram was made with and no other. -/
def TagsBind (aes : Key → Equiv.Perm U128) (receiver : CryptState receiverDst dst) (base : U128)
    (datagrams : List Bytes) : Prop :=
  ∀ i, (h : i < datagrams.length) → ∀ nonce, nonce ≠ position base (i + 1) →
    receiver.tagMatches aes nonce (datagrams[i].tail.take 3) (datagrams[i].tail.drop 3) = false

/-- The highest position accepted so far; zero when there is none. -/
def highest (base : U128) (accepted : List U128) : ℕ :=
  (accepted.map fun nonce => (nonce - base).toNat).foldr max 0

/-- The number of positions up to the highest that were not accepted. -/
def missing (base : U128) (accepted : List U128) : ℕ :=
  ((List.range' 1 (highest base accepted)).filter fun p => position base p ∉ accepted).length

/-- The counters say what has been accepted. -/
def Exact (base : U128) (cs : List (Call receiverDst dst)) (s : CryptState receiverDst dst) : Prop :=
  s.good.toNat = (cs.filter Call.accepted).length ∧ s.lost.toNat = missing base (acceptedNonces cs)

/-! ## Counting positions -/

theorem foldr_max_eq {qs : List ℕ} {top : ℕ} (hle : ∀ q ∈ qs, q ≤ top)
    (htop : top = 0 ∨ top ∈ qs) : qs.foldr max 0 = top := by
  have hupper : qs.foldr max 0 ≤ top := by
    clear htop
    induction qs with
    | nil => simp
    | cons q qs ih =>
        exact max_le (hle q (by simp)) (ih fun q' hq' => hle q' (by simp [hq']))
  have hmem : ∀ q ∈ qs, q ≤ qs.foldr max 0 := by
    clear hle htop hupper
    induction qs with
    | nil => simp
    | cons q qs ih =>
        intro q' hq'
        rcases List.mem_cons.mp hq' with rfl | hq'
        · exact le_max_left _ _
        · exact (ih q' hq').trans (le_max_right _ _)
  rcases htop with rfl | htop
  · exact Nat.le_zero.mp hupper
  · exact le_antisymm hupper (hmem top htop)

/-- The positions that are there and those that are not make up the whole range. -/
theorem length_filter_notMem {qs : List ℕ} {top : ℕ} (hnodup : qs.Nodup)
    (hrange : ∀ q ∈ qs, 1 ≤ q ∧ q ≤ top) :
    ((List.range' 1 top).filter (· ∉ qs)).length = top - qs.length := by
  have hmem : ((List.range' 1 top).filter (· ∈ qs)).Perm qs := by
    refine (List.perm_ext_iff_of_nodup ((List.nodup_range' ..).filter _) hnodup).mpr fun q => ?_
    simp only [List.mem_filter, List.mem_range'_1, decide_eq_true_eq]
    constructor
    · exact fun h => h.2
    · intro hq
      have := hrange q hq
      exact ⟨by omega,hq⟩
  have hsplit := List.length_eq_length_filter_add (l := List.range' 1 top) (· ∈ qs)
  rw [hmem.length_eq, List.length_range'] at hsplit
  simp only [decide_not]
  omega

theorem position_sub_toNat (base : U128) {q : ℕ} (hq : q < 2 ^ 128) :
    (position base q - base).toNat = q := by
  rw [position, add_sub_cancel_left, BitVec.toNat_ofNat, Nat.mod_eq_of_lt hq]

/-- Counting from twenty-nine below the base. -/
theorem position_sub_add (base : U128) (q : ℕ) : position (base - 29) (29 + q) = position base q := by
  rw [position, position, BitVec.ofNat_add, ← add_assoc]
  congr 1
  exact sub_add_cancel base 29

theorem missing_positions (base : U128) {qs : List ℕ} {top : ℕ} (htop : top < 2 ^ 128)
    (hnodup : qs.Nodup) (hrange : ∀ q ∈ qs, 1 ≤ q ∧ q ≤ top) (hmax : top = 0 ∨ top ∈ qs)
    {accepted : List U128} (ha : accepted = (qs.map (position base)).reverse) :
    missing base accepted = top - qs.length := by
  have hhigh : highest base accepted = top := by
    have hmap : (accepted.map fun nonce => (nonce - base).toNat) = qs.reverse := by
      rw [ha, ← List.map_reverse, List.map_map]
      refine (List.map_congr_left fun q hq => ?_).trans (List.map_id _)
      have := hrange q (List.mem_reverse.mp hq)
      exact position_sub_toNat base (by omega)
    rw [highest, hmap]
    exact foldr_max_eq (fun q hq => (hrange q (List.mem_reverse.mp hq)).2)
      (hmax.imp_right List.mem_reverse.mpr)
  rw [missing, hhigh, ← length_filter_notMem hnodup hrange]
  congr 1
  refine List.filter_congr fun p hp => ?_
  have hp' := List.mem_range'_1.mp hp
  have hiff : position base p ∈ accepted ↔ p ∈ qs := by
    rw [ha, List.mem_reverse, List.mem_map]
    constructor
    · rintro ⟨q,hq,he⟩
      have := hrange q hq
      rwa [← position_injOn (by omega) (by omega) he]
    · exact fun hq => ⟨p,hq,rfl⟩
  simp only [hiff]

/-! ## Runs -/

/-- What the counters of a state stand for, with the initial nonce at position 29. -/
structure Counted (count : ℕ) (s₀ s : CryptState receiverDst dst) (top : ℕ) (seen : List ℕ) :
    Prop where
  key : s.key = s₀.key
  good : s.good = BitVec.ofNat 32 seen.length
  lost : s.lost = BitVec.ofInt 32 (top - 29 - seen.length)
  sent : ∀ p ∈ seen, 29 < p ∧ p ≤ 29 + count
  highest : top = 29 ∨ top ∈ seen

/-- An accepted packet counts as good; the packets it jumps over are lost, and one
that fills a gap is lost no longer. -/
theorem Decrypts.counts {s s' : CryptState receiverDst dst} {buf : Bytes}
    {result : Io (VoicePacket dst)} (h : Decrypts aes s buf (.ok result) s') :
    s.tagMatches aes (s.nonceAt (buf.headD 0)) (buf.tail.take 3) (buf.tail.drop 3) = true ∧
      s'.key = s.key ∧ s'.good = s.good + 1 ∧
      s'.lost = s.lost + BitVec.ofInt 32 (max (s.lead (buf.headD 0)) 0 - 1) := by
  cases h with
  | @ahead nonce0 buf _ whole lead authentic =>
      refine ⟨authentic,rfl,rfl,?_⟩
      rw [List.headD_cons, max_eq_left lead.le]
      rfl
  | @behind nonce0 buf _ whole near behind unmarked authentic =>
      refine ⟨authentic,rfl,rfl,?_⟩
      rw [List.headD_cons, max_eq_right behind]
      rfl

namespace Counted

variable {count top : ℕ} {seen : List ℕ} {s₀ s : CryptState receiverDst dst}
  {cs : List (Call receiverDst dst)} {c : Call receiverDst dst}

theorem fresh (hgood : s₀.good = 0) (hlost : s₀.lost = 0) : Counted count s₀ s₀ 29 [] :=
  ⟨rfl,hgood,hlost,by simp,Or.inl rfl⟩

theorem accepts {p : ℕ} {result : Io (VoicePacket dst)}
    (h : Counted count s₀ c.before top seen)
    (hd : Decrypts aes c.before c.datagram (.ok result) c.after)
    (hp : (p : ℤ) = top + c.before.lead (c.datagram.headD 0))
    (hsent : 29 < p ∧ p ≤ 29 + count) :
    Counted count s₀ c.after (max top p) (p :: seen) := by
  obtain ⟨-,hkey,hgood,hlost⟩ := Decrypts.counts hd
  generalize c.before.lead (c.datagram.headD 0) = lead at hp hlost
  refine ⟨hkey.trans h.key,?_,?_,?_,?_⟩
  · rw [hgood, h.good, List.length_cons, BitVec.ofNat_add]
    rfl
  · rw [hlost, h.lost, ← BitVec.ofInt_add]
    congr 1
    push_cast [List.length_cons]
    omega
  · intro q hq
    rcases List.mem_cons.mp hq with rfl | hq
    · exact hsent
    · exact h.sent q hq
  · rcases le_total top p with hle | hle
    · exact Or.inr (by simp [max_eq_right hle])
    · rw [max_eq_left hle]
      exact h.highest.imp_right (List.mem_cons_of_mem p)

/-- The counters of a run are exact, the numbers being small. -/
theorem exact {base : U128} (hw : Windowed (base - 29) cs s top seen)
    (h : Counted count s₀ s top seen) (hcount : count < 2 ^ 31) :
    Exact base cs s := by
  have hpos : ∀ p ∈ seen, position (base - 29) p = position base (p - 29) := fun p hp => by
    have := h.sent p hp
    rw [← position_sub_add base (p - 29), Nat.add_sub_cancel' (by omega)]
  have hacc : acceptedNonces cs = ((seen.map (· - 29)).map (position base)).reverse := by
    rw [hw.accepted, List.map_map]
    exact congrArg _ (List.map_congr_left hpos)
  have hnodup : (seen.map (· - 29)).Nodup := by
    refine (List.nodup_map_iff_inj_on hw.inv.nodup).mpr fun p hp q hq hpq => ?_
    have := h.sent p hp
    have := h.sent q hq
    omega
  have hrange : ∀ q ∈ seen.map (· - 29), 1 ≤ q ∧ q ≤ top - 29 := by
    intro q hq
    obtain ⟨p,hp,rfl⟩ := List.mem_map.mp hq
    have := h.sent p hp
    have : p ≤ top := hw.inv.le_top p hp
    omega
  have htop : top - 29 < 2 ^ 31 := by
    rcases h.highest with rfl | htop
    · norm_num
    · have := h.sent top htop
      omega
  have hlen : seen.length ≤ top - 29 := by
    have := length_filter_notMem hnodup hrange
    have hsub : (seen.map (· - 29)).Subperm (List.range' 1 (top - 29)) :=
      hnodup.subperm fun q hq => List.mem_range'_1.mpr (by have := hrange q hq; omega)
    simpa using hsub.length_le
  have hmissing := missing_positions base (show top - 29 < 2 ^ 128 by omega) hnodup hrange
    (h.highest.imp (by omega) fun htop => List.mem_map.mpr ⟨top,htop,rfl⟩) hacc
  have hgood : (cs.filter Call.accepted).length = seen.length := by
    have := congrArg List.length hw.accepted
    simpa [acceptedNonces] using this
  have := hw.low
  refine ⟨?_,?_⟩
  · rw [h.good, hgood, BitVec.toNat_ofNat, Nat.mod_eq_of_lt]
    omega
  · have hcast : (top - 29 - seen.length : ℤ) = ((top - 29 - seen.length : ℕ) : ℤ) := by omega
    rw [h.lost, hmissing, List.length_map, hcast, BitVec.ofInt_natCast, BitVec.toNat_ofNat,
      Nat.mod_eq_of_lt]
    omega

/-- An honest datagram that authenticates does so under its own nonce. -/
theorem position_of_authentic {base : U128} {datagrams : List Bytes} {p : ℕ}
    (htags : TagsBind aes s₀ base datagrams) (hkey : s.key = s₀.key) {buf : Bytes}
    (hbuf : buf ∈ datagrams) (hp : p < 2 ^ 128) (hcount : datagrams.length < 2 ^ 31)
    (ht : s.tagMatches aes (position (base - 29) p) (buf.tail.take 3) (buf.tail.drop 3) = true) :
    29 < p ∧ p ≤ 29 + datagrams.length := by
  obtain ⟨i,hi,rfl⟩ := List.getElem_of_mem hbuf
  by_cases hn : position (base - 29) p = position base (i + 1)
  · rw [← position_sub_add base (i + 1)] at hn
    have := position_injOn hp (by omega) hn
    omega
  · have hfalse := htags i hi _ hn
    rw [tagMatches, ← hkey] at hfalse
    rw [tagMatches, hfalse] at ht
    cases ht

theorem step {base : U128} {datagrams : List Bytes} (htags : TagsBind aes s₀ base datagrams)
    (hcount : datagrams.length < 2 ^ 31) (hw : Windowed (base - 29) cs c.before top seen)
    (h : Counted datagrams.length s₀ c.before top seen)
    (hd : Decrypts aes c.before c.datagram c.result c.after) (hbuf : c.datagram ∈ datagrams)
    (hnear : ¬ FarBehind c.before c.datagram) :
    ∃ top' seen', Windowed (base - 29) (cs ++ [c]) c.after top' seen' ∧
      Counted datagrams.length s₀ c.after top' seen' := by
  have hb := c.before.lead_bounds (c.datagram.headD 0)
  have htop : top ≤ 29 + datagrams.length := by
    rcases h.highest with rfl | htop
    · omega
    · exact (h.sent top htop).2
  match hr : c.result with
  | .ok result =>
      rw [hr] at hd
      obtain ⟨p,hp,hn,hs',ht⟩ := Decrypts.takes hd hw.nonce hw.low
      have hauth := (Decrypts.counts hd).1
      rw [hn] at hauth
      have hsent := position_of_authentic htags h.key hbuf (by omega) hcount hauth
      exact ⟨_,_,hw.takes (by rw [Call.accepted, hr]; rfl) hn hs' ht (by omega),
        h.accepts hd hp hsent⟩
  | .error e =>
      rw [hr] at hd
      rw [Decrypts.refused hd hnear]
      exact ⟨_,_,hw.rejected (by rw [Call.accepted, hr]; rfl),h⟩

theorem of_run {base : U128} {datagrams : List Bytes} (htags : TagsBind aes s₀ base datagrams)
    (hnonce : s₀.decryptNonce = base) (hgood : s₀.good = 0) (hlost : s₀.lost = 0)
    (hcount : datagrams.length < 2 ^ 31) (hrun : Run aes s₀ cs s)
    (hcs : ∀ c ∈ cs, c.datagram ∈ datagrams ∧ ¬ FarBehind c.before c.datagram) :
    ∃ top seen, Windowed (base - 29) cs s top seen ∧
      Counted datagrams.length s₀ s top seen := by
  induction hrun with
  | nil => exact ⟨29,[],hnonce ▸ Windowed.fresh s₀,fresh hgood hlost⟩
  | @snoc cs c run hd ih =>
      obtain ⟨top,seen,hw,h⟩ := ih fun c hc => hcs c (List.mem_append_left _ hc)
      obtain ⟨hbuf,hnear⟩ := hcs c (by simp)
      exact step htags hcount hw h hd hbuf hnear

end Counted

theorem datagram_mem {mode : Overflow} {s : CryptState receiverDst dst} {bufs : List Bytes}
    {c : Call receiverDst dst} (h : c ∈ calls mode aes s bufs) : c.datagram ∈ bufs := by
  induction bufs generalizing s with
  | nil => simp [calls] at h
  | cons buf bufs ih =>
      cases hd : decrypt mode aes s buf with
      | error _ => simp [calls, hd] at h
      | ok result =>
          rw [calls, hd] at h
          rcases List.mem_cons.mp h with rfl | h
          · exact List.mem_cons_self
          · exact List.mem_cons_of_mem _ (ih h)

/-- Every call of an honest run without a datagram far behind leaves exact counters. -/
theorem counters_exact (mode : Overflow) (aes : Key → Equiv.Perm U128)
    (sender : CryptState dst senderDst) (receiver : CryptState receiverDst dst)
    (packets : List (VoicePacket dst)) (bufs : List Bytes)
    (hnonce : receiver.decryptNonce = sender.encryptNonce)
    (hgood : receiver.good = 0) (hlost : receiver.lost = 0) (hpackets : packets.length < 2 ^ 31)
    (hhonest : ∀ buf ∈ bufs, buf ∈ sent aes sender packets)
    (htags : TagsBind aes receiver sender.encryptNonce (sent aes sender packets))
    (hnear : ∀ c ∈ calls mode aes receiver bufs, ¬ FarBehind c.before c.datagram) :
    AtEachCall (fun earlier c => Exact sender.encryptNonce (earlier ++ [c]) c.after)
      (calls mode aes receiver bufs) := by
  rw [← length_sent aes sender] at hpackets
  obtain ⟨s,hrun⟩ := Run.of_calls mode aes receiver bufs
  intro i hi
  obtain ⟨hbefore,hd⟩ := hrun.atEachCall i hi
  have hcs : ∀ c ∈ (calls mode aes receiver bufs).take i ++ [(calls mode aes receiver bufs)[i]],
      c.datagram ∈ sent aes sender packets ∧ ¬ FarBehind c.before c.datagram := by
    intro c hc
    rw [← List.take_succ_eq_append_getElem hi] at hc
    have hc := List.mem_of_mem_take hc
    exact ⟨hhonest _ (datagram_mem hc),hnear c hc⟩
  obtain ⟨top,seen,hw,h⟩ :=
    Counted.of_run htags hnonce hgood hlost hpackets (hbefore.snoc hd) hcs
  exact h.exact hw hpackets

/-! ## Thirty-one pings -/

def client : CryptState .serverbound .clientbound :=
  newFrom (Vector.replicate 16 0) (Vector.replicate 16 0) (Vector.replicate 16 0)

noncomputable def pings : List Bytes := sent poured client (List.replicate 31 (.ping 0))

/-- The pings with the given numbers, counted from zero. -/
noncomputable def delivered (is : List ℕ) : List Bytes := is.map (pings.getD · [])

theorem length_pings : pings.length = 31 :=
  (length_sent ..).trans (List.length_replicate ..)

theorem delivered_mem {is : List ℕ} (h : ∀ i ∈ is, i < 31) : ∀ buf ∈ delivered is, buf ∈ pings := by
  intro buf hbuf
  obtain ⟨i,hi,rfl⟩ := List.mem_map.mp hbuf
  have hlength : i < pings.length := by rw [length_pings]; exact h i hi
  rw [List.getD_eq_getElem?_getD, List.getElem?_eq_getElem hlength]
  exact List.getElem_mem hlength

theorem tagsBind_pings : TagsBind poured fromZero 0 pings := by
  have htold : ∀ i, (h : i < pings.length) → Told pings[i] (position 0 (i + 1)) := by
    decide +kernel
  exact fun i hi => (htold i hi).binds

/-- The second ping is lost and the third arrives twice. -/
theorem counters_exact_pings :
    AtEachCall (fun earlier c => Exact 0 (earlier ++ [c]) c.after)
      (calls .panic poured fromZero (delivered [0,2,2])) ∧
    (calls .panic poured fromZero (delivered [0,2,2])).map
      (fun c => (c.accepted,c.after.good,c.after.lost)) = [(true,1,0),(true,2,1),(false,2,1)] :=
  ⟨counters_exact .panic poured client fromZero (List.replicate 31 (.ping 0)) _ rfl rfl rfl
    (by decide) (delivered_mem (by decide)) tagsBind_pings (by decide +kernel),by decide +kernel⟩

/-- Ping 31 arrives, ping 1 is thirty behind and moves the receiver back, and a
second copy of ping 31 is accepted and twenty-nine pings are lost again. -/
theorem counters_inexact : ¬ ∀ (mode : Overflow) (aes : Key → Equiv.Perm U128)
    (sender : CryptState .serverbound .clientbound)
    (receiver : CryptState .clientbound .serverbound)
    (packets : List (VoicePacket .serverbound)) (bufs : List Bytes),
    receiver.key = sender.key → receiver.decryptNonce = sender.encryptNonce →
    receiver.good = 0 → receiver.late = 0 → receiver.lost = 0 →
    packets.length < 2 ^ 31 → bufs.length < 2 ^ 31 →
    (∀ buf ∈ bufs, buf ∈ sent aes sender packets) →
    TagsBind aes receiver sender.encryptNonce (sent aes sender packets) →
    AtEachCall (fun earlier c => Exact sender.encryptNonce (earlier ++ [c]) c.after)
      (calls mode aes receiver bufs) := by
  intro h
  have hexact := h .panic poured client fromZero (List.replicate 31 (.ping 0))
    (delivered [30,0,30]) rfl rfl rfl rfl rfl (by decide) (by decide)
    (delivered_mem (by decide)) tagsBind_pings 2 (by decide +kernel)
  have hlost := hexact.2
  revert hlost
  decide +kernel

end Atof.HonestNetwork
