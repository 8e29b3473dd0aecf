import Atof.Forgery
import Atof.Offset

/-!
# What two buffers ask the cipher

Encrypting a buffer and decrypting another under the same nonce put a list of forms
into the cipher. Here the encryption is given its answers so that every whole block
comes out as the same word and the last piece as zeros. Decryption of whole blocks
asks for the same points again or for new ones, and where they are new the answer
can be chosen.
-/
namespace Atof.Dialogue
open Rust BigEndian Ocb OcbBlocks Doubling Matching Offset Forgery

/-- The cipher takes each form to its answer. -/
def Obeys (aes : Equiv.Perm U128) (d : U128) (ps : List (Form × Form)) : Prop :=
  ∀ p ∈ ps, aes (p.1.eval d) = p.2.eval d

/-- Blocks under one offset after another. -/
def blockPairs : ℕ → List U128 → List U128 → List (Form × Form)
  | i, m :: ms, c :: cs => (⟨.pow (i + 1),m⟩,⟨.pow (i + 1),c⟩) :: blockPairs (i + 1) ms cs
  | _, _, _ => []

theorem length_blockPairs (i : ℕ) (ms cs : List U128) :
    (blockPairs i ms cs).length ≤ ms.length := by
  induction ms generalizing i cs with
  | nil => simp [blockPairs]
  | cons m ms ih =>
      cases cs with
      | nil => simp [blockPairs]
      | cons c cs => simpa [blockPairs] using ih (i + 1) cs

theorem mem_blockPairs {i : ℕ} {ms cs : List U128} {p : Form × Form} (h : p ∈ blockPairs i ms cs) :
    ∃ (j : ℕ) (m c : U128), ms[j]? = some m ∧ cs[j]? = some c ∧
      p = (⟨.pow (i + j + 1),m⟩,⟨.pow (i + j + 1),c⟩) := by
  induction ms generalizing i cs with
  | nil => cases h
  | cons m ms ih =>
      cases cs with
      | nil => cases h
      | cons c cs =>
          rcases List.mem_cons.mp h with rfl | h
          · exact ⟨0,m,c,rfl,rfl,rfl⟩
          · obtain ⟨j,m',c',hm,hc,rfl⟩ := ih h
            refine ⟨j + 1,m',c',hm,hc,?_⟩
            rw [show i + 1 + j + 1 = i + (j + 1) + 1 by omega]

theorem blockPairs_mem {ms cs : List U128} {i j : ℕ} {m c : U128} (hm : ms[j]? = some m)
    (hc : cs[j]? = some c) :
    ((⟨.pow (i + j + 1),m⟩,⟨.pow (i + j + 1),c⟩) : Form × Form) ∈ blockPairs i ms cs := by
  induction ms generalizing i j cs with
  | nil => cases hm
  | cons m' ms ih =>
      cases cs with
      | nil => cases hc
      | cons c' cs =>
          cases j with
          | zero =>
              cases hm
              cases hc
              exact List.mem_cons_self
          | succ j =>
              refine List.mem_cons_of_mem _ ?_
              rw [show i + (j + 1) + 1 = i + 1 + j + 1 by omega]
              exact ih hm hc

theorem enciphers_of_obeys {aes : Equiv.Perm U128} {d : U128} {i : ℕ} {ms cs : List U128}
    (hl : ms.length = cs.length) (h : Obeys aes d (blockPairs i ms cs)) :
    Enciphers aes (s2^[i] d) ms cs := by
  induction ms generalizing i cs with
  | nil =>
      cases cs with
      | nil => trivial
      | cons c cs => cases hl
  | cons m ms ih =>
      cases cs with
      | nil => cases hl
      | cons c cs =>
          have hfirst := h _ List.mem_cons_self
          simp only [Form.eval, Coef.eval, Function.iterate_succ_apply'] at hfirst
          refine ⟨hfirst,?_⟩
          rw [← Function.iterate_succ_apply' s2 i d]
          exact ih (Nat.succ.inj hl) fun p hp => h p (List.mem_cons_of_mem _ hp)

/-! ## The encryption -/

/-- What the encryption of these blocks asks, with answers that make every ciphertext
block `w`, the pad of the last piece `pad` and the tag `tag`. -/
def honest (ms : List U128) (last : Bytes) (w pad tag : U128) : List (Form × Form) :=
  (⟨.zero,0⟩,⟨.pow 0,0⟩) ::
    (⟨.pow (ms.length + 1),lenBlock last⟩,⟨.zero,pad⟩) ::
    (⟨.triple (ms.length + 1),xorAll ms ^^^ pad⟩,⟨.zero,tag⟩) ::
    blockPairs 0 ms (List.replicate ms.length w)

theorem toBe_zero : toBe 0 = 0 := by decide

theorem nonce_of_obeys {aes : Equiv.Perm U128} {d : U128} {ps : List (Form × Form)}
    (h : Obeys aes d ps) (hmem : (⟨.zero,0⟩,⟨.pow 0,0⟩) ∈ ps) : aes (toBe 0) = d := by
  have hnonce := h _ hmem
  rw [toBe_zero]
  simpa [Form.eval, Coef.eval] using hnonce

/-- A pad that ends in its own tail. -/
def padOf (last : Bytes) (filler : U8) : U128 :=
  ofBytes 128 (last ++ List.replicate (16 - last.length) filler)

theorem toBytes_padOf {last : Bytes} (h : last.length ≤ 16) (filler : U8) :
    toBytes 16 (padOf last filler) = last ++ List.replicate (16 - last.length) filler := by
  have hl : (last ++ List.replicate (16 - last.length) filler).length = 16 := by
    rw [List.length_append, List.length_replicate]
    omega
  have hb := toBytes_ofBytes (w := 128)
    (show 8 * (last ++ List.replicate (16 - last.length) filler).length ≤ 128 by rw [hl])
  rwa [hl] at hb

/-- Glued to such a pad the last piece is the pad, and masked it is zero. -/
theorem encryptLast_padOf {aes : Equiv.Perm U128} {offset checksum : U128} {last : Bytes}
    {filler : U8} (hl : last.length ≤ 16)
    (h : aes (lenBlock last ^^^ s2 offset) = padOf last filler) :
    encryptLast aes offset checksum last = (List.replicate last.length 0,
      aes (s2 offset ^^^ s2 (s2 offset) ^^^ (checksum ^^^ padOf last filler))) := by
  have hglue : ofBytes 128 (last ++ (toBytes 16 (padOf last filler)).drop last.length) =
      padOf last filler := by
    rw [toBytes_padOf hl, List.drop_left, padOf]
  rw [lenBlock] at h
  simp only [encryptLast, h, hglue, BitVec.xor_self]
  rw [toBytes_zero, List.take_replicate, Nat.min_eq_left hl]
  rfl

theorem encrypt_of_obeys {aes : Equiv.Perm U128} {d : U128} {ms : List U128} {last : Bytes}
    {w tag : U128} {filler : U8} (hl : Last ms last)
    (h : Obeys aes d (honest ms last w (padOf last filler) tag)) :
    ocbEncrypt aes 0 (words ms ++ last) =
      (words (List.replicate ms.length w) ++ List.replicate last.length 0,tag) := by
  have hblocks : Enciphers aes d ms (List.replicate ms.length w) :=
    enciphers_of_obeys (i := 0) (List.length_replicate).symm fun p hp => h p (by simp [honest, hp])
  have hpad := h (⟨.pow (ms.length + 1),lenBlock last⟩,⟨.zero,padOf last filler⟩) (by simp [honest])
  have htag := h (⟨.triple (ms.length + 1),xorAll ms ^^^ padOf last filler⟩,⟨.zero,tag⟩)
    (by simp [honest])
  simp only [Form.eval, Coef.eval, Function.iterate_succ_apply', zero_xor] at hpad htag
  rw [ocbEncrypt, nonce_of_obeys h (by simp [honest]), encryptBlocks_words 0 hl hblocks,
    encryptLast_padOf hl.1 ((congrArg aes (BitVec.xor_comm _ _)).trans hpad), zero_xor, htag]

/-! ## The decryption -/

/-- The last piece, padded with zeros. -/
def zeroed (last : Bytes) : U128 := padOf last 0#8

/-- The tag asks for a form that depends on the pad. -/
theorem decrypt_of_obeys {aes : Equiv.Perm U128} {d : U128} {ms cs : List U128} {last : Bytes}
    (hnonce : aes (toBe 0) = d) (hl : Last cs last) (hlen : ms.length = cs.length)
    (h : Obeys aes d (blockPairs 0 ms cs)) :
    (ocbDecrypt aes 0 (words cs ++ last)).2 =
      aes ((⟨.triple (cs.length + 1),xorAll ms ^^^ zeroed last⟩ : Form).eval d ^^^
        aes ((⟨.pow (cs.length + 1),lenBlock last⟩ : Form).eval d)) := by
  have hblocks : Enciphers aes d ms cs := enciphers_of_obeys (i := 0) hlen h
  rw [ocbDecrypt, hnonce, decryptBlocks_words 0 hl hblocks, decryptLast_tag]
  simp only [Form.eval, Coef.eval, Function.iterate_succ_apply', zeroed, padOf]
  congr 1
  rw [zero_xor, BitVec.xor_comm (lenBlock last)]
  simp only [BitVec.xor_assoc]

/-! ## The answers that are left open -/

/-- Blocks that the decryption of `cs` may give where the encryption of `ms` gave `w`
for every block, and was asked for `l` after them. -/
def Answers (w l : U128) (ms ms' cs : List U128) : Prop :=
  ms'.length = cs.length ∧ ∀ (j : ℕ) (m' c : U128), ms'[j]? = some m' → cs[j]? = some c →
    (m' = (ms[j]?).getD l ↔ j < ms.length ∧ c = w)

theorem Answers.nil (w l : U128) (ms : List U128) : Answers w l ms [] [] :=
  ⟨rfl,fun _ _ _ hm => by cases hm⟩

theorem Answers.cons {w l m' c : U128} {ms ms' cs : List U128}
    (hhead : m' = ms.head?.getD l ↔ ms ≠ [] ∧ c = w) (h : Answers w l ms.tail ms' cs) :
    Answers w l ms (m' :: ms') (c :: cs) := by
  refine ⟨by simp [h.1],fun j m'' c'' hm hc => ?_⟩
  cases j with
  | zero =>
      cases hm
      cases hc
      rw [← List.head?_eq_getElem?, hhead, List.length_pos_iff]
  | succ j =>
      have hj := h.2 j m'' c'' hm hc
      rw [List.getElem?_tail, List.length_tail] at hj
      rw [hj]
      exact and_congr_left fun _ => by omega

/-- Unless all blocks are the encryption's own, they can be made to add up to something
else. -/
theorem exists_answers (w l : U128) (ms cs : List U128) (bad : U128) :
    (∃ ms', Answers w l ms ms' cs ∧ xorAll ms' ≠ bad) ∨
      (cs = List.replicate cs.length w ∧ cs.length ≤ ms.length ∧
        Answers w l ms (ms.take cs.length) cs) := by
  induction cs generalizing ms bad with
  | nil => exact Or.inr ⟨rfl,Nat.zero_le _,by simpa using Answers.nil w l ms⟩
  | cons c cs ih =>
      by_cases hc : ms ≠ [] ∧ c = w
      · obtain ⟨hne,rfl⟩ := hc
        obtain ⟨m,ms,rfl⟩ := List.exists_cons_of_ne_nil hne
        have hhead : m = (m :: ms).head?.getD l ↔ m :: ms ≠ [] ∧ c = c :=
          iff_of_true rfl ⟨hne,rfl⟩
        rcases ih ms (m ^^^ bad) with ⟨ms',hans,hsum⟩ | ⟨hall,hlen,hans⟩
        · refine Or.inl ⟨m :: ms',Answers.cons hhead hans,fun hbad => hsum ?_⟩
          rw [← hbad, xorAll_cons, xor_cancel_left]
        · refine Or.inr ⟨?_,by simpa using hlen,Answers.cons hhead hans⟩
          rw [List.length_cons, List.replicate_succ, ← hall]
      · obtain ⟨tail,hans⟩ : ∃ ms', Answers w l ms.tail ms' cs := by
          rcases ih ms.tail bad with ⟨ms',hans,-⟩ | ⟨-,-,hans⟩
          · exact ⟨ms',hans⟩
          · exact ⟨_,hans⟩
        obtain ⟨m',hm'⟩ := exists_notMem [ms.head?.getD l,bad ^^^ xorAll tail] (by
          rw [BindingCipher.card_bitVec]
          norm_num)
        simp only [List.mem_cons, List.not_mem_nil, or_false, not_or] at hm'
        refine Or.inl ⟨m' :: tail,Answers.cons (iff_of_false hm'.1 hc) hans,fun hbad => hm'.2 ?_⟩
        rw [← hbad, xorAll_cons, BitVec.xor_assoc, BitVec.xor_self, BitVec.xor_zero]

/-! ## Both buffers together -/

theorem blockPairs_matching (i : ℕ) (ms cs : List U128) : IsMatching (blockPairs i ms cs) := by
  intro p hp q hq
  obtain ⟨j,m,c,hm,hc,rfl⟩ := mem_blockPairs hp
  obtain ⟨j',m',c',hm',hc',rfl⟩ := mem_blockPairs hq
  by_cases hj : j = j'
  · subst hj
    obtain rfl := Option.some.inj (hm.symm.trans hm')
    obtain rfl := Option.some.inj (hc.symm.trans hc')
    exact iff_of_true rfl rfl
  · exact iff_of_false (by simp [hj]) (by simp [hj])

/-- The encryption's pairs and those of the whole blocks of a decryption. -/
def dialogue (ms : List U128) (last : Bytes) (w pad tag : U128) (ms' cs : List U128) :
    List (Form × Form) := honest ms last w pad tag ++ blockPairs 0 ms' cs

theorem dialogue_matching {ms ms' cs : List U128} {last : Bytes} {w pad tag : U128}
    (h : Answers w (lenBlock last) ms ms' cs) (hne : pad ≠ tag) :
    IsMatching (dialogue ms last w pad tag ms' cs) := by
  have hblocks : IsMatching (blockPairs 0 ms (List.replicate ms.length w) ++ blockPairs 0 ms' cs) := by
    refine matching_append (blockPairs_matching 0 _ _) (blockPairs_matching 0 _ _) ?_
    intro p hp q hq
    obtain ⟨j,m,c,hm,hc,rfl⟩ := mem_blockPairs hp
    obtain ⟨j',m',c',hm',hc',rfl⟩ := mem_blockPairs hq
    by_cases hj : j = j'
    · subst hj
      have hlt : j < ms.length := (List.getElem?_eq_some_iff.mp hm).1
      obtain rfl := List.eq_of_mem_replicate (List.mem_of_getElem? hc)
      have hans := h.2 j m' c' hm' hc'
      rw [hm, Option.getD_some] at hans
      simp only [Form.mk.injEq, true_and]
      rw [eq_comm, hans, eq_comm]
      exact and_iff_right hlt
    · exact iff_of_false (by simp [hj]) (by simp [hj])
  have hmem {p : Form × Form}
      (hp : p ∈ blockPairs 0 ms (List.replicate ms.length w) ++ blockPairs 0 ms' cs) :
      ∃ (i : ℕ) (m c : U128), p = (⟨.pow (i + 1),m⟩,⟨.pow (i + 1),c⟩) ∧
        (i = ms.length → m ≠ lenBlock last) := by
    rcases List.mem_append.mp hp with hp | hp
    · obtain ⟨j,m,c,hm,hc,rfl⟩ := mem_blockPairs hp
      have hlt : j < ms.length := (List.getElem?_eq_some_iff.mp hm).1
      exact ⟨j,m,c,by rw [Nat.zero_add],fun hj => absurd hlt (by omega)⟩
    · obtain ⟨j,m,c,hm,hc,rfl⟩ := mem_blockPairs hp
      refine ⟨j,m,c,by rw [Nat.zero_add],fun hj heq => ?_⟩
      have hans := h.2 j m c hm hc
      rw [hj, List.getElem?_eq_none_iff.mpr le_rfl, Option.getD_none] at hans
      exact absurd (hans.mp heq).1 (lt_irrefl _)
  refine matching_cons.mpr ⟨matching_cons.mpr ⟨matching_cons.mpr ⟨hblocks,?_⟩,?_⟩,?_⟩
  · intro q hq
    obtain ⟨i,m,c,rfl,-⟩ := hmem hq
    exact iff_of_false (by simp) (by simp)
  · intro q hq
    rcases List.mem_cons.mp hq with rfl | hq
    · exact iff_of_false (by simp) (by simp [hne])
    · obtain ⟨i,m,c,rfl,hlen⟩ := hmem hq
      refine iff_of_false ?_ (by simp)
      simp only [Form.mk.injEq, Coef.pow.injEq, not_and]
      exact fun hi heq => hlen (by omega) heq.symm
  · intro q hq
    rcases List.mem_cons.mp hq with rfl | hq
    · exact iff_of_false (by simp) (by simp)
    rcases List.mem_cons.mp hq with rfl | hq
    · exact iff_of_false (by simp) (by simp)
    · obtain ⟨i,m,c,rfl,-⟩ := hmem hq
      exact iff_of_false (by simp) (by simp)

theorem dialogue_small {ms ms' cs : List U128} {last : Bytes} {w pad tag : U128}
    (hms : ms.length < 2 ^ 59) (hcs : cs.length < 2 ^ 59) :
    ∀ p ∈ dialogue ms last w pad tag ms' cs, SmallPair p := by
  have hblock {ms cs : List U128} (hcs : cs.length < 2 ^ 59) :
      ∀ p ∈ blockPairs 0 ms cs, SmallPair p := by
    intro p hp
    obtain ⟨j,m,c,hm,hc,rfl⟩ := mem_blockPairs hp
    have hlt : j < cs.length := (List.getElem?_eq_some_iff.mp hc).1
    have hsmall : (Coef.pow (0 + j + 1)).Small := by
      simp only [Coef.Small]
      omega
    exact ⟨hsmall,hsmall⟩
  intro p hp
  rcases List.mem_append.mp hp with hp | hp
  · rcases List.mem_cons.mp hp with rfl | hp
    · exact ⟨trivial,by norm_num [Coef.Small]⟩
    rcases List.mem_cons.mp hp with rfl | hp
    · exact ⟨by simp only [Coef.Small]; omega,trivial⟩
    rcases List.mem_cons.mp hp with rfl | hp
    · exact ⟨by simp only [Coef.Small]; omega,trivial⟩
    · exact hblock (by rwa [List.length_replicate]) p hp
  · exact hblock hcs p hp

theorem length_dialogue {ms ms' cs : List U128} {last : Bytes} {w pad tag : U128}
    (hms : ms.length < 2 ^ 59) (hms' : ms'.length < 2 ^ 59) :
    (dialogue ms last w pad tag ms' cs).length < 2 ^ 61 - 2 := by
  have h := length_blockPairs 0 ms (List.replicate ms.length w)
  have h' := length_blockPairs 0 ms' cs
  simp only [dialogue, honest, List.length_append, List.length_cons]
  omega

/-- Every pair, by what asked for it. -/
theorem mem_dialogue {ms ms' cs : List U128} {last : Bytes} {w pad tag : U128} {p : Form × Form}
    (h : p ∈ dialogue ms last w pad tag ms' cs) :
    p = (⟨.zero,0⟩,⟨.pow 0,0⟩) ∨ p = (⟨.pow (ms.length + 1),lenBlock last⟩,⟨.zero,pad⟩) ∨
    p = (⟨.triple (ms.length + 1),xorAll ms ^^^ pad⟩,⟨.zero,tag⟩) ∨
    (∃ (j : ℕ) (m : U128), ms[j]? = some m ∧ p = (⟨.pow (j + 1),m⟩,⟨.pow (j + 1),w⟩)) ∨
    ∃ (j : ℕ) (m c : U128), j < cs.length ∧ p = (⟨.pow (j + 1),m⟩,⟨.pow (j + 1),c⟩) := by
  rcases List.mem_append.mp h with h | h
  · rcases List.mem_cons.mp h with rfl | h
    · exact Or.inl rfl
    rcases List.mem_cons.mp h with rfl | h
    · exact Or.inr (Or.inl rfl)
    rcases List.mem_cons.mp h with rfl | h
    · exact Or.inr (Or.inr (Or.inl rfl))
    · obtain ⟨j,m,c,hm,hc,rfl⟩ := mem_blockPairs h
      obtain rfl := List.eq_of_mem_replicate (List.mem_of_getElem? hc)
      exact Or.inr (Or.inr (Or.inr (Or.inl ⟨j,m,hm,by rw [Nat.zero_add]⟩)))
  · obtain ⟨j,m,c,-,hc,rfl⟩ := mem_blockPairs h
    have hlt : j < cs.length := (List.getElem?_eq_some_iff.mp hc).1
    exact Or.inr (Or.inr (Or.inr (Or.inr ⟨j,m,c,hlt,by rw [Nat.zero_add]⟩)))

theorem sent_mem {ms ms' cs : List U128} {last : Bytes} {w pad tag m : U128} {j : ℕ}
    (h : ms[j]? = some m) : ((⟨.pow (j + 1),m⟩,⟨.pow (j + 1),w⟩) : Form × Form) ∈
      dialogue ms last w pad tag ms' cs := by
  have hlt : j < ms.length := (List.getElem?_eq_some_iff.mp h).1
  have hw : (List.replicate ms.length w)[j]? = some w := by simp [hlt]
  have hmem := blockPairs_mem (i := 0) h hw
  rw [Nat.zero_add] at hmem
  simp [dialogue, honest, hmem]

end Atof.Dialogue
