import Atof.Dialogue

/-!
# Which plaintexts can be forged

A forger does not know the cipher, so what it returns fits every cipher that gives
the dialogue it saw. If its buffer asks for a point that is new, the answer can be
one that refutes it. The points of the encryption come again at the pad and at the
tag only, and the words the encryption was given are such that the tag is an old
point in two cases: it is a masked block, of which one bit is open, or it is the
encryption's pad, and then the plaintext ends in a block that is a length.
-/
namespace Atof.Forgery
open Rust BigEndian Ocb OcbBlocks Doubling Matching Offset Dialogue

/-! ## Tag bytes -/

theorem msb_of_tagBytes {x y : U128} (h : tagBytes x = tagBytes y) : x.msb = y.msb := by
  have hfirst : (x >>> 120).setWidth 8 = (y >>> 120).setWidth 8 := (List.cons.inj h).1
  have hbit := congrArg (fun b : U8 => b.getLsbD 7) hfirst
  simpa [BitVec.msb_eq_getLsbD_last] using hbit

/-- Any few words and any tag bytes can be avoided. -/
theorem exists_tag (l : List U128) (hl : l.length < 2 ^ 62) (t : Bytes) :
    ∃ u, u ∉ l ∧ tagBytes u ≠ t := by
  let top : U128 := 1#128 <<< 127
  obtain ⟨u,hu⟩ := exists_notMem (l ++ l.map (· ^^^ top)) (by
    rw [BindingCipher.card_bitVec, List.length_append, List.length_map]
    omega)
  rw [List.mem_append, not_or] at hu
  by_cases ht : tagBytes u = t
  · refine ⟨u ^^^ top,fun h => hu.2 (List.mem_map.mpr ⟨_,h,?_⟩),fun htop => ?_⟩
    · rw [BitVec.xor_assoc, BitVec.xor_self, BitVec.xor_zero]
    · have hmsb := msb_of_tagBytes (htop.trans ht.symm)
      rw [BitVec.msb_xor, show top.msb = true by decide] at hmsb
      cases hu : u.msb <;> simp [hu] at hmsb
  · exact ⟨u,hu.1,ht⟩

/-- A new point can be answered so. -/
theorem exists_fresh {ps : List (Form × Form)} (h : IsMatching ps) (hlen : ps.length < 2 ^ 61)
    {key : Form} (hkey : ∀ q ∈ ps, key ≠ q.1) (avoid : U128) (t : Bytes) :
    ∃ u, u ≠ avoid ∧ tagBytes u ≠ t ∧ IsMatching ((key,⟨.zero,u⟩) :: ps) := by
  obtain ⟨u,hu,ht⟩ := exists_tag (avoid :: ps.map fun q => q.2.const)
    (by simp only [List.length_cons, List.length_map]; omega) t
  rw [List.mem_cons, not_or] at hu
  refine ⟨u,hu.1,ht,matching_fresh h hkey fun q hq heq => hu.2 ?_⟩
  exact List.mem_map.mpr ⟨q,hq,by rw [← heq]⟩

/-! ## Last pieces -/

theorem zeroed_eq_zero {last : Bytes} (hl : last.length ≤ 16) (h : zeroed last = 0) :
    last = List.replicate last.length 0 := by
  have hbytes := toBytes_padOf hl 0#8
  rw [show padOf last 0#8 = 0#128 from h, toBytes_zero] at hbytes
  have htake := congrArg (List.take last.length) hbytes
  rwa [List.take_left, List.take_replicate, Nat.min_eq_left hl, eq_comm] at htake

theorem zeroed_eq_one {last : Bytes} (hl : last.length ≤ 16) (h : zeroed last = 1) :
    last.length = 16 := by
  by_contra hne
  have hbytes := toBytes_padOf hl 0#8
  rw [show padOf last 0#8 = 1 from h] at hbytes
  have hend := congrArg (fun bs : Bytes => bs[15]?) hbytes
  simp only [List.getElem?_append_right (show last.length ≤ 15 by omega), List.getElem?_replicate]
    at hend
  rw [if_pos (by omega)] at hend
  exact absurd hend (by decide)

theorem lenBlock_injective {last last' : Bytes} (hl : last.length ≤ 16) (hl' : last'.length ≤ 16)
    (h : lenBlock last = lenBlock last') : last.length = last'.length := by
  have htoNat := congrArg BitVec.toNat h
  simp only [lenBlock, BitVec.toNat_ofNat] at htoNat
  omega

/-! ## Refutations -/

/-- Some cipher gives the encryption its answers and does not take the forged tag. -/
def Refuted (ms : List U128) (last : Bytes) (w pad tag : U128) (forged : Bytes × Bytes) : Prop :=
  ∃ aes d, Obeys aes d (honest ms last w pad tag) ∧
    tagBytes (ocbDecrypt aes 0 forged.1).2 ≠ forged.2

section
variable {ms ms' cs : List U128} {last last' t : Bytes} {w pad tag : U128}

/-- The first answers of a dialogue, and the tag that the decryption comes to. -/
theorem obeys_dialogue {aes : Equiv.Perm U128} {d : U128} {ps : List (Form × Form)}
    (h : Obeys aes d ps) (hps : dialogue ms last w pad tag ms' cs ⊆ ps)
    (hans : Answers w (lenBlock last) ms ms' cs) (hl' : Last cs last') :
    Obeys aes d (honest ms last w pad tag) ∧ (ocbDecrypt aes 0 (words cs ++ last')).2 =
      aes ((⟨.triple (cs.length + 1),xorAll ms' ^^^ zeroed last'⟩ : Form).eval d ^^^
        aes ((⟨.pow (cs.length + 1),lenBlock last'⟩ : Form).eval d)) := by
  have hhonest : Obeys aes d (honest ms last w pad tag) := fun p hp =>
    h p (hps (List.mem_append_left _ hp))
  refine ⟨hhonest,decrypt_of_obeys (nonce_of_obeys hhonest (by simp [honest])) hl' hans.1 ?_⟩
  exact fun p hp => h p (hps (List.mem_append_right _ hp))

/-- The tag is at a new point. -/
theorem refuted_of_fresh {ps : List (Form × Form)} (h : IsMatching ps)
    (hsmall : ∀ p ∈ ps, SmallPair p) (hlen : ps.length < 2 ^ 61 - 1)
    (hps : dialogue ms last w pad tag ms' cs ⊆ ps)
    (hans : Answers w (lenBlock last) ms ms' cs) (hl' : Last cs last') (key : Form)
    (hcoef : key.coef.Small) (hkey : ∀ q ∈ ps, key ≠ q.1)
    (hquery : ∀ aes d, Obeys aes d ps →
      (⟨.triple (cs.length + 1),xorAll ms' ^^^ zeroed last'⟩ : Form).eval d ^^^
        aes ((⟨.pow (cs.length + 1),lenBlock last'⟩ : Form).eval d) = key.eval d) :
    Refuted ms last w pad tag (words cs ++ last',t) := by
  obtain ⟨u,-,ht,hu⟩ := exists_fresh h (by omega) hkey 0 t
  obtain ⟨aes,d,-,hobeys⟩ := exists_cipher hu (by
    intro p hp
    rcases List.mem_cons.mp hp with rfl | hp
    · exact ⟨hcoef,trivial⟩
    · exact hsmall p hp) (by rw [List.length_cons]; omega) 0 false
  have hrest : Obeys aes d ps := fun p hp => hobeys p (List.mem_cons_of_mem _ hp)
  obtain ⟨hhonest,htag⟩ := obeys_dialogue hrest hps hans hl'
  refine ⟨aes,d,hhonest,?_⟩
  have hvalue : aes (key.eval d) = (⟨.zero,u⟩ : Form).eval d := hobeys _ List.mem_cons_self
  rw [htag, hquery aes d hrest, hvalue, Form.eval, Coef.eval, zero_xor]
  exact ht

theorem xor_inside (a b x y : U128) :
    a ^^^ b ^^^ x ^^^ (a ^^^ y) = b ^^^ (x ^^^ y) := by
  rw [BitVec.xor_comm a b, BitVec.xor_assoc b a, BitVec.xor_assoc b, BitVec.xor_assoc a,
    xor_left_comm x, xor_cancel_left]

/-- The pad is at a new point, and its answer makes the tag's point new. -/
theorem refuted_of_pad (hms : ms.length < 2 ^ 59) (hcs : cs.length < 2 ^ 59) (hne : pad ≠ tag)
    (hl' : Last cs last')
    (hpiece : ¬ (cs.length = ms.length ∧ lenBlock last' = lenBlock last))
    (hblock : ms[cs.length]? ≠ some (lenBlock last')) :
    Refuted ms last w pad tag (words cs ++ last',t) := by
  obtain ⟨ms',hans⟩ : ∃ ms', Answers w (lenBlock last) ms ms' cs := by
    rcases exists_answers w (lenBlock last) ms cs 0 with ⟨ms',hans,-⟩ | ⟨-,-,hans⟩
    · exact ⟨ms',hans⟩
    · exact ⟨_,hans⟩
  have hmatch := dialogue_matching hans hne
  have hlen : (dialogue ms last w pad tag ms' cs).length < 2 ^ 61 - 2 :=
    length_dialogue hms (hans.1 ▸ hcs)
  have hkey : ∀ q ∈ dialogue ms last w pad tag ms' cs,
      (⟨.pow (cs.length + 1),lenBlock last'⟩ : Form) ≠ q.1 := by
    intro q hq heq
    rcases mem_dialogue hq with rfl | rfl | rfl | ⟨j,m,hm,rfl⟩ | ⟨j,m,c,hj,rfl⟩
    · cases heq
    · simp only [Form.mk.injEq, Coef.pow.injEq, Nat.add_right_cancel_iff] at heq
      exact hpiece heq
    · cases heq
    · simp only [Form.mk.injEq, Coef.pow.injEq, Nat.add_right_cancel_iff] at heq
      rw [← heq.1, ← heq.2] at hm
      exact hblock hm
    · simp only [Form.mk.injEq, Coef.pow.injEq, Nat.add_right_cancel_iff] at heq
      exact absurd hj (by omega)
  obtain ⟨p,hp,-,hmatch'⟩ := exists_fresh hmatch (by omega) hkey
    (xorAll ms' ^^^ zeroed last' ^^^ (xorAll ms ^^^ pad)) []
  have hsmall : (Coef.pow (cs.length + 1)).Small ∧ (Coef.triple (cs.length + 1)).Small := by
    simp only [Coef.Small]
    omega
  refine refuted_of_fresh hmatch' ?_ ?_ (List.subset_cons_self _ _) hans hl'
    ⟨.triple (cs.length + 1),xorAll ms' ^^^ zeroed last' ^^^ p⟩ hsmall.2 ?_ ?_
  · intro q hq
    rcases List.mem_cons.mp hq with rfl | hq
    · exact ⟨hsmall.1,trivial⟩
    · exact dialogue_small hms hcs q hq
  · rw [List.length_cons]
    omega
  · intro q hq heq
    rcases List.mem_cons.mp hq with rfl | hq
    · cases heq
    rcases mem_dialogue hq with rfl | rfl | rfl | ⟨j,m,hm,rfl⟩ | ⟨j,m,c,hj,rfl⟩
    · cases heq
    · cases heq
    · have hconst : xorAll ms' ^^^ zeroed last' ^^^ p = xorAll ms ^^^ pad :=
        congrArg Form.const heq
      exact hp (by rw [← hconst, xor_cancel_left])
    · cases heq
    · cases heq
  · intro aes d hobeys
    have hvalue := hobeys _ List.mem_cons_self
    rw [hvalue]
    simp only [Form.eval, Coef.eval, zero_xor, BitVec.xor_assoc]

/-- The pad is the encryption's, and the blocks make the tag's point new. -/
theorem refuted_of_piece (hms : ms.length < 2 ^ 59) (hne : pad ≠ tag) (hl : last.length ≤ 16)
    (hl' : Last cs last') (hcs : cs.length = ms.length) (hpiece : lenBlock last' = lenBlock last)
    (hnew : ¬ (cs = List.replicate ms.length w ∧ last' = List.replicate last.length 0)) :
    Refuted ms last w pad tag (words cs ++ last',t) := by
  obtain ⟨ms',hans,hsum⟩ : ∃ ms', Answers w (lenBlock last) ms ms' cs ∧
      xorAll ms' ≠ xorAll ms ^^^ zeroed last' := by
    rcases exists_answers w (lenBlock last) ms cs (xorAll ms ^^^ zeroed last') with h | ⟨hall,-,hans⟩
    · exact h
    refine ⟨_,hans,fun hsum => hnew ⟨hcs ▸ hall,?_⟩⟩
    rw [hcs, List.take_length] at hsum
    have hzero : zeroed last' = 0 := by
      have := congrArg (xorAll ms ^^^ ·) hsum
      simpa using this.symm
    rw [← lenBlock_injective hl'.1 hl hpiece]
    exact zeroed_eq_zero hl'.1 hzero
  have hlen : (dialogue ms last w pad tag ms' cs).length < 2 ^ 61 - 2 :=
    length_dialogue hms (hans.1 ▸ hcs ▸ hms)
  refine refuted_of_fresh (dialogue_matching hans hne) (dialogue_small hms (hcs ▸ hms)) (by omega)
    (List.Subset.refl _) hans hl' ⟨.triple (cs.length + 1),xorAll ms' ^^^ zeroed last' ^^^ pad⟩
    ?_ ?_ ?_
  · simp only [Coef.Small]
    omega
  · intro q hq heq
    rcases mem_dialogue hq with rfl | rfl | rfl | ⟨j,m,hm,rfl⟩ | ⟨j,m,c,hj,rfl⟩
    · cases heq
    · cases heq
    · have hconst : xorAll ms' ^^^ zeroed last' ^^^ pad = xorAll ms ^^^ pad :=
        congrArg Form.const heq
      refine hsum ?_
      rw [← (BitVec.xor_left_inj pad).mp hconst, BitVec.xor_assoc, BitVec.xor_self, BitVec.xor_zero]
    · cases heq
    · cases heq
  · intro aes d hobeys
    have hvalue := hobeys (⟨.pow (ms.length + 1),lenBlock last⟩,⟨.zero,pad⟩)
      (by simp [dialogue, honest])
    rw [hcs, hpiece, hvalue]
    simp only [Form.eval, Coef.eval, zero_xor, BitVec.xor_assoc]

/-- Where the pad is a masked block, its mask and the tag's cancel. -/
theorem query_of_block {aes : Equiv.Perm U128} {d : U128}
    (hobeys : Obeys aes d (dialogue ms last w pad tag ms' cs))
    (hblock : ms[cs.length]? = some (lenBlock last')) :
    (⟨.triple (cs.length + 1),xorAll ms' ^^^ zeroed last'⟩ : Form).eval d ^^^
      aes ((⟨.pow (cs.length + 1),lenBlock last'⟩ : Form).eval d) =
        (⟨.pow (cs.length + 2),xorAll ms' ^^^ zeroed last' ^^^ w⟩ : Form).eval d := by
  rw [hobeys _ (sent_mem hblock)]
  exact xor_inside _ _ _ _

/-- The pad is a masked block, and the tag's point is new. -/
theorem refuted_of_block (hms : ms.length < 2 ^ 59) (hne : pad ≠ tag) (hl' : Last cs last')
    (hblock : ms[cs.length]? = some (lenBlock last'))
    (hans : Answers w (lenBlock last) ms ms' cs)
    (hsum : xorAll ms' ^^^ zeroed last' ^^^ w ≠ (ms[cs.length + 1]?).getD (lenBlock last)) :
    Refuted ms last w pad tag (words cs ++ last',t) := by
  have hlt : cs.length < ms.length := (List.getElem?_eq_some_iff.mp hblock).1
  have hlen : (dialogue ms last w pad tag ms' cs).length < 2 ^ 61 - 2 :=
    length_dialogue hms (hans.1 ▸ hlt.trans hms)
  refine refuted_of_fresh (dialogue_matching hans hne) (dialogue_small hms (hlt.trans hms))
    (by omega) (List.Subset.refl _) hans hl'
    ⟨.pow (cs.length + 2),xorAll ms' ^^^ zeroed last' ^^^ w⟩ ?_ ?_ ?_
  · simp only [Coef.Small]
    omega
  · intro q hq heq
    rcases mem_dialogue hq with rfl | rfl | rfl | ⟨j,m,hm,rfl⟩ | ⟨j,m,c,hj,rfl⟩
    · cases heq
    · simp only [Form.mk.injEq, Coef.pow.injEq] at heq
      refine hsum ?_
      rw [heq.2, List.getElem?_eq_none_iff.mpr (by omega), Option.getD_none]
    · cases heq
    · simp only [Form.mk.injEq, Coef.pow.injEq] at heq
      refine hsum ?_
      rw [heq.2, show cs.length + 1 = j by omega, hm, Option.getD_some]
    · simp only [Form.mk.injEq, Coef.pow.injEq] at heq
      omega
  · exact fun aes d hobeys => query_of_block hobeys hblock

/-- The pad is a masked block and the tag another, of which either top bit will do. -/
theorem refuted_of_masked (hms : ms.length < 2 ^ 59) (hne : pad ≠ tag) (hl' : Last cs last')
    (hblock : ms[cs.length]? = some (lenBlock last'))
    (hans : Answers w (lenBlock last) ms ms' cs)
    (hsum : ms[cs.length + 1]? = some (xorAll ms' ^^^ zeroed last' ^^^ w)) :
    Refuted ms last w pad tag (words cs ++ last',t) := by
  have hlt : cs.length < ms.length := (List.getElem?_eq_some_iff.mp hblock).1
  have hlen : (dialogue ms last w pad tag ms' cs).length < 2 ^ 61 - 2 :=
    length_dialogue hms (hans.1 ▸ hlt.trans hms)
  by_contra hrefuted
  have htop (b : Bool) : ∃ x : U128, x.msb = (b ^^ w.msb) ∧ tagBytes x = t := by
    obtain ⟨aes,d,hb,hobeys⟩ := exists_cipher (dialogue_matching hans hne)
      (dialogue_small hms (hlt.trans hms)) (by omega) (cs.length + 2) b
    obtain ⟨hhonest,htag⟩ := obeys_dialogue hobeys (List.Subset.refl _) hans hl'
    refine ⟨(ocbDecrypt aes 0 (words cs ++ last')).2,?_,?_⟩
    · rw [htag, query_of_block hobeys hblock, hobeys _ (sent_mem hsum)]
      simp only [Form.eval, Coef.eval, BitVec.msb_xor]
      rw [hb]
    · by_contra ht
      exact hrefuted ⟨aes,d,hhonest,ht⟩
  obtain ⟨x,hx,hxt⟩ := htop false
  obtain ⟨y,hy,hyt⟩ := htop true
  have hmsb := msb_of_tagBytes (hxt.trans hyt.symm)
  rw [hx, hy] at hmsb
  cases hw : w.msb <;> simp [hw] at hmsb

/-- The pad is a masked block and the tag the encryption's pad. -/
theorem refuted_of_tag (hms : ms.length < 2 ^ 59) (hne : pad ≠ tag) (hl' : Last cs last')
    (hblock : ms[cs.length]? = some (lenBlock last'))
    (hans : Answers w (lenBlock last) ms ms' cs) (hcs : cs.length + 1 = ms.length)
    (hsum : xorAll ms' ^^^ zeroed last' ^^^ w = lenBlock last) (hpad : tagBytes pad ≠ t) :
    Refuted ms last w pad tag (words cs ++ last',t) := by
  have hlt : cs.length < 2 ^ 59 := by omega
  have hlen : (dialogue ms last w pad tag ms' cs).length < 2 ^ 61 - 2 :=
    length_dialogue hms (hans.1 ▸ hlt)
  obtain ⟨aes,d,-,hobeys⟩ := exists_cipher (dialogue_matching hans hne) (dialogue_small hms hlt)
    (by omega) 0 false
  obtain ⟨hhonest,htag⟩ := obeys_dialogue hobeys (List.Subset.refl _) hans hl'
  refine ⟨aes,d,hhonest,?_⟩
  have hvalue := hobeys (⟨.pow (ms.length + 1),lenBlock last⟩,⟨.zero,pad⟩)
    (by simp [dialogue, honest])
  rw [htag, query_of_block hobeys hblock, hsum, show cs.length + 2 = ms.length + 1 by omega, hvalue,
    Form.eval, Coef.eval, zero_xor]
  exact hpad

/-- The word that all blocks are encrypted to: the tag of a decryption that keeps all but
the last of them is then the old pad for one last piece only. -/
def wordOf (ms : List U128) (last : Bytes) : U128 := xorAll ms.dropLast ^^^ lenBlock last ^^^ 1

/-- Whatever else is returned is refuted, if the pad was chosen against it where few of
its bytes are known. -/
theorem refuted (hms : ms.length < 2 ^ 59) (hcs : cs.length < 2 ^ 59) (hl : Last ms last)
    (hl' : Last cs last') (hne : pad ≠ tag)
    (hnew : ¬ (cs = List.replicate ms.length (wordOf ms last) ∧
      last' = List.replicate last.length 0))
    (hpad : ms.getLast? = some 128#128 → tagBytes pad ≠ t) :
    Refuted ms last (wordOf ms last) pad tag (words cs ++ last',t) := by
  by_cases hpiece : cs.length = ms.length ∧ lenBlock last' = lenBlock last
  · exact refuted_of_piece hms hne hl.1 hl' hpiece.1 hpiece.2 hnew
  by_cases hblock : ms[cs.length]? = some (lenBlock last')
  swap
  · exact refuted_of_pad hms hcs hne hl' hpiece hblock
  have hlt : cs.length < ms.length := (List.getElem?_eq_some_iff.mp hblock).1
  rcases exists_answers (wordOf ms last) (lenBlock last) ms cs
    ((ms[cs.length + 1]?).getD (lenBlock last) ^^^ (zeroed last' ^^^ wordOf ms last)) with
    ⟨ms',hans,hsum⟩ | ⟨-,-,hans⟩
  · refine refuted_of_block hms hne hl' hblock hans fun heq => hsum ?_
    rw [← heq, BitVec.xor_assoc (xorAll ms'), BitVec.xor_assoc, BitVec.xor_self, BitVec.xor_zero]
  by_cases hsum : xorAll (ms.take cs.length) ^^^ zeroed last' ^^^ wordOf ms last =
      (ms[cs.length + 1]?).getD (lenBlock last)
  swap
  · exact refuted_of_block hms hne hl' hblock hans hsum
  cases hnext : ms[cs.length + 1]? with
  | some m =>
      rw [hnext, Option.getD_some] at hsum
      exact refuted_of_masked hms hne hl' hblock hans (hnext.trans (congrArg some hsum.symm))
  | none =>
      rw [hnext, Option.getD_none] at hsum
      have hlast : cs.length + 1 = ms.length := by
        have := List.getElem?_eq_none_iff.mp hnext
        omega
      refine refuted_of_tag hms hne hl' hblock hans hlast hsum (hpad ?_)
      have hdrop : ms.take cs.length = ms.dropLast := by
        rw [List.dropLast_eq_take, ← hlast, Nat.add_sub_cancel]
      have hone : zeroed last' = 1 := by
        rw [hdrop, wordOf, BitVec.xor_assoc, BitVec.xor_assoc (xorAll ms.dropLast), xor_left_comm (zeroed last'),
          xor_cancel_left, xor_left_comm (zeroed last')] at hsum
        refine BitVec.xor_eq_zero_iff.mp ((BitVec.xor_right_inj (lenBlock last)).mp ?_)
        rw [hsum, BitVec.xor_zero]
      rw [List.getLast?_eq_getElem?, ← hlast, Nat.add_sub_cancel, hblock, lenBlock,
        zeroed_eq_one hl'.1 hone]

end

/-! ## Every plaintext -/

/-- A short last piece leaves a byte of the pad's that the tag would show. -/
theorem exists_filler {last : Bytes} (hl : last.length < 3) (t : Bytes) :
    ∃ filler, tagBytes (padOf last filler) ≠ t := by
  have hbyte (filler : U8) : (tagBytes (padOf last filler))[2]? = some filler := by
    rw [tagBytes, toBytes_padOf (by omega), List.getElem?_take_of_lt (by norm_num),
      List.getElem?_append_right (by omega), List.getElem?_replicate, if_pos (by omega)]
  by_cases h : tagBytes (padOf last 0) = t
  · refine ⟨1,fun h' => ?_⟩
    have hsame := hbyte 0
    rw [h, ← h', hbyte 1] at hsame
    exact absurd hsame (by decide)
  · exact ⟨0,h⟩

/-- A tag besides the pad whose sent bytes are zeros. -/
theorem exists_zero_tag (pad : U128) : ∃ tag, pad ≠ tag ∧ tagBytes tag = [0,0,0] := by
  by_cases h : pad = 0
  · exact ⟨1,h ▸ by decide,by decide⟩
  · exact ⟨0,h,by decide⟩

theorem not_exposed {ms : List U128} {last : Bytes} (hl : last.length ≤ 16)
    (h : ¬ Exposed (words ms ++ last)) (hlast : ms.getLast? = some 128#128) : last.length < 3 := by
  by_contra h3
  refine h ⟨ms.dropLast,last,?_,by omega,hl⟩
  rw [List.dropLast_append_getLast? _ hlast]

/-- The words of a buffer that fits in memory. -/
theorem length_lt_of_words {ms : List U128} {last : Bytes}
    (h : (words ms ++ last).length < 2 ^ 63) : ms.length < 2 ^ 59 := by
  rw [List.length_append, length_words] at h
  omega

theorem no_forger {plain : Bytes} (hplain : plain.length < 2 ^ 63) (hexposed : ¬ Exposed plain)
    (F : Forger) : ∃ aes nonce, ¬ Forges aes nonce plain F := by
  by_contra hall
  simp only [not_exists, not_not] at hall
  obtain ⟨ms,last,rfl,hl⟩ := exists_words plain
  have hms := length_lt_of_words hplain
  let sent := words (List.replicate ms.length (wordOf ms last)) ++ List.replicate last.length 0
  generalize hforged : F (words ms ++ last) sent [0,0,0] = forged
  obtain ⟨filler,hfiller⟩ : ∃ filler, ms.getLast? = some 128#128 →
      tagBytes (padOf last filler) ≠ forged.2 := by
    by_cases hlast : ms.getLast? = some 128#128
    · obtain ⟨filler,h⟩ := exists_filler (not_exposed hl.1 hexposed hlast) forged.2
      exact ⟨filler,fun _ => h⟩
    · exact ⟨0,fun h => absurd h hlast⟩
  obtain ⟨tag,hne,htag⟩ := exists_zero_tag (padOf last filler)
  -- the same for every cipher that gives the encryption these answers
  have hwins {aes : Equiv.Perm U128} {d : U128}
      (h : Obeys aes d (honest ms last (wordOf ms last) (padOf last filler) tag)) :
      forged.1 ≠ sent ∧ forged.1.length < 2 ^ 63 ∧
        tagBytes (ocbDecrypt aes 0 forged.1).2 = forged.2 := by
    have hforges := hall aes 0
    simp only [Forges, encrypt_of_obeys hl h, htag] at hforges
    rw [hforged] at hforges
    exact hforges
  obtain ⟨aes,d,-,hobeys⟩ := exists_cipher (dialogue_matching (Answers.nil _ _ ms) hne)
    (dialogue_small hms (by norm_num)) ((length_dialogue hms (by norm_num)).trans (by norm_num))
    0 false
  obtain ⟨hnew,hlen,-⟩ := hwins fun p hp => hobeys p (List.mem_append_left _ hp)
  obtain ⟨cs,last',hbuf,hl'⟩ := exists_words forged.1
  obtain ⟨aes,d,hhonest,ht⟩ : Refuted ms last (wordOf ms last) (padOf last filler) tag forged := by
    have hrefuted := refuted (t := forged.2) hms (length_lt_of_words (hbuf ▸ hlen)) hl hl' hne
      (fun h => hnew (by rw [hbuf, h.1, h.2])) hfiller
    rwa [← hbuf] at hrefuted
  exact ht (hwins hhonest).2.2

/-- A plaintext can be forged, by one forger under every cipher and nonce, exactly if it
is exposed. -/
theorem forged_iff_exposed (plain : Bytes) (hplain : plain.length < 2 ^ 63) :
    (∃ F, ∀ aes nonce, Forges aes nonce plain F) ↔ Exposed plain := by
  constructor
  · rintro ⟨F,hF⟩
    by_contra hexposed
    obtain ⟨aes,nonce,h⟩ := no_forger hplain hexposed F
    exact h (hF aes nonce)
  · rintro ⟨ms,last,rfl,h3,hl⟩
    exact ⟨splice ms last,fun aes nonce => forges_splice aes nonce h3 hl hplain⟩

/-- A ping is not exposed. -/
theorem forged_iff_exposed_ping :
    (∃ F, ∀ aes nonce, Forges aes nonce [0x20,1] F) ↔ Exposed [0x20,1] :=
  forged_iff_exposed [0x20,1] (by decide)

end Atof.Forgery
