import Atof.Matching
import Atof.Period
import Atof.BindingCipher

/-!
# Offsets that nothing ties together

Everything that one run puts into the cipher or takes out of it is a constant plus
a doubling of the first offset, or such a doubling plus its own double, or a
constant alone. Two such values with different coefficients agree for one first
offset at most, so among `2 ^ 128` there is one for which only values that are
written alike agree, and one bit of it can be asked for as well. A matching
between forms is then met by a permutation.
-/
namespace Atof.Offset
open Rust Ocb Doubling Period Matching

inductive Coef where
  | zero
  | pow (i : ℕ)
  | triple (i : ℕ)
  deriving DecidableEq

namespace Coef

def eval : Coef → U128 → U128
  | zero, _ => 0
  | pow i, d => s2^[i] d
  | triple i, d => s2^[i] d ^^^ s2^[i + 1] d

/-- Far below the period. -/
def Small : Coef → Prop
  | zero => True
  | pow i => i < 2 ^ 60
  | triple i => i < 2 ^ 60

theorem eval_xor (c : Coef) (d d' : U128) : c.eval (d ^^^ d') = c.eval d ^^^ c.eval d' := by
  cases c with
  | zero => exact BitVec.xor_self.symm
  | pow i => exact iterate_s2_xor i d d'
  | triple i =>
      simp only [eval, iterate_s2_xor]
      ac_rfl

/-- The number of doublings that a coefficient stands for. -/
def shift : Coef → ℕ
  | zero => 0
  | pow i => i
  | triple i => i + tripling

theorem eval_eq_shift {c : Coef} (hc : c ≠ zero) (d : U128) : c.eval d = s2^[c.shift] d := by
  cases c with
  | zero => exact absurd rfl hc
  | pow i => rfl
  | triple i =>
      rw [shift, Function.iterate_add_apply, ← xor_s2, iterate_s2_xor, ← Function.iterate_succ_apply]
      rfl

theorem shift_inj {a b : Coef} (ha : a.Small) (hb : b.Small) (ha0 : a ≠ zero) (hb0 : b ≠ zero)
    (h : a.shift ≡ b.shift [MOD cycle]) : a = b := by
  have hmod : ∀ i j, i < 2 ^ 60 → j < 2 ^ 60 → i ≡ j [MOD cycle] → i = j := by
    intro i j hi hj h
    simp only [Nat.ModEq, cycle] at h
    omega
  cases a with
  | zero => exact absurd rfl ha0
  | pow i =>
      cases b with
      | zero => exact absurd rfl hb0
      | pow j => rw [hmod i j ha hb h]
      | triple j =>
          simp only [Nat.ModEq, cycle, shift, tripling, Small] at h ha hb
          omega
  | triple i =>
      cases b with
      | zero => exact absurd rfl hb0
      | pow j =>
          simp only [Nat.ModEq, cycle, shift, tripling, Small] at h ha hb
          omega
      | triple j => rw [hmod i j ha hb (Nat.ModEq.add_right_cancel' tripling h)]

theorem eval_ne {a b : Coef} (ha : a.Small) (hb : b.Small) (hab : a ≠ b) {d : U128} (hd : d ≠ 0) :
    a.eval d ≠ b.eval d := by
  have hzero : ∀ c : Coef, c ≠ zero → c.eval d ≠ 0 := by
    intro c hc h
    rw [eval_eq_shift hc] at h
    refine hd (iterate_s2_injective c.shift (h.trans ?_))
    exact (Function.iterate_fixed s2_zero _).symm
  by_cases ha0 : a = zero
  · subst ha0
    exact (hzero b hab.symm).symm
  by_cases hb0 : b = zero
  · subst hb0
    exact hzero a ha0
  intro h
  rw [eval_eq_shift ha0, eval_eq_shift hb0] at h
  exact hab (shift_inj ha hb ha0 hb0 (modEq_of_iterate_eq hd h))

end Coef

structure Form where
  coef : Coef
  const : U128
  deriving DecidableEq

namespace Form

def eval (f : Form) (d : U128) : U128 := f.coef.eval d ^^^ f.const

/-- Different coefficients agree for one offset at most. -/
theorem eval_unique {f g : Form} (hf : f.coef.Small) (hg : g.coef.Small) (hfg : f.coef ≠ g.coef)
    {d d' : U128} (h : f.eval d = g.eval d) (h' : f.eval d' = g.eval d') : d = d' := by
  by_contra hne
  have hd : d ^^^ d' ≠ 0 := fun h0 => hne (BitVec.xor_eq_zero_iff.mp h0)
  refine Coef.eval_ne hf hg hfg hd ?_
  have hx : f.eval d ^^^ f.eval d' = g.eval d ^^^ g.eval d' := by rw [h, h']
  have hcancel : ∀ a b c : U128, a ^^^ c ^^^ (b ^^^ c) = a ^^^ b := fun a b c => by
    rw [BitVec.xor_comm b, ← BitVec.xor_assoc, BitVec.xor_assoc a, BitVec.xor_self,
      BitVec.xor_zero]
  rwa [eval, eval, eval, eval, hcancel, hcancel, ← Coef.eval_xor, ← Coef.eval_xor] at hx

/-- The one offset at which two forms agree, if there is one. -/
noncomputable def meet (p : Form × Form) : U128 :=
  Classical.epsilon fun d => p.1.eval d = p.2.eval d

theorem eq_of_eval_eq {f g : Form} (hf : f.coef.Small) (hg : g.coef.Small) {d : U128}
    (hd : d ≠ meet (f,g)) (h : f.eval d = g.eval d) : f = g := by
  have hcoef : f.coef = g.coef := by
    by_contra hne
    have hmeet : f.eval (meet (f,g)) = g.eval (meet (f,g)) :=
      Classical.epsilon_spec (p := fun d => f.eval d = g.eval d) ⟨d,h⟩
    exact hd (eval_unique hf hg hne h hmeet)
  have hconst : f.const = g.const := by
    rw [eval, eval, hcoef] at h
    exact (BitVec.xor_right_inj _).mp h
  cases f
  cases g
  cases hcoef
  cases hconst
  rfl

end Form

/-- A form is used for a point of the cipher and for its image alike. -/
def SmallPair (p : Form × Form) : Prop := p.1.coef.Small ∧ p.2.coef.Small

/-- Moving the first offset by this much moves only the top bit after `e` doublings. -/
theorem exists_flip (e : ℕ) : ∃ x : U128, s2^[e] x = 1#128 <<< 127 :=
  Finite.surjective_of_injective (iterate_s2_injective e) _

theorem exists_offset (fs : List Form) (hsmall : ∀ f ∈ fs, f.coef.Small)
    (hlen : fs.length < 2 ^ 62) (e : ℕ) (b : Bool) :
    ∃ d, (s2^[e] d).msb = b ∧ ∀ f ∈ fs, ∀ g ∈ fs, f.eval d = g.eval d → f = g := by
  obtain ⟨x,hx⟩ := exists_flip e
  let meets := (fs ×ˢ fs).map Form.meet
  have hmeets : meets.length < 2 ^ 124 := by
    simp only [meets, List.length_map, List.length_product]
    nlinarith
  obtain ⟨d,hd⟩ := exists_notMem (meets ++ meets.map (· ^^^ x)) (by
    rw [BindingCipher.card_bitVec, List.length_append, List.length_map (fun c => c ^^^ x)]
    omega)
  have hfree : d ∉ meets ∧ d ^^^ x ∉ meets := by
    rw [List.mem_append, not_or] at hd
    refine ⟨hd.1,fun h => hd.2 (List.mem_map.mpr ⟨_,h,?_⟩)⟩
    rw [BitVec.xor_assoc, BitVec.xor_self, BitVec.xor_zero]
  have hapart : ∀ c ∉ meets, ∀ f ∈ fs, ∀ g ∈ fs, f.eval c = g.eval c → f = g := by
    intro c hc f hf g hg h
    refine Form.eq_of_eval_eq (hsmall f hf) (hsmall g hg) (fun hm => hc ?_) h
    exact hm ▸ List.mem_map.mpr ⟨(f,g),List.mem_product.mpr ⟨hf,hg⟩,rfl⟩
  have hflip : (s2^[e] (d ^^^ x)).msb = !(s2^[e] d).msb := by
    rw [iterate_s2_xor, hx, BitVec.msb_xor, show (1#128 <<< 127).msb = true by decide, Bool.xor_true]
  by_cases hb : (s2^[e] d).msb = b
  · exact ⟨d,hb,hapart d hfree.1⟩
  · refine ⟨d ^^^ x,?_,hapart _ hfree.2⟩
    rw [hflip]
    cases b <;> simpa using hb

theorem exists_cipher {ps : List (Form × Form)} (h : IsMatching ps)
    (hsmall : ∀ p ∈ ps, SmallPair p) (hlen : ps.length < 2 ^ 61) (e : ℕ) (b : Bool) :
    ∃ (aes : Equiv.Perm U128) (d : U128), (s2^[e] d).msb = b ∧
      ∀ p ∈ ps, aes (p.1.eval d) = p.2.eval d := by
  obtain ⟨d,hb,hd⟩ := exists_offset (ps.map Prod.fst ++ ps.map Prod.snd) (by
    intro f hf
    simp only [List.mem_append, List.mem_map] at hf
    rcases hf with ⟨p,hp,rfl⟩ | ⟨p,hp,rfl⟩
    · exact (hsmall p hp).1
    · exact (hsmall p hp).2) (by
    simp only [List.length_append, List.length_map]
    omega) e b
  have hkey : ∀ p ∈ ps, p.1 ∈ ps.map Prod.fst ++ ps.map Prod.snd := fun p hp =>
    List.mem_append_left _ (List.mem_map_of_mem hp)
  have hvalue : ∀ p ∈ ps, p.2 ∈ ps.map Prod.fst ++ ps.map Prod.snd := fun p hp =>
    List.mem_append_right _ (List.mem_map_of_mem hp)
  obtain ⟨aes,haes⟩ := (h.map (f := fun f => f.eval d) fun p hp q hq =>
    ⟨hd _ (hkey p hp) _ (hkey q hq),hd _ (hvalue p hp) _ (hvalue q hq)⟩).exists_perm
  exact ⟨aes,d,hb,fun p hp => haes _ (List.mem_map_of_mem hp)⟩

end Atof.Offset
