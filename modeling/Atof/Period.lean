import Atof.Doubling
import Mathlib.Dynamics.PeriodicPts.Defs
import Mathlib.NumberTheory.LucasPrimality
import Mathlib.Tactic.ReduceModChar

/-!
# How long doubling takes to come back

Repeated doubling is multiplication by a power of the second block value, so one
value of it gives all others and a run of `2 ^ 127` doublings is found by
squaring. Its period is not computed. Two primes divide the number of doublings
that bring any nonzero block back, and they bound it from below by `2 ^ 68`, which
is more than a buffer has blocks. A block plus its double is the block after a
number of doublings far from every multiple of those primes.
-/
namespace Atof.Period
open Rust Ocb Doubling

/-! ## Multiplication -/

/-- The sum of the doubles of `v` that the low bits of `a` select. -/
def timesLow : ℕ → U128 → U128 → U128
  | 0, _, _ => 0
  | i + 1, a, v => (if a.getLsbD 0 then v else 0) ^^^ s2 (timesLow i (a >>> 1) v)

def times (a v : U128) : U128 := timesLow 128 a v

theorem timesLow_xor (i : ℕ) (a u v : U128) :
    timesLow i a (u ^^^ v) = timesLow i a u ^^^ timesLow i a v := by
  induction i generalizing a with
  | zero => exact BitVec.xor_self.symm
  | succ i ih =>
      rw [timesLow, timesLow, timesLow, ih, s2_xor]
      split
      · ac_rfl
      · simp only [BitVec.ofNat_eq_ofNat, BitVec.zero_xor]

theorem timesLow_s2 (i : ℕ) (a v : U128) : timesLow i a (s2 v) = s2 (timesLow i a v) := by
  induction i generalizing a with
  | zero => exact s2_zero.symm
  | succ i ih =>
      rw [timesLow, timesLow, ih, s2_xor]
      split
      · rfl
      · rw [s2_zero]

theorem timesLow_zero (i : ℕ) (a : U128) : timesLow i a 0 = 0 := by
  induction i generalizing a with
  | zero => rfl
  | succ i ih => rw [timesLow, ih, s2_zero, ite_self, BitVec.xor_self]; rfl

theorem timesLow_comm (i j : ℕ) (a b v : U128) :
    timesLow i a (timesLow j b v) = timesLow j b (timesLow i a v) := by
  induction j generalizing b with
  | zero => exact timesLow_zero i a
  | succ j ih =>
      rw [timesLow, timesLow_xor, timesLow_s2, ih, timesLow]
      split
      · rfl
      · rw [timesLow_zero]

/-- Below the top bit doubling is a shift, so the bits come out as they are. -/
theorem getLsbD_timesLow_one (i : ℕ) (hi : i ≤ 128) (a : U128) (j : ℕ) (hj : j < 128) :
    (timesLow i a 1).getLsbD j = (decide (j < i) && a.getLsbD j) := by
  induction i generalizing a j with
  | zero => simp [timesLow]
  | succ i ih =>
      have htop : (timesLow i (a >>> 1) 1).getLsbD 127 = false := by
        rw [ih (by omega) _ 127 (by omega), decide_eq_false (by omega), Bool.false_and]
      rw [timesLow, BitVec.getLsbD_xor, getLsbD_s2 _ hj, htop, Bool.false_and, Bool.xor_false]
      cases j with
      | zero => cases a.getLsbD 0 <;> simp
      | succ j =>
          rw [if_neg (Nat.succ_ne_zero j), Nat.add_sub_cancel, ih (by omega) _ j (by omega)]
          cases a.getLsbD 0 <;> simp [Nat.add_comm 1 j]

@[simp] theorem times_one (a : U128) : times a 1 = a := by
  apply BitVec.eq_of_getLsbD_eq
  intro j hj
  rw [times, getLsbD_timesLow_one 128 le_rfl a j hj, decide_eq_true hj, Bool.true_and]

theorem times_comm (a b : U128) : times a b = times b a := by
  calc times a b = times a (times b 1) := by rw [times_one]
    _ = times b (times a 1) := timesLow_comm 128 128 a b 1
    _ = times b a := by rw [times_one]

theorem times_xor (a u v : U128) : times a (u ^^^ v) = times a u ^^^ times a v :=
  timesLow_xor 128 a u v

theorem times_s2 (a v : U128) : times a (s2 v) = s2 (times a v) := timesLow_s2 128 a v

theorem times_assoc (a b v : U128) : times (times a b) v = times a (times b v) := by
  calc times (times a b) v = times v (times a b) := times_comm _ _
    _ = times a (times v b) := timesLow_comm 128 128 v a b
    _ = times a (times b v) := by rw [times_comm v]

/-! ## Many doublings -/

theorem iterate_s2_xor (e : ℕ) (u v : U128) : s2^[e] (u ^^^ v) = s2^[e] u ^^^ s2^[e] v := by
  induction e generalizing u v with
  | zero => rfl
  | succ e ih => rw [Function.iterate_succ_apply, s2_xor, ih]; rfl

theorem times_iterate_s2 (e : ℕ) (a v : U128) : times a (s2^[e] v) = s2^[e] (times a v) := by
  induction e generalizing v with
  | zero => rfl
  | succ e ih =>
      rw [Function.iterate_succ_apply, ih, times_s2]
      rfl

/-- Doubling many times is one multiplication. -/
theorem iterate_s2 (e : ℕ) (v : U128) : s2^[e] v = times (s2^[e] 1) v := by
  rw [times_comm, times_iterate_s2, times_one]

/-! ## Evaluation

Numbers stand for blocks here, and each intermediate result is evaluated before it
is used. -/

def force {α : Type} (n : ℕ) (f : ℕ → α) : α :=
  match n with
  | 0 => f 0
  | n + 1 => f (n + 1)

@[simp] theorem force_eq {α : Type} (n : ℕ) (f : ℕ → α) : force n f = f n := by
  cases n <;> rfl

def doubleNat (n : ℕ) : ℕ := (n <<< 1) % 2 ^ 128 ^^^ n / 2 ^ 127 * 0x87

def timesNat : ℕ → ℕ → ℕ → ℕ
  | 0, _, _ => 0
  | i + 1, a, v => force (timesNat i (a / 2) v) fun r => a % 2 * v ^^^ doubleNat r

/-- `s2^[n] 1` by squaring, for `n` below `2 ^ i`. -/
def powerNat : ℕ → ℕ → ℕ
  | 0, _ => 1
  | i + 1, n =>
      force (powerNat i (n / 2)) fun half =>
      force (timesNat 128 half half) fun square =>
      if n % 2 = 1 then doubleNat square else square

theorem toNat_s2 (a : U128) : (s2 a).toNat = doubleNat a.toNat := by
  have hbit : a.getLsbD 127 = decide (a.toNat / 2 ^ 127 = 1) := by
    rw [BitVec.getLsbD, Nat.testBit_eq_decide_div_mod_eq, Nat.mod_eq_of_lt]
    have := a.isLt
    omega
  have htop : a.toNat / 2 ^ 127 = 0 ∨ a.toNat / 2 ^ 127 = 1 := by
    have := a.isLt
    omega
  rw [s2_eq_shift, BitVec.toNat_xor, BitVec.toNat_shiftLeft, hbit, doubleNat]
  rcases htop with h | h <;> rw [h] <;> rfl

theorem toNat_timesLow (i : ℕ) (a v : U128) :
    (timesLow i a v).toNat = timesNat i a.toNat v.toNat := by
  induction i generalizing a with
  | zero => rfl
  | succ i ih =>
      have hbit : a.getLsbD 0 = decide (a.toNat % 2 = 1) := by
        rw [BitVec.getLsbD, Nat.testBit_zero]
      rw [timesLow, timesNat, force_eq, BitVec.toNat_xor, toNat_s2, ih, hbit,
        BitVec.toNat_ushiftRight, Nat.shiftRight_one]
      congr 1
      rcases Nat.mod_two_eq_zero_or_one a.toNat with h | h <;> simp [h]

theorem powerNat_eq (i n : ℕ) (h : n < 2 ^ i) : powerNat i n = (s2^[n] 1).toNat := by
  induction i generalizing n with
  | zero =>
      have hn : n = 0 := by simpa using h
      rw [hn]
      rfl
  | succ i ih =>
      have hsquare : timesNat 128 (s2^[n / 2] 1).toNat (s2^[n / 2] 1).toNat =
          (s2^[n / 2 + n / 2] 1).toNat := by
        rw [Function.iterate_add_apply, iterate_s2 (n / 2) (s2^[n / 2] 1), times, toNat_timesLow]
      rw [powerNat, force_eq, force_eq, ih (n / 2) (by omega), hsquare, ← toNat_s2,
        ← Function.iterate_succ_apply' s2]
      split
      · rw [show (n / 2 + n / 2).succ = n by omega]
      · rw [show n / 2 + n / 2 = n by omega]

theorem iterate_s2_one {n : ℕ} {c : U128} (hn : n < 2 ^ 128) (h : powerNat 128 n = c.toNat) :
    s2^[n] 1 = c :=
  BitVec.eq_of_toNat_eq (by rw [← powerNat_eq 128 n hn, h])

theorem times_eq {a b c : U128} (h : timesNat 128 a.toNat b.toNat = c.toNat) : times a b = c :=
  BitVec.eq_of_toNat_eq (by rw [times, toNat_timesLow, h])

/-! ## The period -/

theorem iterate_s2_all (v : U128) : s2^[2 ^ 128 - 1] v = v := by
  have h : s2^[2 ^ 128 - 1] 1 = 1 := iterate_s2_one (by norm_num) (by decide +kernel)
  rw [iterate_s2, h, times_comm, times_one]

/-- A power of two that moves every nonzero block bounds the runs that move none. -/
theorem dvd_of_iterate_eq {p q k : ℕ} {c d v : U128} (hp : p.Prime) (hpq : p * q = 2 ^ 128 - 1)
    (hc : s2^[q] 1 = c) (hd : times (c ^^^ 1) d = 1) (hv : v ≠ 0) (h : s2^[k] v = v) : p ∣ k := by
  by_contra hk
  have hall : Function.IsPeriodicPt s2 (p * q) v := hpq ▸ iterate_s2_all v
  have hdvd : Nat.gcd k (p * q) ∣ q := by
    have hco : Nat.Coprime (Nat.gcd k (p * q)) p :=
      Nat.Coprime.coprime_dvd_left (Nat.gcd_dvd_left k _)
        ((Nat.Prime.coprime_iff_not_dvd hp).mpr hk).symm
    exact hco.dvd_of_dvd_mul_left (Nat.gcd_dvd_right k _)
  have hq : s2^[q] v = v := (Function.IsPeriodicPt.gcd h hall).trans_dvd hdvd
  have hzero : times v (c ^^^ 1) = 0 := by
    rw [times_xor, times_one, times_comm, ← hc, ← iterate_s2, hq, BitVec.xor_self]
    rfl
  refine hv ?_
  calc v = times v (times (c ^^^ 1) d) := by rw [hd, times_one]
    _ = times d (times v (c ^^^ 1)) := by rw [← times_assoc, times_comm]
    _ = 0 := by rw [hzero]; exact timesLow_zero 128 d

theorem prime_factors {q : ℕ} (hq : q.Prime) (h : q ∣ 67280421310721 - 1) :
    q = 2 ∨ q = 5 ∨ q = 47 ∨ q = 373 ∨ q = 2998279 := by
  rw [show 67280421310721 - 1 = 2 ^ 8 * 5 * 47 * 373 * 2998279 by norm_num] at h
  simp only [hq.dvd_mul] at h
  rcases h with (((h | h) | h) | h) | h
  · exact Or.inl ((Nat.prime_dvd_prime_iff_eq hq Nat.prime_two).mp (hq.dvd_of_dvd_pow h))
  all_goals
    have := (Nat.prime_dvd_prime_iff_eq hq (by norm_num)).mp h
    omega

theorem prime_large : Nat.Prime 67280421310721 := by
  refine lucas_primality _ (3 : ZMod 67280421310721) ?_ ?_
  · reduce_mod_char
  · intro q hq h
    rcases prime_factors hq h with rfl | rfl | rfl | rfl | rfl <;> reduce_mod_char <;> decide

/-- Divides every number of doublings that brings a nonzero block back. -/
def cycle : ℕ := 67280421310721 * 6700417

theorem cycle_dvd {k : ℕ} {v : U128} (hv : v ≠ 0) (h : s2^[k] v = v) : cycle ∣ k := by
  refine Nat.Coprime.mul_dvd_of_dvd_of_dvd (by norm_num) ?_ ?_
  · exact dvd_of_iterate_eq (q := 5057672949897463733145855) (d := 0x160e54d7fb0564aeac2fd1f161f6cd1)
      prime_large (by norm_num)
      (iterate_s2_one (c := 0x5dedf83dbb61d10fc77769e1772d9655) (by norm_num) (by decide +kernel))
      (times_eq (by decide +kernel)) hv h
  · exact dvd_of_iterate_eq (q := 50785252159819077448966923615615)
      (d := 0xfb9043b5b964d0d44ce89147bf2b6a67) (by norm_num) (by norm_num)
      (iterate_s2_one (c := 0xb34f959af912795f3236a7c5c9b5b422) (by norm_num) (by decide +kernel))
      (times_eq (by decide +kernel)) hv h

theorem iterate_s2_injective (e : ℕ) : Function.Injective s2^[e] := s2_injective.iterate e

theorem modEq_of_iterate_eq {i j : ℕ} {v : U128} (hv : v ≠ 0) (h : s2^[i] v = s2^[j] v) :
    i ≡ j [MOD cycle] := by
  wlog hij : i ≤ j generalizing i j
  · exact (this h.symm (by omega)).symm
  refine (Nat.modEq_iff_dvd' hij).mpr (cycle_dvd hv (iterate_s2_injective i ?_))
  rw [← Function.iterate_add_apply, Nat.add_sub_cancel' hij, h]

/-- The number of doublings that take a block to its sum with its double. -/
def tripling : ℕ := 338793687469689340204974836150077311399

theorem xor_s2 (v : U128) : v ^^^ s2 v = s2^[tripling] v := by
  have h : s2^[tripling] 1 = 1 ^^^ s2 1 := iterate_s2_one (by decide) (by decide +kernel)
  rw [iterate_s2, h, times_comm, times_xor, times_s2, times_one]

end Atof.Period
