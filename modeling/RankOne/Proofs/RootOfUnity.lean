import RankOne.Proofs.Fourier
import RankOne.Proofs.ScalarField
import Mathlib.GroupTheory.OrderOfElement
import Mathlib.NumberTheory.LegendreSymbol.Basic

/-!
# Roots of unity modulo a prime

The bit tests on the order asked for accept the powers of two that divide the order of the
multiplicative group, and no other integer. The search for a non-square ends at the least one,
because an odd prime has some. All roots of unity are powers of that one number, so the root of
twice as many points is a square root of the other, and half way round each of them is minus one,
which makes it primitive.
-/

set_option autoImplicit false

namespace RankOne.Transform
open RankOne.Residue

section Bits

/-- Without some of the lowest `k` bits the others are left: a remainder counted from the top. -/
theorem bitsWithout_two_pow (k m : ℕ) :
    bitsWithout (2 ^ k - 1) m = 2 ^ k - (m % 2 ^ k + 1) := by
  have hlt : m % 2 ^ k < 2 ^ k := Nat.mod_lt m (Nat.two_pow_pos k)
  apply Nat.eq_of_testBit_eq
  intro i
  rw [bitsWithout, Nat.testBit_xor, Nat.testBit_and, Nat.testBit_two_pow_sub_one,
    Nat.testBit_two_pow_sub_succ hlt, Nat.testBit_mod_two_pow]
  cases decide (i < k) <;> cases m.testBit i <;> rfl

/-- The lowest `k` bits are the remainder modulo `2 ^ k`, of a negative number too. -/
theorem commonBits_two_pow_sub_one (x : Int) (k : ℕ) :
    commonBits x (((2 ^ k : ℕ) : Int) - 1) = x % ((2 ^ k : ℕ) : Int) := by
  have hpos := Nat.two_pow_pos k
  have hpred : ((2 ^ k : ℕ) : Int) - 1 = Int.ofNat (2 ^ k - 1) := by
    rw [Int.ofNat_eq_natCast]
    omega
  rw [hpred]
  cases x with
  | ofNat a =>
    rw [commonBits, Nat.and_two_pow_sub_one_eq_mod, Int.ofNat_eq_natCast, Int.ofNat_eq_natCast,
      Int.natCast_mod]
  | negSucc a =>
    have hlt : a % 2 ^ k < 2 ^ k := Nat.mod_lt a hpos
    rw [commonBits, bitsWithout_two_pow, Int.negSucc_emod a (by exact_mod_cast hpos),
      Int.ofNat_eq_natCast, ← Int.natCast_mod]
    omega

theorem commonBits_neg_one (x : Int) : commonBits x (-1) = x := by
  change commonBits x (.negSucc 0) = x
  cases x with
  | ofNat a => simp [commonBits, bitsWithout]
  | negSucc a => simp [commonBits]

/-- A number and its predecessor share no bit if there is at most one, as in a power of two. Two
negative numbers always share some. -/
theorem commonBits_pred_eq_zero_iff (n : Int) :
    commonBits n (n - 1) = 0 ↔ n = 0 ∨ ∃ k : ℕ, n = 2 ^ k := by
  match n with
  | .ofNat 0 => simpa using commonBits_neg_one 0
  | .ofNat (m + 1) =>
    have hpred : Int.ofNat (m + 1) - 1 = Int.ofNat m := by simp
    have hne : Int.ofNat (m + 1) ≠ 0 := Int.ofNat_ne_zero.mpr (Nat.succ_ne_zero m)
    have htwo := Nat.and_sub_one_eq_zero_iff_isPowerOfTwo (Nat.succ_ne_zero m)
    rw [Nat.succ_sub_one] at htwo
    rw [hpred, commonBits, or_iff_right hne, Int.ofNat_eq_natCast, Int.natCast_eq_zero, htwo]
    exact exists_congr fun k => by rw [Int.ofNat_eq_natCast]; exact_mod_cast Iff.rfl
  | .negSucc m =>
    have hpred : Int.negSucc m - 1 = Int.negSucc (m + 1) := rfl
    have hneg : Int.negSucc m < 0 := Int.negSucc_lt_zero m
    rw [hpred, commonBits]
    constructor
    · exact fun h => absurd h (Int.negSucc_ne_zero _)
    · rintro (h | ⟨k, h⟩)
      · exact absurd h (Int.negSucc_ne_zero _)
      · exact absurd (h ▸ hneg) (not_lt.mpr (by positivity))

/-- The two tests together ask for a power of two that divides `m`. -/
theorem bitTests_iff {m : Int} (hm : m ≠ 0) (n : Int) :
    commonBits n (n - 1) = 0 ∧ commonBits m (n - 1) = 0 ↔ (∃ k : ℕ, n = 2 ^ k) ∧ n ∣ m := by
  rw [commonBits_pred_eq_zero_iff]
  constructor
  · rintro ⟨rfl | ⟨k, rfl⟩, hbits⟩
    · exact absurd ((commonBits_neg_one m).symm.trans hbits) hm
    · have hmod := commonBits_two_pow_sub_one m k
      push_cast at hmod
      exact ⟨⟨k, rfl⟩, Int.dvd_of_emod_eq_zero (hmod.symm.trans hbits)⟩
  · rintro ⟨⟨k, rfl⟩, hdvd⟩
    have hmod := commonBits_two_pow_sub_one m k
    push_cast at hmod
    exact ⟨.inr ⟨k, rfl⟩, hmod.trans (Int.emod_eq_zero_of_dvd hdvd)⟩

end Bits

/-- What passes the criterion of Euler, up to the last candidate, is no answer of the search: it
stops at the first that does not. -/
theorem nonSquareFrom_eq_some (p z : Int) (count : ℕ)
    (h : ∃ y, z ≤ y ∧ y < z + count ∧ power y ((p - 1) / 2).toNat p ≠ 1) :
    ∃ y, nonSquareFrom p z count = some y ∧ z ≤ y ∧ y < z + count ∧
      power y ((p - 1) / 2).toNat p ≠ 1 ∧
      ∀ x, z ≤ x → x < y → power x ((p - 1) / 2).toNat p = 1 := by
  fun_induction nonSquareFrom p z count with
  | case1 z =>
    obtain ⟨y, hle, hlt, -⟩ := h
    exact absurd hlt (by push_cast; omega)
  | case2 z =>
    obtain ⟨y, hle, hlt, hy⟩ := h
    obtain rfl : z = y := by push_cast at hlt; omega
    exact ⟨z, rfl, hle, hlt, hy, fun x hzx hxz => absurd hzx (by omega)⟩
  | case3 z count hz =>
    exact ⟨z, rfl, le_refl z, by push_cast; omega, hz, fun x hzx hxz => absurd hzx (by omega)⟩
  | case4 z count hz ih =>
    obtain ⟨y, hle, hlt, hy⟩ := h
    have hne : z ≠ y := by
      rintro rfl
      exact hz hy
    obtain ⟨x, hx, hxle, hxlt, hxy, hfirst⟩ :=
      ih ⟨y, by omega, by push_cast at hlt ⊢; omega, hy⟩
    refine ⟨x, hx, by omega, by push_cast at hxlt ⊢; omega, hxy, fun u hzu hux => ?_⟩
    rcases eq_or_lt_of_le hzu with rfl | hlt
    · exact not_not.mp hz
    · exact hfirst u (by omega) hux

section Prime
variable (q : ℕ) [Fact q.Prime]

theorem cast_power (a : Int) (n : ℕ) : ((power a n q : Int) : ZMod q) = (a : ZMod q) ^ n := by
  have hq : (((q : ℕ) : Int) : ZMod q) = 0 := by simp
  rw [power_eq, cast_emod hq, Int.cast_pow]

theorem cast_ne_zero_of_lt {y : Int} (hpos : 0 < y) (hlt : y < q) : (y : ZMod q) ≠ 0 := by
  intro h
  have hle := Int.le_of_dvd hpos ((ZMod.intCast_zmod_eq_zero_iff_dvd y q).mp h)
  omega

variable (hodd : q ≠ 2)
include hodd

theorem half_pred : (q - 1) / 2 = q / 2 := by
  have hq := (Fact.out : q.Prime).eq_two_or_odd.resolve_left hodd
  omega

theorem euler_exponent : (((q : Int) - 1) / 2).toNat = q / 2 := by
  have htwo := (Fact.out : q.Prime).two_le
  have hq := half_pred q hodd
  omega

theorem power_eq_one_iff_isSquare {y : Int} (hpos : 0 < y) (hlt : y < q) :
    power y (((q : Int) - 1) / 2).toNat q = 1 ↔ IsSquare (y : ZMod q) := by
  have htwo := (Fact.out : q.Prime).two_le
  have hq : (0 : Int) < q := by omega
  rw [ZMod.euler_criterion q (cast_ne_zero_of_lt q hpos hlt), ← cast_power q y,
    euler_exponent q hodd]
  constructor
  · intro h
    rw [h, Int.cast_one]
  · intro h
    have hmod : power y (q / 2) q ≡ 1 [ZMOD q] := by
      rw [← ZMod.intCast_eq_intCast_iff, h, Int.cast_one]
    have hself := Int.emod_eq_of_lt (power_nonneg y (q / 2) hq) (power_lt y (q / 2) hq)
    rw [← hself, hmod.eq]
    exact Int.emod_eq_of_lt (by omega) (by omega)

/-- Some candidate is no square: neither zero nor one, which are squares, is left out of them. -/
theorem exists_nonSquare : ∃ y : Int, 2 ≤ y ∧ y < q ∧ ¬ IsSquare (y : ZMod q) := by
  have hchar : ringChar (ZMod q) ≠ 2 := by rwa [ZMod.ringChar_zmod_n]
  obtain ⟨x, hx⟩ := FiniteField.exists_nonsquare hchar
  have hval : ((x.val : Int) : ZMod q) = x := by simp
  have hlt : x.val < q := ZMod.val_lt x
  refine ⟨x.val, ?_, by exact_mod_cast hlt, by rwa [hval]⟩
  by_contra hsmall
  have hcases : x.val = 0 ∨ x.val = 1 := by omega
  rcases hcases with hv | hv
  · exact hx ⟨0, by rw [← hval, hv]; simp⟩
  · exact hx ⟨1, by rw [← hval, hv]; simp⟩

/-- The search finds the least non-square, the only squares before it being those it has passed. -/
theorem nonSquare_spec :
    ∃ z, nonSquare q = some z ∧ 2 ≤ z ∧ z < q ∧ ¬ IsSquare (z : ZMod q) ∧
      ∀ y : Int, 2 ≤ y → y < z → IsSquare (y : ZMod q) := by
  have htwo := (Fact.out : q.Prime).two_le
  obtain ⟨y, hyle, hylt, hy⟩ := exists_nonSquare q hodd
  rw [← power_eq_one_iff_isSquare q hodd (by omega) hylt] at hy
  obtain ⟨z, hz, hzle, hzlt, hzpow, hfirst⟩ := nonSquareFrom_eq_some q 2 ((q : Int) - 2).toNat
    ⟨y, hyle, by omega, hy⟩
  have hzq : z < q := by omega
  refine ⟨z, hz, hzle, hzq, ?_, fun x hx hxz => ?_⟩
  · rwa [← power_eq_one_iff_isSquare q hodd (by omega) hzq]
  · exact (power_eq_one_iff_isSquare q hodd (by omega) (hxz.trans hzq)).mp (hfirst x hx hxz)

omit hodd in
theorem pow_half_eq_neg_one {z : ZMod q} (hz : ¬ IsSquare z) : z ^ (q / 2) = -1 := by
  have hz0 : z ≠ 0 := by
    rintro rfl
    exact hz ⟨0, by simp⟩
  rw [ZMod.euler_criterion q hz0] at hz
  exact (ZMod.pow_div_two_eq_neg_one_or_one q hz0).resolve_left hz

omit hodd in
/-- The tests passed, the root is a power of the number that the search finds. -/
theorem rootOfUnity_eq {z : Int} (hz : nonSquare q = some z) {k : ℕ} (hk : 2 ^ k ∣ q - 1) :
    ∃ g, rootOfUnity ((2 ^ k : ℕ) : Int) q = .ok g ∧ 0 ≤ g ∧ g < q ∧
      (g : ZMod q) = (z : ZMod q) ^ ((q - 1) / 2 ^ k) := by
  have hq := (Fact.out : q.Prime).two_le
  have hpos : (0 : Int) < q := by omega
  have hsub : (q : Int) - 1 = ((q - 1 : ℕ) : Int) := by omega
  have hdvd : ((2 ^ k : ℕ) : Int) ∣ (q : Int) - 1 := by
    rw [hsub]
    exact_mod_cast hk
  have hdiv : (((q : Int) - 1) / ((2 ^ k : ℕ) : Int)).toNat = (q - 1) / 2 ^ k := by
    rw [hsub, ← Int.natCast_div, Int.toNat_natCast]
  have htests := (bitTests_iff (m := (q : Int) - 1) (by omega) ((2 ^ k : ℕ) : Int)).mpr
    ⟨⟨k, by push_cast; rfl⟩, hdvd⟩
  refine ⟨power z ((q - 1) / 2 ^ k) q, ?_, power_nonneg _ _ hpos, power_lt _ _ hpos,
    cast_power q z _⟩
  rw [rootOfUnity, if_pos htests, hz, hdiv]

/-- All roots of unity that a prime has are powers of one number. -/
theorem rootOfUnity_spec :
    ∃ z : ZMod q, z ^ (q / 2) = -1 ∧ ∀ k, 2 ^ k ∣ q - 1 →
      ∃ g, rootOfUnity ((2 ^ k : ℕ) : Int) q = .ok g ∧ 0 ≤ g ∧ g < q ∧
        (g : ZMod q) = z ^ ((q - 1) / 2 ^ k) := by
  obtain ⟨z, hz, -, -, hsquare, -⟩ := nonSquare_spec q hodd
  exact ⟨z, pow_half_eq_neg_one q hsquare, fun k hk => rootOfUnity_eq q hz hk⟩

/-- The search never fails, so the tests alone decide what is refused. -/
theorem rootOfUnity_eq_error_iff (n : Int) :
    rootOfUnity n q = .error .rootOrder ↔ ¬ ((∃ k : ℕ, n = 2 ^ k) ∧ n ∣ (q : Int) - 1) := by
  have htwo := (Fact.out : q.Prime).two_le
  obtain ⟨z, hz, -⟩ := nonSquare_spec q hodd
  rw [← bitTests_iff (by omega), rootOfUnity, hz]
  constructor
  · intro h htests
    rw [if_pos htests] at h
    cases h
  · intro h
    rw [if_neg h]

end Prime

section Primitive
variable {R : Type*} [CommRing R] {z g : R} {n m : ℕ}

/-- Half way round, a root that is such a power has reached minus one. -/
theorem isHalfRoot_of_eq_pow (hz : z ^ (n / 2) = -1) (hm : 2 ^ m ∣ n) (hg : g = z ^ (n / 2 ^ m)) :
    IsHalfRoot g m := by
  rintro k rfl
  obtain ⟨e, rfl⟩ := hm
  have hhalf : 2 ^ (k + 1) * e / 2 = e * 2 ^ k := by
    rw [pow_succ, Nat.mul_right_comm, Nat.mul_div_cancel _ (by decide), Nat.mul_comm]
  rw [hg, Nat.mul_div_cancel_left _ (Nat.two_pow_pos _), ← pow_mul, ← hhalf, hz]

theorem sq_pow_div (z : R) (hm : 2 ^ (m + 1) ∣ n) :
    (z ^ (n / 2 ^ (m + 1))) ^ 2 = z ^ (n / 2 ^ m) := by
  obtain ⟨e, rfl⟩ := hm
  have hsplit : 2 ^ (m + 1) * e / 2 ^ m = 2 ^ (m + 1) * e / 2 ^ (m + 1) * 2 := by
    rw [Nat.mul_div_cancel_left _ (Nat.two_pow_pos _), pow_succ, Nat.mul_assoc,
      Nat.mul_div_cancel_left _ (Nat.two_pow_pos _), Nat.mul_comm]
  rw [hsplit, pow_mul]

theorem IsHalfRoot.orderOf_eq (h : IsHalfRoot g m) (hone : m = 0 → g = 1) (hneg : (-1 : R) ≠ 1) :
    orderOf g = 2 ^ m := by
  cases m with
  | zero => rw [hone rfl, orderOf_one, pow_zero]
  | succ k =>
    have hhalf := h.pow_eq_neg
    apply orderOf_eq_prime_pow
    · rwa [hhalf]
    · rw [pow_succ, pow_mul, hhalf, neg_one_sq]

end Primitive

section Order
variable {q : ℕ} [Fact q.Prime] {z : ZMod q} {g : Int} {k : ℕ}

theorem two_pow_dvd_pred (h : (2 ^ k : Int) ∣ (q : Int) - 1) : 2 ^ k ∣ q - 1 := by
  have hq := (Fact.out : q.Prime).two_le
  have hsub : (q : Int) - 1 = ((q - 1 : ℕ) : Int) := by omega
  rw [hsub] at h
  exact_mod_cast h

theorem orderOf_of_eq_pow (hodd : q ≠ 2) (hz : ¬ IsSquare z) (hk : 2 ^ k ∣ q - 1)
    (hg : (g : ZMod q) = z ^ ((q - 1) / 2 ^ k)) :
    IsHalfRoot (g : ZMod q) k ∧ orderOf (g : ZMod q) = 2 ^ k := by
  have htwo := (Fact.out : q.Prime).two_le
  have hz0 : z ≠ 0 := by
    rintro rfl
    exact hz ⟨0, by simp⟩
  have hpow : z ^ ((q - 1) / 2) = -1 := by rw [half_pred q hodd, pow_half_eq_neg_one q hz]
  have hhalf : IsHalfRoot (g : ZMod q) k := isHalfRoot_of_eq_pow hpow hk hg
  refine ⟨hhalf, hhalf.orderOf_eq ?_ ?_⟩
  · rintro rfl
    rw [hg, pow_zero, Nat.div_one, ZMod.pow_card_sub_one_eq_one hz0]
  · have : Fact (2 < q) := ⟨by omega⟩
    exact ZMod.neg_one_ne_one

end Order

/-- Asked for `n` points modulo an odd prime, the root is refused unless `n` is a power of two that
divides the order of the multiplicative group. Else the search ends at the least non-square, the
root is reduced and of order `n`, and the root of twice as many points, where there is one, squares
to it. -/
theorem rootOfUnity_primitive {q : ℕ} (hq : q.Prime) (hodd : q ≠ 2) (n : Int) :
    (rootOfUnity n q = .error .rootOrder ↔ ¬ ((∃ k : ℕ, n = 2 ^ k) ∧ n ∣ (q : Int) - 1)) ∧
    ((∃ k : ℕ, n = 2 ^ k) ∧ n ∣ (q : Int) - 1 →
      (∃ z, nonSquare q = some z ∧ 2 ≤ z ∧ z < q ∧ ¬ IsSquare (z : ZMod q) ∧
        ∀ y : Int, 2 ≤ y → y < z → IsSquare (y : ZMod q)) ∧
      ∃ g, rootOfUnity n q = .ok g ∧ 1 ≤ g ∧ g < q ∧ g ^ n.toNat ≡ 1 [ZMOD q] ∧
        (2 ≤ n → g ^ (n / 2).toNat ≡ -1 [ZMOD q]) ∧ orderOf (g : ZMod q) = n.toNat ∧
        (2 * n ∣ (q : Int) - 1 → ∃ h, rootOfUnity (2 * n) q = .ok h ∧ h ^ 2 % q = g)) := by
  have : Fact q.Prime := ⟨hq⟩
  refine ⟨rootOfUnity_eq_error_iff q hodd n, ?_⟩
  rintro ⟨⟨k, rfl⟩, hdvd⟩
  obtain ⟨z, hz, hzle, hzlt, hsquare, hleast⟩ := nonSquare_spec q hodd
  obtain ⟨g, hg, hge, hlt, hgz⟩ := rootOfUnity_eq q hz (two_pow_dvd_pred hdvd)
  obtain ⟨hhalf, horder⟩ := orderOf_of_eq_pow hodd hsquare (two_pow_dvd_pred hdvd) hgz
  have hnat : (2 ^ k : Int).toNat = 2 ^ k := by
    have hcast : (2 ^ k : Int) = ((2 ^ k : ℕ) : Int) := by push_cast; rfl
    rw [hcast, Int.toNat_natCast]
  have hone : (g : ZMod q) ^ 2 ^ k = 1 := by rw [← horder, pow_orderOf_eq_one]
  have hg0 : g ≠ 0 := by
    rintro rfl
    rw [Int.cast_zero, zero_pow (Nat.two_pow_pos k).ne'] at hone
    exact zero_ne_one hone
  refine ⟨⟨z, hz, hzle, hzlt, hsquare, hleast⟩, g, by exact_mod_cast hg, by omega, hlt, ?_, ?_,
    by rw [horder, hnat], ?_⟩
  · rw [hnat, ← ZMod.intCast_eq_intCast_iff]
    simpa using hone
  · intro htwo
    obtain ⟨l, rfl⟩ : ∃ l, k = l + 1 := Nat.exists_eq_succ_of_ne_zero (by rintro rfl; omega)
    have hhalfway : (2 ^ (l + 1) / 2 : Int).toNat = 2 ^ l := by
      rw [pow_succ, Int.mul_ediv_cancel _ two_ne_zero]
      exact_mod_cast Int.toNat_natCast (2 ^ l)
    rw [hhalfway, ← ZMod.intCast_eq_intCast_iff]
    simpa using hhalf.pow_eq_neg
  · intro hdouble
    have hsucc : (2 * 2 ^ k : Int) = 2 ^ (k + 1) := by rw [pow_succ, mul_comm]
    rw [hsucc] at hdouble ⊢
    obtain ⟨h, hh, -, -, hhz⟩ := rootOfUnity_eq q hz (two_pow_dvd_pred hdouble)
    have hsq : (h : ZMod q) ^ 2 = g := by rw [hhz, hgz, sq_pow_div _ (two_pow_dvd_pred hdouble)]
    have hmod : h ^ 2 ≡ g [ZMOD q] := by
      rw [← ZMod.intCast_eq_intCast_iff, Int.cast_pow, hsq]
    exact ⟨h, by exact_mod_cast hh, hmod.eq.trans (Int.emod_eq_of_lt hge hlt)⟩

/-- Modulo seventeen there are four fourth roots, powers of three; there is no root of three. -/
theorem rootOfUnity_seventeen :
    Nat.Prime 17 ∧ 17 ≠ 2 ∧ rootOfUnity 3 17 = .error .rootOrder ∧
      ∃ g : Int, rootOfUnity 4 17 = .ok g ∧ orderOf (g : ZMod 17) = 4 ∧
        ∃ h, rootOfUnity 8 17 = .ok h ∧ h ^ 2 % 17 = g := by
  have hprime : Nat.Prime 17 := by decide +kernel
  have hfour : (∃ k : ℕ, (4 : Int) = 2 ^ k) ∧ (4 : Int) ∣ ((17 : ℕ) : Int) - 1 :=
    ⟨⟨2, by decide⟩, by decide⟩
  have hthree : ¬ ((∃ k : ℕ, (3 : Int) = 2 ^ k) ∧ (3 : Int) ∣ ((17 : ℕ) : Int) - 1) :=
    fun h => absurd h.2 (by decide)
  obtain ⟨-, g, hg, -, -, -, -, horder, hsquare⟩ :=
    (rootOfUnity_primitive hprime (by decide) 4).2 hfour
  exact ⟨hprime, by decide, (rootOfUnity_primitive hprime (by decide) 3).1.mpr hthree, g, hg,
    horder, hsquare (by decide)⟩

end RankOne.Transform
