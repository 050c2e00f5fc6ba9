import RankOne.Residue
import Mathlib.Data.Int.ModEq
import Mathlib.Data.Int.GCD
import Mathlib.Tactic.Ring

/-!
# Powers and inverses are what they are called

Repeated squaring gives the remainder of the power, for every modulus. Euclid's algorithm keeps each
remainder congruent to its own multiple of the argument, so an inverse is found exactly where
argument and modulus have no common factor.
-/

set_option autoImplicit false

namespace RankOne.Residue

theorem power_eq (a : Int) (n : Nat) (p : Int) : power a n p = a ^ n % p := by
  fun_induction power a n p with
  | case1 => simp
  | case2 a n hn h hpar ih =>
    have hsq : (a * a % p) ^ (n / 2) ≡ (a * a) ^ (n / 2) [ZMOD p] :=
      (Int.mod_modEq (a * a) p).pow (n / 2)
    have hhalf : n / 2 + n / 2 = n := by omega
    rw [show h = (a * a % p) ^ (n / 2) % p from ih, hsq, mul_pow, ← pow_add, hhalf]
  | case3 a n hn h hpar ih =>
    have hsq : (a * a % p) ^ (n / 2) % p ≡ (a * a) ^ (n / 2) [ZMOD p] :=
      (Int.mod_modEq _ p).trans ((Int.mod_modEq (a * a) p).pow (n / 2))
    have hhalf : n / 2 + n / 2 + 1 = n := by omega
    rw [show h = (a * a % p) ^ (n / 2) % p from ih, hsq.mul_right a, mul_pow, ← pow_add, ← pow_succ,
      hhalf]

theorem power_nonneg (a : Int) (n : Nat) {p : Int} (hp : 0 < p) : 0 ≤ power a n p := by
  rw [power_eq]
  exact Int.emod_nonneg _ (by omega)

theorem power_lt (a : Int) (n : Nat) {p : Int} (hp : 0 < p) : power a n p < p := by
  rw [power_eq]
  exact Int.emod_lt_of_pos _ hp

theorem euclid_gcd (r₀ : Nat) (t₀ : Int) (r₁ : Nat) (t₁ : Int) :
    (euclid r₀ t₀ r₁ t₁).1 = Nat.gcd r₀ r₁ := by
  fun_induction euclid r₀ t₀ r₁ t₁ with
  | case1 => simp
  | case2 r₀ t₀ r₁ t₁ h ih => rw [ih, Nat.gcd_comm r₀ r₁, Nat.gcd_rec r₁ r₀, Nat.gcd_comm]

/-- The remainders of Euclid's algorithm stay congruent to their multiples of the argument. -/
theorem euclid_modEq {a p : Int} (r₀ : Nat) (t₀ : Int) (r₁ : Nat) (t₁ : Int)
    (h₀ : t₀ * a ≡ r₀ [ZMOD p]) (h₁ : t₁ * a ≡ r₁ [ZMOD p]) :
    (euclid r₀ t₀ r₁ t₁).2 * a ≡ (euclid r₀ t₀ r₁ t₁).1 [ZMOD p] := by
  fun_induction euclid r₀ t₀ r₁ t₁ with
  | case1 => exact h₀
  | case2 r₀ t₀ r₁ t₁ h ih =>
    apply ih h₁
    have hq : (r₀ % r₁ : Nat) = (r₀ : Int) - (r₀ / r₁ : Nat) * r₁ := by
      rw [eq_sub_iff_add_eq]
      have hdiv : r₀ % r₁ + r₀ / r₁ * r₁ = r₀ := by rw [Nat.mul_comm]; exact Nat.mod_add_div r₀ r₁
      exact_mod_cast hdiv
    rw [hq, sub_mul, mul_assoc]
    exact h₀.sub (h₁.mul_left _)

theorem inverse?_mul {a p b : Int} (h : inverse? a p = some b) : b * a ≡ 1 [ZMOD p] := by
  unfold inverse? at h
  split at h
  · simp at h
  · rename_i hp
    have hstart : (1 : Int) * a ≡ ((a % p).toNat : Int) [ZMOD p] := by
      rw [one_mul, Int.toNat_of_nonneg (Int.emod_nonneg a hp)]
      exact (Int.mod_modEq a p).symm
    have hzero : (0 : Int) * a ≡ (p.natAbs : Int) [ZMOD p] := by
      rw [zero_mul]
      exact (Int.modEq_zero_iff_dvd.mpr (Int.dvd_natAbs.mpr dvd_rfl)).symm
    have hkey := euclid_modEq p.natAbs 0 (a % p).toNat 1 hzero hstart
    split at h
    · rename_i t heq
      rw [heq] at hkey
      obtain rfl := Option.some.inj h
      exact ((Int.mod_modEq t p).mul_right a).trans hkey
    · simp at h

/-- An inverse exists where argument and modulus are coprime, and only there. -/
theorem inverse?_isSome_iff {a p : Int} (hp : p ≠ 0) :
    (inverse? a p).isSome ↔ Int.gcd a p = 1 := by
  have hgcd : (euclid p.natAbs 0 (a % p).toNat 1).1 = Int.gcd a p := by
    have hnonneg := Int.emod_nonneg a hp
    have habs : (a % p).toNat = (a % p).natAbs := by omega
    rw [euclid_gcd, habs, ← Int.gcd_emod, Int.gcd_comm]
    rfl
  unfold inverse?
  rw [if_neg hp, ← hgcd]
  split
  · rename_i t heq
    simp [heq]
  · rename_i hne
    simp only [Option.isSome_none, Bool.false_eq_true, false_iff]
    exact fun hone => hne _ (Prod.ext hone rfl)

end RankOne.Residue
