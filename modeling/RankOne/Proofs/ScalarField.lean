import RankOne.Arithmetic
import RankOne.Proofs.Residue
import RankOne.Transform
import Mathlib.Data.ZMod.Units
import Mathlib.NumberTheory.LucasPrimality
import Mathlib.Tactic.ReduceModChar
import Mathlib.Tactic.NormNum.Prime
import Mathlib.Tactic.NormNum.PowMod

/-!
# The scalar field is a field

The order of the groups is prime, by the test of Lucas on the factors of its predecessor. Integers
stand for elements of the field; reduction keeps the element, and two reduced integers that stand
for the same element are equal.
-/

set_option autoImplicit false

namespace RankOne

def orderNat : ℕ := order.toNat

def orderFactors : List (ℕ × ℕ) :=
  [(2, 32), (3, 1), (11, 1), (19, 1), (10177, 1), (125527, 1), (859267, 1), (906349, 2),
    (2508409, 1), (2529403, 1), (52437899, 1), (254760293, 2)]

theorem orderNat_eq :
    orderNat = 52435875175126190479447740508185965837690552500527637822603658699938581184513 := rfl

theorem orderFactors_prod : (orderFactors.map fun f => f.1 ^ f.2).prod = orderNat - 1 := by
  norm_num [orderFactors, orderNat_eq]

theorem orderFactors_prime : ∀ f ∈ orderFactors, f.1.Prime := by
  norm_num [orderFactors]

theorem mem_orderFactors {q : ℕ} (hq : q.Prime) (h : q ∣ orderNat - 1) :
    q ∈ orderFactors.map Prod.fst := by
  rw [← orderFactors_prod] at h
  obtain ⟨x, hx, hqx⟩ := (Prime.dvd_prod_iff hq.prime).mp h
  obtain ⟨f, hf, rfl⟩ := List.mem_map.mp hx
  have hqf := (Nat.prime_dvd_prime_iff_eq hq (orderFactors_prime f hf)).mp (hq.dvd_of_dvd_pow hqx)
  exact List.mem_map.mpr ⟨f, hf, hqf.symm⟩

theorem orderNat_prime : orderNat.Prime := by
  apply lucas_primality _ (7 : ZMod orderNat)
  · rw [orderNat_eq]
    reduce_mod_char
  · intro q hq hd
    have hmem := mem_orderFactors hq hd
    simp only [orderFactors, List.map_cons, List.map_nil, List.mem_cons, List.not_mem_nil,
      or_false] at hmem
    rw [orderNat_eq]
    rcases hmem with rfl | rfl | rfl | rfl | rfl | rfl | rfl | rfl | rfl | rfl | rfl | rfl <;>
      norm_num only <;> reduce_mod_char <;> decide +kernel

instance : Fact orderNat.Prime := ⟨orderNat_prime⟩

abbrev Scalar := ZMod orderNat

theorem natCast_orderNat : (orderNat : Int) = order := rfl

theorem cast_order : ((order : Int) : Scalar) = 0 := by
  rw [← natCast_orderNat, Int.cast_natCast]
  exact ZMod.natCast_self orderNat

theorem cast_eq_cast_iff {x y : Int} : (x : Scalar) = y ↔ reduce x = reduce y := by
  rw [ZMod.intCast_eq_intCast_iff]
  rfl

@[simp]
theorem cast_reduce (x : Int) : ((reduce x : Int) : Scalar) = x := by
  rw [cast_eq_cast_iff]
  exact Int.emod_emod x order

theorem reduce_eq_self {x : Int} (h₀ : 0 ≤ x) (h : x < order) : reduce x = x :=
  Int.emod_eq_of_lt h₀ h

/-- Two numbers below the order that stand for one element are the same. -/
theorem eq_of_cast_eq {x y : Int} (hx : 0 ≤ x ∧ x < order) (hy : 0 ≤ y ∧ y < order)
    (h : (x : Scalar) = y) : x = y := by
  rwa [cast_eq_cast_iff, reduce_eq_self hx.1 hx.2, reduce_eq_self hy.1 hy.2] at h

theorem reduce_eq_zero_iff {x : Int} : reduce x = 0 ↔ (x : Scalar) = 0 := by
  have hzero : reduce 0 = 0 := rfl
  rw [← hzero, ← cast_eq_cast_iff, Int.cast_zero]

theorem reduce_eq_one_iff {x : Int} : reduce x = 1 ↔ (x : Scalar) = 1 := by
  have hone : reduce 1 = 1 := by decide
  rw [← hone, ← cast_eq_cast_iff, Int.cast_one]

theorem cast_val (x : Scalar) : ((x.val : Int) : Scalar) = x := by
  rw [Int.cast_natCast]
  exact ZMod.natCast_zmod_val x

theorem val_range (x : Scalar) : 0 ≤ (x.val : Int) ∧ (x.val : Int) < order :=
  ⟨Int.natCast_nonneg _, by
    rw [← natCast_orderNat]
    exact Int.ofNat_lt.mpr (ZMod.val_lt x)⟩

def IsDraw (x : Int) : Prop :=
  0 < x ∧ x < order

instance (x : Int) : Decidable (IsDraw x) :=
  inferInstanceAs (Decidable (0 < x ∧ x < order))

theorem IsDraw.cast_ne_zero {x : Int} (h : IsDraw x) : (x : Scalar) ≠ 0 := by
  rw [Ne, ← reduce_eq_zero_iff, reduce_eq_self h.1.le h.2]
  exact h.1.ne'

theorem two_ne_zero_scalar : (2 : Scalar) ≠ 0 := by
  have h : IsDraw 2 := ⟨by decide, by decide⟩
  simpa using h.cast_ne_zero

theorem IsDraw.isScalar {x : Int} (h : IsDraw x) : isScalar x = true := by
  obtain ⟨hpos, hlt⟩ := h
  have horder := order_pos
  simp only [RankOne.isScalar, Bool.and_eq_true, decide_eq_true_eq]
  omega

theorem isDraw_val {x : Scalar} (hx : x ≠ 0) : IsDraw (x.val : Int) := by
  have hpos : 0 < x.val := Nat.pos_of_ne_zero fun h => hx ((ZMod.val_eq_zero x).mp h)
  refine ⟨by exact_mod_cast hpos, ?_⟩
  rw [← natCast_orderNat]
  exact_mod_cast ZMod.val_lt x

theorem inverse?_order {x : Int} (h : (x : Scalar) ≠ 0) :
    ∃ y, Residue.inverse? x order = some y ∧ (y : Scalar) = (x : Scalar)⁻¹ := by
  have hcoprime : Int.gcd x order = 1 := by
    have hunit := (ZMod.coe_int_isUnit_iff_isCoprime x orderNat).mp h.isUnit
    exact Int.isCoprime_iff_gcd_eq_one.mp hunit.symm
  have hsome := (Residue.inverse?_isSome_iff order_pos.ne').mpr hcoprime
  obtain ⟨y, hy⟩ := Option.isSome_iff_exists.mp hsome
  have hmul : ((y * x : Int) : Scalar) = (1 : Int) := cast_eq_cast_iff.mpr (Residue.inverse?_mul hy)
  push_cast at hmul
  exact ⟨y, hy, eq_inv_of_mul_eq_one_left hmul⟩

theorem invert_order {x : Int} (h : (x : Scalar) ≠ 0) :
    ∃ y, Transform.invert x order = .ok y ∧ (y : Scalar) = (x : Scalar)⁻¹ := by
  obtain ⟨y, hy, hcast⟩ := inverse?_order h
  exact ⟨y, by simp only [Transform.invert, hy], hcast⟩

theorem cast_inverse {x : Int} (h : (x : Scalar) ≠ 0) :
    ((Build.inverse x : Int) : Scalar) = (x : Scalar)⁻¹ := by
  obtain ⟨y, hy, hcast⟩ := inverse?_order h
  rw [Build.inverse, hy]
  exact hcast

end RankOne
