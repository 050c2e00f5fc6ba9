import RankOne.Argument.Prover
import RankOne.Proofs.Fourier
import RankOne.Proofs.ScalarField
import RankOne.Text.Numeral

/-!
# Groups of prime order with a pairing

What the argument assumes of its groups, as laws about the multiples of the generators: they add up
like residues of the order, and the pairing is linear in both places. Of other values that a type
of points may have they say nothing; that there are none is a law by itself. With these laws each
sum of multiples has a known exponent, and the pairing equation is an equation in the scalar
field.
-/

set_option autoImplicit false

namespace RankOne
open CodedGroup (multiple)
open Pairing (pair)

class PrimeOrder (G : Type) [CodedGroup G] : Prop where
  zero_eq : (CodedGroup.zero : G) = multiple 0
  add_multiple : ∀ a b : Int, CodedGroup.add (multiple a : G) (multiple b) = multiple (a + b)
  neg_multiple : ∀ a : Int, CodedGroup.neg (multiple a : G) = multiple (-a)
  smul_multiple : ∀ k a : Int, CodedGroup.smul k (multiple a : G) = multiple (k * a)
  multiple_eq_iff : ∀ a b : Int, (multiple a : G) = multiple b ↔ reduce a = reduce b

class Generated (G : Type) [CodedGroup G] : Prop where
  exists_eq_multiple : ∀ x : G, ∃ a : Int, x = multiple a

class Bilinear (G₁ G₂ : Type) (Gₜ : outParam Type) [CodedGroup G₁] [CodedGroup G₂] [Mul Gₜ]
    [Pairing G₁ G₂ Gₜ] : Prop where
  pair_add_left : ∀ a b c : Int, pair (multiple (a + b) : G₁) (multiple c : G₂) =
    pair (multiple a : G₁) (multiple c : G₂) * pair (multiple b : G₁) (multiple c : G₂)
  pair_add_right : ∀ a b c : Int, pair (multiple a : G₁) (multiple (b + c) : G₂) =
    pair (multiple a : G₁) (multiple b : G₂) * pair (multiple a : G₁) (multiple c : G₂)

class NonDegenerate (G₁ G₂ : Type) (Gₜ : outParam Type) [CodedGroup G₁] [CodedGroup G₂]
    [Pairing G₁ G₂ Gₜ] : Prop where
  pair_one_ne : pair (multiple 1 : G₁) (multiple 1 : G₂) ≠ pair (multiple 0 : G₁) (multiple 1 : G₂)

def inner : List Int → List Int → Int
  | x :: xs, z :: zs => z * x + inner xs zs
  | _, _ => 0

section Group
variable {G : Type} [CodedGroup G] [PrimeOrder G]

theorem multiple_congr {a b : Int} (h : (a : Scalar) = b) : (multiple a : G) = multiple b :=
  (PrimeOrder.multiple_eq_iff a b).mpr (cast_eq_cast_iff.mp h)

theorem sub_multiple (a b : Int) :
    CodedGroup.sub (multiple a : G) (multiple b) = multiple (a - b) := by
  rw [CodedGroup.sub, PrimeOrder.neg_multiple, PrimeOrder.add_multiple, Int.sub_eq_add_neg]

theorem dot_multiple (a : Int) (xs zs : List Int) :
    CodedGroup.dot (multiple a : G) (xs.map multiple) zs = multiple (a + inner xs zs) := by
  induction xs generalizing a zs with
  | nil => simp [CodedGroup.dot, inner]
  | cons x xs ih =>
    cases zs with
    | nil => simp [CodedGroup.dot, inner]
    | cons z zs =>
      rw [List.map_cons, CodedGroup.dot, PrimeOrder.smul_multiple, PrimeOrder.add_multiple, ih,
        inner, Int.add_assoc]

theorem combine_multiple (a : Int) {xs zs : List Int} (h : xs.length = zs.length) :
    ProvingKey.combine (multiple a : G) (xs.map multiple) zs =
      .ok (multiple (a + inner xs zs)) := by
  rw [ProvingKey.combine, List.length_map, if_pos h, dot_multiple]

end Group

theorem cast_inner {f g : ℕ → Scalar} (xs zs : List Int) (h : xs.length = zs.length)
    (hf : Transform.Tabulates f xs) (hg : Transform.Tabulates g zs) :
    (inner xs zs : Scalar) = ∑ i ∈ Finset.range zs.length, g i * f i := by
  induction xs generalizing f g zs with
  | nil =>
    obtain rfl := List.eq_nil_of_length_eq_zero h.symm
    simp [inner]
  | cons x xs ih =>
    obtain ⟨z, zs, rfl⟩ := List.exists_cons_of_length_eq_add_one h.symm
    have htail := ih zs (by simpa using h) hf.2 hg.2
    rw [inner, Int.cast_add, Int.cast_mul, htail, List.length_cons, Finset.sum_range_succ', hf.1,
      hg.1, add_comm]

/-- Powers of a point, combined by coefficients, are the value of the polynomial there. -/
theorem cast_inner_powers (tau : Int) {n : ℕ} {a : List Int} (ha : a.length = n) :
    (inner (Transform.powers tau n order) a : Scalar) =
      (Transform.polynomial Scalar a).eval (tau : Scalar) := by
  rw [cast_inner _ a (by rw [Transform.length_powers, ha])
    (Transform.tabulates_powers cast_order tau n) (Transform.tabulates_entryOf a),
    Transform.eval_polynomial a (Transform.tabulates_entryOf a)]

theorem exists_succ_cast_eq (x : Scalar) : ∃ n : ℕ, (((n + 1 : ℕ) : Int) : Scalar) = x := by
  refine ⟨x.val + (orderNat - 1), ?_⟩
  have hsum : ((x.val + (orderNat - 1) + 1 : ℕ) : Int) = (x.val : Int) + order := by
    rw [← natCast_orderNat]
    have := orderNat_prime.pos
    omega
  rw [hsum, Int.cast_add, cast_val, cast_order, add_zero]

section Pairings
variable {G₁ G₂ Gₜ : Type} [CodedGroup G₁] [CodedGroup G₂] [Mul Gₜ] [Pairing G₁ G₂ Gₜ]
  [PrimeOrder G₁] [PrimeOrder G₂] [Bilinear G₁ G₂ Gₜ]

/-- The pairing of two multiples depends on the product of the exponents alone. -/
theorem pair_multiple (a b : Int) :
    pair (multiple a : G₁) (multiple b : G₂) = pair (multiple (a * b) : G₁) (multiple 1 : G₂) := by
  have hnat : ∀ n : ℕ, pair (multiple a : G₁) (multiple ((n + 1 : ℕ) : Int) : G₂) =
      pair (multiple (a * ((n + 1 : ℕ) : Int)) : G₁) (multiple 1 : G₂) := by
    intro n
    induction n with
    | zero => simp
    | succ n ih =>
      have hsplit : ((n + 1 + 1 : ℕ) : Int) = ((n + 1 : ℕ) : Int) + 1 := by push_cast; ring
      rw [hsplit, Bilinear.pair_add_right, ih, mul_add, mul_one, Bilinear.pair_add_left]
  obtain ⟨n, hcast⟩ := exists_succ_cast_eq (b : Scalar)
  have hb : (multiple b : G₂) = multiple ((n + 1 : ℕ) : Int) := multiple_congr hcast.symm
  have hab : (multiple (a * b) : G₁) = multiple (a * ((n + 1 : ℕ) : Int)) := by
    apply multiple_congr
    rw [Int.cast_mul, Int.cast_mul, hcast]
  rw [hb, hnat, hab]

theorem pair_mul_pair (a b c d : Int) :
    pair (multiple a : G₁) (multiple b : G₂) * pair (multiple c : G₁) (multiple d : G₂) =
      pair (multiple (a * b + c * d) : G₁) (multiple 1 : G₂) := by
  rw [pair_multiple a b, pair_multiple c d, ← Bilinear.pair_add_left]

omit [Mul Gₜ] [PrimeOrder G₂] [Bilinear G₁ G₂ Gₜ] in
theorem pair_eq_of_cast_eq {a b : Int} (h : (a : Scalar) = b) :
    pair (multiple a : G₁) (multiple 1 : G₂) = pair (multiple b : G₁) (multiple 1 : G₂) := by
  rw [multiple_congr (G := G₁) h]

omit [PrimeOrder G₂] in
theorem cast_eq_of_pair_eq [NonDegenerate G₁ G₂ Gₜ] {a b : Int}
    (h : pair (multiple a : G₁) (multiple 1 : G₂) = pair (multiple b : G₁) (multiple 1 : G₂)) :
    (a : Scalar) = b := by
  by_contra hne
  have hdiff : ((a - b : Int) : Scalar) ≠ 0 := by
    rw [Int.cast_sub]
    exact sub_ne_zero.mpr hne
  have hzero : pair (multiple (a - b) : G₁) (multiple 1 : G₂) =
      pair (multiple 0 : G₁) (multiple 1 : G₂) := by
    have hsub : b + -b = 0 := by ring
    rw [Int.sub_eq_add_neg, Bilinear.pair_add_left, h, ← Bilinear.pair_add_left, hsub]
  -- a multiple of what pairs like zero pairs like zero, and one is such a multiple
  have hmul : ∀ n : ℕ, pair (multiple ((a - b) * ((n + 1 : ℕ) : Int)) : G₁) (multiple 1 : G₂) =
      pair (multiple 0 : G₁) (multiple 1 : G₂) := by
    intro n
    induction n with
    | zero => simpa using hzero
    | succ n ih =>
      have hsplit : (a - b) * ((n + 1 + 1 : ℕ) : Int) =
          (a - b) * ((n + 1 : ℕ) : Int) + (a - b) := by
        push_cast
        ring
      rw [hsplit, Bilinear.pair_add_left, ih, hzero, ← Bilinear.pair_add_left, add_zero]
  obtain ⟨n, hn⟩ := exists_succ_cast_eq ((a - b : Int) : Scalar)⁻¹
  have hcast : (((a - b) * ((n + 1 : ℕ) : Int) : Int) : Scalar) = (1 : Int) := by
    rw [Int.cast_mul, hn, Int.cast_one, mul_inv_cancel₀ hdiff]
  have hone : pair (multiple 1 : G₁) (multiple 1 : G₂) =
      pair (multiple 0 : G₁) (multiple 1 : G₂) := by
    rw [← pair_eq_of_cast_eq hcast]
    exact hmul n
  exact NonDegenerate.pair_one_ne hone

end Pairings

/-- An element of a group of the prime order, known by its exponent. The argument is complete and
sound over this group too; what it lacks is that exponents are hard to find. -/
structure Exponent where
  value : Scalar
deriving DecidableEq

namespace Exponent

instance : CodedGroup Exponent where
  zero := ⟨0⟩
  add x y := ⟨x.value + y.value⟩
  neg x := ⟨-x.value⟩
  smul k x := ⟨k * x.value⟩
  generator := ⟨1⟩
  width := 32
  encode x := Bytes.ofNat 32 x.value.val
  decode? data := if Bytes.toNat data < orderNat then some ⟨Bytes.toNat data⟩ else none
  parts x := [toString x.value.val]
  ofText? text := (Text.decimal? text).map fun n => ⟨n⟩

instance : Pairing Exponent Exponent (Multiplicative Scalar) where
  pair x y := Multiplicative.ofAdd (x.value * y.value)

theorem multiple_eq (a : Int) : (multiple a : Exponent) = ⟨a⟩ := by
  change (⟨(a : Scalar) * 1⟩ : Exponent) = ⟨a⟩
  rw [mul_one]

theorem pair_multiple_eq (a b : Int) :
    pair (multiple a : Exponent) (multiple b : Exponent) =
      Multiplicative.ofAdd ((a : Scalar) * b) := by
  rw [multiple_eq, multiple_eq]
  rfl

instance : PrimeOrder Exponent where
  zero_eq := by
    rw [multiple_eq, Int.cast_zero]
    rfl
  add_multiple a b := by
    rw [multiple_eq, multiple_eq, multiple_eq, Int.cast_add]
    rfl
  neg_multiple a := by
    rw [multiple_eq, multiple_eq, Int.cast_neg]
    rfl
  smul_multiple k a := by
    rw [multiple_eq, multiple_eq, Int.cast_mul]
    rfl
  multiple_eq_iff a b := by
    rw [multiple_eq, multiple_eq, mk.injEq, cast_eq_cast_iff]

instance : Generated Exponent where
  exists_eq_multiple x := ⟨x.value.val, by rw [multiple_eq, cast_val]⟩

instance : Bilinear Exponent Exponent (Multiplicative Scalar) where
  pair_add_left a b c := by
    rw [pair_multiple_eq, pair_multiple_eq, pair_multiple_eq, Int.cast_add, add_mul, ofAdd_add]
  pair_add_right a b c := by
    rw [pair_multiple_eq, pair_multiple_eq, pair_multiple_eq, Int.cast_add, mul_add, ofAdd_add]

instance : NonDegenerate Exponent Exponent (Multiplicative Scalar) where
  pair_one_ne := by
    rw [pair_multiple_eq, pair_multiple_eq, Int.cast_one, Int.cast_zero, zero_mul, one_mul]
    exact fun h => one_ne_zero (Multiplicative.ofAdd.injective h)

end Exponent
end RankOne
