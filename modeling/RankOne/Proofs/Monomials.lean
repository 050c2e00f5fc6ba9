import RankOne.Proofs.ScalarField
import Mathlib.Tactic.LinearCombination

/-!
# Identities in the secrets

What is left of an equation between products of combinations when it holds for all nonzero values
of the secrets: the coefficients of its monomials agree. The secrets are taken one after the other,
and each of them leaves a polynomial of low degree that has more zeros than it may have.
-/

set_option autoImplicit false

namespace RankOne

/-- A polynomial of degree at most three that vanishes where its variable does not is zero. -/
theorem cubic_coefficients (c₀ c₁ c₂ c₃ : Scalar)
    (h : ∀ x : Scalar, x ≠ 0 → c₀ + c₁ * x + c₂ * x ^ 2 + c₃ * x ^ 3 = 0) :
    c₀ = 0 ∧ c₁ = 0 ∧ c₂ = 0 ∧ c₃ = 0 := by
  have h12 : (12 : Scalar) ≠ 0 := by
    have hdraw : IsDraw 12 := ⟨by decide, by decide⟩
    simpa using hdraw.cast_ne_zero
  have h2 := two_ne_zero_scalar
  have e₁ := h 1 one_ne_zero
  have e₂ := h (-1) (neg_ne_zero.mpr one_ne_zero)
  have e₃ := h 2 h2
  have e₄ := h (-2) (neg_ne_zero.mpr h2)
  refine ⟨?_, ?_, ?_, ?_⟩ <;> apply mul_left_cancel₀ h12
  · linear_combination 8 * e₁ + 8 * e₂ - 2 * e₃ - 2 * e₄
  · linear_combination 8 * e₁ - 8 * e₂ - e₃ + e₄
  · linear_combination -2 * e₁ - 2 * e₂ + 2 * e₃ + 2 * e₄
  · linear_combination -2 * e₁ + 2 * e₂ + e₃ - e₄

/-- The same for a polynomial in two variables, with the monomials that come up. -/
theorem quadratic_coefficients (k kα kβ kαβ kββ : Scalar)
    (h : ∀ α β : Scalar, α ≠ 0 → β ≠ 0 →
      k + kα * α + kβ * β + kαβ * (α * β) + kββ * β ^ 2 = 0) :
    k = 0 ∧ kα = 0 ∧ kβ = 0 ∧ kαβ = 0 ∧ kββ = 0 := by
  have hα : ∀ β : Scalar, β ≠ 0 → k + kβ * β + kββ * β ^ 2 = 0 ∧ kα + kαβ * β = 0 := by
    intro β hβ
    have hcubic := cubic_coefficients (k + kβ * β + kββ * β ^ 2) (kα + kαβ * β) 0 0 (by
      intro α hα
      linear_combination h α β hα hβ)
    exact ⟨hcubic.1, hcubic.2.1⟩
  obtain ⟨hk, hkβ, hkββ, -⟩ := cubic_coefficients k kβ kββ 0 (by
    intro β hβ
    linear_combination (hα β hβ).1)
  obtain ⟨hkα, hkαβ, -⟩ := cubic_coefficients kα kαβ 0 0 (by
    intro β hβ
    linear_combination (hα β hβ).2)
  exact ⟨hk, hkα, hkβ, hkαβ, hkββ⟩

section Identity
variable {a₁ a₂ a₃ u₁ u₂ u₃ v₁ v₂ v₃ X b₁ b₂ b₃ Y c₁ c₂ c₃ p₁ p₂ p₃ q₁ q₂ q₃ Z x₁ x₂ x₃ : Scalar}

theorem powers_of_gamma
    (h : ∀ α β γ δ : Scalar, α ≠ 0 → β ≠ 0 → γ ≠ 0 → δ ≠ 0 →
      (a₁ * α + a₂ * β + a₃ * δ + γ⁻¹ * (β * u₁ + α * u₂ + u₃) + δ⁻¹ * (β * v₁ + α * v₂ + v₃) +
          X) * (b₁ * β + b₂ * γ + b₃ * δ + Y) =
        α * β + (β * x₁ + α * x₂ + x₃) +
          (c₁ * α + c₂ * β + c₃ * δ + γ⁻¹ * (β * p₁ + α * p₂ + p₃) +
            δ⁻¹ * (β * q₁ + α * q₂ + q₃) + Z) * δ)
    {α β δ : Scalar} (hα : α ≠ 0) (hβ : β ≠ 0) (hδ : δ ≠ 0) :
    (a₁ * α + a₂ * β + a₃ * δ + δ⁻¹ * (β * v₁ + α * v₂ + v₃) + X) * (b₁ * β + b₃ * δ + Y) +
          (β * u₁ + α * u₂ + u₃) * b₂ - α * β - (β * x₁ + α * x₂ + x₃) -
          (c₁ * α + c₂ * β + c₃ * δ + δ⁻¹ * (β * q₁ + α * q₂ + q₃) + Z) * δ = 0 ∧
      (a₁ * α + a₂ * β + a₃ * δ + δ⁻¹ * (β * v₁ + α * v₂ + v₃) + X) * b₂ = 0 := by
  have hcoefficients := cubic_coefficients
    ((β * u₁ + α * u₂ + u₃) * (b₁ * β + b₃ * δ + Y) - (β * p₁ + α * p₂ + p₃) * δ)
    ((a₁ * α + a₂ * β + a₃ * δ + δ⁻¹ * (β * v₁ + α * v₂ + v₃) + X) * (b₁ * β + b₃ * δ + Y) +
      (β * u₁ + α * u₂ + u₃) * b₂ - α * β - (β * x₁ + α * x₂ + x₃) -
      (c₁ * α + c₂ * β + c₃ * δ + δ⁻¹ * (β * q₁ + α * q₂ + q₃) + Z) * δ)
    ((a₁ * α + a₂ * β + a₃ * δ + δ⁻¹ * (β * v₁ + α * v₂ + v₃) + X) * b₂) 0 (by
      intro γ hγ
      have hinv : γ⁻¹ * γ = 1 := inv_mul_cancel₀ hγ
      linear_combination γ * h α β γ δ hα hβ hγ hδ -
        ((β * u₁ + α * u₂ + u₃) * (b₁ * β + b₂ * γ + b₃ * δ + Y) -
          (β * p₁ + α * p₂ + p₃) * δ) * hinv)
  exact ⟨hcoefficients.2.1, hcoefficients.2.2.1⟩

/-- The two lowest powers of `δ` in the identity that is left without `γ`. -/
theorem powers_of_delta (a₃ c₁ c₂ c₃ Z : Scalar) {α β K L : Scalar}
    (h : ∀ δ : Scalar, δ ≠ 0 →
      (a₁ * α + a₂ * β + a₃ * δ + δ⁻¹ * (β * v₁ + α * v₂ + v₃) + X) * (b₁ * β + b₃ * δ + Y) + K -
        (c₁ * α + c₂ * β + c₃ * δ + δ⁻¹ * L + Z) * δ = 0) :
    (β * v₁ + α * v₂ + v₃) * (b₁ * β + Y) = 0 ∧
      (a₁ * α + a₂ * β + X) * (b₁ * β + Y) + (β * v₁ + α * v₂ + v₃) * b₃ + K - L = 0 := by
  have hcoefficients := cubic_coefficients
    ((β * v₁ + α * v₂ + v₃) * (b₁ * β + Y))
    ((a₁ * α + a₂ * β + X) * (b₁ * β + Y) + (β * v₁ + α * v₂ + v₃) * b₃ + K - L)
    ((a₁ * α + a₂ * β + X) * b₃ + a₃ * (b₁ * β + Y) - (c₁ * α + c₂ * β + Z))
    (a₃ * b₃ - c₃) (by
      intro δ hδ
      have hinv : δ⁻¹ * δ = 1 := inv_mul_cancel₀ hδ
      linear_combination δ * h δ hδ -
        ((β * v₁ + α * v₂ + v₃) * (b₁ * β + b₃ * δ + Y) - L * δ) * hinv)
  exact ⟨hcoefficients.1, hcoefficients.2.1⟩

/-- What the verified identity says at one gate: the values of the two factors, public and private
parts together, have the value of the output as their product. -/
theorem mul_eq_of_identity
    (h : ∀ α β γ δ : Scalar, α ≠ 0 → β ≠ 0 → γ ≠ 0 → δ ≠ 0 →
      (a₁ * α + a₂ * β + a₃ * δ + γ⁻¹ * (β * u₁ + α * u₂ + u₃) + δ⁻¹ * (β * v₁ + α * v₂ + v₃) +
          X) * (b₁ * β + b₂ * γ + b₃ * δ + Y) =
        α * β + (β * x₁ + α * x₂ + x₃) +
          (c₁ * α + c₂ * β + c₃ * δ + γ⁻¹ * (β * p₁ + α * p₂ + p₃) +
            δ⁻¹ * (β * q₁ + α * q₂ + q₃) + Z) * δ) :
    (x₁ + q₁) * (x₂ + q₂) = x₃ + q₃ := by
  have hδ : ∀ α β : Scalar, α ≠ 0 → β ≠ 0 →
      (β * v₁ + α * v₂ + v₃) * (b₁ * β + Y) = 0 ∧
        (a₁ * α + a₂ * β + X) * (b₁ * β + Y) + (β * v₁ + α * v₂ + v₃) * b₃ +
          ((β * u₁ + α * u₂ + u₃) * b₂ - α * β - (β * x₁ + α * x₂ + x₃)) -
            (β * q₁ + α * q₂ + q₃) = 0 := by
    intro α β hα hβ
    apply powers_of_delta a₃ c₁ c₂ c₃ Z
    intro δ hδ
    linear_combination (powers_of_gamma h hα hβ hδ).1
  -- the private columns of the first element only meet what is left of the second one
  obtain ⟨-, -, hv₃, hv₂, hv₁⟩ :=
    quadratic_coefficients (v₃ * Y) (v₂ * Y) (v₁ * Y + v₃ * b₁) (v₂ * b₁) (v₁ * b₁) (by
      intro α β hα hβ
      linear_combination (hδ α β hα hβ).1)
  obtain ⟨hone, hα, hβ, hαβ, hββ⟩ :=
    quadratic_coefficients (X * Y + v₃ * b₃ + u₃ * b₂ - x₃ - q₃)
      (a₁ * Y + v₂ * b₃ + u₂ * b₂ - x₂ - q₂) (a₂ * Y + X * b₁ + v₁ * b₃ + u₁ * b₂ - x₁ - q₁)
      (a₁ * b₁ - 1) (a₂ * b₁) (by
        intro α β hα hβ
        linear_combination (hδ α β hα hβ).2)
  have hab : a₁ * b₁ = 1 := sub_eq_zero.mp hαβ
  have ha₁ : a₁ ≠ 0 := left_ne_zero_of_mul_eq_one hab
  have hb₁ : b₁ ≠ 0 := right_ne_zero_of_mul_eq_one hab
  obtain rfl : v₁ = 0 := (mul_eq_zero.mp hv₁).resolve_right hb₁
  obtain rfl : v₂ = 0 := (mul_eq_zero.mp hv₂).resolve_right hb₁
  obtain rfl : v₃ = 0 := by
    rw [zero_mul, zero_add] at hv₃
    exact (mul_eq_zero.mp hv₃).resolve_right hb₁
  obtain rfl : a₂ = 0 := (mul_eq_zero.mp hββ).resolve_right hb₁
  have hb₂ : a₁ * b₂ = 0 := by
    have hcubic := cubic_coefficients ((a₃ + X) * b₂) (a₁ * b₂) 0 0 (by
      intro α hα
      linear_combination (powers_of_gamma h hα one_ne_zero one_ne_zero).2)
    exact hcubic.2.1
  obtain rfl : b₂ = 0 := (mul_eq_zero.mp hb₂).resolve_left ha₁
  have hleft : x₁ + q₁ = X * b₁ := by linear_combination -hβ
  have hright : x₂ + q₂ = a₁ * Y := by linear_combination -hα
  have houtput : x₃ + q₃ = X * Y := by linear_combination -hone
  rw [hleft, hright, houtput]
  linear_combination X * Y * hab

end Identity

end RankOne
