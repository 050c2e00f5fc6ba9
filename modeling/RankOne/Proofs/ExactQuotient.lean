import RankOne.Proofs.Completeness
import RankOne.Proofs.Evaluation

/-!
# The quotient of a proof is exact

The quotient depends on the values of the three sides alone. Where they satisfy the gates it is the
one polynomial that multiplies the vanishing polynomial of the domain to `A * B - C`. Its degree
leaves the last coefficient free, which is therefore always zero.
-/

set_option autoImplicit false

namespace RankOne
open Polynomial Transform

namespace Quotient

def padded (size : ℕ) (values : List Int) : List Int :=
  values ++ List.replicate (size - values.length) 0

def ofValues (a b c : List Int) : Except Fault Quotient := do
  let size := domainSize a.length
  let p ← rootOfUnity size order
  let q ← rootOfUnity (2 * size) order
  let left ← interpolate (padded size a) p order
  let right ← interpolate (padded size b) p order
  let output ← interpolate (padded size c) p order
  let x ← evaluateOnCoset left q p order
  let y ← evaluateOnCoset right q p order
  let z ← evaluateOnCoset output q p order
  let quotient ← interpolateOnCoset (quotientValues x y z) q p order
  return ⟨left, right, quotient⟩

theorem length_padded {size : ℕ} {values : List Int} (h : values.length ≤ size) :
    (padded size values).length = size := by
  rw [padded, List.length_append, List.length_replicate]
  omega

theorem entryOf_padded (size : ℕ) (values : List Int) (j : ℕ) :
    entryOf Scalar (padded size values) j = entryOf Scalar values j := by
  simp only [entryOf, padded, List.getD_eq_getElem?_getD]
  by_cases hj : j < values.length
  · rw [List.getElem?_append_left hj]
  · rw [List.getElem?_append_right (not_lt.mp hj), List.getElem?_replicate,
      List.getElem?_eq_none (not_lt.mp hj)]
    split <;> rfl

end Quotient

theorem R1CS.length_sideValues {s : R1CS} {side : Gate → Linear} {gates : List Gate}
    {a : List Int} (h : s.sideValues side gates = .ok a) : a.length = gates.length := by
  induction gates generalizing a with
  | nil =>
    obtain rfl := Except.ok.inj h
    rfl
  | cons g rest ih =>
    simp only [sideValues, bind, Except.bind, pure, Except.pure] at h
    split at h
    · simp at h
    · split at h
      · simp at h
      · rename_i vs hvs
        obtain rfl := Except.ok.inj h
        simp [ih hvs]

theorem Quotient.ofSystem_eq_ofValues {s : R1CS} {a b c : List Int}
    (ha : s.sideValues Gate.left s.gates = .ok a) (hb : s.sideValues Gate.right s.gates = .ok b)
    (hc : s.sideValues Gate.output s.gates = .ok c) : ofSystem s = ofValues a b c := by
  rw [ofSystem, ofValues, R1CS.length_sideValues ha]
  simp only [R1CS.sidePolynomial, ha, hb, hc, padded, bind, Except.bind]

/-- Gates that hold also hold on the points where zeros stand for their values. -/
theorem mul_entryOf_eq {a b c : List Int} (hc : c.length = a.length)
    (h : ∀ n < a.length, a.getD n 0 * b.getD n 0 ≡ c.getD n 0 [ZMOD order]) (n : ℕ) :
    entryOf Scalar a n * entryOf Scalar b n = entryOf Scalar c n := by
  by_cases hn : n < a.length
  · simp only [entryOf]
    rw [← Int.cast_mul, cast_eq_cast_iff]
    exact h n hn
  · have hzero : ∀ {v : List Int}, v.length = a.length → entryOf Scalar v n = 0 := by
      intro v hv
      rw [entryOf, List.getD_eq_getElem?_getD, List.getElem?_eq_none (by omega), Option.getD_none,
        Int.cast_zero]
    rw [hzero rfl, hzero hc, zero_mul]

structure Interpolates (root : Int) (size : ℕ) (values : List Int) (A : Scalar[X]) : Prop where
  degree_lt : A.degree < size
  eval_eq : ∀ n < size, A.eval ((root : Scalar) ^ n) = entryOf Scalar values n

namespace Domain
variable {m : ℕ} (d : Domain m)

theorem interpolates_interpolated {values : List Int} (h : values.length ≤ 2 ^ m) :
    Interpolates d.root (2 ^ m) values
      (polynomial Scalar (d.interpolated (Quotient.padded (2 ^ m) values))) := by
  have hlen := Quotient.length_padded h
  refine ⟨?_, fun n hn => ?_⟩
  · have hdegree := degree_polynomial_lt (R := Scalar)
      (d.interpolated (Quotient.padded (2 ^ m) values))
    rwa [d.length_interpolated hlen] at hdegree
  · rw [d.eval_interpolated hlen hn, Quotient.entryOf_padded]

theorem interpolates_unique {values : List Int} {A B : Scalar[X]}
    (hA : Interpolates d.root (2 ^ m) values A) (hB : Interpolates d.root (2 ^ m) values B) :
    A = B := by
  apply eq_of_degrees_lt_of_eval_index_eq (Finset.range (2 ^ m)) d.root_pow_injOn
  · rw [Finset.card_range]
    exact hA.degree_lt
  · rw [Finset.card_range]
    exact hB.degree_lt
  · intro n hn
    rw [hA.eval_eq n (Finset.mem_range.mp hn), hB.eval_eq n (Finset.mem_range.mp hn)]

theorem existsUnique_interpolates {values : List Int} (h : values.length ≤ 2 ^ m) :
    ∃! A, Interpolates d.root (2 ^ m) values A :=
  ⟨_, d.interpolates_interpolated h, fun _ hA =>
    d.interpolates_unique hA (d.interpolates_interpolated h)⟩

variable {a b c : List Int}

theorem ofValues_eq (hsize : domainSize a.length = 2 ^ m) (ha : a.length ≤ 2 ^ m)
    (hb : b.length ≤ 2 ^ m) (hc : c.length ≤ 2 ^ m) :
    Quotient.ofValues a b c =
      .ok ⟨d.interpolated (Quotient.padded (2 ^ m) a), d.interpolated (Quotient.padded (2 ^ m) b),
        d.quotient (Quotient.padded (2 ^ m) a) (Quotient.padded (2 ^ m) b)
          (Quotient.padded (2 ^ m) c)⟩ := by
  have hpa := Quotient.length_padded ha
  have hpb := Quotient.length_padded hb
  have hpc := Quotient.length_padded hc
  have hlen := (d.tabulates_quotient hpa hpb hpc).2
  simp only [Quotient.ofValues, hsize, d.root_ok, d.coset_ok, d.interpolate_eq hpa,
    d.interpolate_eq hpb, d.interpolate_eq hpc, d.evaluateOnCoset_eq (d.length_interpolated hpa),
    d.evaluateOnCoset_eq (d.length_interpolated hpb),
    d.evaluateOnCoset_eq (d.length_interpolated hpc), d.interpolateOnCoset_eq hlen, bind,
    Except.bind, pure, Except.pure, quotient]

/-- What multiplies the vanishing polynomial to a product of two polynomials below the size of the
domain, less a third one, is short by two. -/
theorem degree_lt_of_mul_vanishing {A B C H : Scalar[X]} (hA : A.degree < (2 ^ m : ℕ))
    (hB : B.degree < (2 ^ m : ℕ)) (hC : C.degree < (2 ^ m : ℕ))
    (h : A * B - C = H * (X ^ 2 ^ m - 1)) : H.degree < (2 ^ m - 1 : ℕ) := by
  have hpos := Nat.two_pow_pos m
  by_cases hzero : H = 0
  · rw [hzero, degree_zero]
    exact WithBot.bot_lt_coe _
  have hvanishing : (X ^ 2 ^ m - 1 : Scalar[X]) ≠ 0 := (monic_X_pow_sub_C 1 hpos.ne').ne_zero
  have hnat : (X ^ 2 ^ m - 1 : Scalar[X]).natDegree = 2 ^ m := natDegree_X_pow_sub_C
  have hproduct : (A * B).natDegree ≤ 2 * (2 ^ m - 1) := by
    have hle := natDegree_mul_le (p := A) (q := B)
    have hleA := natDegree_le_of_degree_lt hA
    have hleB := natDegree_le_of_degree_lt hB
    omega
  have hdifference : (A * B - C).natDegree ≤ 2 * (2 ^ m - 1) := by
    have hleC := natDegree_le_of_degree_lt hC
    exact (natDegree_sub_le _ _).trans (max_le hproduct (by omega))
  rw [h, natDegree_mul hzero hvanishing, hnat] at hdifference
  exact (natDegree_lt_iff_degree_lt hzero).mp (by omega)

section Exact
variable (ha : a.length ≤ 2 ^ m) (hb : b.length ≤ 2 ^ m) (hc : c.length ≤ 2 ^ m)
  (h : ∀ n, entryOf Scalar a n * entryOf Scalar b n = entryOf Scalar c n)
include ha hb hc h

theorem mul_sub_eq {A B C : Scalar[X]} (hA : Interpolates d.root (2 ^ m) a A)
    (hB : Interpolates d.root (2 ^ m) b B) (hC : Interpolates d.root (2 ^ m) c C) :
    A * B - C = polynomial Scalar (d.quotient (Quotient.padded (2 ^ m) a)
      (Quotient.padded (2 ^ m) b) (Quotient.padded (2 ^ m) c)) * (X ^ 2 ^ m - 1) := by
  rw [d.interpolates_unique hA (d.interpolates_interpolated ha),
    d.interpolates_unique hB (d.interpolates_interpolated hb),
    d.interpolates_unique hC (d.interpolates_interpolated hc),
    mul_comm (polynomial Scalar (d.quotient _ _ _))]
  apply d.quotient_exact (Quotient.length_padded ha) (Quotient.length_padded hb)
    (Quotient.length_padded hc)
  intro n _
  simp only [Quotient.entryOf_padded, h]

theorem degree_quotient_lt :
    (polynomial Scalar (d.quotient (Quotient.padded (2 ^ m) a) (Quotient.padded (2 ^ m) b)
      (Quotient.padded (2 ^ m) c))).degree < (2 ^ m - 1 : ℕ) := by
  have hA := d.interpolates_interpolated ha
  have hB := d.interpolates_interpolated hb
  have hC := d.interpolates_interpolated hc
  exact degree_lt_of_mul_vanishing hA.degree_lt hB.degree_lt hC.degree_lt
    (d.mul_sub_eq ha hb hc h hA hB hC)

end Exact

end Domain

/-- A coefficient beyond the degree is congruent to zero, and where coefficients are reduced it is
zero. -/
theorem getLast?_eq_zero {n : ℕ} {a : List Int} (hlen : a.length = n) (hpos : 0 < n)
    (hrange : Reduced order a) (hdegree : (polynomial Scalar a).degree < (n - 1 : ℕ)) :
    a.getLast? = some 0 := by
  have hlt : n - 1 < a.length := by omega
  have hcoeff := coeff_eq_zero_of_degree_lt hdegree
  rw [coeff_polynomial, entryOf, List.getD_eq_getElem?_getD, List.getElem?_eq_getElem hlt,
    Option.getD_some] at hcoeff
  have hzero : a[n - 1] = 0 := by
    apply eq_of_cast_eq (hrange _ (List.getElem_mem hlt)) ⟨le_refl 0, order_pos⟩
    rw [hcoeff, Int.cast_zero]
  rw [List.getLast?_eq_getElem?, hlen, List.getElem?_eq_getElem hlt, hzero]

namespace Quotient

/-- For any values of between one and `2 ^ 31` gates that all hold, there are both roots, and the
quotient is computed. It has one coefficient for each point of the domain, all of them reduced and
the last one zero, and these are the coefficients of the one polynomial of that degree by which the
interpolating polynomials satisfy `A * B - C = H * (X ^ size - 1)`. A system with these values of
its sides has this quotient. -/
theorem ofValues_exact {a b c : List Int} (hpos : 1 ≤ a.length) (hmax : a.length ≤ 2 ^ 31)
    (hb : b.length = a.length) (hc : c.length = a.length)
    (h : ∀ n < a.length, a.getD n 0 * b.getD n 0 ≡ c.getD n 0 [ZMOD order]) :
    ∃ (size : ℕ) (p q : Int) (left right quotient : List Int),
      IsLeast {n | a.length ≤ n ∧ ∃ k, n = 2 ^ k} size ∧
      rootOfUnity size order = .ok p ∧ rootOfUnity (2 * size) order = .ok q ∧
      ofValues a b c = .ok ⟨left, right, quotient⟩ ∧
      (∀ s : R1CS, s.sideValues Gate.left s.gates = .ok a →
        s.sideValues Gate.right s.gates = .ok b → s.sideValues Gate.output s.gates = .ok c →
          ofSystem s = ofValues a b c) ∧
      quotient.length = size ∧ Reduced order quotient ∧ quotient.getLast? = some 0 ∧
      (∀ values ∈ [a, b, c], ∃! A, Interpolates p size values A) ∧
      ∀ A B C : Scalar[X], Interpolates p size a A → Interpolates p size b B →
        Interpolates p size c C → ∀ H : Scalar[X],
          (H.degree < (size - 1 : ℕ) ∧ A * B - C = H * (X ^ size - 1)) ↔
            H = polynomial Scalar quotient := by
  obtain ⟨m, hm, hsize, hfits⟩ := domainSize_eq hmax
  obtain ⟨d⟩ := exists_domain hm
  have hfitsb : b.length ≤ 2 ^ m := hb.le.trans hfits
  have hfitsc : c.length ≤ 2 ^ m := hc.le.trans hfits
  have hlen := d.length_quotient (length_padded hfits) (length_padded hfitsb)
    (length_padded hfitsc)
  have hgates := mul_entryOf_eq hc h
  have hdegree := d.degree_quotient_lt hfits hfitsb hfitsc hgates
  have hleast := isLeast_domainSize hpos
  rw [hsize] at hleast
  have hvanishing : (X ^ 2 ^ m - 1 : Scalar[X]) ≠ 0 :=
    (monic_X_pow_sub_C 1 (Nat.two_pow_pos m).ne').ne_zero
  have hreduced : Reduced order (d.quotient (padded (2 ^ m) a) (padded (2 ^ m) b)
      (padded (2 ^ m) c)) := reduced_scale order_pos _ _
  refine ⟨2 ^ m, d.root, d.coset, _, _, _, hleast, d.root_ok, d.coset_ok,
    d.ofValues_eq hsize hfits hfitsb hfitsc, fun s => ofSystem_eq_ofValues, hlen, hreduced,
    getLast?_eq_zero hlen (Nat.two_pow_pos m) hreduced hdegree, ?_, ?_⟩
  · intro values hvalues
    simp only [List.mem_cons, List.not_mem_nil, or_false] at hvalues
    rcases hvalues with rfl | rfl | rfl
    · exact d.existsUnique_interpolates hfits
    · exact d.existsUnique_interpolates hfitsb
    · exact d.existsUnique_interpolates hfitsc
  · intro A B C hA hB hC H
    have hexact := d.mul_sub_eq hfits hfitsb hfitsc hgates hA hB hC
    constructor
    · rintro ⟨-, hH⟩
      exact mul_right_cancel₀ hvanishing (hH.symm.trans hexact)
    · rintro rfl
      exact ⟨hdegree, hexact⟩

/-- Three gates are laid out on four points, and the quotient of their values has four
coefficients. -/
theorem ofValues_exact_three :
    ∃ left right quotient, ofValues [2, 3, 5] [7, 11, 13] [14, 33, 65] =
        .ok ⟨left, right, quotient⟩ ∧
      quotient.length = 4 ∧ quotient.getLast? = some 0 := by
  obtain ⟨size, -, -, left, right, quotient, hsize, -, -, hquotient, -, hlength, -, hlast, -⟩ :=
    ofValues_exact (a := [2, 3, 5]) (b := [7, 11, 13]) (c := [14, 33, 65]) (by decide) (by decide)
      rfl rfl (by decide)
  have hfour : IsLeast {n | 3 ≤ n ∧ ∃ k, n = 2 ^ k} 4 := isLeast_domainSize (by decide)
  rw [hsize.unique hfour] at hlength
  exact ⟨left, right, quotient, hquotient, hlength, hlast⟩

end Quotient

end RankOne
