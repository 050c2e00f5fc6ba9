import RankOne.Proofs.Soundness

/-!
# Setup and prover evaluate the same polynomials

A key is made column by column, from coefficients and the values of the interpolation basis at the
secret point. A proof is made row by row, from the values of the gates. With any assignment, both
have the value of the same polynomial at the point, and the point may lie in the domain.
-/

set_option autoImplicit false

namespace RankOne
open Transform

/-- The weights of a key are the values of the polynomials that are one at one point of the domain
and zero at the others. -/
theorem Domain.weight_eq_eval_basis {m : ℕ} (d : Domain m) (t : Scalar) {l : ℕ} (hl : l < 2 ^ m) :
    d.weight t l =
      (Lagrange.basis (Finset.range (2 ^ m)) (fun j => (d.root : Scalar) ^ j) l).eval t := by
  have hmem : l ∈ Finset.range (2 ^ m) := Finset.mem_range.mpr hl
  have hbasis : d.lagrange (fun j => if j = l then 1 else 0) =
      Lagrange.basis (Finset.range (2 ^ m)) (fun j => (d.root : Scalar) ^ j) l := by
    rw [Domain.lagrange, Lagrange.interpolate_apply, Finset.sum_eq_single_of_mem l hmem]
    · simp
    · intro j _ hne
      simp [hne]
  rw [← hbasis, d.eval_lagrange, Finset.sum_eq_single_of_mem l hmem]
  · simp
  · intro j _ hne
    simp [hne]

/-- No key is made of a shape in which some wire of a gate does not exist. -/
theorem Key.derive_of_missing_column {G₁ G₂ : Type} [CodedGroup G₁] [CodedGroup G₂] {m : ℕ}
    (d : Domain m) {s : Shape} (hsize : domainSize s.gates.length = 2 ^ m)
    (hcolumns : s.columnsExist = false) (t : Trapdoor) :
    (derive s t : Except Fault (Key G₁ G₂)) = .error .outOfRange := by
  simp only [derive, hsize, d.basisAt_eq, hcolumns, bind, Except.bind, Bool.not_false, if_true,
    throw, throwThe, MonadExceptOf.throw]

namespace R1CS
variable {s : R1CS} {w : List Int}

theorem valuation_assign (hlen : w.length = s.wireCount) :
    (s.assign w).valuation = placed s.wireCount fun k => (w.getD k 0 : Scalar) := by
  funext wire
  rw [valuation, slot?, placed, assign, List.length_map, hlen]
  cases hplace : placeAmong s.wireCount wire with
  | none => rfl
  | some k =>
    have hk : k < w.length := hlen ▸ placeAmong_lt hplace
    simp [hk]

/-- The columns of one side add up to the value of the polynomial that a prover interpolates. -/
theorem sum_column_eq_eval (hcolumns : s.shape.columnsExist = true)
    (hlen : w.length = s.wireCount) (hone : w.head? = some 1) {m : ℕ} (d : Domain m)
    (hm : s.gates.length ≤ 2 ^ m) {side : Gate → Linear}
    (hside : side ∈ [Gate.left, Gate.right, Gate.output]) (tau : Int) :
    ∃ coefficients, (s.assign w).sidePolynomial side (2 ^ m) d.root = .ok coefficients ∧
      coefficients.length = 2 ^ m ∧
      ∑ k ∈ Finset.range s.wireCount,
          (w.getD k 0 : Scalar) * (s.shape.column side (d.weights tau) k : Scalar) =
        (polynomial Scalar coefficients).eval (tau : Scalar) := by
  have hreads : ∀ g ∈ (s.assign w).gates, (s.assign w).Reads (side g) := by
    intro g hg
    obtain ⟨hl, hr, ho⟩ := readsGate_assign hcolumns hlen g hg
    simp only [List.mem_cons, List.not_mem_nil, or_false] at hside
    rcases hside with rfl | rfl | rfl
    exacts [hl, hr, ho]
  obtain ⟨a, ha⟩ := exists_sideTable (s := s.assign w) hm side hreads
  refine ⟨d.interpolated a, ?_, d.length_interpolated ha.length_eq, ?_⟩
  · rw [ha.sidePolynomial_eq, d.interpolate_eq ha.length_eq]
  · have hvaluation := valuation_assign hlen
    have hzero : placed s.shape.wireCount (fun k => (w.getD k 0 : Scalar)) 0 = 1 := by
      rw [← valuation_assign_zero (s := s) hone, hvaluation]
      rfl
    have hsum := Shape.sum_column (fun k => (w.getD k 0 : Scalar)) s.shape hzero d side tau
    have hgates : s.shape.gates = (s.assign w).gates := rfl
    have hcount : s.shape.wireCount = s.wireCount := rfl
    rw [ha.eval_eq, hvaluation, ← hcount, hsum, hgates]

/-- Whatever system is set up, and at whatever point: the weights of its key are the values of the
interpolation basis of the domain there. If a wire of a gate has no column, there is no key. If all
of them have one, then for each side and every assignment the columns, taken with the values of the
wires, add up to the value at the point of the polynomial that a proof interpolates. -/
theorem columns_evaluate_sides (G₁ G₂ : Type) [CodedGroup G₁] [CodedGroup G₂] (s : R1CS)
    (hgates : s.gates.length ≤ 2 ^ 31) (tau : Int) :
    ∃ (size : ℕ) (p : Int) (weights : List Int),
      size = domainSize s.shape.gates.length ∧ rootOfUnity size order = .ok p ∧
      Key.basisAt size tau = .ok weights ∧ weights.length = size ∧
      (∀ n < size, (weights.getD n 0 : Scalar) =
        (Lagrange.basis (Finset.range size) (fun j => (p : Scalar) ^ j) n).eval (tau : Scalar)) ∧
      (s.shape.columnsExist = false → ∀ t : Trapdoor, t.tau = tau →
        (Key.derive s.shape t : Except Fault (Key G₁ G₂)) = .error .outOfRange) ∧
      (s.shape.columnsExist = true → ∀ w : List Int, w.length = s.wireCount → w.head? = some 1 →
        ∀ side ∈ [Gate.left, Gate.right, Gate.output], ∃ coefficients,
          (s.assign w).sidePolynomial side size p = .ok coefficients ∧
          coefficients.length = size ∧
          ∑ k ∈ Finset.range s.wireCount, w.getD k 0 * s.shape.column side weights k ≡
            ∑ i ∈ Finset.range size, coefficients.getD i 0 * tau ^ i [ZMOD order]) := by
  obtain ⟨m, hm, hsize, hfits⟩ := domainSize_eq hgates
  obtain ⟨d⟩ := exists_domain hm
  refine ⟨2 ^ m, d.root, d.weights tau, hsize.symm, d.root_ok, d.basisAt_eq tau,
    d.length_weights tau, fun n hn => ?_, fun hmissing t _ =>
      Key.derive_of_missing_column d hsize hmissing t, fun hcolumns w hlen hone side hside => ?_⟩
  · rw [← d.weight_eq_eval_basis _ hn]
    exact tabulates_unique _ (tabulates_entryOf _) (d.tabulates_weights tau) n
      (by rwa [d.length_weights])
  · obtain ⟨coefficients, hok, hcount, hsum⟩ :=
      sum_column_eq_eval hcolumns hlen hone d hfits hside tau
    refine ⟨coefficients, hok, hcount, cast_eq_cast_iff.mp ?_⟩
    push_cast
    rw [hsum, eval_polynomial _ (tabulates_entryOf coefficients), hcount]
    rfl

open Factorization in
/-- The left sides for two factors, at a secret point that is the first point of the domain. -/
theorem columns_evaluate_sides_factorization :
    ∃ (s : R1CS) (weights coefficients : List Int) (p : Int),
      ((Step.runAll (.ofWitness (some factors)) steps (Step.start "ONE" (.fresh 0 true))).run
        (.fresh 0 true)).2.freeze = s ∧
      rootOfUnity 4 order = .ok p ∧ Key.basisAt 4 1 = .ok weights ∧
      (s.assign [1, 391, 17, 23]).sidePolynomial Gate.left 4 p = .ok coefficients ∧
      ∑ k ∈ Finset.range 4, [1, 391, 17, 23].getD k 0 * s.shape.column Gate.left weights k ≡
        ∑ i ∈ Finset.range 4, coefficients.getD i 0 * 1 ^ i [ZMOD order] := by
  obtain ⟨size, p, weights, hsize, hp, hweights, -, -, -, hsides⟩ :=
    columns_evaluate_sides Exponent Exponent ((Step.runAll (.ofWitness (some factors)) steps
      (Step.start "ONE" (.fresh 0 true))).run (.fresh 0 true)).2.freeze (by decide) 1
  obtain rfl : size = 4 := hsize
  obtain ⟨coefficients, hcoefficients, -, hsum⟩ :=
    hsides rfl [1, 391, 17, 23] rfl rfl Gate.left (by simp)
  exact ⟨_, weights, coefficients, p, rfl, hp, hweights, hcoefficients, hsum⟩

end R1CS

end RankOne
