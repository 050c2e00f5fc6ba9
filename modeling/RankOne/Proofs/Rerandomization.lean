import RankOne.Proofs.Acceptance

/-!
# Proofs do not depend on the witness

Two witnesses of one circuit that have the same public inputs give the same proofs. What the first
two elements of a proof say of a witness is the value of two polynomials at the secret point, and
other blinding factors make up for a difference there. The pairing equation leaves no choice for
the third element.
-/

set_option autoImplicit false

namespace RankOne
open CodedGroup (multiple)
open Polynomial Transform

namespace R1CS

noncomputable def gatePolynomial (s : R1CS) (side : Gate → Linear) : Scalar[X] :=
  match rootOfUnity (domainSize s.gates.length) order with
  | .ok root =>
      Lagrange.interpolate (Finset.range (domainSize s.gates.length))
        (fun l => (root : Scalar) ^ l) (sideTable s.valuation side s.gates)
  | .error _ => 0

theorem gatePolynomial_eq {s : R1CS} {m : ℕ} (d : Domain m)
    (hsize : domainSize s.gates.length = 2 ^ m) (side : Gate → Linear) :
    s.gatePolynomial side = d.lagrange (sideTable s.valuation side s.gates) := by
  rw [gatePolynomial, hsize, d.root_ok, Domain.lagrange]

theorem SideTable.eval_gatePolynomial {s : R1CS} {m : ℕ} (d : Domain m)
    (hsize : domainSize s.gates.length = 2 ^ m) {side : Gate → Linear} {a : List Int}
    (ha : s.SideTable m side a) (tau : Scalar) :
    (s.gatePolynomial side).eval tau = (polynomial Scalar (d.interpolated a)).eval tau := by
  rw [gatePolynomial_eq d hsize, d.eval_lagrange, ha.eval_eq d]

theorem eval_gatePolynomial_one {s : R1CS} (hgates : s.gates.length ≤ 2 ^ 31)
    (side : Gate → Linear) :
    (s.gatePolynomial side).eval 1 = sideTable s.valuation side s.gates 0 := by
  obtain ⟨m, hm, hsize, -⟩ := domainSize_eq hgates
  obtain ⟨d⟩ := exists_domain hm
  rw [gatePolynomial_eq d hsize, ← pow_zero (d.root : Scalar),
    d.eval_lagrange_root_pow _ (Nat.two_pow_pos m)]

variable {G₁ G₂ : Type} [CodedGroup G₁] [CodedGroup G₂] [PrimeOrder G₁] [PrimeOrder G₂]

/-- Two systems of one shape with the same public inputs: whatever element is assembled from one
of them is assembled from the other one with the blinding factors moved by the difference of the
polynomials. -/
theorem exists_assembled {s s' : R1CS} (hs : s.WellFormed) (hs' : s'.WellFormed)
    (hw : s.witnessed = true) (hw' : s'.witnessed = true) (hshape : s'.shape = s.shape)
    (hcheck : s.check = .ok none) (hcheck' : s'.check = .ok none) (hinputs : s'.inputs = s.inputs)
    (hgates : s.gates.length ≤ 2 ^ 31) {t : Trapdoor} (ht : t.IsDrawn) {key : Key G₁ G₂}
    (hkey : Key.derive s.shape t = .ok key) {r u r' u' : Int} (hr : IsDraw r) (hu : IsDraw u)
    (hr' : IsDraw r') (hu' : IsDraw u')
    (hleft : (r' : Scalar) = r + ((s.gatePolynomial Gate.left).eval (t.tau : Scalar) -
      (s'.gatePolynomial Gate.left).eval (t.tau : Scalar)) / t.delta)
    (hright : (u' : Scalar) = u + ((s.gatePolynomial Gate.right).eval (t.tau : Scalar) -
      (s'.gatePolynomial Gate.right).eval (t.tau : Scalar)) / t.delta) :
    ∃ proof, key.provingKey.assemble s r u = .ok proof ∧
      key.provingKey.assemble s' r' u' = .ok proof := by
  obtain ⟨m, d, a, b, c, hsize, ha, hb, hc⟩ := exists_sideTables hcheck hgates
  have hgatesEq : s'.gates = s.gates := congrArg Shape.gates hshape
  have hsize' : domainSize s'.gates.length = 2 ^ m := by rw [hgatesEq, hsize]
  have hle : s'.gates.length ≤ 2 ^ m := by
    obtain ⟨k, -, hk, hle⟩ := domainSize_eq hgates
    rw [hgatesEq, ← hsize, hk]
    exact hle
  have hreads := readsGate_of_check hcheck
  have hreads' := readsGate_of_check hcheck'
  obtain ⟨a', ha'⟩ := exists_sideTable hle Gate.left fun g hg => (hreads' g hg).1
  obtain ⟨b', hb'⟩ := exists_sideTable hle Gate.right fun g hg => (hreads' g hg).2.1
  obtain ⟨c', hc'⟩ := exists_sideTable hle Gate.output fun g hg => (hreads' g hg).2.2
  obtain ⟨g, e, hg, he, hderive⟩ :=
    d.derive_eq G₁ G₂ hsize (columnsExist_of_reads hs hreads) ht
  rw [hkey] at hderive
  obtain rfl := Except.ok.inj hderive
  obtain ⟨rest, hentries⟩ := hs.shape.entries_eq
  have hentries' : s'.entries = (0, "ONE") :: rest :=
    (congrArg Shape.entries hshape).trans hentries
  rw [inputs_eq hs hw hentries, inputs_eq hs' hw' hentries', Except.ok.injEq] at hinputs
  obtain ⟨x, y, z, hproof, hx, hy, hz⟩ :=
    ProvingKey.assemble_eq G₁ G₂ hs hw d hsize ha hb hc t g e hr hu
  obtain ⟨x', y', z', hproof', hx', hy', hz'⟩ :=
    ProvingKey.assemble_eq G₁ G₂ hs' hw' d hsize' ha' hb' hc' t g e hr' hu'
  have hequation := cast_mul_eq hs hw ((check_eq_none_iff hreads).mp hcheck) hentries d ha hb hc ht
    hg he r u hx hy hz
  have hequation' := cast_mul_eq hs' hw' ((check_eq_none_iff hreads').mp hcheck') hentries' d ha'
    hb' hc' ht hg he r' u' hx' hy' hz'
  rw [hshape] at hproof' hequation'
  have hdelta := ht.delta.cast_ne_zero
  rw [ha.eval_gatePolynomial d hsize, ha'.eval_gatePolynomial d hsize'] at hleft
  rw [hb.eval_gatePolynomial d hsize, hb'.eval_gatePolynomial d hsize'] at hright
  have hxx : (x : Scalar) = x' := by
    rw [hx, hx', hleft]
    field_simp
    ring
  have hyy : (y : Scalar) = y' := by
    rw [hy, hy', hright]
    field_simp
    ring
  -- with the first two elements and the inputs the equation has one solution
  have hzz : (z : Scalar) = z' := by
    rw [← hxx, ← hyy, hequation, hinputs] at hequation'
    exact mul_right_cancel₀ hdelta (add_left_cancel hequation')
  refine ⟨_, hproof, hproof'.trans ?_⟩
  rw [multiple_congr hxx, multiple_congr hyy, multiple_congr hzz]

end R1CS

namespace Factorization

def swapped : Witness Unit :=
  [("N", .number 391), ("p", .number 23), ("q", .number 17)]

def system (w : Witness Unit) : R1CS :=
  ((Step.runAll (.ofWitness (some w)) steps (Step.start "ONE" (.fresh 0 true))).run
    (.fresh 0 true)).2.freeze

end Factorization

namespace Circuit
variable {P σ : Type} [RandomSource σ] {G₁ G₂ : Type} [CodedGroup G₁] [CodedGroup G₂]
  [PrimeOrder G₁] [PrimeOrder G₂]

/-- Whoever proves a circuit with one of two witnesses that have the same public inputs makes
exactly the proof that the other one makes with other blinding factors. The systems of the two have
one shape: that of the program if it only builds. -/
theorem prove_eq_prove {name one : String} {steps : List Step} {w w' : Witness P} {s s' : R1CS}
    (hs : (ofSteps name one steps).synthesize (some w) = .ok s)
    (hs' : (ofSteps name one steps).synthesize (some w') = .ok s')
    (hshape : (∀ step ∈ steps, step.instruction.IsPlain) ∨ s'.shape = s.shape)
    (hcheck : s.check = .ok none) (hcheck' : s'.check = .ok none) (hinputs : s'.inputs = s.inputs)
    (hgates : s.gates.length ≤ 2 ^ 31) {t : Trapdoor} (ht : t.IsDrawn) {key : Key G₁ G₂}
    (hkey : Key.derive s.shape t = .ok key) {source source' : σ} {r u r' u' : Int}
    (hdraws : RandomSource.draws 2 source = [r, u])
    (hdraws' : RandomSource.draws 2 source' = [r', u'])
    (hr : IsDraw r) (hu : IsDraw u) (hr' : IsDraw r') (hu' : IsDraw u')
    (hleft : (r' : Scalar) = r + ((s.gatePolynomial Gate.left).eval (t.tau : Scalar) -
      (s'.gatePolynomial Gate.left).eval (t.tau : Scalar)) / t.delta)
    (hright : (u' : Scalar) = u + ((s.gatePolynomial Gate.right).eval (t.tau : Scalar) -
      (s'.gatePolynomial Gate.right).eval (t.tau : Scalar)) / t.delta) :
    ∃ proof : Proof G₁ G₂,
      ((key.provingKey.prove (ofSteps name one steps) (some w)).run source).1 = .ok proof ∧
      ((key.provingKey.prove (ofSteps name one steps) (some w')).run source').1 = .ok proof := by
  obtain ⟨hwell, hw⟩ := wellFormed_of_synthesize hs
  obtain ⟨hwell', hw'⟩ := wellFormed_of_synthesize hs'
  have hshape : s'.shape = s.shape :=
    hshape.elim (fun hplain => shape_eq_of_synthesize hplain hs hs') id
  have hfits : key.provingKey.fits s.shape = true := by
    obtain ⟨-, hcounts, hdigest⟩ := Key.of_derive hkey
    simp [ProvingKey.fits, Key.provingKey, hcounts, hdigest]
  have hfits' : key.provingKey.fits s'.shape = true := by rw [hshape, hfits]
  obtain ⟨proof, hproof, hproof'⟩ := R1CS.exists_assembled hwell hwell' hw hw' hshape hcheck hcheck'
    hinputs hgates ht hkey hr hu hr' hu' hleft hright
  refine ⟨proof, ?_, ?_⟩
  · rw [ProvingKey.run_prove_of_draws _ hs hfits hcheck hdraws, hproof]
  · rw [ProvingKey.run_prove_of_draws _ hs' hfits' hcheck' hdraws', hproof']

open Factorization in
/-- Two factors in either order. The secret point is one here, where the polynomials have the values
at the first gate. -/
theorem prove_eq_prove_factorization :
    (ofSteps "factorization" "ONE" steps).synthesize (some factors) = .ok (system factors) ∧
    (ofSteps "factorization" "ONE" steps).synthesize (some swapped) = .ok (system swapped) ∧
    ∃ (key : Key Exponent Exponent) (proof : Proof Exponent Exponent),
      Key.derive (system factors).shape ⟨2, 3, 5, 1, 1⟩ = .ok key ∧
      ((key.provingKey.prove (ofSteps "factorization" "ONE" steps) (some factors)).run
        (⟨[11, 13]⟩ : Script)).1 = .ok proof ∧
      ((key.provingKey.prove (ofSteps "factorization" "ONE" steps) (some swapped)).run
        (⟨[5, 19]⟩ : Script)).1 = .ok proof := by
  have hs : (ofSteps "factorization" "ONE" steps).synthesize (some factors) =
      .ok (system factors) := rfl
  have hs' : (ofSteps "factorization" "ONE" steps).synthesize (some swapped) =
      .ok (system swapped) := rfl
  refine ⟨hs, hs', ?_⟩
  have ht : (⟨2, 3, 5, 1, 1⟩ : Trapdoor).IsDrawn := by
    constructor <;> decide
  have hgates : (system factors).gates.length ≤ 2 ^ 31 := by decide
  have hgates' : (system swapped).gates.length ≤ 2 ^ 31 := by decide
  obtain ⟨d⟩ : Nonempty (Domain 2) := exists_domain (by decide)
  have hcolumns : (system factors).shape.columnsExist = true := by decide
  obtain ⟨g, e, -, -, hderive⟩ := d.derive_eq Exponent Exponent rfl hcolumns ht
  have hleft : ((5 : Int) : Scalar) = (11 : Int) +
      (((system factors).gatePolynomial Gate.left).eval ((1 : Int) : Scalar) -
        ((system swapped).gatePolynomial Gate.left).eval ((1 : Int) : Scalar)) / (1 : Int) := by
    rw [Int.cast_one, R1CS.eval_gatePolynomial_one hgates, R1CS.eval_gatePolynomial_one hgates']
    change ((5 : Int) : Scalar) = (11 : Int) +
      (((1 : Int) : Scalar) * (17 : Int) + 0 - (((1 : Int) : Scalar) * (23 : Int) + 0)) / 1
    norm_num
  have hright : ((19 : Int) : Scalar) = (13 : Int) +
      (((system factors).gatePolynomial Gate.right).eval ((1 : Int) : Scalar) -
        ((system swapped).gatePolynomial Gate.right).eval ((1 : Int) : Scalar)) / (1 : Int) := by
    rw [Int.cast_one, R1CS.eval_gatePolynomial_one hgates, R1CS.eval_gatePolynomial_one hgates']
    change ((19 : Int) : Scalar) = (13 : Int) +
      (((1 : Int) : Scalar) * (23 : Int) + 0 - (((1 : Int) : Scalar) * (17 : Int) + 0)) / 1
    norm_num
  have hdraws : RandomSource.draws 2 (⟨[11, 13]⟩ : Script) = [11, 13] := rfl
  have hdraws' : RandomSource.draws 2 (⟨[5, 19]⟩ : Script) = [5, 19] := rfl
  obtain ⟨proof, hproof, hproof'⟩ := prove_eq_prove hs hs' (.inl isPlain_steps) rfl rfl rfl hgates
    ht hderive hdraws hdraws' (by decide) (by decide) (by decide) (by decide) hleft hright
  exact ⟨_, proof, hderive, hproof, hproof'⟩

end Circuit

end RankOne
