import RankOne.Proofs.CyclicRelation
import RankOne.Proofs.DigestText
import RankOne.Proofs.Proving

/-!
# Keys that fit their own circuit

A circuit that is built with its own key has been built three ways by the time it proves something:
without a key, with the key, and with the key and data. The first two are compared part by part,
messages included, and the key and the third by counts and digest. What passes the first comparison
passes the second, and the steps of a transition that raises nothing pass both.
-/

set_option autoImplicit false

namespace RankOne.Cyclic

variable {G₁ G₂ Gₜ σ : Type} [CodedGroup G₁] [CodedGroup G₂] [Mul Gₜ] [DecidableEq Gₜ]
  [Pairing G₁ G₂ Gₜ] [RandomSource σ] {t : Transition} {mode : Mode} {key : Key G₁ G₂}
  {source : σ}

omit [Mul Gₜ] [DecidableEq Gₜ] [Pairing G₁ G₂ Gₜ] in
/-- Whatever the circuits are, a key that is returned has the counts and the digest of the circuit
that is returned with it. -/
theorem fits_of_fixedPoint {family : StepFamily G₁ G₂} {step : StepCircuit G₁ G₂}
    (h : ((fixedPoint family mode : Random σ (StepCircuit G₁ G₂ × Key G₁ G₂)).run source).1 =
      .ok (step, key)) :
    step = family (some key.verifyingKey) mode ∧
      (∃ s, step.circuit.synthesize none = .ok s ∧ key.provingKey.counts = s.shape.counts ∧
        key.provingKey.digest = s.shape.digest) ∧
      key.verifyingKey.inputCount = stepInputCount G₁ G₂ := by
  obtain ⟨draft, final, -, hkey, hstep, hfinal, hsame, hcount⟩ := of_run_fixedPoint h
  obtain ⟨secrets, hderive, -⟩ := Circuit.run_deriveKey G₁ G₂ draft.shape source
  obtain ⟨-, hcounts, hdigest, -⟩ := Key.of_derive (hderive.symm.trans hkey)
  obtain ⟨hcounts', hdigest'⟩ := Shape.counts_and_digest_of_same hsame
  exact ⟨hstep, ⟨final, hfinal, hcounts.trans hcounts'.symm, hdigest.trans hdigest'.symm⟩, hcount⟩

variable [LawfulCoding G₁] [LawfulCoding G₂] {w : Witness (Proof G₁ G₂)} {z flag carried : Int}
  {p : Proof G₁ G₂} {inputs : List Int}

/-- With data a step has the shape that its key was derived from, whatever the data are. -/
theorem IsKey.exists_synthesize (h : IsKey t mode key) (ht : t.Completes)
    (hw : IsComplete w z flag p inputs carried) :
    ∃ s, (stepCircuit t (some key.verifyingKey) mode).circuit.synthesize (some w) = .ok s ∧
      key.provingKey.fits s.shape = true := by
  obtain ⟨draft, secrets, hdraft, -, hderive⟩ := h.exists_draft
  obtain ⟨u₀, hdraftRun, rfl⟩ := Circuit.synthesize_eq_ok_iff.mp hdraft
  have hchecks : Checks (some key.verifyingKey) mode (some (witness z flag p inputs carried)) :=
    checks_some mode key.verifyingKey rfl rfl
  obtain ⟨u, hrun, hshape⟩ := exists_run_of_draft ht
    (Supply.ofWitness z flag p carried hw.length_inputs) hchecks hdraftRun
  refine ⟨u.freeze, ?_, ?_⟩
  · rw [hw.synthesize_eq]
    exact Circuit.synthesize_eq_ok_iff.mpr ⟨u, hrun, rfl⟩
  · rw [hshape]
    exact Key.fits_of_derive hderive

/-- A step that is handed complete data is proved, unless a gate of it does not hold. -/
theorem IsKey.prove_ok_or (h : IsKey t mode key) (ht : t.Completes)
    (hgates : key.counts.gates ≤ 2 ^ 31) (hw : IsComplete w z flag p inputs carried)
    (hblinding : ∀ x ∈ RandomSource.draws 2 source, IsDraw x) :
    let c := (stepCircuit t (some key.verifyingKey) mode).circuit
    (∃ proof, ((key.provingKey.prove c (some w)).run source).1 = .ok proof) ∨
      ∃ message,
        ((key.provingKey.prove c (some w)).run source).1 = .error (.unsatisfied message) := by
  intro c
  obtain ⟨program⟩ := ht.program
  obtain ⟨s, hs, hfits⟩ := h.exists_synthesize ht hw
  obtain ⟨hcounts, hdigest⟩ := ProvingKey.fits_iff.mp hfits
  obtain ⟨draft, secrets, hdraft, -, hderive⟩ := h.exists_draft
  have hregular := (regular_of_synthesize program hdraft).1
  have hearly : key.provingKey.FailsEarly c w source :=
    (ProvingKey.isComplete_of_derive hregular.wellFormed.shape hderive).failsEarly
      (isGuarded_stepCircuit program) (ProvingKey.hasDomain_of_counts hgates c w) hblinding
  by_cases hcause : ∃ e, key.provingKey.Refuses c w e
  · obtain ⟨e, he⟩ := hcause
    have herror := (hearly.error_iff e).mpr he
    cases he with
    | synthesis h' => cases hs.symm.trans h'
    | mismatch h' hne =>
      obtain rfl := Except.ok.inj (hs.symm.trans h')
      exact absurd hne (not_or.mpr ⟨not_not.mpr hcounts, not_not.mpr hdigest⟩)
    | unsatisfied => exact .inr ⟨_, herror⟩
    | missing h' _ _ hfirst hmisses =>
      exact absurd hmisses ((regular_of_synthesize program h').1.not_misses hfirst.mem)
  · obtain ⟨proof, source', hrun, -⟩ := hearly.exists_proof (not_exists.mp hcause)
    exact .inl ⟨proof, congrArg Prod.fst hrun⟩

variable (G₁ G₂ σ) in
/-- Of any circuits, a key that is returned is one for the circuit that is returned with it, and for
as many inputs as a step has. The steps of a transition that raises nothing can be built, and if
there is a domain for their gates they have a key in both modes; with this key, of complete data
either a proof is made or a gate does not hold. -/
theorem fixedPoint_fits :
    (∀ (family : StepFamily G₁ G₂) (mode : Mode) (source : σ) (step : StepCircuit G₁ G₂)
      (key : Key G₁ G₂),
      ((fixedPoint family mode : Random σ (StepCircuit G₁ G₂ × Key G₁ G₂)).run source).1 =
        .ok (step, key) →
      step = family (some key.verifyingKey) mode ∧
      (∃ s, step.circuit.synthesize none = .ok s ∧ key.provingKey.counts = s.shape.counts ∧
        key.provingKey.digest = s.shape.digest) ∧
      key.verifyingKey.inputCount = stepInputCount G₁ G₂) ∧
    ∀ (t : Transition) (mode : Mode), t.Completes →
      ∃ draft, (stepCircuit t (none : Option (VerifyingKey G₁ G₂)) mode).circuit.synthesize none =
          .ok draft ∧
        (draft.gates.length ≤ 2 ^ 31 → ∀ source : σ,
          (∀ x ∈ RandomSource.draws 5 source, IsDraw x) →
          ∃ key : Key G₁ G₂,
            let step := stepCircuit t (some key.verifyingKey) mode
            ((fixedPoint (stepCircuit t) mode : Random σ (StepCircuit G₁ G₂ × Key G₁ G₂)).run
              source).1 = .ok (step, key) ∧
            ∀ (w : Witness (Proof G₁ G₂)) (z flag : Int) (p : Proof G₁ G₂) (inputs : List Int)
              (carried : Int) (source' : σ), IsComplete w z flag p inputs carried →
              (∀ x ∈ RandomSource.draws 2 source', IsDraw x) →
              let result := ((key.provingKey.prove step.circuit (some w)).run source').1
              (∃ proof, result = .ok proof) ∨
                ∃ message, result = .error (.unsatisfied message)) := by
  refine ⟨fun _ _ _ _ _ h => fits_of_fixedPoint h, ?_⟩
  intro t mode ht
  obtain ⟨u, hrun⟩ := exists_draft G₁ G₂ mode ht
  have hdraft : (stepCircuit t (none : Option (VerifyingKey G₁ G₂)) mode).circuit.synthesize none =
      .ok u.freeze := Circuit.synthesize_eq_ok_iff.mpr ⟨u, hrun, rfl⟩
  refine ⟨u.freeze, hdraft, fun hgates source hsecrets => ?_⟩
  obtain ⟨key, hkey, hcounts⟩ := exists_key ht hdraft hgates hsecrets
  refine ⟨key, hkey, fun w z flag p inputs carried source' hw hblinding => ?_⟩
  have hfew : key.counts.gates ≤ 2 ^ 31 := by rwa [hcounts]
  exact (isKey_of_fixedPoint hsecrets hkey).2.prove_ok_or ht hfew hw hblinding

/-- Counting up has a key that fits, and a proof before that does not pass is no mismatch. -/
theorem fixedPoint_fits_counter :
    ∃ (key : Key Exponent Exponent) (s : R1CS),
      let step := stepCircuit .counter (some key.verifyingKey) .checked
      ((fixedPoint (stepCircuit .counter) .checked : Random Script (StepCircuit Exponent Exponent ×
        Key Exponent Exponent)).run ⟨[2, 3, 5, 7, 1]⟩).1 = .ok (step, key) ∧
      step.circuit.synthesize none = .ok s ∧ key.provingKey.counts = s.shape.counts ∧
      key.provingKey.digest = s.shape.digest ∧ key.verifyingKey.inputCount = 6 ∧
      let result := ((key.provingKey.prove step.circuit (some (witness 42 1 dummyProof
        [41, 0, 0, 0, 0, 0] 41))).run (⟨[11, 13]⟩ : Script)).1
      (∃ proof, result = .ok proof) ∨ ∃ message, result = .error (.unsatisfied message) := by
  obtain ⟨hany, hsteps⟩ := fixedPoint_fits Exponent Exponent Script
  obtain ⟨draft, hdraft, hkeys⟩ := hsteps .counter .checked Transition.counter_isFaithful.completes
  have hgates : draft.gates.length ≤ 2 ^ 31 := by
    obtain rfl := Except.ok.inj hdraft
    decide
  obtain ⟨key, hkey, hprove⟩ := hkeys hgates ⟨[2, 3, 5, 7, 1]⟩ (by decide)
  obtain ⟨-, ⟨s, hs, hcounts, hdigest⟩, hcount⟩ := hany _ _ _ _ _ hkey
  exact ⟨key, s, hkey, hs, hcounts, hdigest, hcount,
    hprove _ _ _ _ _ _ _ (isComplete_witness rfl) (by decide)⟩

end RankOne.Cyclic
