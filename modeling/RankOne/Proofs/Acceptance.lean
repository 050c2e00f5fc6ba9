import RankOne.Proofs.Completeness
import RankOne.Proofs.Modes

/-!
# Setting up, proving and verifying

The whole way of an honest proof: a key is derived from the shape of a circuit, whoever has a
witness for the circuit proves with it, and the proof passes with the public inputs of the system
that the witness builds. The secrets and the blinding factors come from any source that yields
nonzero residues.
-/

set_option autoImplicit false

namespace RankOne

variable {σ : Type} [RandomSource σ]

def RandomSource.draws : ℕ → σ → List Int
  | 0, _ => []
  | n + 1, source => (RandomSource.draw source).1 :: draws n (RandomSource.draw source).2

section Randomness
variable {G₁ G₂ P : Type}

theorem ProvingKey.prepare_eq_ok {pk : ProvingKey G₁ G₂} {c : Circuit P} {w : Option (Witness P)}
    {s : R1CS} (h : c.synthesize w = .ok s) (hfits : pk.fits s.shape = true)
    (hcheck : s.check = .ok none) : pk.prepare c w = .ok s := by
  simp only [prepare, h, hfits, hcheck, Bool.not_true, Bool.false_eq_true, if_false]

theorem ProvingKey.prepare_eq_error {pk : ProvingKey G₁ G₂} {c : Circuit P}
    {w : Option (Witness P)} {s : R1CS} {message : String} (h : c.synthesize w = .ok s)
    (hfits : pk.fits s.shape = true) (hcheck : s.check = .ok (some message)) :
    pk.prepare c w = .error (.unsatisfied message) := by
  simp only [prepare, h, hfits, hcheck, Bool.not_true, Bool.false_eq_true, if_false]

variable [CodedGroup G₁] [CodedGroup G₂]

theorem Key.fits_of_derive {s : Shape} {t : Trapdoor} {key : Key G₁ G₂}
    (h : Key.derive s t = .ok key) : key.provingKey.fits s = true := by
  obtain ⟨-, hcounts, hdigest, -⟩ := Key.of_derive h
  simp [ProvingKey.fits, provingKey, hcounts, hdigest]

variable (G₁ G₂) in
theorem Circuit.run_deriveKey (s : Shape) (source : σ) :
    ∃ t : Trapdoor,
      ((deriveKey s : Random σ (Key G₁ G₂)).run source).1 = Key.derive s t ∧
      RandomSource.draws 5 source = [t.alpha, t.beta, t.gamma, t.delta, t.tau] :=
  ⟨_, rfl, rfl⟩

theorem ProvingKey.run_blind (pk : ProvingKey G₁ G₂) (s : R1CS) (source : σ) :
    ∃ r u : Int, ((pk.blind s).run source).1 = pk.assemble s r u ∧
      RandomSource.draws 2 source = [r, u] :=
  ⟨_, _, rfl, rfl⟩

theorem ProvingKey.run_prove (pk : ProvingKey G₁ G₂) {c : Circuit P} {w : Option (Witness P)}
    {s : R1CS} (h : pk.prepare c w = .ok s) (source : σ) :
    ((pk.prove c w).run source).1 = ((pk.blind s).run source).1 := by
  have hprove : (pk.prove c w : Random σ (Proof G₁ G₂)) =
      Random.ofExcept (.ok s) >>= fun s => pk.blind s := by
    rw [prove, h]
  rw [hprove]
  rfl

/-- A proof is assembled with the next two draws as blinding factors. -/
theorem ProvingKey.run_prove_of_draws (pk : ProvingKey G₁ G₂) {c : Circuit P}
    {w : Option (Witness P)} {s : R1CS} (h : c.synthesize w = .ok s)
    (hfits : pk.fits s.shape = true) (hcheck : s.check = .ok none) {source : σ} {r u : Int}
    (hdraws : RandomSource.draws 2 source = [r, u]) :
    ((pk.prove c w).run source).1 = pk.assemble s r u := by
  obtain ⟨r', u', hblind, hdraws'⟩ := pk.run_blind s source
  obtain ⟨rfl, rfl⟩ : r' = r ∧ u' = u := by simpa [hdraws'] using hdraws
  rw [run_prove pk (prepare_eq_ok h hfits hcheck), hblind]

theorem ProvingKey.run_prove_of_error (pk : ProvingKey G₁ G₂) {c : Circuit P}
    {w : Option (Witness P)} {e : Fault} (h : pk.prepare c w = .error e) (source : σ) :
    (pk.prove c w).run source = (.error e, source) := by
  rw [prove, h]
  rfl

theorem ProvingKey.run_prove_eq (pk : ProvingKey G₁ G₂) {c : Circuit P} {w : Option (Witness P)}
    {s : R1CS} (h : pk.prepare c w = .ok s) (source : σ) :
    ∃ (r u : Int) (source' : σ), (pk.prove c w).run source = (pk.assemble s r u, source') ∧
      ∀ n, RandomSource.draws (n + 2) source = r :: u :: RandomSource.draws n source' := by
  refine ⟨_, _, _, ?_, fun _ => rfl⟩
  rw [prove, h]
  rfl

variable [PrimeOrder G₁] [PrimeOrder G₂] {Gₜ : Type} [Mul Gₜ] [DecidableEq Gₜ]
  [Pairing G₁ G₂ Gₜ] [Bilinear G₁ G₂ Gₜ]

/-- With a key for its shape, a satisfied system gives a proof that passes, from any two draws. -/
theorem Key.exists_proof {c : Circuit P} {w : Option (Witness P)} {s : R1CS} {inputs : List Int}
    (h : c.synthesize w = .ok s) (hs : s.WellFormed) (hw : s.witnessed = true)
    (hcheck : s.check = .ok none) (hgates : s.gates.length ≤ 2 ^ 31)
    (hinputs : s.inputs = .ok inputs) {t : Trapdoor} (ht : t.IsDrawn) {key : Key G₁ G₂}
    (hkey : Key.derive s.shape t = .ok key) {source : σ}
    (hblinding : ∀ x ∈ RandomSource.draws 2 source, IsDraw x) :
    ∃ (proof : Proof G₁ G₂) (source' : σ),
      (key.provingKey.prove c w).run source = (.ok proof, source') ∧
      key.verifyingKey.accepts proof inputs = true ∧
      ∀ n, RandomSource.draws (n + 2) source =
        RandomSource.draws 2 source ++ RandomSource.draws n source' := by
  have hprepare := ProvingKey.prepare_eq_ok h (Key.fits_of_derive hkey) hcheck
  obtain ⟨r, u, source', hrun, hdraws⟩ := key.provingKey.run_prove_eq hprepare source
  have htwo : RandomSource.draws 2 source = [r, u] := hdraws 0
  rw [htwo, List.forall_mem_cons, List.forall_mem_singleton] at hblinding
  obtain ⟨rest, hentries⟩ := hs.shape.entries_eq
  obtain ⟨m, d, g, e, hderive, hproof⟩ :=
    R1CS.exists_accepted G₁ G₂ hs hw hcheck hgates hentries ht
  rw [hkey] at hderive
  obtain rfl := Except.ok.inj hderive
  obtain ⟨proof, hassemble, haccepts⟩ := hproof r u hblinding.1 hblinding.2
  rw [R1CS.inputs_eq hs hw hentries] at hinputs
  obtain rfl := Except.ok.inj hinputs
  exact ⟨proof, source', by rw [hrun, hassemble], haccepts, fun n => by rw [hdraws, htwo]; rfl⟩

end Randomness

namespace Circuit
variable {P : Type}

theorem run_ofSteps (name one : String) (steps : List Step) (w : Option (Witness P)) (s : R1CS) :
    ((ofSteps name one steps).body w).run s =
      match (Step.runAll (.ofWitness w) steps (Step.start one s)).run s with
      | (.ok _, t) => (.ok (), t)
      | (.error e, t) => (.error e, t) := by
  change (get >>= fun s => Step.runAll (.ofWitness w) steps (Step.start one s) >>= fun _ =>
    (pure () : Build Unit)).run s = _
  rw [Build.run_bind, Build.run_get]
  dsimp only
  rw [Build.run_bind]
  generalize (Step.runAll (.ofWitness w) steps (Step.start one s)).run s = p
  obtain ⟨r, t⟩ := p
  cases r <;> rfl

/-- The system of a circuit that runs steps is the one that the steps leave behind, closed. -/
theorem of_synthesize_ofSteps {name one : String} {steps : List Step} {w : Option (Witness P)}
    {s : R1CS} (h : (ofSteps name one steps).synthesize w = .ok s) :
    ∃ registers t, (Step.runAll (.ofWitness w) steps (Step.start one (.fresh 0 w.isSome))).run
      (.fresh 0 w.isSome) = (.ok registers, t) ∧ s = t.freeze := by
  rw [synthesize, build, run_ofSteps] at h
  cases hrun : (Step.runAll (.ofWitness w) steps (Step.start one (.fresh 0 w.isSome))).run
      (.fresh 0 w.isSome) with
  | mk r t =>
    rw [hrun] at h
    cases r with
    | error e => simp at h
    | ok registers => exact ⟨registers, t, rfl, (Except.ok.inj h).symm⟩

theorem synthesize_ofSteps {name one : String} {steps : List Step} {w : Option (Witness P)}
    {registers : Registers} {t : R1CS}
    (h : (Step.runAll (.ofWitness w) steps (Step.start one (.fresh 0 w.isSome))).run
      (.fresh 0 w.isSome) = (.ok registers, t)) :
    (ofSteps name one steps).synthesize w = .ok t.freeze := by
  rw [synthesize, build, run_ofSteps, h]

theorem wellFormed_of_synthesize {name one : String} {steps : List Step} {w : Option (Witness P)}
    {s : R1CS} (h : (ofSteps name one steps).synthesize w = .ok s) :
    s.WellFormed ∧ s.witnessed = w.isSome := by
  obtain ⟨registers, t, hrun, rfl⟩ := of_synthesize_ofSteps h
  have hgrows := (Step.grows_runAll (.ofWitness w) steps (Step.start one (.fresh 0 w.isSome))
    (.fresh 0 w.isSome)).trans (R1CS.grows_freeze _)
  rw [hrun] at hgrows
  exact ⟨hgrows.wellFormed (R1CS.wellFormed_fresh 0 w.isSome), hgrows.extends_.witnessed⟩

/-- Two witnesses fill the same shape, if the program does nothing but build. -/
theorem shape_eq_of_synthesize {name one : String} {steps : List Step}
    (hplain : ∀ step ∈ steps, step.instruction.IsPlain) {w w' : Witness P} {s s' : R1CS}
    (h : (ofSteps name one steps).synthesize (some w) = .ok s)
    (h' : (ofSteps name one steps).synthesize (some w') = .ok s') : s'.shape = s.shape := by
  obtain ⟨registers, t, hrun, rfl⟩ := of_synthesize_ofSteps h
  obtain ⟨registers', t', hrun', rfl⟩ := of_synthesize_ofSteps h'
  obtain ⟨_, u, hnone, hshape⟩ :=
    Step.shape_eq_of_runAll (.ofWitness (none : Option (Witness P))) one 0 hplain hrun
  obtain ⟨_, u', hnone', hshape'⟩ :=
    Step.shape_eq_of_runAll (.ofWitness (none : Option (Witness P))) one 0 hplain hrun'
  obtain rfl : u = u' := congrArg Prod.snd (hnone.symm.trans hnone')
  exact hshape'.symm.trans hshape

variable {G₁ G₂ Gₜ : Type} [CodedGroup G₁] [CodedGroup G₂] [PrimeOrder G₁] [PrimeOrder G₂] [Mul Gₜ]
  [DecidableEq Gₜ] [Pairing G₁ G₂ Gₜ] [Bilinear G₁ G₂ Gₜ]

variable (G₁ G₂) in
/-- Whoever has a witness that satisfies a circuit has a proof that passes: the key of the circuit's
shape is derived, the proof is made with it, and verification accepts the proof with the public
inputs, whatever secrets and blinding factors are drawn. The shape is that of the setup, which
builds the same system without a witness. -/
theorem exists_verified_proof {name one : String} {steps : List Step} {w : Witness P} {s : R1CS}
    (hs : (ofSteps name one steps).synthesize (some w) = .ok s) (hcheck : s.check = .ok none)
    (hgates : s.gates.length ≤ 2 ^ 31) {source source' : σ}
    (hsecrets : ∀ x ∈ RandomSource.draws 5 source, IsDraw x)
    (hblinding : ∀ x ∈ RandomSource.draws 2 source', IsDraw x) :
    (∃ (key : Key G₁ G₂) (proof : Proof G₁ G₂) (inputs : List Int)
        (values : List (Unicode.Codes × Int)),
      ((deriveKey s.shape).run source).1 = .ok key ∧
      ((key.provingKey.prove (ofSteps name one steps) (some w)).run source').1 = .ok proof ∧
      s.inputs = .ok inputs ∧
      key.verifyingKey.verify proof inputs none = .ok ⟨true, values⟩) ∧
    ((∀ step ∈ steps, step.instruction.IsPlain) →
      ∃ s', (ofSteps (P := P) name one steps).synthesize none = .ok s' ∧ s'.shape = s.shape) := by
  obtain ⟨registers, t, hrun, rfl⟩ := of_synthesize_ofSteps hs
  have hend : ((Step.runAll (.ofWitness (some w)) steps (Step.start one (.fresh 0 true))).run
      (.fresh 0 true)).2 = t := congrArg Prod.snd hrun
  constructor
  · have hwell : t.freeze.WellFormed := hend ▸ Step.wellFormed_runAll _ steps _ 0 true
    have hgrows := (Step.grows_runAll (.ofWitness (some w)) steps (Step.start one (.fresh 0 true))
      (.fresh 0 true)).trans (R1CS.grows_freeze _)
    rw [hend] at hgrows
    have hw : t.freeze.witnessed = true := hgrows.extends_.witnessed
    obtain ⟨rest, hentries⟩ := hwell.shape.entries_eq
    obtain ⟨secrets, hderive, hdraws⟩ := run_deriveKey G₁ G₂ t.freeze.shape source
    rw [hdraws] at hsecrets
    simp only [List.forall_mem_cons] at hsecrets
    obtain ⟨halpha, hbeta, hgamma, hdelta, htau, -⟩ := hsecrets
    obtain ⟨m, d, g, e, hkey, hproof⟩ := R1CS.exists_accepted G₁ G₂ hwell hw hcheck hgates
      hentries ⟨halpha, hbeta, hgamma, hdelta, htau⟩
    have hprepare : (d.key t.freeze.shape secrets g e : Key G₁ G₂).provingKey.prepare
        (ofSteps name one steps) (some w) = .ok t.freeze := by
      apply ProvingKey.prepare_eq_ok hs _ hcheck
      simp [ProvingKey.fits, Key.provingKey, Domain.key]
    obtain ⟨r, u, hblind, hdraws'⟩ := ProvingKey.run_blind
      (d.key t.freeze.shape secrets g e : Key G₁ G₂).provingKey t.freeze source'
    rw [hdraws'] at hblinding
    simp only [List.forall_mem_cons] at hblinding
    obtain ⟨proof, hassemble, haccepts⟩ := hproof r u hblinding.1 hblinding.2.1
    obtain ⟨values, hverify⟩ := R1CS.verify_key hwell hw hentries d secrets g e proof
    rw [haccepts] at hverify
    refine ⟨_, proof, _, values, hderive.trans hkey, ?_, R1CS.inputs_eq hwell hw hentries, hverify⟩
    rw [ProvingKey.run_prove _ hprepare, hblind, hassemble]
  · intro hplain
    obtain ⟨registers', s', hrun', hshape⟩ :=
      Step.shape_eq_of_runAll (.ofWitness (none : Option (Witness P))) one 0 hplain hrun
    exact ⟨s'.freeze, synthesize_ofSteps hrun', hshape⟩

open Factorization in
/-- The secret point is one here, which lies in every domain. -/
theorem exists_verified_proof_factorization :
    ∃ s, (ofSteps "factorization" "ONE" steps).synthesize (some factors) = .ok s ∧
      ∃ (key : Key Exponent Exponent) (proof : Proof Exponent Exponent) (inputs : List Int)
        (values : List (Unicode.Codes × Int)),
      ((deriveKey s.shape).run (⟨[2, 3, 5, 7, 1]⟩ : Script)).1 = .ok key ∧
      ((key.provingKey.prove (ofSteps "factorization" "ONE" steps) (some factors)).run
        (⟨[11, 13]⟩ : Script)).1 = .ok proof ∧
      s.inputs = .ok inputs ∧
      key.verifyingKey.verify proof inputs none = .ok ⟨true, values⟩ := by
  refine ⟨_, rfl, ?_⟩
  refine (exists_verified_proof Exponent Exponent (w := factors) rfl rfl (by decide) ?_ ?_).1
  · decide
  · decide

end Circuit

end RankOne
