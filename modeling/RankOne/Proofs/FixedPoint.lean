import RankOne.Proofs.Acceptance
import RankOne.Proofs.RegularStep

/-!
# Keys of a cyclic circuit

The circuit that is built with its own key has the shape that the key was derived from, so a key
always comes out, and every proof that an honest step makes with it passes.
-/

set_option autoImplicit false

namespace RankOne

namespace Random
variable {σ α β : Type}

theorem run_bind (x : Random σ α) (f : α → Random σ β) (source : σ) :
    (x >>= f).run source =
      match x.run source with
      | (.ok a, source') => (f a).run source'
      | (.error e, source') => (.error e, source') := by
  simp only [bind, ExceptT.bind, ExceptT.bindCont, ExceptT.run, ExceptT.mk, StateT.bind, pure]
  obtain ⟨r, source'⟩ := x source
  cases r <;> rfl

theorem of_run_bind {x : Random σ α} {f : α → Random σ β} {source : σ} {r : β}
    (h : ((x >>= f).run source).1 = .ok r) :
    ∃ a source', x.run source = (.ok a, source') ∧ ((f a).run source').1 = .ok r := by
  rw [run_bind] at h
  split at h
  · rename_i a source' hx
    exact ⟨a, source', hx, h⟩
  · cases h

theorem run_ofExcept (r : Except Fault α) (source : σ) :
    (ofExcept r : Random σ α).run source = (r, source) := rfl

end Random

variable (G₁ G₂ : Type) [CodedGroup G₁] [CodedGroup G₂] in
theorem Circuit.exists_run_deriveKey {σ : Type} [RandomSource σ] {source : σ}
    (h : ∀ x ∈ RandomSource.draws 5 source, IsDraw x) (s : Shape) :
    ∃ secrets : Trapdoor, secrets.IsDrawn ∧
      ((deriveKey s : Random σ (Key G₁ G₂)).run source).1 = Key.derive s secrets := by
  obtain ⟨secrets, hderive, hdraws⟩ := run_deriveKey G₁ G₂ s source
  rw [hdraws] at h
  simp only [List.forall_mem_cons] at h
  obtain ⟨halpha, hbeta, hgamma, hdelta, htau, -⟩ := h
  exact ⟨secrets, ⟨halpha, hbeta, hgamma, hdelta, htau⟩, hderive⟩

/-- A derived key is for one input less than its shape has public entries. -/
theorem VerifyingKey.Fits.of_derive {G₁ G₂ : Type} [CodedGroup G₁] [CodedGroup G₂] {s : Shape}
    {t : Trapdoor} {key : Key G₁ G₂} {inputs : List Int} (hkey : Key.derive s t = .ok key)
    (hlen : inputs.length + 1 = s.entries.length)
    (hrange : ∀ x ∈ inputs, 0 ≤ x ∧ x < order) : key.verifyingKey.Fits inputs := by
  obtain ⟨-, hcounts, -, hcolumns⟩ := Key.of_derive hkey
  have hentries : key.verifyingKey.entryCount = inputs.length + 1 :=
    (congrArg Counts.entries hcounts).trans hlen.symm
  refine ⟨?_, ?_, hrange⟩
  · rw [VerifyingKey.inputCount, hentries]
    omega
  · exact hcolumns.trans (hlen.symm.trans hentries.symm)

namespace Cyclic
variable {G₁ G₂ Gₜ σ : Type} [CodedGroup G₁] [CodedGroup G₂] [Mul Gₜ] [DecidableEq Gₜ]
  [Pairing G₁ G₂ Gₜ] [RandomSource σ] {t : Transition} {mode : Mode} {key : Key G₁ G₂}

structure IsKey (t : Transition) (mode : Mode) (key : Key G₁ G₂) : Prop where
  exists_draft : ∃ (draft : R1CS) (secrets : Trapdoor),
    (stepCircuit t (none : Option (VerifyingKey G₁ G₂)) mode).circuit.synthesize none = .ok draft ∧
      secrets.IsDrawn ∧ Key.derive draft.shape secrets = .ok key
  inputCount : key.verifyingKey.inputCount = stepInputCount G₁ G₂

omit [Mul Gₜ] [DecidableEq Gₜ] [Pairing G₁ G₂ Gₜ] in
/-- What is returned is a key of the draft, and the circuit for this key, with the same shape. -/
theorem of_run_fixedPoint {family : StepFamily G₁ G₂} {source : σ} {step : StepCircuit G₁ G₂}
    (h : ((fixedPoint family mode : Random σ (StepCircuit G₁ G₂ × Key G₁ G₂)).run source).1 =
      .ok (step, key)) :
    ∃ draft final : R1CS,
      (family none mode).circuit.synthesize none = .ok draft ∧
      ((Circuit.deriveKey draft.shape : Random σ (Key G₁ G₂)).run source).1 = .ok key ∧
      step = family (some key.verifyingKey) mode ∧ step.circuit.synthesize none = .ok final ∧
      final.shape.same draft.shape = true ∧
      key.verifyingKey.inputCount = stepInputCount G₁ G₂ := by
  obtain ⟨draft, source₁, hdraft, h⟩ := Random.of_run_bind h
  rw [Random.run_ofExcept] at hdraft
  obtain ⟨hsynthesize, rfl⟩ := Prod.mk.inj hdraft
  obtain ⟨key', source₂, hkey, h⟩ := Random.of_run_bind h
  obtain ⟨final, source₃, hfinal, h⟩ := Random.of_run_bind h
  rw [Random.run_ofExcept] at hfinal
  obtain ⟨hresult, rfl⟩ := Prod.mk.inj hfinal
  split at h
  · cases h
  · rename_i hfits
    obtain ⟨rfl, rfl⟩ := Prod.mk.inj (Except.ok.inj h)
    rw [not_or, not_not, Bool.not_eq_true, Bool.not_eq_false'] at hfits
    exact ⟨draft, final, hsynthesize, congrArg Prod.fst hkey, rfl, hresult, hfits⟩

theorem isKey_of_fixedPoint {source : σ} {step : StepCircuit G₁ G₂}
    (hsecrets : ∀ x ∈ RandomSource.draws 5 source, IsDraw x)
    (h : ((fixedPoint (stepCircuit t) mode : Random σ (StepCircuit G₁ G₂ × Key G₁ G₂)).run
      source).1 = .ok (step, key)) :
    step = stepCircuit t (some key.verifyingKey) mode ∧ IsKey t mode key := by
  obtain ⟨draft, -, hdraft, hkey, hstep, -, -, hcount⟩ := of_run_fixedPoint h
  obtain ⟨secrets, hdrawn, hderive⟩ :=
    Circuit.exists_run_deriveKey G₁ G₂ hsecrets draft.shape
  exact ⟨hstep, ⟨draft, secrets, hdraft, hdrawn, hderive.symm.trans hkey⟩, hcount⟩

/-- There is a key for every transition that raises nothing, if there is a domain for the gates of
its draft. -/
theorem exists_key (ht : t.Completes) {draft : R1CS}
    (hdraft : (stepCircuit t (none : Option (VerifyingKey G₁ G₂)) mode).circuit.synthesize none =
      .ok draft)
    (hgates : draft.gates.length ≤ 2 ^ 31) {source : σ}
    (hsecrets : ∀ x ∈ RandomSource.draws 5 source, IsDraw x) :
    ∃ key : Key G₁ G₂,
      ((fixedPoint (stepCircuit t) mode : Random σ (StepCircuit G₁ G₂ × Key G₁ G₂)).run
        source).1 = .ok (stepCircuit t (some key.verifyingKey) mode, key) ∧
      key.counts = draft.shape.counts := by
  obtain ⟨program⟩ := ht.program
  have hcolumns := (regular_of_synthesize program hdraft).1.columnsExist
  obtain ⟨u, hrun, hu⟩ := Circuit.synthesize_eq_ok_iff.mp hdraft
  obtain ⟨secrets, hdrawn, hderive⟩ :=
    Circuit.exists_run_deriveKey G₁ G₂ hsecrets draft.shape
  obtain ⟨m, hm, hsize, -⟩ := domainSize_eq hgates
  obtain ⟨d⟩ := exists_domain hm
  obtain ⟨g, e, -, -, hkey⟩ := d.derive_eq G₁ G₂ hsize hcolumns hdrawn
  obtain ⟨u', hrun', hshape⟩ := exists_run_of_draft ht .absent
    (checks_none (some (d.key draft.shape secrets g e : Key G₁ G₂).verifyingKey) mode) hrun
  have hfinal : (stepCircuit t (some (d.key draft.shape secrets g e : Key G₁ G₂).verifyingKey)
      mode).circuit.synthesize none = .ok u'.freeze :=
    Circuit.synthesize_eq_ok_iff.mpr ⟨u', hrun', rfl⟩
  have hcount : (d.key draft.shape secrets g e : Key G₁ G₂).verifyingKey.inputCount =
      stepInputCount G₁ G₂ := by
    change (draft.entries.length : Int) - 1 = _
    rw [length_entries program .absent hdraft, stepInputCount]
    push_cast
    ring
  have hsame : u'.freeze.shape.same draft.shape = true := by
    rw [hshape, ← hu]
    simp [Shape.same]
  refine ⟨d.key draft.shape secrets g e, ?_, rfl⟩
  generalize hrunKey : (Circuit.deriveKey draft.shape : Random σ (Key G₁ G₂)).run source = r
    at hderive
  obtain ⟨result, source'⟩ := r
  obtain rfl := hderive.trans hkey
  have hmoves : ¬((!u'.freeze.shape.same draft.shape) = true ∨
      (d.key draft.shape secrets g e : Key G₁ G₂).verifyingKey.inputCount ≠
        stepInputCount G₁ G₂) := by
    simp [hsame, hcount]
  simp only [fixedPoint, Random.run_bind, Random.run_ofExcept, hdraft, hrunKey, hfinal,
    if_neg hmoves]
  rfl

theorem exists_key_counter :
    ∃ key : Key Exponent Exponent,
      ((fixedPoint (stepCircuit .counter) .checked : Random Script (StepCircuit Exponent Exponent ×
        Key Exponent Exponent)).run ⟨[2, 3, 5, 7, 1]⟩).1 =
          .ok (stepCircuit .counter (some key.verifyingKey) .checked, key) ∧
      key.counts.gates ≤ 2 ^ 31 := by
  obtain ⟨draft, hdraft, hgates⟩ : ∃ draft,
      (stepCircuit .counter (none : Option (VerifyingKey Exponent Exponent))
        .checked).circuit.synthesize none = .ok draft ∧ draft.gates.length ≤ 2 ^ 31 :=
    ⟨_, rfl, by decide⟩
  have hsecrets : ∀ x ∈ RandomSource.draws 5 (⟨[2, 3, 5, 7, 1]⟩ : Script), IsDraw x := by decide
  obtain ⟨key, hkey, hcounts⟩ :=
    exists_key Transition.counter_isFaithful.completes hdraft hgates hsecrets
  exact ⟨key, hkey, by rwa [hcounts]⟩

theorem IsKey.fits (h : IsKey t mode key) {inputs : List Int}
    (hlen : inputs.length = stepInputCount G₁ G₂) (hrange : ∀ x ∈ inputs, 0 ≤ x ∧ x < order) :
    key.verifyingKey.Fits inputs where
  count := by rw [h.inputCount, hlen]
  columns := by
    obtain ⟨draft, secrets, -, -, hderive⟩ := h.exists_draft
    obtain ⟨-, hcounts, -, hcolumns⟩ := Key.of_derive hderive
    change key.publicColumns.length = key.counts.entries
    rw [hcolumns, hcounts]
    rfl
  range := hrange

/-- What the base case is handed. The dummy need not pass, since the flag is not set. -/
theorem IsKey.isHonest_base (h : IsKey t mode key) (ht : t.IsFaithful) :
    IsHonest t (some key.verifyingKey) mode (t.advance t.base) 0 (dummyProof : Proof G₁ G₂)
      (List.replicate (stepInputCount G₁ G₂) 0) t.base := by
  have hfits : key.verifyingKey.Fits (List.replicate (stepInputCount G₁ G₂) 0) := by
    apply h.fits List.length_replicate
    intro x hx
    rw [(List.mem_replicate.mp hx).2]
    decide
  exact
    { length_inputs := List.length_replicate
      flag_bit := .inl rfl
      carried_eq := by rw [Int.cast_zero, zero_mul, zero_add]
      z_eq := ht.advance_base.symm
      checks := fun _ => ⟨_, hfits.check_eq _, .inl rfl⟩ }

theorem isHonest_next {vk : VerifyingKey G₁ G₂} {z : Int} {rest : List Int} {p : Proof G₁ G₂}
    (hlen : (z :: rest).length = stepInputCount G₁ G₂) (hfits : vk.Fits (z :: rest))
    (haccepts : vk.accepts p (z :: rest) = true) :
    IsHonest t (some vk) mode (t.advance z) 1 p (z :: rest) z := by
  obtain ⟨hlow, hhigh⟩ := hfits.range z (List.mem_cons_self ..)
  exact
    { length_inputs := hlen
      flag_bit := .inr rfl
      carried_eq := by rw [List.headD_cons, Int.cast_one, one_mul, sub_add_cancel]
      z_eq := by rw [reduce_eq_self hlow hhigh]
      checks := fun _ => ⟨_, hfits.check_eq p, .inr (if_pos haccepts)⟩ }

variable [LawfulCoding G₁] [LawfulCoding G₂] [PrimeOrder G₁] [PrimeOrder G₂] [Bilinear G₁ G₂ Gₜ]

/-- An honest step gives a proof that passes with its value, its flag and its limbs. -/
theorem IsKey.exists_proof (h : IsKey t mode key) (ht : t.IsFaithful)
    (hgates : key.counts.gates ≤ 2 ^ 31) {vk : Option (VerifyingKey G₁ G₂)} {z flag carried : Int}
    {p : Proof G₁ G₂} {inputs : List Int} (hhonest : IsHonest t vk mode z flag p inputs carried)
    {source : σ} (hblinding : ∀ x ∈ RandomSource.draws 2 source, IsDraw x) :
    ∃ (proof : Proof G₁ G₂) (source' : σ),
      (key.provingKey.prove (stepCircuit t vk mode).circuit
        (some (witness z flag p inputs carried))).run source = (.ok proof, source') ∧
      key.verifyingKey.accepts proof (z :: flag :: p.limbs) = true ∧
      ∀ n, RandomSource.draws (n + 2) source =
        RandomSource.draws 2 source ++ RandomSource.draws n source' := by
  obtain ⟨draft, secrets, hdraft, hsecrets, hderive⟩ := h.exists_draft
  obtain ⟨s, hs, hwell, hw, hshape, hcheck, hinputs⟩ := hhonest.exists_system ht hdraft
  rw [← hshape] at hderive
  rw [(Key.of_derive hderive).2.1] at hgates
  exact Key.exists_proof hs hwell hw hcheck hgates hinputs hsecrets hderive hblinding

end Cyclic

end RankOne
