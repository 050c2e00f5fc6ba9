import RankOne.Proofs.Acceptance
import RankOne.Proofs.BinaryForm
import RankOne.Proofs.Chain
import RankOne.Proofs.RegularStep

/-!
# Proving fails before it draws

A proof is refused for a cause that shows before anything is drawn, or it is made. What could still
go wrong afterwards are the lengths of the lists that are combined. Some of these come from the key
and some from the system, and the counts of the key, which are compared first, make them agree, also
where the key was read from any bytes.
-/

set_option autoImplicit false

namespace RankOne

def Circuit.IsGuarded {P : Type} (c : Circuit P) : Prop :=
  ∀ w s, c.synthesize w = .ok s → s.Guarded ∧ s.witnessed = w.isSome

namespace Circuit
variable {P : Type}

/-- Whatever the operands of a program are, the operations let no gate in that is not owned. -/
theorem isGuarded_ofSteps (name one : String) (steps : List Step) :
    (ofSteps name one steps : Circuit P).IsGuarded := by
  intro w s hs
  obtain ⟨registers, t, hrun, rfl⟩ := of_synthesize_ofSteps hs
  have hkeeps := Step.keeps_runAll R1CS.isOpenFrame_guarded.toIsFrame (.ofWitness w) steps
    (Step.start one (.fresh 0 w.isSome)) fun _ _ => .inr R1CS.isOpenFrame_guarded
  exact ⟨(hkeeps.of_run hrun (R1CS.guarded_fresh 0 w.isSome)).freeze,
    (wellFormed_of_synthesize hs).2⟩

/-- A program that writes no combination down by hand has all wires of its gates. -/
theorem not_misses_of_synthesize {name one : String} {steps : List Step}
    (hsteps : ∀ step ∈ steps, step.instruction.IsPlain ∨ step.instruction.IsQuestion)
    {w : Option (Witness P)} {s : R1CS} (hs : (ofSteps name one steps).synthesize w = .ok s) :
    ∀ g ∈ s.gates, ¬ s.Misses g := by
  obtain ⟨registers, t, hrun, rfl⟩ := of_synthesize_ofSteps hs
  have hfresh := R1CS.regular_fresh 0 w.isSome
  have hstart : ∀ entry ∈ Step.start one (.fresh 0 w.isSome),
      entry.2.Over (Step.Known (.fresh 0 w.isSome)) := by
    intro entry hentry
    obtain rfl := List.mem_singleton.mp hentry
    exact Item.over_source_of_within (Linear.within_wireAt hfresh.wellFormed.wireCount_pos)
  have ht := (Step.safe_runAll (.ofWitness w) hsteps hfresh hstart).grows.2
  rw [hrun] at ht
  exact fun g hg => ht.freeze.not_misses hg

end Circuit

theorem Bytes.length_many {α : Type} {one : Parse α} {n : ℕ} {data rest : Bytes} {xs : List α}
    (h : many one n data = .ok (xs, rest)) : xs.length = n := by
  induction n generalizing data rest xs with
  | zero =>
    obtain ⟨rfl, -⟩ := Prod.mk.inj (Except.ok.inj h)
    rfl
  | succ n ih =>
    rw [many] at h
    split at h
    · cases h
    · split at h
      · cases h
      · rename_i ys _ hys
        obtain ⟨rfl, -⟩ := Prod.mk.inj (Except.ok.inj h)
        rw [List.length_cons, ih hys]

theorem of_bind_eq_ok {α β : Type} {r : Except Fault α} {f : α → Except Fault β} {b : β}
    (h : r >>= f = .ok b) : ∃ a, r = .ok a ∧ f a = .ok b := by
  cases r with
  | error e => cases h
  | ok a => exact ⟨a, rfl, h⟩

namespace ProvingKey
variable {G₁ G₂ : Type}

structure IsComplete (pk : ProvingKey G₁ G₂) : Prop where
  privateColumns : pk.privateColumns.length = pk.counts.wires - pk.counts.entries
  powers₁ : pk.powers₁.length = domainSize pk.counts.gates
  powers₂ : pk.powers₂.length = domainSize pk.counts.gates
  quotients : pk.quotients.length = domainSize pk.counts.gates

theorem fits_iff {pk : ProvingKey G₁ G₂} {s : Shape} :
    pk.fits s = true ↔ s.counts = pk.counts ∧ s.digest = pk.digest := by
  simp [fits]

/-- Why no proof is made with a key: the circuit cannot be built, the key is not one for it, or a
gate does not pass. -/
inductive Refuses {P : Type} (pk : ProvingKey G₁ G₂) (c : Circuit P) (w : Witness P) : Fault → Prop
  | synthesis {e : Fault} (h : c.synthesize (some w) = .error e) : Refuses pk c w e
  | mismatch {s : R1CS} (h : c.synthesize (some w) = .ok s)
      (hne : s.shape.counts ≠ pk.counts ∨ s.shape.digest ≠ pk.digest) :
      Refuses pk c w (.mismatch (.provingKey c.name))
  | unsatisfied {s : R1CS} {g : Gate} (h : c.synthesize (some w) = .ok s)
      (hcounts : s.shape.counts = pk.counts) (hdigest : s.shape.digest = pk.digest)
      (hfirst : s.FirstFailing g) (hthere : ¬ s.Misses g) : Refuses pk c w (.unsatisfied g.message)
  | missing {s : R1CS} {g : Gate} (h : c.synthesize (some w) = .ok s)
      (hcounts : s.shape.counts = pk.counts) (hdigest : s.shape.digest = pk.digest)
      (hfirst : s.FirstFailing g) (hmisses : s.Misses g) : Refuses pk c w .outOfRange

variable [CodedGroup G₁] [CodedGroup G₂]

inductive IsObtained : ProvingKey G₁ G₂ → Prop
  | derived {s : Shape} {t : Trapdoor} {key : Key G₁ G₂} (hs : s.WellFormed)
      (h : Key.derive s t = .ok key) : IsObtained key.provingKey
  | read {data rest : Bytes} {pk : ProvingKey G₁ G₂} (h : parse data = .ok (pk, rest)) :
      IsObtained pk

theorem isComplete_of_derive {s : Shape} {t : Trapdoor} {key : Key G₁ G₂} (hs : s.WellFormed)
    (h : Key.derive s t = .ok key) : key.provingKey.IsComplete := by
  have hkey := (Key.isFor_of_derive h).2
  have hcounts : key.provingKey.counts = s.counts := hkey.counts
  constructor <;> rw [hcounts]
  · exact hkey.privateColumns.trans hs.length_privateWires
  · exact hkey.powers₁
  · exact hkey.powers₂
  · exact hkey.quotients

theorem isComplete_of_parse {data rest : Bytes} {pk : ProvingKey G₁ G₂}
    (h : parse data = .ok (pk, rest)) : pk.IsComplete := by
  obtain ⟨⟨wires, _⟩, -, h⟩ := of_bind_eq_ok h
  obtain ⟨⟨gates, _⟩, -, h⟩ := of_bind_eq_ok h
  obtain ⟨⟨entries, _⟩, -, h⟩ := of_bind_eq_ok h
  obtain ⟨⟨digest, _⟩, -, h⟩ := of_bind_eq_ok h
  obtain ⟨⟨alpha₁, _⟩, -, h⟩ := of_bind_eq_ok h
  obtain ⟨⟨beta₁, _⟩, -, h⟩ := of_bind_eq_ok h
  obtain ⟨⟨delta₁, _⟩, -, h⟩ := of_bind_eq_ok h
  obtain ⟨⟨beta₂, _⟩, -, h⟩ := of_bind_eq_ok h
  obtain ⟨⟨delta₂, _⟩, -, h⟩ := of_bind_eq_ok h
  obtain ⟨⟨privateColumns, _⟩, hprivate, h⟩ := of_bind_eq_ok h
  obtain ⟨⟨powers₁, _⟩, hpowers₁, h⟩ := of_bind_eq_ok h
  obtain ⟨⟨powers₂, _⟩, hpowers₂, h⟩ := of_bind_eq_ok h
  obtain ⟨⟨quotients, _⟩, hquotients, h⟩ := of_bind_eq_ok h
  obtain ⟨rfl, -⟩ := Prod.mk.inj (Except.ok.inj h)
  exact ⟨Bytes.length_many hprivate, Bytes.length_many hpowers₁, Bytes.length_many hpowers₂,
    Bytes.length_many hquotients⟩

theorem IsObtained.isComplete {pk : ProvingKey G₁ G₂} (h : pk.IsObtained) : pk.IsComplete := by
  cases h with
  | derived hs h => exact isComplete_of_derive hs h
  | read h => exact isComplete_of_parse h

variable {pk : ProvingKey G₁ G₂}

theorem combine_eq_ok {G : Type} [CodedGroup G] (start : G) {points : List G} {scalars : List Int}
    (h : points.length = scalars.length) :
    combine start points scalars = .ok (CodedGroup.dot start points scalars) :=
  if_pos h

/-- With a key that has its counts, a system that passes its check gives a proof with any blinding
factors in range. -/
theorem IsComplete.exists_assemble (hpk : pk.IsComplete) {s : R1CS} (hs : s.WellFormed)
    (hw : s.witnessed = true) (hfits : pk.fits s.shape = true) (hcheck : s.check = .ok none)
    (hgates : s.gates.length ≤ 2 ^ 31) {r u : Int} (hr : IsDraw r) (hu : IsDraw u) :
    ∃ proof, pk.assemble s r u = .ok proof := by
  have hcounts := (fits_iff.mp hfits).1
  obtain ⟨m, d, a, b, c, hsize, ha, hb, hc⟩ := R1CS.exists_sideTables hcheck hgates
  have hdomain : domainSize pk.counts.gates = 2 ^ m := by
    rw [← hcounts]
    exact hsize
  -- the scalars are as many as the elements
  have hleft := d.length_interpolated ha.length_eq
  have hright := d.length_interpolated hb.length_eq
  have hquotient := d.length_quotient ha.length_eq hb.length_eq hc.length_eq
  have hpowers₁ := hpk.powers₁.trans hdomain
  have hpowers₂ := hpk.powers₂.trans hdomain
  have hquotients := hpk.quotients.trans hdomain
  have hprivate : pk.privateColumns.length = (s.shape.privateWires.map s.wireNumber).length := by
    rw [hpk.privateColumns, ← hcounts, List.length_map, hs.shape.length_privateWires]
    rfl
  simp only [assemble, R1CS.SideTable.ofSystem_eq d hsize ha hb hc, R1CS.privateValues_eq hs hw,
    hr.isScalar, hu.isScalar, combine_eq_ok _ (hpowers₁.trans hleft.symm),
    combine_eq_ok _ (hpowers₁.trans hright.symm), combine_eq_ok _ (hpowers₂.trans hright.symm),
    combine_eq_ok _ (hquotients.trans hquotient.symm), combine_eq_ok _ hprivate, bind, Except.bind,
    pure, Except.pure, Bool.and_self, Bool.not_true, Bool.false_eq_true, if_false]
  exact ⟨_, rfl⟩

section Prepare
variable {P : Type} {c : Circuit P} {w : Witness P}

omit [CodedGroup G₁] [CodedGroup G₂] in
theorem prepare_of_refuses (hc : c.IsGuarded) {e : Fault} (h : pk.Refuses c w e) :
    pk.prepare c (some w) = .error e := by
  cases h with
  | synthesis h => simp only [prepare, h]
  | mismatch h hne =>
    have hfits : ¬ pk.fits _ = true := mt fits_iff.mp (not_and_or.mpr hne)
    simp only [prepare, h, hfits, Bool.not_false, if_true]
  | unsatisfied h hcounts hdigest hfirst hthere =>
    obtain ⟨hguarded, hw⟩ := hc _ _ h
    have hcheck := R1CS.check_of_first hguarded hw hfirst
    rw [if_neg hthere] at hcheck
    exact prepare_eq_error h (fits_iff.mpr ⟨hcounts, hdigest⟩) hcheck
  | missing h hcounts hdigest hfirst hmisses =>
    obtain ⟨hguarded, hw⟩ := hc _ _ h
    have hcheck := R1CS.check_of_first hguarded hw hfirst
    rw [if_pos hmisses] at hcheck
    simp only [prepare, h, fits_iff.mpr ⟨hcounts, hdigest⟩, hcheck, Bool.not_true,
      Bool.false_eq_true, if_false]

omit [CodedGroup G₁] [CodedGroup G₂] in
/-- Either there is a cause to refuse, or the key fits a system that passes its check. -/
theorem exists_refuses_or (pk : ProvingKey G₁ G₂) (hc : c.IsGuarded) (w : Witness P) :
    (∃ e, pk.Refuses c w e) ∨
      ∃ s, c.synthesize (some w) = .ok s ∧ pk.fits s.shape = true ∧ s.check = .ok none := by
  cases hs : c.synthesize (some w) with
  | error e => exact .inl ⟨e, .synthesis hs⟩
  | ok s =>
    obtain ⟨hguarded, hw⟩ := hc _ s hs
    by_cases hfits : pk.fits s.shape = true
    · obtain ⟨hcounts, hdigest⟩ := fits_iff.mp hfits
      rcases s.forall_passes_or_exists_first with hall | ⟨g, hfirst⟩
      · exact .inr ⟨s, rfl, hfits, R1CS.check_of_forall hguarded hw hall⟩
      · by_cases hmisses : s.Misses g
        · exact .inl ⟨_, .missing hs hcounts hdigest hfirst hmisses⟩
        · exact .inl ⟨_, .unsatisfied hs hcounts hdigest hfirst hmisses⟩
    · exact .inl ⟨_, .mismatch hs (not_and_or.mp (mt fits_iff.mpr hfits))⟩

variable {σ : Type} [RandomSource σ] {source : σ}

/-- Whether an attempt at a proof fails for a cause that shows before anything is drawn, or else
draws two values and gives a proof. -/
structure FailsEarly (pk : ProvingKey G₁ G₂) (c : Circuit P) (w : Witness P) (source : σ) :
    Prop where
  error_iff : ∀ e, ((pk.prove c (some w)).run source).1 = .error e ↔ pk.Refuses c w e
  source_eq : ∀ {e source'}, (pk.prove c (some w)).run source = (.error e, source') →
    source' = source
  exists_proof : (∀ e, ¬ pk.Refuses c w e) → ∃ proof source',
    (pk.prove c (some w)).run source = (.ok proof, source') ∧
    ∀ n, RandomSource.draws (n + 2) source =
      RandomSource.draws 2 source ++ RandomSource.draws n source'

def HasDomain (pk : ProvingKey G₁ G₂) (c : Circuit P) (w : Witness P) : Prop :=
  ∀ s, c.synthesize (some w) = .ok s → pk.fits s.shape = true → s.gates.length ≤ 2 ^ 31

omit [CodedGroup G₁] [CodedGroup G₂] in
theorem hasDomain_of_counts (h : pk.counts.gates ≤ 2 ^ 31) (c : Circuit P) (w : Witness P) :
    pk.HasDomain c w := by
  intro s _ hfits
  have hgates : s.shape.counts.gates = pk.counts.gates := by rw [(fits_iff.mp hfits).1]
  exact hgates.trans_le h

/-- Where nothing speaks against it, a proof is made from the next two draws. -/
theorem IsComplete.exists_proof (hpk : pk.IsComplete) (hc : c.IsGuarded) (hgates : pk.HasDomain c w)
    (hdraws : ∀ x ∈ RandomSource.draws 2 source, IsDraw x) (h : ∀ e, ¬ pk.Refuses c w e) :
    ∃ proof source', (pk.prove c (some w)).run source = (.ok proof, source') ∧
      ∀ n, RandomSource.draws (n + 2) source =
        RandomSource.draws 2 source ++ RandomSource.draws n source' := by
  obtain ⟨s, hs, hfits, hcheck⟩ := (pk.exists_refuses_or hc w).resolve_left (not_exists.mpr h)
  obtain ⟨hguarded, hw⟩ := hc _ s hs
  obtain ⟨r, u, source', hrun, hdrawn⟩ := pk.run_prove_eq (prepare_eq_ok hs hfits hcheck) source
  have htwo : RandomSource.draws 2 source = [r, u] := hdrawn 0
  rw [htwo, List.forall_mem_cons, List.forall_mem_singleton] at hdraws
  obtain ⟨proof, hassemble⟩ := hpk.exists_assemble hguarded.wellFormed hw hfits hcheck
    (hgates s hs hfits) hdraws.1 hdraws.2
  exact ⟨proof, source', by rw [hrun, hassemble], fun n => by rw [hdrawn, htwo]; rfl⟩

theorem IsComplete.failsEarly (hpk : pk.IsComplete) (hc : c.IsGuarded) (hgates : pk.HasDomain c w)
    (hdraws : ∀ x ∈ RandomSource.draws 2 source, IsDraw x) : pk.FailsEarly c w source := by
  have hrefused : ∀ e, pk.Refuses c w e → (pk.prove c (some w)).run source = (.error e, source) :=
    fun e he => run_prove_of_error pk (prepare_of_refuses hc he) source
  have hproved := hpk.exists_proof hc hgates hdraws
  have herror : ∀ {e source'}, (pk.prove c (some w)).run source = (.error e, source') →
      pk.Refuses c w e ∧ source' = source := by
    intro e source' hrun
    by_cases hcause : ∃ e', pk.Refuses c w e'
    · obtain ⟨e', he'⟩ := hcause
      obtain ⟨he, hsource⟩ := Prod.mk.inj ((hrefused e' he').symm.trans hrun)
      rw [← Except.error.inj he]
      exact ⟨he', hsource.symm⟩
    · obtain ⟨proof, source'', hok, -⟩ := hproved (not_exists.mp hcause)
      cases hok.symm.trans hrun
  exact {
    error_iff := fun e => ⟨fun h => (herror (Prod.ext h rfl)).1, fun h => by rw [hrefused e h]⟩
    source_eq := fun hrun => (herror hrun).2
    exists_proof := hproved }

end Prepare

end ProvingKey

namespace Cyclic
open Build

variable {G₁ G₂ Gₜ : Type} [CodedGroup G₁] [CodedGroup G₂] [Mul Gₜ] [DecidableEq Gₜ]
  [Pairing G₁ G₂ Gₜ] {t : Transition} {vk : Option (VerifyingKey G₁ G₂)} {mode : Mode}

theorem isGuarded_stepCircuit (p : t.Program) : (stepCircuit t vk mode).circuit.IsGuarded :=
  fun _ _ hs => (regular_of_synthesize p hs).imp_left R1CS.Regular.guarded

/-- A step is not built unless the proof before is one, or absent. -/
theorem exists_limbData {w : Option (Witness (Proof G₁ G₂))} {s u : R1CS}
    (h : (body t vk mode w).run s = (.ok (), u)) :
    ∃ limbs, limbData (Witness.get w "proof") = .ok limbs := by
  obtain ⟨z, s₁, -, h⟩ := of_run_bind h
  obtain ⟨flag, s₂, -, h⟩ := of_run_bind h
  obtain ⟨limbs, s₃, hlimbs, -⟩ := of_run_bind h
  rw [allocProof] at hlimbs
  split at hlimbs
  · rename_i ds hds
    exact ⟨ds, hds⟩
  · cases (Prod.mk.inj hlimbs).1

theorem exists_publicData {w : Witness (Proof G₁ G₂)} {z flag proof : Datum (Proof G₁ G₂)}
    {s : R1CS} (hz : Entries.get? "z" w = some z) (hflag : Entries.get? "flag" w = some flag)
    (hproof : Entries.get? "proof" w = some proof) (hne : proof ≠ .absent)
    (hs : (stepCircuit t vk mode).circuit.synthesize (some w) = .ok s) :
    ∃ inputs, StepCircuit.publicData w = .ok inputs := by
  obtain ⟨u, hrun, -⟩ := Circuit.synthesize_eq_ok_iff.mp hs
  obtain ⟨limbs, hlimbs⟩ := exists_limbData hrun
  rw [Witness.get, hproof, Option.getD_some] at hlimbs
  cases proof with
  | proof p =>
    refine ⟨z :: flag :: p.limbs.map .number, ?_⟩
    simp only [StepCircuit.publicData, StepCircuit.require, hz, hflag, hproof, bind, Except.bind,
      pure, Except.pure]
  | absent => exact absurd rfl hne
  | _ => cases hlimbs

end Cyclic

namespace Chain
variable {G₁ G₂ Gₜ σ : Type} [CodedGroup G₁] [CodedGroup G₂] [RandomSource σ] [Mul Gₜ]
  [DecidableEq Gₜ] [Pairing G₁ G₂ Gₜ] {c : Chain G₁ G₂ σ}

omit [Mul Gₜ] [DecidableEq Gₜ] [Pairing G₁ G₂ Gₜ] in
/-- A proof that is not made leaves the chain as it is, if nothing was drawn for it. -/
theorem run_prove_of_error {w : Option (Witness (Proof G₁ G₂))} {e : Fault}
    (h : (c.pk.prove c.step.circuit w).run c.source = (.error e, c.source)) :
    (prove w).run c = (.error e, c) := by
  have hget : (get : OnChain G₁ G₂ σ (Chain G₁ G₂ σ)).run c = (.ok c, c) := rfl
  rw [prove, Random.run_bind, hget]
  simp only [h]
  rfl

/-- A proof that is made is not lost for want of its public inputs, so a failure is one to make
it. -/
theorem eq_of_run_prove {w : Witness (Proof G₁ G₂)} {e : Fault} {c' : Chain G₁ G₂ σ}
    (hearly : c.pk.FailsEarly c.step.circuit w c.source)
    (hinputs : ∀ s, c.step.circuit.synthesize (some w) = .ok s →
      ∃ inputs, StepCircuit.publicData w = .ok inputs)
    (h : (prove (some w)).run c = (.error e, c')) : c' = c := by
  cases hrun : (c.pk.prove c.step.circuit (some w)).run c.source with
  | mk r source =>
    cases r with
    | error e' =>
      obtain rfl := hearly.source_eq hrun
      rw [run_prove_of_error hrun] at h
      exact (Prod.mk.inj h).2.symm
    | ok q =>
      cases hs : c.step.circuit.synthesize (some w) with
      | error e' =>
        have herror := (hearly.error_iff e').mpr (.synthesis hs)
        rw [hrun] at herror
        cases herror
      | ok s =>
        obtain ⟨inputs, hdata⟩ := hinputs s hs
        have hpublic : publicOf (some w) = .ok inputs := hdata
        rw [run_prove hrun hpublic] at h
        cases (Prod.mk.inj h).1

/-- Whatever a step goes on from, the data of its public inputs are in its witness. -/
theorem get?_of_witnessAfter {step : StepCircuit G₁ G₂} {link : Link (Proof G₁ G₂)}
    {w : Witness (Proof G₁ G₂)} (h : witnessAfter step link = .ok w) :
    ∃ z flag proof, Entries.get? "z" w = some z ∧ Entries.get? "flag" w = some flag ∧
      Entries.get? "proof" w = some proof ∧ proof ≠ .absent := by
  rw [witnessAfter] at h
  split at h
  · cases h
  · cases h
  · rw [StepCircuit.assignData.eq_def] at h
    split at h
    · cases h
    · dsimp only at h
      split at h
      · cases h
      · obtain rfl := Except.ok.inj h
        refine ⟨_, _, _, rfl, rfl, rfl, ?_⟩
        cases link.proof <;> simp

/-- A call that fails to make a proof leaves the chain as it is, with all its proofs and its
source. -/
theorem eq_of_run_call {t : Transition} {vk : Option (VerifyingKey G₁ G₂)} {mode : Mode}
    (hstep : c.step = Cyclic.stepCircuit t vk mode)
    (hearly : ∀ w, c.pk.FailsEarly c.step.circuit w c.source) {call : Call}
    (hcall : call ≠ .finish) {e : Fault} {c' : Chain G₁ G₂ σ}
    (h : call.run.run c = (.error e, c')) : c' = c := by
  by_cases hphase : call.phase = c.phase
  · cases call with
    | finish => exact absurd rfl hcall
    | start =>
      rw [run_start_eq hphase.symm] at h
      split at h
      · cases (Prod.mk.inj h).1
      · rename_i hrun
        obtain ⟨-, rfl⟩ := Prod.mk.inj h
        exact eq_of_run_prove (hearly _) (fun _ _ => ⟨_, rfl⟩) hrun
    | step =>
      rw [run_step_eq hphase.symm] at h
      split at h
      · exact (Prod.mk.inj h).2.symm
      · split at h
        · exact (Prod.mk.inj h).2.symm
        · rename_i w hw
          split at h
          · cases (Prod.mk.inj h).1
          · rename_i hrun
            obtain ⟨-, rfl⟩ := Prod.mk.inj h
            obtain ⟨z, flag, proof, hz, hflag, hproof, hne⟩ := get?_of_witnessAfter hw
            refine eq_of_run_prove (hearly w) (fun s hs => ?_) hrun
            rw [hstep] at hs
            exact Cyclic.exists_publicData hz hflag hproof hne hs
  · rw [run_of_wrong_phase hphase] at h
    exact (Prod.mk.inj h).2.symm

end Chain

namespace ProvingKey

section Main
variable {G₁ G₂ Gₜ σ : Type} [CodedGroup G₁] [CodedGroup G₂] [RandomSource σ] [Mul Gₜ]
  [DecidableEq Gₜ] [Pairing G₁ G₂ Gₜ]

/-- With a key that was derived or read from any bytes, a proof of a program of operations, on any
operands and with any data, is refused for a cause that shows before anything is drawn, or it is
made of the next two draws. The causes are that the circuit cannot be built, that its shape is
another one, and the first gate that does not pass: it does not hold, or it has a negative index that
counts back beyond the first wire. A program that writes no combination down by hand has no gate of
the latter kind, nor has a step of a chain, and where a chain fails to start or to go on, it stays as
it was. -/
theorem proving_fails_early {pk : ProvingKey G₁ G₂} (hpk : pk.IsObtained) {source : σ}
    (hdraws : ∀ x ∈ RandomSource.draws 2 source, IsDraw x) :
    (∀ (P : Type) (name one : String) (steps : List Step) (w : Witness P),
      pk.HasDomain (.ofSteps name one steps) w →
        pk.FailsEarly (.ofSteps name one steps) w source ∧
        ((∀ step ∈ steps, step.instruction.IsPlain ∨ step.instruction.IsQuestion) →
          ∀ s, (Circuit.ofSteps name one steps).synthesize (some w) = .ok s →
            ∀ g ∈ s.gates, ¬ s.Misses g)) ∧
    ∀ (c : Chain G₁ G₂ σ) (t : Transition) (vk : Option (VerifyingKey G₁ G₂)) (mode : Mode),
      c.pk = pk → c.source = source → c.step = Cyclic.stepCircuit t vk mode →
      Nonempty t.Program → (∀ w, pk.HasDomain c.step.circuit w) →
        (∀ w, pk.FailsEarly c.step.circuit w source ∧
          ∀ s, c.step.circuit.synthesize (some w) = .ok s → ∀ g ∈ s.gates, ¬ s.Misses g) ∧
        ∀ (call : Chain.Call) (e : Fault) (c' : Chain G₁ G₂ σ), call ≠ .finish →
          call.run.run c = (.error e, c') → c' = c := by
  constructor
  · intro P name one steps w hgates
    exact ⟨hpk.isComplete.failsEarly (Circuit.isGuarded_ofSteps name one steps) hgates hdraws,
      fun hsteps s hs => Circuit.not_misses_of_synthesize hsteps hs⟩
  · rintro c t vk mode rfl rfl hstep ⟨program⟩ hgates
    have hguarded : c.step.circuit.IsGuarded := by
      rw [hstep]
      exact Cyclic.isGuarded_stepCircuit program
    have hearly := fun w => hpk.isComplete.failsEarly hguarded (hgates w) hdraws
    refine ⟨fun w => ⟨hearly w, fun s hs g hg => ?_⟩,
      fun call e c' hcall h => Chain.eq_of_run_call hstep hearly hcall h⟩
    rw [hstep] at hs
    exact (Cyclic.regular_of_synthesize program hs).1.not_misses hg

end Main

open Factorization in
/-- A key for two factors of a number makes a proof of them, and starts no chain of another
circuit. -/
theorem proving_fails_early_factorization :
    ∃ key : Key Exponent Exponent,
      (∃ proof source', (key.provingKey.prove (Circuit.ofSteps "factorization" "ONE" steps)
        (some factors)).run (⟨[11, 13]⟩ : Script) = (.ok proof, source')) ∧
      let c := Chain.new (Cyclic.stepCircuit .counter none .checked) key (⟨[11, 13]⟩ : Script)
      ∃ e, Chain.Call.start.run.run c = (.error e, c) := by
  obtain ⟨s, hs, hcheck, hsize, hcolumns, hgates, hentries⟩ : ∃ s,
      (Circuit.ofSteps "factorization" "ONE" steps).synthesize (some factors) = .ok s ∧
      s.check = .ok none ∧ domainSize s.shape.gates.length = 2 ^ 2 ∧
      s.shape.columnsExist = true ∧ s.shape.counts.gates ≤ 2 ^ 31 ∧ s.shape.counts.entries = 2 :=
    ⟨_, rfl, rfl, by decide, by decide, by decide, rfl⟩
  obtain ⟨hguarded, hw⟩ := Circuit.isGuarded_ofSteps "factorization" "ONE" steps _ s hs
  obtain ⟨d⟩ := exists_domain (show 2 ≤ 31 by decide)
  obtain ⟨g, e, -, -, hkey⟩ := d.derive_eq Exponent Exponent hsize hcolumns Trapdoor.isDrawn_ones
  let key : Key Exponent Exponent := d.key s.shape ⟨1, 1, 1, 1, 1⟩ g e
  have hgates : key.provingKey.counts.gates ≤ 2 ^ 31 := hgates
  have hdraws : ∀ x ∈ RandomSource.draws 2 (⟨[11, 13]⟩ : Script), IsDraw x := by decide
  obtain ⟨hprograms, hchains⟩ :=
    proving_fails_early (.derived hguarded.wellFormed.shape hkey) hdraws
  refine ⟨key, ?_, ?_⟩
  · obtain ⟨hearly, -⟩ := hprograms _ "factorization" "ONE" steps factors
      (hasDomain_of_counts hgates _ _)
    have hprepare := prepare_eq_ok hs (Key.fits_of_derive hkey) hcheck
    obtain ⟨proof, source', hrun, -⟩ := hearly.exists_proof fun e he => by
      have herror := prepare_of_refuses (Circuit.isGuarded_ofSteps _ _ _) he
      rw [hprepare] at herror
      cases herror
    exact ⟨proof, source', hrun⟩
  · intro c
    obtain ⟨hearly, -⟩ := hchains c .counter none .checked rfl rfl rfl
      ⟨Transition.counterProgram⟩ fun w => hasDomain_of_counts hgates _ w
    -- a step has the limbs of a proof among its public entries
    obtain ⟨e, he⟩ : ∃ e, key.provingKey.Refuses c.step.circuit
        (c.step.assign c.step.base none none) e := by
      cases hstep : c.step.circuit.synthesize (some (c.step.assign c.step.base none none)) with
      | error e => exact ⟨e, .synthesis hstep⟩
      | ok u =>
        have hlength := Cyclic.length_entries Transition.counterProgram (Cyclic.Supply.ofWitness
          (Transition.counter.advance 0) 0 dummyProof 0 List.length_replicate) hstep
        refine ⟨_, .mismatch hstep (.inl fun hcounts => ?_)⟩
        have htwo : u.entries.length = 2 := (congrArg Counts.entries hcounts).trans hentries
        omega
    have herror := ((hearly _).1.error_iff e).mpr he
    have hsource := (hearly _).1.source_eq (Prod.ext herror rfl)
    exact ⟨e, by rw [Chain.run_start_eq rfl, Chain.run_prove_of_error (Prod.ext herror hsource)]⟩

def unfounded : Circuit Unit :=
  let x : Operand := .raw ⟨[(-5, 1)], some 0⟩
  .ofSteps "unfounded" "ONE" [⟨.gate x x (.constant 5) none, none⟩]

/-- The gate is let in, the key is of the same counts and digest, and what comes out is none of the
three causes. -/
theorem out_of_range_before_drawing :
    ∃ (s : R1CS) (pk : ProvingKey Exponent Exponent),
      unfounded.synthesize (some []) = .ok s ∧ pk.IsObtained ∧ pk.fits s.shape = true ∧
      (pk.prove unfounded (some [])).run (⟨[7, 8]⟩ : Script) = (.error .outOfRange, ⟨[7, 8]⟩) := by
  obtain ⟨s, hs, hcheck, hcounts⟩ : ∃ s, unfounded.synthesize (some []) = .ok s ∧
      s.check = .error .outOfRange ∧ s.shape.counts = ⟨1, 2, 1⟩ := ⟨_, rfl, rfl, rfl⟩
  let g : Exponent := CodedGroup.generator
  let pk : ProvingKey Exponent Exponent :=
    ⟨⟨1, 2, 1⟩, s.shape.digest, g, g, g, g, g, [], [g, g], [g, g], [g, g]⟩
  have hfits : pk.fits s.shape = true := fits_iff.mpr ⟨hcounts, rfl⟩
  have hsized : pk.IsSized := {
    wires := show 1 < 256 ^ Bytes.countWidth by decide
    gates := show 2 < 256 ^ Bytes.countWidth by decide
    entries := show 1 < 256 ^ Bytes.countWidth by decide
    digest := Sha256.length_digest _
    privateColumns := rfl
    powers₁ := rfl
    powers₂ := rfl
    quotients := rfl }
  refine ⟨s, pk, hs, .read (parse_append hsized []), hfits, ?_⟩
  apply run_prove_of_error
  simp only [prepare, hs, hfits, hcheck, Bool.not_true, Bool.false_eq_true, if_false]

end ProvingKey

end RankOne
