import RankOne.Proofs.Audit
import RankOne.Twister

/-!
# Honest chains

Calls on a new chain, in any order. A call in a wrong phase is refused and changes nothing. All
other calls succeed, and what they append is what an audit asks for: each link holds a proof that
passes, with the next value and with the limbs of the proof before it.
-/

set_option autoImplicit false

namespace RankOne

def RandomSource.IsFair {σ : Type} [RandomSource σ] (source : σ) : Prop :=
  ∀ n, ∀ x ∈ RandomSource.draws n source, IsDraw x

theorem RandomSource.IsFair.after_draws {σ : Type} [RandomSource σ] {source source' : σ}
    (h : IsFair source)
    (hdraws : ∀ n, draws (n + 2) source = draws 2 source ++ draws n source') : IsFair source' := by
  intro n x hx
  apply h (n + 2)
  rw [hdraws]
  exact List.mem_append_right _ hx

/-- A script ends in ones, so it is fair if what it starts with is. -/
theorem RandomSource.isFair_script {values : List Int} (h : ∀ x ∈ values, IsDraw x) :
    IsFair (⟨values⟩ : Script) := by
  intro n
  induction n generalizing values with
  | zero => exact fun x hx => absurd hx List.not_mem_nil
  | succ n ih =>
    cases values with
    | nil =>
      have hone : IsDraw 1 := by decide
      exact List.forall_mem_cons.mpr ⟨hone, ih h⟩
    | cons v rest =>
      rw [List.forall_mem_cons] at h
      exact List.forall_mem_cons.mpr ⟨h.1, ih h.2⟩

theorem RandomSource.isFair_of_draw {σ : Type} [RandomSource σ]
    (h : ∀ source : σ, IsDraw (RandomSource.draw source).1) (source : σ) : IsFair source := by
  intro n
  induction n generalizing source with
  | zero => exact fun x hx => absurd hx List.not_mem_nil
  | succ n ih => exact List.forall_mem_cons.mpr ⟨h source, ih _⟩

/-- What the generator does not refuse is below the last residue, so one more is a nonzero one. -/
theorem Twister.isDraw_residue (g : Generator) (fuel : ℕ) : IsDraw (residue g fuel).1 := by
  induction fuel generalizing g with
  | zero =>
    have hone : IsDraw 1 := by decide
    exact hone
  | succ fuel ih =>
    rw [residue]
    split
    · rename_i hlt
      change 0 < 1 + ((bits g 7 0).1 : Int) ∧ 1 + ((bits g 7 0).1 : Int) < order
      omega
    · exact ih _

theorem Twister.isFair_generator (g : Generator) : RandomSource.IsFair g := by
  apply RandomSource.isFair_of_draw
  intro g
  simp only [RandomSource.draw]
  exact isDraw_residue g attempts

namespace Chain

inductive Call
  | start
  | step
  | finish
deriving DecidableEq, Repr

def Call.phase : Call → Phase
  | .start => .baseCase
  | .step => .recursiveStep
  | .finish => .recursiveStep

section Calls
variable {G₁ G₂ Gₜ σ : Type} [CodedGroup G₁] [CodedGroup G₂] [RandomSource σ] [Mul Gₜ]
  [DecidableEq Gₜ] [Pairing G₁ G₂ Gₜ] {c : Chain G₁ G₂ σ}

def Call.run : Call → OnChain G₁ G₂ σ (Proof G₁ G₂ ⊕ Verdict)
  | .start => .inl <$> Chain.start
  | .step => .inl <$> Chain.advance
  | .finish => .inr <$> Chain.finish

def after (c : Chain G₁ G₂ σ) (calls : List Call) : Chain G₁ G₂ σ :=
  calls.foldl (fun c call => (call.run.run c).2) c

def answerCount : Except Fault (Proof G₁ G₂ ⊕ Verdict) → ℕ
  | .ok (.inl _) => 1
  | _ => 0

def proofCount (c : Chain G₁ G₂ σ) : List Call → ℕ
  | [] => 0
  | call :: rest => answerCount (call.run.run c).1 + proofCount (call.run.run c).2 rest

omit [CodedGroup G₁] [CodedGroup G₂] [RandomSource σ] in
/-- What comes after the check of the phase is done only in that phase. -/
theorem run_expect_bind {α : Type} (phase : Phase) (f : Unit → OnChain G₁ G₂ σ α)
    (c : Chain G₁ G₂ σ) :
    (expect phase >>= f).run c =
      if c.phase = phase then (f ()).run c else (.error (.wrongPhase c.phase phase), c) := by
  have hget : (get : OnChain G₁ G₂ σ (Chain G₁ G₂ σ)).run c = (.ok c, c) := rfl
  rw [Random.run_bind, expect, Random.run_bind, hget]
  by_cases h : c.phase = phase
  · rw [if_pos h]
    dsimp only
    rw [if_neg (not_not.mpr h)]
    rfl
  · rw [if_neg h]
    dsimp only
    rw [if_pos h]
    rfl

variable (G₁ G₂ σ) in
theorem Call.exists_eq_expect_bind (call : Call) :
    ∃ f, (call.run : OnChain G₁ G₂ σ (Proof G₁ G₂ ⊕ Verdict)) = expect call.phase >>= f := by
  cases call with
  | start => exact ⟨_, by rw [Call.run, Chain.start, map_bind]; rfl⟩
  | step => exact ⟨_, by rw [Call.run, Chain.advance, map_bind]; rfl⟩
  | finish => exact ⟨_, by rw [Call.run, Chain.finish, map_bind]; rfl⟩

/-- A call in a wrong phase is refused, and the chain stays as it is. -/
theorem run_of_wrong_phase {call : Call} (h : call.phase ≠ c.phase) :
    call.run.run c = (.error (.wrongPhase c.phase call.phase), c) := by
  obtain ⟨f, hf⟩ := call.exists_eq_expect_bind G₁ G₂ σ
  rw [hf, run_expect_bind, if_neg h.symm]

theorem after_eq_self (hphase : c.phase = .done) (calls : List Call) : c.after calls = c := by
  induction calls with
  | nil => rfl
  | cons call rest ih =>
    have hwrong : call.phase ≠ c.phase := by
      rw [hphase]
      cases call <;> decide
    rw [after, List.foldl_cons, run_of_wrong_phase hwrong]
    exact ih

omit [Mul Gₜ] [DecidableEq Gₜ] [Pairing G₁ G₂ Gₜ] in
theorem run_prove {w : Option (Witness (Proof G₁ G₂))} {q : Proof G₁ G₂} {source : σ}
    {inputs : List (Datum (Proof G₁ G₂))}
    (h : (c.pk.prove c.step.circuit w).run c.source = (.ok q, source))
    (hinputs : publicOf w = .ok inputs) :
    (prove w).run c =
      (.ok q, { c with source := source, links := c.links ++ [⟨.proof q, .list inputs⟩] }) := by
  have hget : (get : OnChain G₁ G₂ σ (Chain G₁ G₂ σ)).run c = (.ok c, c) := rfl
  rw [prove, Random.run_bind, hget]
  simp only [h, hinputs]
  rfl

theorem run_start_eq (hphase : c.phase = .baseCase) :
    Call.start.run.run c =
      match (prove (some (c.step.assign c.step.base none none))).run c with
      | (.ok q, c') => (.ok (.inl q), { c' with phase := .recursiveStep })
      | (.error e, c') => (.error e, c') := by
  have hget : (get : OnChain G₁ G₂ σ (Chain G₁ G₂ σ)).run c = (.ok c, c) := rfl
  rw [Call.run, Chain.start, map_bind, run_expect_bind, if_pos hphase, map_bind, Random.run_bind,
    hget]
  dsimp only
  rw [map_bind, Random.run_bind]
  generalize (prove (some (c.step.assign c.step.base none none))).run c = p
  obtain ⟨r, c'⟩ := p
  cases r <;> rfl

theorem run_step_eq (hphase : c.phase = .recursiveStep) :
    Call.step.run.run c =
      match c.head with
      | .error e => (.error e, c)
      | .ok link =>
          match witnessAfter c.step link with
          | .error e => (.error e, c)
          | .ok w =>
              match (prove (some w)).run c with
              | (.ok q, c') => (.ok (.inl q), c')
              | (.error e, c') => (.error e, c') := by
  have hget : (get : OnChain G₁ G₂ σ (Chain G₁ G₂ σ)).run c = (.ok c, c) := rfl
  rw [Call.run, Chain.advance, map_bind, run_expect_bind, if_pos hphase, map_bind, Random.run_bind,
    hget]
  dsimp only
  cases c.head with
  | error e => rfl
  | ok link =>
    dsimp only
    cases witnessAfter c.step link with
    | error e => rfl
    | ok w =>
      dsimp only
      rw [map_eq_pure_bind, Random.run_bind]
      generalize (prove (some w)).run c = p
      obtain ⟨r, c'⟩ := p
      cases r <;> rfl

theorem run_start {q : Proof G₁ G₂} {c' : Chain G₁ G₂ σ} (hphase : c.phase = .baseCase)
    (h : (prove (some (c.step.assign c.step.base none none))).run c = (.ok q, c')) :
    Call.start.run.run c = (.ok (.inl q), { c' with phase := .recursiveStep }) := by
  rw [run_start_eq hphase, h]

theorem run_advance {link : Link (Proof G₁ G₂)} {w : Witness (Proof G₁ G₂)} {q : Proof G₁ G₂}
    {c' : Chain G₁ G₂ σ} (hphase : c.phase = .recursiveStep) (hlast : c.links.getLast? = some link)
    (hw : witnessAfter c.step link = .ok w) (h : (prove (some w)).run c = (.ok q, c')) :
    Call.step.run.run c = (.ok (.inl q), c') := by
  have hhead : c.head = .ok link := by rw [head, hlast]
  rw [run_step_eq hphase, hhead]
  simp only [hw, h]

theorem run_finish {link : Link (Proof G₁ G₂)} {verdict : Verdict}
    (hphase : c.phase = .recursiveStep) (hlast : c.links.getLast? = some link)
    (h : c.vk.verifyData link.proof link.inputs
      (some ((StepCircuit.names G₁ G₂).map Unicode.ofString)) = .ok verdict) :
    Call.finish.run.run c = (.ok (.inr verdict), { c with phase := .done }) := by
  have hget : ∀ c : Chain G₁ G₂ σ,
    (get : OnChain G₁ G₂ σ (Chain G₁ G₂ σ)).run c = (.ok c, c) := fun _ => rfl
  have hmodify : (modify (fun c => { c with phase := Phase.done }) : OnChain G₁ G₂ σ Unit).run c =
    (.ok (), { c with phase := .done }) := rfl
  have hhead : ({ c with phase := .done } : Chain G₁ G₂ σ).head = .ok link := by rw [head, hlast]
  rw [Call.run, Chain.finish, map_bind, run_expect_bind, if_pos hphase, map_bind, Random.run_bind,
    hmodify]
  dsimp only
  rw [map_bind, Random.run_bind, hget]
  simp only [hhead, h]
  rfl

end Calls

section Honest
variable {G₁ G₂ Gₜ σ : Type} [CodedGroup G₁] [CodedGroup G₂] [RandomSource σ] [Mul Gₜ]
  [DecidableEq Gₜ] [Pairing G₁ G₂ Gₜ] {t : Transition} {mode : Mode} {key : Key G₁ G₂}
  {c : Chain G₁ G₂ σ} {claims : List (Claim G₁ G₂)}

structure IsHonest (t : Transition) (mode : Mode) (key : Key G₁ G₂) (claims : List (Claim G₁ G₂))
    (c : Chain G₁ G₂ σ) : Prop where
  step_eq : c.step = Cyclic.stepCircuit t (some key.verifyingKey) mode
  pk_eq : c.pk = key.provingKey
  vk_eq : c.vk = key.verifyingKey
  fair : RandomSource.IsFair c.source
  phase_iff : c.phase = .baseCase ↔ claims = []
  links_eq : c.links = claims.map fun claim => ⟨.proof claim.1, .list (claim.2.map .number)⟩
  accepts : ∀ claim ∈ claims, key.verifyingKey.accepts claim.1 claim.2 = true
  inputs_eq : ∀ i claim, claims[i]? = some claim →
    claim.2 = c.step.inputsAt i (proofAt claims i)

theorem isHonest_new (step : StepCircuit G₁ G₂)
    (hstep : step = Cyclic.stepCircuit t (some key.verifyingKey) mode) {source : σ}
    (hsource : RandomSource.IsFair source) :
    (Chain.new step key source).IsHonest t mode key [] where
  step_eq := hstep
  pk_eq := rfl
  vk_eq := rfl
  fair := hsource
  phase_iff := iff_of_true rfl rfl
  links_eq := rfl
  accepts _ h := absurd h List.not_mem_nil
  inputs_eq _ _ h := by cases h

theorem IsHonest.append (h : c.IsHonest t mode key claims) {q : Proof G₁ G₂} {inputs : List Int}
    {source : σ} (hfair : RandomSource.IsFair source)
    (haccepts : key.verifyingKey.accepts q inputs = true)
    (hinputs : inputs = c.step.inputsAt claims.length (proofAt claims claims.length)) :
    ({ c with
        source := source
        phase := .recursiveStep
        links := c.links ++ [⟨.proof q, .list (inputs.map .number)⟩] } : Chain G₁ G₂ σ).IsHonest
      t mode key (claims ++ [(q, inputs)]) where
  step_eq := h.step_eq
  pk_eq := h.pk_eq
  vk_eq := h.vk_eq
  fair := hfair
  phase_iff := by simp
  links_eq := by simp [h.links_eq]
  accepts := by
    rw [List.forall_mem_append, List.forall_mem_singleton]
    exact ⟨h.accepts, haccepts⟩
  inputs_eq := by
    intro i claim hi
    have hlt : i < (claims ++ [(q, inputs)]).length := (List.getElem?_eq_some_iff.mp hi).1
    rw [List.length_append, List.length_singleton] at hlt
    rw [proofAt, before_append (Nat.le_of_lt_succ hlt)]
    rcases Nat.lt_or_eq_of_le (Nat.le_of_lt_succ hlt) with hlt | rfl
    · rw [List.getElem?_append_left hlt] at hi
      exact h.inputs_eq i claim hi
    · rw [List.getElem?_concat_length] at hi
      obtain rfl := Option.some.inj hi
      exact hinputs

theorem IsHonest.exists_last (h : c.IsHonest t mode key claims) (hphase : c.phase ≠ .baseCase) :
    ∃ front p inputs, claims = front ++ [(p, inputs)] ∧
      c.links.getLast? = some ⟨.proof p, .list (inputs.map .number)⟩ := by
  have hne : claims ≠ [] := fun hnil => hphase (h.phase_iff.mpr hnil)
  obtain ⟨front, ⟨p, inputs⟩, rfl⟩ := (List.eq_nil_or_concat' claims).resolve_left hne
  refine ⟨front, p, inputs, rfl, ?_⟩
  rw [h.links_eq]
  simp

theorem IsHonest.finish (h : c.IsHonest t mode key claims) (hphase : c.phase = .recursiveStep) :
    ({ c with phase := .done } : Chain G₁ G₂ σ).IsHonest t mode key claims :=
  { h with
    phase_iff := by
      refine iff_of_false (by simp) fun hnil => ?_
      rw [h.phase_iff.mpr hnil] at hphase
      cases hphase }

theorem IsHonest.getElem?_links (h : c.IsHonest t mode key claims) {i : ℕ}
    {link : Link (Proof G₁ G₂)} (hi : c.links[i]? = some link) :
    ∃ claim, claims[i]? = some claim ∧
      link = ⟨.proof claim.1, .list (claim.2.map .number)⟩ := by
  rw [h.links_eq, List.getElem?_map, Option.map_eq_some_iff] at hi
  obtain ⟨claim, hclaim, rfl⟩ := hi
  exact ⟨claim, hclaim, rfl⟩

theorem IsHonest.proofBefore_eq (h : c.IsHonest t mode key claims) {i : ℕ} {claim : Claim G₁ G₂}
    (hi : claims[i]? = some claim) : proofBefore c.links i = some (proofAt claims i) := by
  apply Chain.proofBefore_eq _ hi
  rw [h.links_eq, List.forall₂_map_left_iff, List.forall₂_same]
  exact fun _ _ => rfl

variable [LawfulCoding G₁] [LawfulCoding G₂]

theorem length_inputsAt (step : StepCircuit G₁ G₂) (i : ℕ) (p : Proof G₁ G₂) :
    (step.inputsAt i p).length = stepInputCount G₁ G₂ := by
  rw [StepCircuit.inputsAt, List.length_cons, List.length_cons, p.length_limbs, stepInputCount]
  omega

omit [LawfulCoding G₁] [LawfulCoding G₂] in
theorem inputsAt_range (ht : t.IsFaithful) {step : StepCircuit G₁ G₂}
    (hbase : step.base = t.base) (hadvance : step.advance = t.advance) (i : ℕ) (p : Proof G₁ G₂) :
    ∀ x ∈ step.inputsAt i p, 0 ≤ x ∧ x < order := by
  have hvalue : 0 ≤ t.advance^[i + 1] t.base ∧ t.advance^[i + 1] t.base < order := by
    induction i with
    | zero =>
      have hfirst := ht.advance_range (reduce_nonneg t.base) (reduce_lt t.base)
      rwa [ht.advance_base] at hfirst
    | succ i ih =>
      rw [Function.iterate_succ_apply']
      exact ht.advance_range ih.1 ih.2
  have hflag : ∀ flag : Int, flag = 0 ∨ flag = 1 → 0 ≤ flag ∧ flag < order := by
    have hone : (1 : Int) < order := by decide
    rintro _ (rfl | rfl)
    · exact ⟨le_refl 0, zero_lt_one.trans hone⟩
    · exact ⟨zero_le_one, hone⟩
  intro x hx
  rw [StepCircuit.inputsAt, hbase, hadvance] at hx
  rcases List.mem_cons.mp hx with rfl | hx
  · exact hvalue
  rcases List.mem_cons.mp hx with rfl | hx
  · exact hflag _ (by split <;> simp)
  · exact p.limbs_range x hx

theorem IsHonest.length_inputs (h : c.IsHonest t mode key claims) {claim : Claim G₁ G₂}
    (hclaim : claim ∈ claims) : claim.2.length = stepInputCount G₁ G₂ := by
  obtain ⟨i, hi⟩ := List.getElem?_of_mem hclaim
  rw [h.inputs_eq i claim hi, length_inputsAt]

theorem IsHonest.fits (h : c.IsHonest t mode key claims) (ht : t.IsFaithful)
    (hkey : Cyclic.IsKey t mode key) {claim : Claim G₁ G₂} (hclaim : claim ∈ claims) :
    key.verifyingKey.Fits claim.2 := by
  obtain ⟨i, hi⟩ := List.getElem?_of_mem hclaim
  have hstep := h.step_eq
  rw [h.inputs_eq i claim hi]
  exact hkey.fits (length_inputsAt _ _ _)
    (inputsAt_range ht (by rw [hstep]; rfl) (by rw [hstep]; rfl) _ _)

theorem IsHonest.audit_eq (h : c.IsHonest t mode key claims) (ht : t.IsFaithful)
    (hkey : Cyclic.IsKey t mode key) : c.audit = .ok true := by
  rw [audit, auditFrom_eq_true_iff, h.links_eq, h.vk_eq]
  refine ⟨claims, ?_, ?_, ?_⟩
  · rw [List.forall₂_map_left_iff, List.forall₂_same]
    intro claim hclaim
    exact ⟨_, (h.fits ht hkey hclaim).claimOf_eq claim.1 none (by simp), by
      rw [List.map_snd_zip (VerifyingKey.length_getD_names (by simp)).ge]⟩
  · rw [h.vk_eq]
    exact h.accepts
  · intro i claim hi
    have hinputs := h.inputs_eq i claim hi
    cases i with
    | zero => exact continues_none_iff.mpr ⟨_, hinputs⟩
    | succ i =>
      obtain ⟨⟨q, inputs⟩, hget⟩ := exists_getElem?_of_succ hi
      rw [before, hget]
      refine continues_some_iff.mpr ⟨_, _, h.inputs_eq i _ hget, ?_⟩
      rw [hinputs, proofAt_succ hget, inputsAt_succ]

/-- The chain ends with the inputs of its last link, under their names. -/
theorem IsHonest.run_finish (h : c.IsHonest t mode key claims) (ht : t.IsFaithful)
    (hkey : Cyclic.IsKey t mode key) (hphase : c.phase = .recursiveStep) :
    ∃ p inputs, c.links.getLast? = some ⟨.proof p, .list (inputs.map .number)⟩ ∧
      Call.finish.run.run c =
        (.ok (.inr ⟨true, ((StepCircuit.names G₁ G₂).map Unicode.ofString).zip inputs⟩),
          { c with phase := .done }) := by
  obtain ⟨front, p, inputs, rfl, hlast⟩ := h.exists_last (by simp [hphase])
  have hmem : (p, inputs) ∈ front ++ [(p, inputs)] := by simp
  have hfits := h.fits ht hkey hmem
  have hnames : ((StepCircuit.names G₁ G₂).map Unicode.ofString).length = inputs.length := by
    rw [h.length_inputs hmem, stepInputCount]
    simp only [StepCircuit.names, List.map_cons, List.length_cons, List.length_map,
      List.length_range]
    omega
  have hverify := hfits.verifyData_eq p (some ((StepCircuit.names G₁ G₂).map Unicode.ofString))
    (by simpa using hnames)
  have haccepts : key.verifyingKey.accepts p inputs = true := h.accepts _ hmem
  rw [haccepts, ← h.vk_eq] at hverify
  exact ⟨p, inputs, hlast, Chain.run_finish hphase hlast hverify⟩

variable [PrimeOrder G₁] [PrimeOrder G₂] [Bilinear G₁ G₂ Gₜ]

/-- A step that goes on from the last claim is proved and appended. -/
theorem IsHonest.exists_append (h : c.IsHonest t mode key claims) (ht : t.IsFaithful)
    (hkey : Cyclic.IsKey t mode key) (hgates : key.counts.gates ≤ 2 ^ 31) {z flag carried : Int}
    {p : Proof G₁ G₂} {inputs : List Int}
    (hhonest : Cyclic.IsHonest t (some key.verifyingKey) mode z flag p inputs carried)
    (hinputs : z :: flag :: p.limbs =
      c.step.inputsAt claims.length (proofAt claims claims.length)) :
    ∃ q c', (prove (some (Cyclic.witness z flag p inputs carried))).run c = (.ok q, c') ∧
      c'.phase = c.phase ∧
      ({ c' with phase := .recursiveStep } : Chain G₁ G₂ σ).IsHonest t mode key
        (claims ++ [(q, z :: flag :: p.limbs)]) := by
  obtain ⟨q, source, hrun, haccepts, hdraws⟩ :=
    hkey.exists_proof ht hgates hhonest (h.fair 2)
  have hprove : (c.pk.prove c.step.circuit
      (some (Cyclic.witness z flag p inputs carried))).run c.source = (.ok q, source) := by
    rw [h.pk_eq, h.step_eq, hrun]
  exact ⟨q, _, run_prove hprove rfl, rfl,
    h.append (h.fair.after_draws hdraws) haccepts hinputs⟩

theorem IsHonest.exists_start (h : c.IsHonest t mode key claims) (ht : t.IsFaithful)
    (hkey : Cyclic.IsKey t mode key) (hgates : key.counts.gates ≤ 2 ^ 31)
    (hphase : c.phase = .baseCase) :
    ∃ q c' claim, Call.start.run.run c = (.ok (.inl q), c') ∧ c'.phase = .recursiveStep ∧
      c'.IsHonest t mode key (claims ++ [claim]) := by
  obtain rfl : claims = [] := h.phase_iff.mp hphase
  have hinputs : t.advance t.base :: 0 :: (dummyProof : Proof G₁ G₂).limbs =
      c.step.inputsAt 0 (proofAt [] 0) := by
    rw [h.step_eq]
    rfl
  obtain ⟨q, c', hrun, -, hc'⟩ :=
    h.exists_append ht hkey hgates (hkey.isHonest_base ht) hinputs
  refine ⟨q, _, _, run_start hphase ?_, rfl, hc'⟩
  rw [← hrun, h.step_eq]
  rfl

theorem IsHonest.exists_advance (h : c.IsHonest t mode key claims) (ht : t.IsFaithful)
    (hkey : Cyclic.IsKey t mode key) (hgates : key.counts.gates ≤ 2 ^ 31)
    (hphase : c.phase = .recursiveStep) :
    ∃ q c' claim, Call.step.run.run c = (.ok (.inl q), c') ∧
      c'.IsHonest t mode key (claims ++ [claim]) := by
  obtain ⟨front, p, inputs, rfl, hlink⟩ := h.exists_last (by simp [hphase])
  have hlast : (front ++ [(p, inputs)])[front.length]? = some (p, inputs) :=
    List.getElem?_concat_length ..
  have hinputs := h.inputs_eq front.length (p, inputs) hlast
  have hproof : proofAt (front ++ [(p, inputs)]) (front ++ [(p, inputs)]).length = p := by
    rw [List.length_append, List.length_singleton, proofAt_succ hlast]
  have hfits := h.fits ht hkey (List.mem_of_getElem? hlast)
  have haccepts := h.accepts _ (List.mem_of_getElem? hlast)
  obtain ⟨z, rest, rfl⟩ : ∃ z rest, inputs = z :: rest := ⟨_, _, hinputs⟩
  have hz : z = c.step.advance^[front.length + 1] c.step.base := (List.cons.inj hinputs).1
  have hhonest : Cyclic.IsHonest t (some key.verifyingKey) mode (t.advance z) 1 p (z :: rest) z :=
    Cyclic.isHonest_next (h.length_inputs (List.mem_of_getElem? hlast)) hfits haccepts
  have hnext : t.advance z :: 1 :: p.limbs = c.step.inputsAt (front ++ [(p, z :: rest)]).length
      (proofAt (front ++ [(p, z :: rest)]) (front ++ [(p, z :: rest)]).length) := by
    rw [hproof, List.length_append, List.length_singleton, inputsAt_succ, ← hz, h.step_eq]
    rfl
  obtain ⟨q, c', hrun, hc'phase, hc'⟩ := h.exists_append ht hkey hgates hhonest hnext
  have hsame : ({ c' with phase := .recursiveStep } : Chain G₁ G₂ σ) = c' := by
    rw [← hphase, ← hc'phase]
  refine ⟨q, c', _, run_advance hphase hlink ?_ hrun, hsame ▸ hc'⟩
  rw [h.step_eq]
  rfl

theorem IsHonest.exists_run (h : c.IsHonest t mode key claims) (ht : t.IsFaithful)
    (hkey : Cyclic.IsKey t mode key) (hgates : key.counts.gates ≤ 2 ^ 31) {call : Call}
    (hphase : call.phase = c.phase) :
    ∃ answer c' claims', call.run.run c = (.ok answer, c') ∧ c'.IsHonest t mode key claims' ∧
      claims'.length = claims.length + answerCount (.ok answer) := by
  cases call with
  | start =>
    obtain ⟨q, c', claim, hrun, -, hc'⟩ := h.exists_start ht hkey hgates hphase.symm
    exact ⟨_, c', _, hrun, hc', List.length_append⟩
  | step =>
    obtain ⟨q, c', claim, hrun, hc'⟩ := h.exists_advance ht hkey hgates hphase.symm
    exact ⟨_, c', _, hrun, hc', List.length_append⟩
  | finish =>
    obtain ⟨p, inputs, -, hrun⟩ := h.run_finish ht hkey hphase.symm
    exact ⟨_, _, claims, hrun, h.finish hphase.symm, rfl⟩

theorem IsHonest.exists_call (h : c.IsHonest t mode key claims) (ht : t.IsFaithful)
    (hkey : Cyclic.IsKey t mode key) (hgates : key.counts.gates ≤ 2 ^ 31) (call : Call) :
    ∃ claims', (call.run.run c).2.IsHonest t mode key claims' ∧
      claims'.length = claims.length + answerCount (call.run.run c).1 := by
  by_cases hphase : call.phase = c.phase
  · obtain ⟨answer, c', claims', hrun, hc', hlength⟩ := h.exists_run ht hkey hgates hphase
    rw [hrun]
    exact ⟨claims', hc', hlength⟩
  · rw [run_of_wrong_phase hphase]
    exact ⟨claims, h, rfl⟩

theorem IsHonest.exists_after (h : c.IsHonest t mode key claims) (ht : t.IsFaithful)
    (hkey : Cyclic.IsKey t mode key) (hgates : key.counts.gates ≤ 2 ^ 31) (calls : List Call) :
    ∃ claims', (c.after calls).IsHonest t mode key claims' ∧
      claims'.length = claims.length + c.proofCount calls := by
  induction calls generalizing c claims with
  | nil => exact ⟨claims, h, rfl⟩
  | cons call rest ih =>
    obtain ⟨claims', hc', hlength⟩ := h.exists_call ht hkey hgates call
    obtain ⟨claims'', hc'', hlength'⟩ := ih hc'
    refine ⟨claims'', hc'', ?_⟩
    rw [hlength', hlength, proofCount, Nat.add_assoc]

/-- An honest chain of any length. Whatever is called on a new chain, in any order: a call in a
wrong phase is refused and changes nothing, and any other call succeeds. There are as many links as
calls that gave a proof. Each holds a proof that passes, with the value so many steps after the base
and the limbs of the proof before it. The audit passes, the end of the chain is a pass for its last
link, and nothing comes after it. -/
theorem honest_calls {τ : Type} [RandomSource τ] (ht : t.IsFaithful) {setup : τ}
    (hsecrets : ∀ x ∈ RandomSource.draws 5 setup, IsDraw x) {step : StepCircuit G₁ G₂}
    (hkey : ((fixedPoint (Cyclic.stepCircuit t) mode : Random τ (StepCircuit G₁ G₂ × Key G₁ G₂)).run
      setup).1 = .ok (step, key))
    (hgates : key.counts.gates ≤ 2 ^ 31) {source : σ} (hsource : RandomSource.IsFair source)
    (calls : List Call) (hc : c = (Chain.new step key source).after calls) :
    (∀ call : Call, call.phase ≠ c.phase →
      call.run.run c = (.error (.wrongPhase c.phase call.phase), c)) ∧
    (∀ call : Call, call.phase = c.phase → ∃ answer, (call.run.run c).1 = .ok answer) ∧
    (c.phase = .baseCase ↔ c.links = []) ∧
    c.links.length = (Chain.new step key source).proofCount calls ∧
    (∀ i link, c.links[i]? = some link →
      ∃ p, proofBefore c.links i = some p ∧
        link.inputs = .list ((step.inputsAt i p).map .number) ∧
        ∃ values, c.vk.verifyData link.proof link.inputs none = .ok ⟨true, values⟩) ∧
    c.audit = .ok true ∧
    (c.phase = .recursiveStep → ∃ p inputs,
      c.links.getLast? = some ⟨.proof p, .list (inputs.map .number)⟩ ∧
      Call.finish.run.run c =
        (.ok (.inr ⟨true, ((StepCircuit.names G₁ G₂).map Unicode.ofString).zip inputs⟩),
          { c with phase := .done })) ∧
    (c.phase = .done → ∀ calls', c.after calls' = c) := by
  obtain ⟨hstep, hkey⟩ := Cyclic.isKey_of_fixedPoint hsecrets hkey
  obtain ⟨claims, h, hlength⟩ :=
    (isHonest_new step hstep hsource).exists_after ht hkey hgates calls
  rw [← hc] at h
  refine ⟨fun call => run_of_wrong_phase, ?_, ?_, ?_, ?_, h.audit_eq ht hkey,
    h.run_finish ht hkey, after_eq_self⟩
  · intro call hphase
    obtain ⟨answer, c', claims', hrun, -⟩ := h.exists_run ht hkey hgates hphase
    exact ⟨answer, congrArg Prod.fst hrun⟩
  · rw [h.phase_iff, h.links_eq, List.map_eq_nil_iff]
  · rw [h.links_eq, List.length_map, hlength, List.length_nil, Nat.zero_add]
  · intro i link hi
    obtain ⟨claim, hclaim, rfl⟩ := h.getElem?_links hi
    have hmem := List.mem_of_getElem? hclaim
    have hverify := (h.fits ht hkey hmem).verifyData_eq claim.1 none (by simp)
    rw [h.accepts claim hmem, ← h.vk_eq] at hverify
    refine ⟨_, h.proofBefore_eq hclaim, ?_, _, hverify⟩
    rw [h.inputs_eq i claim hclaim, h.step_eq, hstep]

/-- Five calls, two of which come too early or too late. -/
theorem honest_calls_counter :
    ∃ (step : StepCircuit Exponent Exponent) (key : Key Exponent Exponent),
      ((fixedPoint (Cyclic.stepCircuit .counter) .checked : Random Script (StepCircuit Exponent
        Exponent × Key Exponent Exponent)).run ⟨[2, 3, 5, 7, 1]⟩).1 = .ok (step, key) ∧
      ∃ c : Chain Exponent Exponent Script,
        c = (Chain.new step key ⟨[11, 13]⟩).after [.step, .start, .step, .start, .step] ∧
        c.links.length =
          (Chain.new step key (⟨[11, 13]⟩ : Script)).proofCount
            [.step, .start, .step, .start, .step] ∧
        c.audit = .ok true := by
  obtain ⟨key, hkey, hgates⟩ := Cyclic.exists_key_counter
  have hsource : RandomSource.IsFair (⟨[11, 13]⟩ : Script) := by
    apply RandomSource.isFair_script
    decide
  have hcalls := honest_calls Transition.counter_isFaithful (by decide) hkey hgates hsource
    [.step, .start, .step, .start, .step] rfl
  exact ⟨_, key, hkey, _, rfl, hcalls.2.2.2.1, hcalls.2.2.2.2.2.1⟩

end Honest

end Chain

end RankOne
