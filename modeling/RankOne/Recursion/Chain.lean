import RankOne.Recursion.Cyclic

/-!
# Chains of proofs

A chain runs a cyclic circuit from its base case through any number of steps. It keeps every proof
with its inputs, because only an audit of all of them shows that each step continues from the one
before it.
-/

set_option autoImplicit false

namespace RankOne

structure Link (P : Type) where
  proof : Datum P
  inputs : Datum P
deriving Repr

structure Chain (G₁ G₂ σ : Type) where
  step : StepCircuit G₁ G₂
  pk : ProvingKey G₁ G₂
  vk : VerifyingKey G₁ G₂
  source : σ
  phase : Phase
  links : List (Link (Proof G₁ G₂))

abbrev OnChain (G₁ G₂ σ : Type) := ExceptT Fault (StateM (Chain G₁ G₂ σ))

namespace Chain

variable {G₁ G₂ Gₜ σ : Type} [CodedGroup G₁] [CodedGroup G₂] [RandomSource σ]

def new (step : StepCircuit G₁ G₂) (key : Key G₁ G₂) (source : σ) : Chain G₁ G₂ σ :=
  ⟨step, key.provingKey, key.verifyingKey, source, .baseCase, []⟩

def expect (phase : Phase) : OnChain G₁ G₂ σ Unit := do
  let c ← get
  if c.phase ≠ phase then throw (.wrongPhase c.phase phase)

def publicOf : Option (Witness (Proof G₁ G₂)) → Except Fault (List (Datum (Proof G₁ G₂)))
  | some w => StepCircuit.publicData w
  | none => .error .wrongKind

def prove (w : Option (Witness (Proof G₁ G₂))) : OnChain G₁ G₂ σ (Proof G₁ G₂) := do
  let c ← get
  match (c.pk.prove c.step.circuit w).run c.source with
  | (.error e, source) =>
      set { c with source := source }
      throw e
  | (.ok proof, source) =>
      set { c with source := source }
      match publicOf w with
      | .error e => throw e
      | .ok inputs =>
          let link : Link (Proof G₁ G₂) := ⟨.proof proof, .list inputs⟩
          set { c with source := source, links := c.links ++ [link] }
          return proof

def start : OnChain G₁ G₂ σ (Proof G₁ G₂) := do
  expect .baseCase
  let c ← get
  let proof ← prove (some (c.step.assign c.step.base none none))
  modify fun c => { c with phase := .recursiveStep }
  return proof

def head (c : Chain G₁ G₂ σ) : Except Fault (Link (Proof G₁ G₂)) :=
  match c.links.getLast? with
  | some link => .ok link
  | none => .error .outOfRange

def lastProof (c : Chain G₁ G₂ σ) :
    Except Fault (Proof G₁ G₂ × List (Datum (Proof G₁ G₂))) :=
  match c.head with
  | .error e => .error e
  | .ok link =>
      match link.proof, link.inputs.items? with
      | .proof proof, some inputs => .ok (proof, inputs)
      | _, _ => .error .unsupported

def witnessAfter (s : StepCircuit G₁ G₂) (link : Link (Proof G₁ G₂)) :
    Except Fault (Witness (Proof G₁ G₂)) :=
  match link.inputs.items? with
  | none => .error .wrongKind
  | some [] => .error .outOfRange
  | some (z :: _) => s.assignData z link.proof link.inputs

def advance : OnChain G₁ G₂ σ (Proof G₁ G₂) := do
  expect .recursiveStep
  let c ← get
  match c.head with
  | .error e => throw e
  | .ok link =>
      match witnessAfter c.step link with
      | .error e => throw e
      | .ok w => prove (some w)

variable [Mul Gₜ] [DecidableEq Gₜ] [Pairing G₁ G₂ Gₜ]

def finish : OnChain G₁ G₂ σ Verdict := do
  expect .recursiveStep
  modify fun c => { c with phase := .done }
  let c ← get
  match c.head with
  | .error e => throw e
  | .ok link =>
      let names := (StepCircuit.names G₁ G₂).map Unicode.ofString
      match c.vk.verifyData link.proof link.inputs (some names) with
      | .ok verdict => return verdict
      | .error e => throw e

def continues (s : StepCircuit G₁ G₂) (previous : Option (Proof G₁ G₂ × List Int))
    (inputs : List Int) : Except Fault Bool :=
  match inputs with
  | z :: flag :: limbs =>
      match previous with
      | none => .ok (flag == 0 && limbs == (dummyProof : Proof G₁ G₂).limbs)
      | some (proof, before) =>
          if flag ≠ 1 ∨ limbs ≠ proof.limbs then .ok false
          else
            match before with
            | [] => .error .outOfRange
            | z' :: _ => .ok (z == s.advance z')
  | _ => .error (.unusable .tooFewValues)

def auditFrom (c : Chain G₁ G₂ σ) (previous : Option (Proof G₁ G₂ × List Int)) :
    List (Link (Proof G₁ G₂)) → Except Fault Bool
  | [] => .ok true
  | link :: rest =>
      match c.vk.claimOf link.proof link.inputs none with
      | .error e => .error e
      | .ok (proof, values) =>
          let inputs := values.map Prod.snd
          if !c.vk.accepts proof inputs then .ok false
          else
            match continues c.step previous inputs with
            | .error e => .error e
            | .ok false => .ok false
            | .ok true => auditFrom c (some (proof, inputs)) rest

/-- Checks every link again: each proof verifies, and each step commits to the proof before it
and continues from its value. -/
def audit (c : Chain G₁ G₂ σ) : Except Fault Bool :=
  c.auditFrom none c.links

end Chain

end RankOne
