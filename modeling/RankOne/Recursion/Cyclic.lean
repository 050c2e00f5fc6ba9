import RankOne.Argument.Prover
import RankOne.Recursion.Attestation

/-!
# A circuit that takes proofs of itself

Each step proves that a public value is one transition away from the value carried in: the public
value of the step before, or a fixed one in the base case. The step before enters by the limbs of
its proof, which are public, and by its inputs, which are not. Nothing in the circuit ties the two
together; that is for whoever audits a chain. The key of such a circuit comes from its shape and
is needed to build it, so the shape must not depend on the key.
-/

set_option autoImplicit false

namespace RankOne

structure Transition where
  base : Int
  constrain : Linear → Build Linear
  advance : Int → Int

namespace Transition

def counter : Transition where
  base := 0
  constrain z := Build.add z (.constant 1)
  advance z := reduce (z + 1)

def square : Transition where
  base := 2
  constrain z := do
    let s ← Build.mul z z
    Build.add s (.constant 1)
  advance z := reduce (z * z + 1)

end Transition

structure StepCircuit (G₁ G₂ : Type) where
  circuit : Circuit (Proof G₁ G₂)
  base : Int
  advance : Int → Int

abbrev StepFamily (G₁ G₂ : Type) := Option (VerifyingKey G₁ G₂) → Mode → StepCircuit G₁ G₂

variable {G₁ G₂ Gₜ : Type} [CodedGroup G₁] [CodedGroup G₂]

def stepInputCount (G₁ G₂ : Type) [CodedGroup G₁] [CodedGroup G₂] : Nat :=
  2 + limbCount G₁ G₂

def dummyProof : Proof G₁ G₂ :=
  ⟨CodedGroup.generator, CodedGroup.generator, CodedGroup.generator⟩

namespace Cyclic

variable [Mul Gₜ] [DecidableEq Gₜ] [Pairing G₁ G₂ Gₜ]

def constrainPrevious (vk : Option (VerifyingKey G₁ G₂)) (flag : Linear)
    (proof inputs : Datum (Proof G₁ G₂)) : Build Unit := do
  let valid ← Build.wire (fun _ => VerifyingKey.check vk proof inputs) none
  Build.assertBit valid "valid is boolean"
  let invalid ← Build.not valid
  Build.gate flag invalid (.constant 0) "previous proof verifies"

def body (t : Transition) (vk : Option (VerifyingKey G₁ G₂)) (mode : Mode)
    (w : Option (Witness (Proof G₁ G₂))) : Build Unit := do
  let proof := Witness.get w "proof"
  let inputs := Witness.get w "inputs"
  let z ← Build.parameter true "z" w
  let flag ← Build.parameter true "flag" w
  let _ ← Build.allocProof true "proof" proof
  let inner ← Build.allocInputs false "inner" (stepInputCount G₁ G₂) inputs
  let innerValue := inner.headD (.constant 0)
  let carried ← Build.parameter false "z_in" w
  Build.assertBit flag "flag is boolean"
  let selected ← Build.selectScalar flag innerValue (.constant t.base)
  Build.connect carried selected "carried value"
  match mode with
  | .checked => constrainPrevious vk flag proof inputs
  | .placeholder => pure ()
  let next ← t.constrain carried
  Build.connect z next "transition"

def stepCircuit (t : Transition) : StepFamily G₁ G₂ := fun vk mode =>
  ⟨⟨"cyclic", body t vk mode⟩, t.base, t.advance⟩

def wideningCircuit (t : Transition) : StepFamily G₁ G₂ := fun vk mode =>
  ⟨⟨"cyclic", fun w => do
      body t vk mode w
      if vk.isSome then
        let _ ← Build.allocPrivate "extra" (some 0)⟩, t.base, t.advance⟩

end Cyclic

namespace StepCircuit

def assign (s : StepCircuit G₁ G₂) (carried : Int) (previous : Option (Proof G₁ G₂))
    (inputs : Option (List Int)) : Witness (Proof G₁ G₂) :=
  [("z", .number (s.advance carried)),
    ("flag", .number (if previous.isSome then 1 else 0)),
    ("proof", .proof (previous.getD dummyProof)),
    ("inputs", .list ((inputs.getD (List.replicate (stepInputCount G₁ G₂) 0)).map .number)),
    ("z_in", .number carried)]

def assignData (s : StepCircuit G₁ G₂) (carried previous inputs : Datum (Proof G₁ G₂)) :
    Except Fault (Witness (Proof G₁ G₂)) :=
  match carried.number? with
  | none => .error .wrongKind
  | some z =>
      let flag : Int := match previous with
        | .absent => 0
        | _ => 1
      let proof := match previous with
        | .absent => .proof dummyProof
        | p => p
      let entries := match inputs with
        | .absent => some (List.replicate (stepInputCount G₁ G₂) (.number 0))
        | d => d.items?
      match entries with
      | none => .error .wrongKind
      | some items =>
          .ok [("z", .number (s.advance z)), ("flag", .number flag), ("proof", proof),
            ("inputs", .list items), ("z_in", carried)]

def require (w : Witness (Proof G₁ G₂)) (name : String) :
    Except Fault (Datum (Proof G₁ G₂)) :=
  match Entries.get? name w with
  | some d => .ok d
  | none => .error (.absent name)

def publicData (w : Witness (Proof G₁ G₂)) : Except Fault (List (Datum (Proof G₁ G₂))) := do
  let z ← require w "z"
  let flag ← require w "flag"
  let proof ← require w "proof"
  match proof with
  | .proof p => return z :: flag :: p.limbs.map .number
  | _ => throw .unsupported

def names (G₁ G₂ : Type) [CodedGroup G₁] [CodedGroup G₂] : List String :=
  "z" :: "flag" :: (List.range (limbCount G₁ G₂)).map (Build.entryName "proof")

end StepCircuit

variable {σ : Type} [RandomSource σ]

/-- The key of a cyclic circuit and the circuit built for it. The shape is computed without a key
and has to come out the same with the one that is derived from it. -/
def fixedPoint (family : StepFamily G₁ G₂) (mode : Mode) :
    Random σ (StepCircuit G₁ G₂ × Key G₁ G₂) := do
  let draft ← Random.ofExcept ((family none mode).circuit.synthesize none)
  let key ← Circuit.deriveKey draft.shape
  let step := family (some key.verifyingKey) mode
  let final ← Random.ofExcept (step.circuit.synthesize none)
  if !final.shape.same draft.shape ∨
      key.verifyingKey.inputCount ≠ (stepInputCount G₁ G₂ : Int) then
    throw (.mismatch .movingShape)
  return (step, key)

end RankOne
