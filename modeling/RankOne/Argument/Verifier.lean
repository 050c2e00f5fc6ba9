import RankOne.Argument.Key
import RankOne.Circuit

/-!
# Verification

What a proof is checked against, in two parts: whether key, inputs and names fit together, which
fails with a reason, and the pairing equation, which a well-formed proof may fail to satisfy.
-/

set_option autoImplicit false

namespace RankOne

structure Verdict where
  passed : Bool
  values : List (Unicode.Codes × Int)
deriving DecidableEq, Repr

namespace VerifyingKey

open Unicode (Codes)

variable {G₁ G₂ Gₜ : Type}

def defaultNames (count : Nat) : List Codes :=
  (List.range count).map fun i => Unicode.ofString ("x" ++ toString i)

def isFieldElement (u : Int) : Bool :=
  0 ≤ u && u < order

def label (vk : VerifyingKey G₁ G₂) (inputs : List Int) (names : Option (List Codes)) :
    Except Fault (List (Codes × Int)) :=
  if (inputs.length : Int) ≠ vk.inputCount ∨ vk.publicColumns.length ≠ vk.entryCount then
    .error (.malformed (.inputCount vk.inputCount inputs.length))
  else if !inputs.all isFieldElement then .error (.malformed .inputRange)
  else
    let names := names.getD (defaultNames inputs.length)
    if names.length ≠ inputs.length then
      .error (.malformed (.nameCount inputs.length names.length))
    else .ok (names.zip inputs)

variable [CodedGroup G₁] [CodedGroup G₂]

open Pairing (pair)

def inputSum (vk : VerifyingKey G₁ G₂) (inputs : List Int) : G₁ :=
  match vk.publicColumns with
  | [] => CodedGroup.zero
  | u :: us => CodedGroup.dot u us inputs

def accepts [Mul Gₜ] [DecidableEq Gₜ] [Pairing G₁ G₂ Gₜ] (vk : VerifyingKey G₁ G₂)
    (proof : Proof G₁ G₂) (inputs : List Int) : Bool :=
  decide (pair proof.a proof.b =
    pair vk.alpha₁ vk.beta₂ * pair (vk.inputSum inputs) vk.gamma₂ * pair proof.c vk.delta₂)

def verify [Mul Gₜ] [DecidableEq Gₜ] [Pairing G₁ G₂ Gₜ] (vk : VerifyingKey G₁ G₂)
    (proof : Proof G₁ G₂) (inputs : List Int) (names : Option (List Codes)) :
    Except Fault Verdict :=
  match vk.label inputs names with
  | .error e => .error e
  | .ok values => .ok ⟨vk.accepts proof inputs, values⟩

def numbers? {P : Type} : List (Datum P) → Option (List Int)
  | [] => some []
  | d :: ds =>
      match d.number?, numbers? ds with
      | some v, some vs => some (v :: vs)
      | _, _ => none

def labelData {P : Type} (vk : VerifyingKey G₁ G₂) (inputs : List (Datum P))
    (names : Option (List Codes)) : Except Fault (List (Codes × Int)) :=
  match numbers? inputs with
  | some values => vk.label values names
  | none =>
      if (inputs.length : Int) ≠ vk.inputCount ∨ vk.publicColumns.length ≠ vk.entryCount then
        .error (.malformed (.inputCount vk.inputCount inputs.length))
      else .error (.malformed .inputRange)

/-- The proof and the inputs that data are. What is no proof, or no list of field elements, is
refused like a proof that does not fit. A truth value passes for a number here, but nothing can be
multiplied by it. -/
def claimOf (vk : VerifyingKey G₁ G₂) (proof inputs : Datum (Proof G₁ G₂))
    (names : Option (List Codes)) : Except Fault (Proof G₁ G₂ × List (Codes × Int)) :=
  match proof with
  | .proof p =>
      match inputs.items? with
      | none => .error .wrongKind
      | some items =>
          match vk.labelData items names with
          | .error e => .error e
          | .ok values => if items.any Datum.isFlag then .error .notScalar else .ok (p, values)
  | d => .error (.malformed (.notProof d.kind))

def faultWithoutKey {P : Type} (proof inputs : Datum P) : Fault :=
  match proof with
  | .proof _ => if inputs.items?.isSome then .unsupported else .wrongKind
  | d => .malformed (.notProof d.kind)

def verifyData [Mul Gₜ] [DecidableEq Gₜ] [Pairing G₁ G₂ Gₜ] (vk : VerifyingKey G₁ G₂)
    (proof inputs : Datum (Proof G₁ G₂)) (names : Option (List Codes)) : Except Fault Verdict :=
  match vk.claimOf proof inputs names with
  | .error e => .error e
  | .ok (p, values) => .ok ⟨vk.accepts p (values.map Prod.snd), values⟩

end VerifyingKey

end RankOne
