import RankOne.Recursion.Limbs

/-!
# Proofs about proofs

The circuit with the relation "this proof verifies". The inner proof and its inputs are public, so
an outer proof commits to what it talks about. As a placeholder the circuit asserts nothing of the
inner proof. Checked, the prover runs the verifier while it computes the witness, so that an
honest one cannot claim what is false; the pairing equation is no constraint of the circuit, and
whoever accepts the outer proof has to check the inner one that it commits to as well.
-/

set_option autoImplicit false

namespace RankOne

inductive Mode
  | placeholder
  | checked
deriving DecidableEq, Repr

namespace Mode

def text : Mode → String
  | placeholder => "placeholder"
  | checked => "checked"

def ofText? (s : String) : Option Mode :=
  [placeholder, checked].find? fun m => m.text = s

end Mode

variable {G₁ G₂ Gₜ : Type} [CodedGroup G₁] [CodedGroup G₂]
  [Mul Gₜ] [DecidableEq Gₜ] [Pairing G₁ G₂ Gₜ]

namespace VerifyingKey

def check (vk : Option (VerifyingKey G₁ G₂)) (proof inputs : Datum (Proof G₁ G₂)) :
    Except Fault Int :=
  match vk with
  | none => .error (.mismatch .noInnerKey)
  | some vk =>
      match proof, inputs with
      | .absent, _ => .ok 0
      | _, .absent => .ok 0
      | proof, inputs =>
          match vk.verifyData proof inputs none with
          | .ok verdict => .ok (if verdict.passed then 1 else 0)
          | .error (.malformed _) => .ok 0
          | .error e => .error e

end VerifyingKey

namespace Attestation

def subject (w : Option (Witness (Proof G₁ G₂))) :
    Datum (Proof G₁ G₂) × Datum (Proof G₁ G₂) :=
  match Witness.get w "proof", Witness.get w "inputs" with
  | .absent, _ => (.absent, .absent)
  | _, .absent => (.absent, .absent)
  | proof, inputs => (proof, inputs)

def body (vk : VerifyingKey G₁ G₂) (mode : Mode) (w : Option (Witness (Proof G₁ G₂))) :
    Build Unit := do
  let (proof, inputs) := subject w
  let _ ← Build.allocProof true "proof" proof
  let _ ← Build.allocInputs true "input" vk.inputCount inputs
  let claim ← Build.parameter true "claim" w
  match mode with
  | .placeholder => Build.gate claim (.constant 1) (.constant 1) "claim equals 1"
  | .checked =>
      let valid ← Build.wire (fun _ => VerifyingKey.check (some vk) proof inputs) none
      Build.assertBit valid "valid is boolean"
      Build.connect valid claim "inner proof verifies"

def circuit (vk : VerifyingKey G₁ G₂) (mode : Mode) : Circuit (Proof G₁ G₂) where
  name := "verifier"
  body := body vk mode

def unkeyed : Circuit (Proof G₁ G₂) where
  name := "verifier"
  body w := do
    let _ ← Build.allocProof true "proof" (subject w).1
    throw .unsupported

def assign (proof inputs claim : Datum (Proof G₁ G₂)) :
    Except Fault (Witness (Proof G₁ G₂)) :=
  match inputs.items? with
  | some items => .ok [("proof", proof), ("inputs", .list items), ("claim", claim)]
  | none => .error .wrongKind

def publicData (proof inputs claim : Datum (Proof G₁ G₂)) :
    Except Fault (List (Datum (Proof G₁ G₂))) :=
  match proof with
  | .proof p =>
      match inputs.items? with
      | some items => .ok (p.limbs.map .number ++ items ++ [claim])
      | none => .error .wrongKind
  | _ => .error .unsupported

def names (vk : VerifyingKey G₁ G₂) : List String :=
  (List.range (limbCount G₁ G₂)).map (Build.entryName "proof") ++
    (List.range vk.inputCount.toNat).map (Build.entryName "input") ++ ["claim"]

def split (outer : List Int) (count : Int) :
    Except Fault (Proof G₁ G₂ × List Int × Int) :=
  let limbs := limbCount G₁ G₂
  if (outer.length : Int) ≠ limbs + count + 1 then
    .error (.malformed (.outerCount (limbs + count + 1) outer.length))
  else
    match Proof.ofLimbs (outer.take limbs) with
    | .error e => .error e
    | .ok proof =>
        match outer.getLast? with
        | some claim => .ok (proof, (outer.drop limbs).take count.toNat, claim)
        | none => .error .outOfRange

def splitData (outer : Datum (Proof G₁ G₂)) (count : Int) :
    Except Fault (Proof G₁ G₂ × Datum (Proof G₁ G₂) × Datum (Proof G₁ G₂)) :=
  let limbs := limbCount G₁ G₂
  match outer.items? with
  | none => .error .wrongKind
  | some items =>
      if (items.length : Int) ≠ limbs + count + 1 then
        .error (.malformed (.outerCount (limbs + count + 1) items.length))
      else
        match Proof.ofLimbData (items.take limbs) with
        | .error e => .error e
        | .ok proof =>
            match items.getLast? with
            | some claim => .ok (proof, outer.slice limbs count.toNat, claim)
            | none => .error .outOfRange

def verifyDeferred (outerKey innerKey : VerifyingKey G₁ G₂)
    (outer inputs : Datum (Proof G₁ G₂)) : Except Fault Verdict := do
  let verdict ← outerKey.verifyData outer inputs none
  let commitment : Proof G₁ G₂ × List Int × Int ←
    split (verdict.values.map Prod.snd) innerKey.inputCount
  let (proof, values, claim) := commitment
  let inner ← innerKey.verify proof values none
  return ⟨verdict.passed && inner.passed && claim == 1, verdict.values⟩

end Attestation

end RankOne
