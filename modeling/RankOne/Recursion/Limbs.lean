import RankOne.Argument.Verifier

/-!
# Proofs as field elements

A proof enters a circuit as its bytes, cut into limbs that are smaller than the order. The last
limb takes the bytes that remain.
-/

set_option autoImplicit false

namespace RankOne

def limbWidth : Nat := 31

variable (G₁ G₂ : Type) [CodedGroup G₁] [CodedGroup G₂]

def limbCount : Nat :=
  (Proof.size G₁ G₂ + limbWidth - 1) / limbWidth

def limbSizes : List Nat :=
  (List.range (limbCount G₁ G₂)).map fun i => min limbWidth (Proof.size G₁ G₂ - limbWidth * i)

def pieces (width : Nat) (data : Bytes) : List Bytes :=
  if data.length ≤ width ∨ width = 0 then
    if data.isEmpty then [] else [data]
  else data.take width :: pieces width (data.drop width)
termination_by data.length
decreasing_by simp only [List.length_drop]; omega

variable {G₁ G₂}

namespace Proof

def limbs (p : Proof G₁ G₂) : List Int :=
  (pieces limbWidth p.toBytes).map fun piece => (Bytes.toNat piece : Int)

def limbBytes? (width : Nat) (v : Int) : Option Bytes :=
  if 0 ≤ v ∧ v < Nat.pow 256 width then some (Bytes.ofNat width v.toNat) else none

def joinLimbs? : List Nat → List Int → Option Bytes
  | width :: widths, v :: vs =>
      match limbBytes? width v, joinLimbs? widths vs with
      | some bytes, some rest => some (bytes ++ rest)
      | _, _ => none
  | _, _ => some []

def ofLimbs (values : List Int) : Except Fault (Proof G₁ G₂) :=
  if values.length ≠ limbCount G₁ G₂ then
    .error (.malformed (.limbCount (limbCount G₁ G₂) values.length))
  else
    match joinLimbs? (limbSizes G₁ G₂) values with
    | some data => ofBytes data
    | none => .error (.malformed .limbRange)

def joinLimbData : List Nat → List (Datum (Proof G₁ G₂)) → Except Fault Bytes
  | width :: widths, d :: ds =>
      match d.number?.map (limbBytes? width) with
      | none => .error .unsupported
      | some none => .error (.malformed .limbRange)
      | some (some bytes) =>
          match joinLimbData widths ds with
          | .error e => .error e
          | .ok rest => .ok (bytes ++ rest)
  | _, _ => .ok []

def ofLimbData (limbs : List (Datum (Proof G₁ G₂))) : Except Fault (Proof G₁ G₂) :=
  if limbs.length ≠ limbCount G₁ G₂ then
    .error (.malformed (.limbCount (limbCount G₁ G₂) limbs.length))
  else
    match joinLimbData (limbSizes G₁ G₂) limbs with
    | .error e => .error e
    | .ok data => ofBytes data

end Proof

namespace Build

def entryName (stem : String) (i : Nat) : String :=
  stem ++ "[" ++ toString i ++ "]"

def suppliedList {P : Type} (isPublic : Bool) (stem : String) (start : Nat) :
    List (Datum P) → Build (List Linear)
  | [] => pure []
  | d :: ds => do
      let x ← supplied isPublic (entryName stem start) d
      let xs ← suppliedList isPublic stem (start + 1) ds
      return x :: xs

def limbData : Datum (Proof G₁ G₂) → Except Fault (List (Datum (Proof G₁ G₂)))
  | .absent => .ok (List.replicate (limbCount G₁ G₂) .absent)
  | .proof p => .ok (p.limbs.map .number)
  | _ => .error .unsupported

def allocProof (isPublic : Bool) (stem : String) (proof : Datum (Proof G₁ G₂)) :
    Build (List Linear) :=
  match limbData proof with
  | .ok ds => suppliedList isPublic stem 0 ds
  | .error e => ExceptT.mk fun s => (.error e, s)

def inputData {P : Type} (count : Int) : Datum P → Except Fault (List (Datum P))
  | .absent => .ok (List.replicate count.toNat .absent)
  | d =>
      match d.items? with
      | none => .error .wrongKind
      | some items =>
          if (items.length : Int) ≠ count then
            .error (.mismatch (.innerInputs count items.length))
          else .ok items

def allocInputs {P : Type} (isPublic : Bool) (stem : String) (count : Int) (inputs : Datum P) :
    Build (List Linear) :=
  match inputData count inputs with
  | .ok ds => suppliedList isPublic stem 0 ds
  | .error e => ExceptT.mk fun s => (.error e, s)

end Build

end RankOne
