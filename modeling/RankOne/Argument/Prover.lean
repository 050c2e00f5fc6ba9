import RankOne.Argument.Setup
import RankOne.Argument.Verifier

/-!
# Proving

A proof is made in two parts. The first one builds the system with the witness and compares it
with the key; it draws nothing. The second one draws two blinding factors and combines the
elements of the key. The quotient of the gates' polynomials is computed on a coset, on which the
polynomial that vanishes on the domain has the constant value minus two.
-/

set_option autoImplicit false

namespace RankOne

namespace R1CS

open Transform

def sideValues (s : R1CS) (side : Gate → Linear) : List Gate → Except Fault (List Int)
  | [] => .ok []
  | g :: gs => do
      let v ← s.read (side g)
      let vs ← s.sideValues side gs
      return v :: vs

def sidePolynomial (s : R1CS) (side : Gate → Linear) (size : Nat) (p : Int) :
    Except Fault (List Int) := do
  let values ← s.sideValues side s.gates
  interpolate (values ++ List.replicate (size - values.length) 0) p order

def privateValues (s : R1CS) : Except Fault (List Int) :=
  s.shape.privateWires.mapM fun m =>
    match s.values[m]? with
    | some (some v) => .ok v
    | some none => .error .wrongKind
    | none => .error .outOfRange

end R1CS

structure Quotient where
  left : List Int
  right : List Int
  quotient : List Int
deriving DecidableEq, Repr

namespace Quotient

open Transform

def quotientValues : List Int → List Int → List Int → List Int
  | a :: as, b :: bs, c :: cs => reduce ((order - 1) / 2 * (a * b - c)) :: quotientValues as bs cs
  | _, _, _ => []

def ofSystem (s : R1CS) : Except Fault Quotient := do
  let size := domainSize s.gates.length
  let p ← rootOfUnity size order
  let q ← rootOfUnity (2 * size) order
  let left ← s.sidePolynomial Gate.left size p
  let right ← s.sidePolynomial Gate.right size p
  let output ← s.sidePolynomial Gate.output size p
  let a ← evaluateOnCoset left q p order
  let b ← evaluateOnCoset right q p order
  let c ← evaluateOnCoset output q p order
  let quotient ← interpolateOnCoset (quotientValues a b c) q p order
  return ⟨left, right, quotient⟩

end Quotient

namespace ProvingKey

variable {G₁ G₂ : Type} [CodedGroup G₁] [CodedGroup G₂]

def combine {G : Type} [CodedGroup G] (start : G) (points : List G) (scalars : List Int) :
    Except Fault G :=
  if points.length = scalars.length then .ok (CodedGroup.dot start points scalars)
  else .error (.unusable .unequalLengths)

def assemble (pk : ProvingKey G₁ G₂) (s : R1CS) (r t : Int) : Except Fault (Proof G₁ G₂) := do
  let h ← Quotient.ofSystem s
  let values ← s.privateValues
  if !(isScalar r && isScalar t) then throw .notScalar
  let a ← combine (CodedGroup.add pk.alpha₁ (CodedGroup.smul r pk.delta₁)) pk.powers₁ h.left
  let b₁ ← combine (CodedGroup.add pk.beta₁ (CodedGroup.smul t pk.delta₁)) pk.powers₁ h.right
  let b₂ ← combine (CodedGroup.add pk.beta₂ (CodedGroup.smul t pk.delta₂)) pk.powers₂ h.right
  let blinded := CodedGroup.sub
    (CodedGroup.add (CodedGroup.smul t a) (CodedGroup.smul r b₁))
    (CodedGroup.smul (reduce (r * t)) pk.delta₁)
  let c ← combine blinded pk.quotients h.quotient
  let c ← combine c pk.privateColumns values
  return ⟨a, b₂, c⟩

def fits (pk : ProvingKey G₁ G₂) (s : Shape) : Bool :=
  s.counts = pk.counts && s.digest = pk.digest

def prepare {P : Type} (pk : ProvingKey G₁ G₂) (c : Circuit P) (w : Option (Witness P)) :
    Except Fault R1CS :=
  match c.synthesize w with
  | .error e => .error e
  | .ok s =>
      if !pk.fits s.shape then .error (.mismatch (.provingKey c.name))
      else
        match s.check with
        | .error e => .error e
        | .ok (some message) => .error (.unsatisfied message)
        | .ok none => .ok s

variable {σ : Type} [RandomSource σ]

def blind (pk : ProvingKey G₁ G₂) (s : R1CS) : Random σ (Proof G₁ G₂) := do
  let r ← Random.draw
  let t ← Random.draw
  Random.ofExcept (pk.assemble s r t)

def prove {P : Type} (pk : ProvingKey G₁ G₂) (c : Circuit P) (w : Option (Witness P)) :
    Random σ (Proof G₁ G₂) := do
  let s ← Random.ofExcept (pk.prepare c w)
  pk.blind s

end ProvingKey

namespace Circuit

variable {G₁ G₂ σ P : Type} [CodedGroup G₁] [CodedGroup G₂] [RandomSource σ]

def provableShape (c : Circuit P) : Except Fault Shape :=
  match c.synthesize none with
  | .error e => .error e
  | .ok s => if s.relationCount = 0 then .error (.noConstraints c.name) else .ok s.shape

def deriveKey (s : Shape) : Random σ (Key G₁ G₂) := do
  let t ← Trapdoor.draw
  Random.ofExcept (Key.derive s t)

def setup (c : Circuit P) : Random σ (Key G₁ G₂) := do
  let s ← Random.ofExcept c.provableShape
  deriveKey s

end Circuit

end RankOne
