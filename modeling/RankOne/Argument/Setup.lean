import RankOne.Argument.Key
import RankOne.Randomness
import RankOne.Transform

/-!
# Key generation

A key evaluates, at a secret point, the polynomials that interpolate the columns of a shape's
gates. The values of the interpolation basis at that point come from one inverse transform of the
powers of the point, so no polynomial is ever written down.
-/

set_option autoImplicit false

namespace RankOne

structure Trapdoor where
  alpha : Int
  beta : Int
  gamma : Int
  delta : Int
  tau : Int
deriving DecidableEq, Repr

namespace Trapdoor

def isUsable (t : Trapdoor) : Bool :=
  [t.alpha, t.beta, t.gamma, t.delta].all isScalar

def draw {σ : Type} [RandomSource σ] : Random σ Trapdoor := do
  let alpha ← Random.draw
  let beta ← Random.draw
  let gamma ← Random.draw
  let delta ← Random.draw
  let tau ← Random.draw
  return ⟨alpha, beta, gamma, delta, tau⟩

end Trapdoor

namespace Shape

def columnsExist (s : Shape) : Bool :=
  s.gates.all fun g =>
    [g.left, g.right, g.output].all fun x =>
      x.terms.all fun term => (placeAmong s.wireCount term.1).isSome

def coefficientAt (wireCount m : Nat) : List (Int × Int) → Int
  | [] => 0
  | (wire, a) :: rest =>
      (if placeAmong wireCount wire = some m then a else 0) + coefficientAt wireCount m rest

def columnOf (wireCount m : Nat) (side : Gate → Linear) : List Int → List Gate → Int
  | weight :: weights, g :: gates =>
      weight * coefficientAt wireCount m (side g).terms + columnOf wireCount m side weights gates
  | _, _ => 0

def column (s : Shape) (side : Gate → Linear) (weights : List Int) (m : Nat) : Int :=
  columnOf s.wireCount m side weights s.gates

def columnValue (s : Shape) (t : Trapdoor) (weights : List Int) (m : Nat) : Int :=
  t.beta * s.column Gate.left weights m + t.alpha * s.column Gate.right weights m +
    s.column Gate.output weights m

def isPublic (s : Shape) (m : Nat) : Bool :=
  s.entries.any fun entry => entry.1 == m

def privateWires (s : Shape) : List Nat :=
  (List.range s.wireCount).filter fun m => !s.isPublic m

end Shape

namespace Key

open Transform (powers interpolate rootOfUnity invert)
open CodedGroup (multiple)

variable {G₁ G₂ : Type} [CodedGroup G₁] [CodedGroup G₂]

def basisAt (size : Nat) (tau : Int) : Except Fault (List Int) := do
  let p ← rootOfUnity size order
  interpolate (powers tau size order) p order

def derive (s : Shape) (t : Trapdoor) : Except Fault (Key G₁ G₂) := do
  let size := domainSize s.gates.length
  let weights ← basisAt size t.tau
  if !s.columnsExist then throw .outOfRange
  let vanishing := Residue.power t.tau size order - 1
  let gammaInverse ← invert t.gamma order
  let deltaInverse ← invert t.delta order
  if !t.isUsable then throw .notScalar
  let value := s.columnValue t weights
  return {
    counts := s.counts
    digest := s.digest
    alpha₁ := multiple t.alpha
    beta₁ := multiple t.beta
    delta₁ := multiple t.delta
    beta₂ := multiple t.beta
    gamma₂ := multiple t.gamma
    delta₂ := multiple t.delta
    publicColumns := s.entries.map fun entry => multiple (reduce (value entry.1 * gammaInverse))
    privateColumns := s.privateWires.map fun m => multiple (reduce (value m * deltaInverse))
    powers₁ := (powers t.tau size order).map multiple
    powers₂ := (powers t.tau size order).map multiple
    quotients := (powers t.tau size order).map fun x =>
      multiple (reduce (x * deltaInverse * vanishing)) }

end Key

end RankOne
