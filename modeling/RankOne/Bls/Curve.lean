import RankOne.Bls.Field
import RankOne.Scalar

/-!
# Points of the curve

Points of `y ^ 2 = x ^ 3 + b` over the prime field and over its quadratic extension. A point is
kept by its coordinates, so that equal points are equal values. Longer sums run in coordinates
`X / Z ^ 2` and `Y / Z ^ 3`, where no step divides.
-/

set_option autoImplicit false

namespace RankOne.Bls

inductive Point (F : Type)
  | infinity
  | affine (x y : F)
deriving DecidableEq, Repr

structure Jacobian (F : Type) where
  x : F
  y : F
  z : F

namespace Jacobian

variable {F : Type} [CoordinateField F] [DecidableEq F]

open CoordinateField

def infinity : Jacobian F := ⟨one, one, zero⟩

def double (p : Jacobian F) : Jacobian F :=
  let a := p.x * p.x
  let b := p.y * p.y
  let c := b * b
  let s := (p.x + b) * (p.x + b) - a - c
  let d := s + s
  let e := a + a + a
  let x := e * e - d - d
  let c₂ := c + c
  let c₄ := c₂ + c₂
  let m := p.y * p.z
  ⟨x, e * (d - x) - c₄ - c₄, m + m⟩

def addAffine (p : Jacobian F) (x y : F) : Jacobian F :=
  if p.z = zero then ⟨x, y, one⟩
  else
    let zz := p.z * p.z
    let h := x * zz - p.x
    let r := y * (p.z * zz) - p.y
    if h = zero then
      if r = zero then double p else infinity
    else
      let hh := h * h
      let hhh := h * hh
      let v := p.x * hh
      let x₃ := r * r - hhh - v - v
      ⟨x₃, r * (v - x₃) - p.y * hhh, p.z * h⟩

def toPoint (p : Jacobian F) : Point F :=
  if p.z = zero then .infinity
  else
    let i := inv p.z
    let ii := i * i
    .affine (p.x * ii) (p.y * (i * ii))

def multiple (n : Nat) (x y : F) : Jacobian F :=
  if n = 0 then infinity
  else
    let h := double (multiple (n / 2) x y)
    if n % 2 = 0 then h else addAffine h x y
termination_by n

end Jacobian

namespace Point

variable {F : Type} [CoordinateField F] [DecidableEq F]

open CoordinateField

def neg : Point F → Point F
  | .infinity => .infinity
  | .affine x y => .affine x (-y)

def add : Point F → Point F → Point F
  | .infinity, q => q
  | p, .infinity => p
  | .affine x y, .affine x' y' => (Jacobian.addAffine ⟨x, y, one⟩ x' y').toPoint

def smulNat (n : Nat) : Point F → Point F
  | .infinity => .infinity
  | .affine x y => (Jacobian.multiple n x y).toPoint

def smul (k : Int) (p : Point F) : Point F :=
  smulNat (reduce k).toNat p

def hasOrder : Point F → Bool
  | .infinity => true
  | .affine x y => (Jacobian.multiple order.toNat x y).z = zero

def onCurve (b x y : F) : Bool :=
  y * y = x * x * x + b

def ofX? (b x : F) (odd : Bool) : Option (Point F) :=
  match sqrt? (x * x * x + b) with
  | none => none
  | some y => some (.affine x (if isOdd y = odd then y else -y))

def checked? (p : Point F) : Option (Point F) :=
  if p.hasOrder then some p else none

end Point

end RankOne.Bls
