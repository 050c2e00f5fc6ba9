import RankOne.Residue

/-!
# The fields of the curve

The prime field of the curve, its quadratic extension by a root of `-1`, and the tower above it
that the pairing takes its values in: a cubic extension by a cube root `v` of `1 + u`, and a
quadratic one by a square root `w` of `v`.
-/

set_option autoImplicit false

namespace RankOne.Bls

def prime : Nat :=
  0x1a0111ea397fe69a4b1ba7b6434bacd764774b84f38512bf6730d2a0f6b0f6241eabfffeb153ffffb9feffffffffaaab

instance : @NeZero Nat Zero.ofOfNat0 prime := ⟨by decide⟩

abbrev Fp := Fin prime

class CoordinateField (F : Type) extends Add F, Sub F, Mul F, Neg F where
  zero : F
  one : F
  inv : F → F
  sqrt? : F → Option F
  degree : Nat
  components : F → List Fp
  ofComponents? : List Fp → Option F
  isOdd : F → Bool

namespace Fp

def inv (a : Fp) : Fp :=
  Fin.ofNat prime ((Residue.inverse? a.val prime).getD 0).toNat

def power (a : Fp) (n : Nat) : Fp :=
  if n = 0 then 1
  else
    let h := power (a * a) (n / 2)
    if n % 2 = 0 then h else h * a
termination_by n

/-- A candidate for the root is a power, because the prime leaves the remainder 3 modulo 4. -/
def sqrt? (a : Fp) : Option Fp :=
  let b := power a ((prime + 1) / 4)
  if b * b = a then some b else none

instance : CoordinateField Fp where
  zero := 0
  one := 1
  inv := inv
  sqrt? := sqrt?
  degree := 1
  components a := [a]
  ofComponents?
    | [a] => some a
    | _ => none
  isOdd a := a.val % 2 == 1

end Fp

structure Fp2 where
  a : Fp
  b : Fp
deriving DecidableEq, Repr

namespace Fp2

def add (x y : Fp2) : Fp2 := ⟨x.a + y.a, x.b + y.b⟩

def sub (x y : Fp2) : Fp2 := ⟨x.a - y.a, x.b - y.b⟩

def neg (x : Fp2) : Fp2 := ⟨-x.a, -x.b⟩

def mul (x y : Fp2) : Fp2 :=
  let s := x.a * y.a
  let t := x.b * y.b
  ⟨s - t, (x.a + x.b) * (y.a + y.b) - s - t⟩

instance : Add Fp2 := ⟨add⟩
instance : Sub Fp2 := ⟨sub⟩
instance : Neg Fp2 := ⟨neg⟩
instance : Mul Fp2 := ⟨mul⟩

def zero : Fp2 := ⟨0, 0⟩

def one : Fp2 := ⟨1, 0⟩

def conj (x : Fp2) : Fp2 := ⟨x.a, -x.b⟩

def scale (k : Fp) (x : Fp2) : Fp2 := ⟨k * x.a, k * x.b⟩

def inv (x : Fp2) : Fp2 :=
  scale (Fp.inv (x.a * x.a + x.b * x.b)) (conj x)

def twist (x : Fp2) : Fp2 := ⟨x.a - x.b, x.a + x.b⟩

def power (x : Fp2) (n : Nat) : Fp2 :=
  if n = 0 then one
  else
    let h := power (x * x) (n / 2)
    if n % 2 = 0 then h else h * x
termination_by n

def rootWithReal (x : Fp2) (half : Fp) : Option Fp2 :=
  match Fp.sqrt? half with
  | none => none
  | some r =>
      let y : Fp2 := ⟨r, x.b * Fp.inv (r + r)⟩
      if y * y = x then some y else none

/-- The norm of a square is a square, and half the sum of the real part with one root of the norm
is the square of the real part of the root. -/
def sqrt? (x : Fp2) : Option Fp2 :=
  if x.b = 0 then
    match Fp.sqrt? x.a with
    | some r => some ⟨r, 0⟩
    | none => (Fp.sqrt? (-x.a)).map fun r => ⟨0, r⟩
  else
    match Fp.sqrt? (x.a * x.a + x.b * x.b) with
    | none => none
    | some n =>
        let half := Fp.inv 2
        match rootWithReal x ((x.a + n) * half) with
        | some y => some y
        | none => rootWithReal x ((x.a - n) * half)

instance : CoordinateField Fp2 where
  zero := zero
  one := one
  inv := inv
  sqrt? := sqrt?
  degree := 2
  components x := [x.a, x.b]
  ofComponents?
    | [a, b] => some ⟨a, b⟩
    | _ => none
  isOdd x := x.a.val % 2 == 1

end Fp2

structure Fp6 where
  a : Fp2
  b : Fp2
  c : Fp2
deriving DecidableEq, Repr

namespace Fp6

def add (x y : Fp6) : Fp6 := ⟨x.a + y.a, x.b + y.b, x.c + y.c⟩

def sub (x y : Fp6) : Fp6 := ⟨x.a - y.a, x.b - y.b, x.c - y.c⟩

def neg (x : Fp6) : Fp6 := ⟨-x.a, -x.b, -x.c⟩

def mul (x y : Fp6) : Fp6 :=
  let s := x.a * y.a
  let t := x.b * y.b
  let r := x.c * y.c
  ⟨s + Fp2.twist ((x.b + x.c) * (y.b + y.c) - t - r),
    (x.a + x.b) * (y.a + y.b) - s - t + Fp2.twist r,
    (x.a + x.c) * (y.a + y.c) - s - r + t⟩

instance : Add Fp6 := ⟨add⟩
instance : Sub Fp6 := ⟨sub⟩
instance : Neg Fp6 := ⟨neg⟩
instance : Mul Fp6 := ⟨mul⟩

def zero : Fp6 := ⟨.zero, .zero, .zero⟩

def one : Fp6 := ⟨.one, .zero, .zero⟩

def shift (x : Fp6) : Fp6 := ⟨Fp2.twist x.c, x.a, x.b⟩

def inv (x : Fp6) : Fp6 :=
  let s := x.a * x.a - Fp2.twist (x.b * x.c)
  let t := Fp2.twist (x.c * x.c) - x.a * x.b
  let r := x.b * x.b - x.a * x.c
  let d := Fp2.inv (x.a * s + Fp2.twist (x.c * t + x.b * r))
  ⟨s * d, t * d, r * d⟩

end Fp6

structure Fp12 where
  a : Fp6
  b : Fp6
deriving DecidableEq, Repr

namespace Fp12

def mul (x y : Fp12) : Fp12 :=
  let s := x.a * y.a
  let t := x.b * y.b
  ⟨s + Fp6.shift t, (x.a + x.b) * (y.a + y.b) - s - t⟩

instance : Mul Fp12 := ⟨mul⟩

def one : Fp12 := ⟨.one, .zero⟩

def square (x : Fp12) : Fp12 :=
  let t := x.a * x.b
  ⟨(x.a + x.b) * (x.a + Fp6.shift x.b) - t - Fp6.shift t, t + t⟩

def conj (x : Fp12) : Fp12 := ⟨x.a, -x.b⟩

def inv (x : Fp12) : Fp12 :=
  let d := Fp6.inv (x.a * x.a - Fp6.shift (x.b * x.b))
  ⟨x.a * d, -(x.b * d)⟩

def twistRoot : Fp2 :=
  Fp2.power ⟨1, 1⟩ ((prime - 1) / 6)

def twistRoots : List Fp2 :=
  [Fp2.one, twistRoot, twistRoot * twistRoot, twistRoot * twistRoot * twistRoot,
    Fp2.power twistRoot 4, Fp2.power twistRoot 5]

def frobenius (x : Fp12) : Fp12 :=
  match twistRoots with
  | [_, r₁, r₂, r₃, r₄, r₅] =>
      ⟨⟨x.a.a.conj, x.a.b.conj * r₂, x.a.c.conj * r₄⟩,
        ⟨x.b.a.conj * r₁, x.b.b.conj * r₃, x.b.c.conj * r₅⟩⟩
  | _ => x

end Fp12

end RankOne.Bls
