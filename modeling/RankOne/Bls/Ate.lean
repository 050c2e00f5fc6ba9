import RankOne.Bls.Encoding
import RankOne.Pairing

/-!
# The pairing of the curve

The ate pairing. A loop over the bits of the curve's parameter collects the values at the first
point of the lines through multiples of the second one, each up to a factor from a smaller field,
and a last power removes these factors. The second group lives on a twist, which the powers of
`w` in a line undo.
-/

set_option autoImplicit false

namespace RankOne.Bls

def parameter : Nat := 0xd201000000010000

def lowerBits (n : Nat) : List Bool :=
  go n []
where
  go (n : Nat) (bits : List Bool) : List Bool :=
    if n ≤ 1 then bits else go (n / 2) ((n % 2 == 1) :: bits)
  termination_by n

def line (c₀ c₁ c₂ : Fp2) : Fp12 :=
  ⟨⟨c₀, c₁, .zero⟩, ⟨.zero, c₂, .zero⟩⟩

def tangent (t : Jacobian Fp2) (x y : Fp) : Fp12 :=
  let xx := t.x * t.x
  let e := xx + xx + xx
  let yy := t.y * t.y
  let zz := t.z * t.z
  let m := t.y * (t.z * zz)
  line (e * t.x - yy - yy) (-(Fp2.scale x (e * zz))) (Fp2.scale y (m + m))

def chord (t : Jacobian Fp2) (x' y' : Fp2) (x y : Fp) : Fp12 :=
  let zz := t.z * t.z
  let e := t.y - y' * (t.z * zz)
  let m := t.z * (t.x - x' * zz)
  line (e * x' - y' * m) (-(Fp2.scale x e)) (Fp2.scale y m)

def lines (x' y' : Fp2) (x y : Fp) : List Bool → Jacobian Fp2 → Fp12 → Fp12
  | [], _, f => f
  | bit :: rest, t, f =>
      let f := f.square * tangent t x y
      let t := t.double
      if bit then lines x' y' x y rest (t.addAffine x' y') (f * chord t x' y' x y)
      else lines x' y' x y rest t f

def powerBits (x : Fp12) : List Bool → Fp12 → Fp12
  | [], f => f
  | bit :: rest, f => powerBits x rest (if bit then f.square * x else f.square)

def powerParameter (x : Fp12) : Fp12 :=
  (powerBits x (lowerBits parameter) x).conj

def finalPower (f : Fp12) : Fp12 :=
  let g := f.conj * f.inv
  let m := g.frobenius.frobenius * g
  let y₀ := powerParameter m * m.conj
  let y₁ := powerParameter y₀ * y₀.conj
  let y₂ := powerParameter y₁ * y₁.frobenius
  let y₃ := powerParameter (powerParameter y₂) * y₂.frobenius.frobenius * y₂.conj
  y₃ * (m * m * m)

def ate : Point Fp → Point Fp2 → Fp12
  | .affine x y, .affine x' y' =>
      finalPower (lines x' y' x y (lowerBits parameter) ⟨x', y', .one⟩ .one)
  | _, _ => .one

def firstCoefficient : Fp := 4

def secondCoefficient : Fp2 := ⟨4, 4⟩

abbrev G1 := Point Fp

abbrev G2 := Point Fp2

def firstGenerator : G1 :=
  .affine
    0x17f1d3a73197d7942695638c4fa9ac0fc3688c4f9774b905a14e3a3f171bac586c55e83ff97a1aeffb3af00adb22c6bb
    0x08b3f481e3aaa0f1a09e30ed741d8ae4fcf5e095d5d00af600db18cb2c04b3edd03cc744a2888ae40caa232946c5e7e1

def secondGenerator : G2 :=
  .affine
    ⟨0x024aa2b2f08f0a91260805272dc51051c6e47ad4fa403b02b4510b647ae3d1770bac0326a805bbefd48056c8c121bdb8,
      0x13e02b6052719f607dacd3a088274f65596bd0d09920b61ab5da61bbdc7f5049334cf11213945d57e5ac7d055d042b7e⟩
    ⟨0x0ce5d527727d6e118cc9cdc6da2e351aadfd9baa8cbdd3a76d429a695160d12c923ac9cc3baca289e193548608b82801,
      0x0606c4a02ea734cc32acd2b02bc28b99cb3e287e85a763af267492ab572e99ab3f370d275cec1da1aaa9075ff05f79be⟩

instance : CodedGroup G1 where
  zero := .infinity
  add := Point.add
  neg := Point.neg
  smul := Point.smul
  generator := firstGenerator
  width := Point.width Fp
  encode := Point.encode
  decode? := Point.decode? firstCoefficient
  parts := Point.parts
  ofText? := Point.ofText? firstCoefficient

instance : CodedGroup G2 where
  zero := .infinity
  add := Point.add
  neg := Point.neg
  smul := Point.smul
  generator := secondGenerator
  width := Point.width Fp2
  encode := Point.encode
  decode? := Point.decode? secondCoefficient
  parts := Point.parts
  ofText? := Point.ofText? secondCoefficient

instance : Pairing G1 G2 Fp12 where
  pair := ate

end RankOne.Bls
