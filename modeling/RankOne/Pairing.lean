/-!
# Groups with a pairing

What a proof system needs of its groups: the group operations, a fixed generator, an encoding in a
fixed number of bytes, and a text form made of coordinates. A pairing takes an element of each of
two groups to a third one, whose elements are only multiplied and compared.
-/

set_option autoImplicit false

namespace RankOne

class CodedGroup (G : Type) where
  zero : G
  add : G → G → G
  neg : G → G
  smul : Int → G → G
  generator : G
  width : Nat
  encode : G → List UInt8
  decode? : List UInt8 → Option G
  parts : G → List String
  ofText? : List Char → Option G

class Pairing (G₁ G₂ : Type) (Gₜ : outParam Type) [CodedGroup G₁] [CodedGroup G₂] where
  pair : G₁ → G₂ → Gₜ

namespace CodedGroup

variable {G : Type} [CodedGroup G]

def multiple (k : Int) : G :=
  smul k generator

def sub (x y : G) : G :=
  add x (neg y)

def dot (start : G) : List G → List Int → G
  | p :: ps, z :: zs => dot (add start (smul z p)) ps zs
  | _, _ => start

end CodedGroup

end RankOne
