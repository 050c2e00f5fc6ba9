import RankOne.Bls.Curve

/-!
# Byte and text forms of points

In bytes a point is the first coordinate, each component in 48 bytes with the least significant
one first, and the sign of the second coordinate in the top bit of the last byte; infinity is all
zeros. In text it is a tag and decimal coordinates. A reader of texts knows more tags than a
writer uses: infinity, both coordinates, the first one with a sign, or three coordinates without
a division.
-/

set_option autoImplicit false

namespace RankOne.Bls

def componentWidth : Nat := 48

def littleEndian : Nat → Nat → List UInt8
  | 0, _ => []
  | width + 1, n => UInt8.ofNat n :: littleEndian width (n / 256)

def ofLittleEndian : List UInt8 → Nat
  | [] => 0
  | b :: rest => b.toNat + 256 * ofLittleEndian rest

def setTopBit : List UInt8 → List UInt8
  | [] => []
  | [b] => [b ||| 0x80]
  | b :: rest => b :: setTopBit rest

def clearTopBit : List UInt8 → List UInt8
  | [] => []
  | [b] => [b &&& 0x7f]
  | b :: rest => b :: clearTopBit rest

def component? (n : Nat) : Option Fp :=
  if h : n < prime then some ⟨n, h⟩ else none

def components? : Nat → List UInt8 → Option (List Fp)
  | 0, _ => some []
  | count + 1, data => do
      let c ← component? (ofLittleEndian (data.take componentWidth))
      let cs ← components? count (data.drop componentWidth)
      return c :: cs

namespace Point

variable {F : Type} [CoordinateField F] [DecidableEq F]

open CoordinateField

def width (F : Type) [CoordinateField F] : Nat :=
  degree F * componentWidth

def encode : Point F → List UInt8
  | .infinity => List.replicate (width F) 0
  | .affine x y =>
      let data := (components x).flatMap fun c => littleEndian componentWidth c.val
      if isOdd y then setTopBit data else data

def decode? (b : F) (data : List UInt8) : Option (Point F) :=
  if data.length ≠ width F then none
  else if data.all (· == 0) then some .infinity
  else do
    let cs ← components? (degree F) (clearTopBit data)
    let x ← ofComponents? cs
    let p ← ofX? b x (data.getLastD 0 ≥ 0x80)
    p.checked?

def parts : Point F → List String
  | .infinity => ["0"]
  | .affine x y => "1" :: (components x ++ components y).map fun c => toString c.val

end Point

def isBlank (c : Char) : Bool :=
  c = ' ' || c = '\t' || c = '\n' || c = '\r'

def digit? (c : Char) : Option Nat :=
  if '0' ≤ c ∧ c ≤ '9' then some (c.toNat - 48) else none

def bit? (c : Char) : Option Nat :=
  if c = '0' then some 0 else if c = '1' then some 1 else none

def hexDigit? (c : Char) : Option Nat :=
  if '0' ≤ c ∧ c ≤ '9' then some (c.toNat - 48)
  else if 'a' ≤ c ∧ c ≤ 'f' then some (c.toNat - 87)
  else if 'A' ≤ c ∧ c ≤ 'F' then some (c.toNat - 55)
  else none

def digitsFrom (digit? : Char → Option Nat) (base n : Nat) : List Char → Option Nat
  | [] => some n
  | c :: rest =>
      match digit? c with
      | some d => digitsFrom digit? base (base * n + d) rest
      | none => none

def digits? (digit? : Char → Option Nat) (base : Nat) (cs : List Char) : Option Nat :=
  if cs.isEmpty then none else digitsFrom digit? base 0 cs

def markedDigits? (digit? : Char → Option Nat) (bits : Nat) (cs : List Char) : Option Nat :=
  if cs.length * bits ≤ 8 * componentWidth then digits? digit? (Nat.pow 2 bits) cs else none

def numeral? : List Char → Option Nat
  | '0' :: 'x' :: cs => markedDigits? hexDigit? 4 cs
  | '0' :: 'b' :: cs => markedDigits? bit? 1 cs
  | cs => digits? digit? 10 cs

def tokenLimit : Nat := 8 * componentWidth + 2

def signed? : List Char → Option Fp
  | '-' :: cs => (numeral? cs).bind component? |>.map fun c => -c
  | cs => (numeral? cs).bind component?

def token? (cs : List Char) : Option Fp :=
  if cs.length ≤ tokenLimit then signed? cs else none

def tokens? : Nat → List Char → Option (List Fp × List Char)
  | 0, cs => some ([], cs)
  | count + 1, cs => do
      let start := cs.dropWhile isBlank
      let c ← token? (start.takeWhile fun c => !isBlank c)
      let (rest, tail) ← tokens? count (start.dropWhile fun c => !isBlank c)
      return (c :: rest, tail)

namespace Point

variable {F : Type} [CoordinateField F] [DecidableEq F]

open CoordinateField

def coordinate? (cs : List Char) : Option (F × List Char) := do
  let (c, rest) ← tokens? (degree F) cs
  let x ← ofComponents? c
  return (x, rest)

def ofCoordinates? (b x y : F) : Option (Point F) :=
  if onCurve b x y then some (.affine x y) else none

def ofTag? (b : F) (tag : Char) (cs : List Char) : Option (Point F) :=
  match tag with
  | '0' => some .infinity
  | '1' => do
      let (x, cs) ← coordinate? cs
      let (y, _) ← coordinate? cs
      ofCoordinates? b x y
  | '2' => do
      let (x, _) ← coordinate? cs
      ofX? b x false
  | '3' => do
      let (x, _) ← coordinate? cs
      ofX? b x true
  | '4' => do
      let (x, cs) ← coordinate? cs
      let (y, cs) ← coordinate? cs
      let (z, _) ← coordinate? cs
      match Jacobian.toPoint ⟨x, y, z⟩ with
      | .infinity => some .infinity
      | .affine x y => ofCoordinates? b x y
  | _ => none

def ofText? (b : F) (cs : List Char) : Option (Point F) :=
  match cs.dropWhile isBlank with
  | [] => none
  | tag :: rest => (ofTag? b tag rest).bind checked?

end Point

end RankOne.Bls
