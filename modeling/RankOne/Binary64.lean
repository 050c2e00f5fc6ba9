/-!
# Binary floating point numbers in decimal

A number with 53 significant bits is read as the nearest one to a decimal fraction, a tie going to
the even significand, and written with the fewest digits that read back as the same number. All
arithmetic is on natural numbers.
-/

set_option autoImplicit false

namespace RankOne

inductive Binary64
  | nan
  | infinite (negative : Bool)
  | finite (negative : Bool) (significand : Nat) (exponent : Int)
deriving DecidableEq, Repr

namespace Binary64

def roundQuotient (n d : Nat) : Nat :=
  let q := n / d
  let r := n % d
  if 2 * r < d then q else if d < 2 * r then q + 1 else if q % 2 = 0 then q else q + 1

def scaleBy (b n d : Nat) (e : Int) : Nat × Nat :=
  if 0 ≤ e then (n * Nat.pow b e.toNat, d) else (n, d * Nat.pow b (-e).toNat)

def leastExponent : Int := -1074

def greatestExponent : Int := 971

def exponentOf (n d : Nat) : Int :=
  let e : Int := (Nat.log2 n : Int) - Nat.log2 d - 52
  let (n', d') := scaleBy 2 n d (-e)
  max leastExponent (if n' < Nat.pow 2 52 * d' then e - 1 else e)

def ofFraction (negative : Bool) (n d : Nat) : Binary64 :=
  let e := exponentOf n d
  let (n', d') := scaleBy 2 n d (-e)
  let m := roundQuotient n' d'
  let (m, e) := if m = Nat.pow 2 53 then (Nat.pow 2 52, e + 1) else (m, e)
  if greatestExponent < e then .infinite negative else .finite negative m e

def digitCount (n : Nat) : Nat :=
  (Nat.toDigits 10 n).length

def ofDecimal (negative : Bool) (n : Nat) (e : Int) : Binary64 :=
  let place := (digitCount n : Int) + e
  if n = 0 ∨ place < -400 then .finite negative 0 leastExponent
  else if 400 < place then .infinite negative
  else
    let (n', d') := scaleBy 10 n 1 e
    ofFraction negative n' d'

def decimalPlace (m : Nat) (e : Int) (start : Int) : Nat → Int
  | 0 => start
  | fuel + 1 =>
      let (n, d) := scaleBy 2 m 1 e
      let (n', d') := scaleBy 10 n d (-(start + 1))
      if n' < d' then start else decimalPlace m e (start + 1) fuel

def leadingPlace (m : Nat) (e : Int) : Int :=
  decimalPlace m e (((Nat.log2 m : Int) + e) * 30102 / 100000 - 1) 8

def onGrid? (m : Nat) (e unit : Int) : Option Nat :=
  let (n, d) := scaleBy 2 m 1 e
  let (n, d) := scaleBy 10 n d (-unit)
  let q := n / d
  let readsBack (c : Nat) : Bool := ofDecimal false c unit = .finite false m e
  match readsBack q, readsBack (q + 1) with
  | true, true =>
      let r := 2 * (n % d)
      some (if r < d then q else if d < r then q + 1 else if q % 2 = 0 then q else q + 1)
  | true, false => some q
  | false, true => some (q + 1)
  | false, false => none

def shortestFrom (m : Nat) (e unit : Int) : Nat → Nat × Int
  | 0 => (0, 0)
  | fuel + 1 =>
      match onGrid? m e unit with
      | some c => (c, unit)
      | none => shortestFrom m e (unit - 1) fuel

/-- The digits of the shortest decimal with the place of the last one. The first grid is coarser
than the number, which may lie just below a power of ten; seventeen digits always suffice. -/
def shortest (m : Nat) (e : Int) : Nat × Int :=
  shortestFrom m e (leadingPlace m e + 1) 19

def zeros (n : Int) : List Char :=
  List.replicate n.toNat '0'

def exponentText (e : Int) : List Char :=
  let digits := Nat.toDigits 10 e.natAbs
  'e' :: (if e < 0 then '-' else '+') :: zeros (2 - digits.length) ++ digits

def decimalText (digits : List Char) (point : Int) : List Char :=
  let length : Int := digits.length
  if -4 < point ∧ point ≤ 16 then
    if point ≤ 0 then '0' :: '.' :: zeros (-point) ++ digits
    else if length ≤ point then digits ++ zeros (point - length) ++ ['.', '0']
    else digits.take point.toNat ++ '.' :: digits.drop point.toNat
  else
    match digits with
    | [] => []
    | [d] => d :: exponentText (point - 1)
    | d :: rest => d :: '.' :: rest ++ exponentText (point - 1)

def signText (negative : Bool) : List Char :=
  if negative then ['-'] else []

def text : Binary64 → List Char
  | nan => "NaN".toList
  | infinite negative => signText negative ++ "Infinity".toList
  | finite negative 0 _ => signText negative ++ "0.0".toList
  | finite negative m e =>
      let (n, unit) := shortest m e
      let digits := Nat.toDigits 10 n
      signText negative ++ decimalText digits (digits.length + unit)

end Binary64

end RankOne
