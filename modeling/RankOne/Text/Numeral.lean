import RankOne.Json.Token

/-!
# Integers as a user writes them

Numerals with an optional sign and blanks around them, in which single underscores may part the
digits. A literal may name its base by a mark after a leading zero; without one it is decimal and
begins with a zero only if it is zero. The decimal digits of any script count, and a decimal
numeral has a greatest length.
-/

set_option autoImplicit false

namespace RankOne.Text

def zeros : List Nat :=
  [0x30, 0x660, 0x6f0, 0x7c0, 0x966, 0x9e6, 0xa66, 0xae6, 0xb66, 0xbe6, 0xc66, 0xce6, 0xd66, 0xde6,
   0xe50, 0xed0, 0xf20, 0x1040, 0x1090, 0x17e0, 0x1810, 0x1946, 0x19d0, 0x1a80, 0x1a90, 0x1b50,
   0x1bb0, 0x1c40, 0x1c50, 0xa620, 0xa8d0, 0xa900, 0xa9d0, 0xa9f0, 0xaa50, 0xabf0, 0xff10, 0x104a0,
   0x10d30, 0x11066, 0x110f0, 0x11136, 0x111d0, 0x112f0, 0x11450, 0x114d0, 0x11650, 0x116c0,
   0x11730, 0x118e0, 0x11950, 0x11c50, 0x11d50, 0x11da0, 0x16a60, 0x16ac0, 0x16b50, 0x1d7ce,
   0x1d7d8, 0x1d7e2, 0x1d7ec, 0x1d7f6, 0x1e140, 0x1e2f0, 0x1e950, 0x1fbf0]

def decimalValue? (c : Char) : Option Nat :=
  (zeros.find? fun z => z ≤ c.toNat && c.toNat < z + 10).map fun z => c.toNat - z

def isBlank (c : Char) : Bool :=
  let n := c.toNat
  n == 0x20 || (0x9 ≤ n && n ≤ 0xd) || n == 0x85 || n == 0xa0 || n == 0x1680 ||
    (0x2000 ≤ n && n ≤ 0x200a) || n == 0x2028 || n == 0x2029 || n == 0x202f || n == 0x205f ||
    n == 0x3000

def trimBlanks (cs : List Char) : List Char :=
  ((cs.dropWhile isBlank).reverse.dropWhile isBlank).reverse

def toAscii (c : Char) : Char :=
  match decimalValue? c with
  | some d => Char.ofNat (48 + d)
  | none => c

def digitValue? (base : Nat) (c : Char) : Option Nat :=
  let v :=
    if '0' ≤ c ∧ c ≤ '9' then c.toNat - 48
    else if 'a' ≤ c ∧ c ≤ 'z' then c.toNat - 87
    else if 'A' ≤ c ∧ c ≤ 'Z' then c.toNat - 55
    else base
  if v < base then some v else none

def digits? (base : Nat) : List Char → Option (List Nat)
  | [] => none
  | [c] => (digitValue? base c).map fun d => [d]
  | c :: '_' :: rest =>
      match digitValue? base c, digits? base rest with
      | some d, some ds => some (d :: ds)
      | _, _ => none
  | c :: rest =>
      match digitValue? base c, digits? base rest with
      | some d, some ds => some (d :: ds)
      | _, _ => none

def ofDigits (base : Nat) (ds : List Nat) : Nat :=
  ds.foldl (fun n d => base * n + d) 0

def decimalNumeral? (cs : List Char) : Option Nat :=
  match digits? 10 cs with
  | some ds => if ds.length > Json.digitLimit then none else some (ofDigits 10 ds)
  | none => none

def markedNumeral? (base : Nat) : List Char → Option Nat
  | '_' :: rest => (digits? base rest).map (ofDigits base)
  | cs => (digits? base cs).map (ofDigits base)

def literalNumeral? : List Char → Option Nat
  | '0' :: c :: rest =>
      if c = 'x' ∨ c = 'X' then markedNumeral? 16 rest
      else if c = 'o' ∨ c = 'O' then markedNumeral? 8 rest
      else if c = 'b' ∨ c = 'B' then markedNumeral? 2 rest
      else
        match decimalNumeral? ('0' :: c :: rest) with
        | some 0 => some 0
        | _ => none
  | cs => decimalNumeral? cs

def signed? (numeral? : List Char → Option Nat) (text : List Char) : Option Int :=
  match trimBlanks (text.map toAscii) with
  | '-' :: cs => (numeral? cs).map fun n => -(n : Int)
  | '+' :: cs => (numeral? cs).map fun n => (n : Int)
  | cs => (numeral? cs).map fun n => (n : Int)

def decimal? (text : List Char) : Option Int :=
  signed? decimalNumeral? text

def literal? (text : List Char) : Option Int :=
  signed? literalNumeral? text

end RankOne.Text
