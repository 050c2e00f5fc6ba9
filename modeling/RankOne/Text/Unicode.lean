import RankOne.Bytes

/-!
# Code points and their encodings

Texts of a data format are sequences of code points. Surrogates may stand alone in them, because an
escape can spell half of a pair, so such a text is a list of numbers. The encodings are UTF-8,
UTF-16 and UTF-32, told apart by a byte order mark or, without one, by where the zero bytes are.
-/

set_option autoImplicit false

namespace RankOne.Unicode

abbrev Codes := List Nat

def ofString (s : String) : Codes :=
  s.toList.map Char.toNat

def isHighSurrogate (c : Nat) : Bool :=
  0xd800 ≤ c && c < 0xdc00

def isLowSurrogate (c : Nat) : Bool :=
  0xdc00 ≤ c && c < 0xe000

def joinPair (high low : Nat) : Nat :=
  0x10000 + (high - 0xd800) * 0x400 + (low - 0xdc00)

def chars? : Codes → Option (List Char)
  | [] => some []
  | c :: rest =>
      if h : c.isValidChar then (chars? rest).map (Char.ofNatAux c h :: ·) else none

def toText (codes : Codes) : String :=
  String.ofList (codes.map fun c => if c.isValidChar then Char.ofNat c else '\ufffd')

def isTail (b : UInt8) : Bool :=
  0x80 ≤ b && b < 0xc0

def tailBits (b : UInt8) : Nat :=
  b.toNat - 0x80

def ofUtf8? : Bytes → Option Codes
  | [] => some []
  | a :: rest =>
      if a < 0x80 then (ofUtf8? rest).map (a.toNat :: ·)
      else
        match rest with
        | [] => none
        | b :: rest =>
            if !isTail b then none
            else if 0xc2 ≤ a ∧ a < 0xe0 then
              (ofUtf8? rest).map (((a.toNat - 0xc0) * 64 + tailBits b) :: ·)
            else
              match rest with
              | [] => none
              | c :: rest =>
                  if !isTail c then none
                  else if 0xe0 ≤ a ∧ a < 0xf0 then
                    let code := ((a.toNat - 0xe0) * 64 + tailBits b) * 64 + tailBits c
                    if code < 0x800 then none else (ofUtf8? rest).map (code :: ·)
                  else
                    match rest with
                    | [] => none
                    | d :: rest =>
                        let code :=
                          (((a.toNat - 0xf0) * 64 + tailBits b) * 64 + tailBits c) * 64 + tailBits d
                        if !isTail d ∨ a < 0xf0 ∨ 0xf5 ≤ a ∨ code < 0x10000 ∨ 0x110000 ≤ code then
                          none
                        else (ofUtf8? rest).map (code :: ·)

inductive Order
  | bigEndian
  | littleEndian
deriving DecidableEq, Repr

def unit (order : Order) (bytes : Bytes) : Nat :=
  match order with
  | .bigEndian => Bytes.toNat bytes
  | .littleEndian => Bytes.toNat bytes.reverse

def units16? (order : Order) : Bytes → Option (List Nat)
  | [] => some []
  | [_] => none
  | a :: b :: rest => (units16? order rest).map (unit order [a, b] :: ·)

def joinPairs : List Nat → Codes
  | [] => []
  | [u] => [u]
  | u :: v :: rest =>
      if isHighSurrogate u && isLowSurrogate v then joinPair u v :: joinPairs rest
      else u :: joinPairs (v :: rest)

def ofUtf16? (order : Order) (data : Bytes) : Option Codes :=
  (units16? order data).map joinPairs

def ofUtf32? (order : Order) : Bytes → Option Codes
  | [] => some []
  | a :: b :: c :: d :: rest =>
      let code := unit order [a, b, c, d]
      if code < 0x110000 then (ofUtf32? order rest).map (code :: ·) else none
  | _ => none

def marks : List (Bytes × (Bytes → Option Codes)) :=
  [([0x00, 0x00, 0xfe, 0xff], ofUtf32? .bigEndian),
    ([0xff, 0xfe, 0x00, 0x00], ofUtf32? .littleEndian),
    ([0xfe, 0xff], ofUtf16? .bigEndian), ([0xff, 0xfe], ofUtf16? .littleEndian),
    ([0xef, 0xbb, 0xbf], ofUtf8?)]

def decodeUnmarked? (data : Bytes) : Option Codes :=
  match data with
  | a :: b :: c :: d :: _ =>
      if a = 0 then if b = 0 then ofUtf32? .bigEndian data else ofUtf16? .bigEndian data
      else if b = 0 then
        if c = 0 ∧ d = 0 then ofUtf32? .littleEndian data else ofUtf16? .littleEndian data
      else ofUtf8? data
  | [a, b] =>
      if a = 0 then ofUtf16? .bigEndian data
      else if b = 0 then ofUtf16? .littleEndian data
      else ofUtf8? data
  | _ => ofUtf8? data

def decode? (data : Bytes) : Option Codes :=
  match marks.find? fun mark => mark.1.isPrefixOf data with
  | some (mark, decode) => decode (data.drop mark.length)
  | none => decodeUnmarked? data

end RankOne.Unicode
