import RankOne.Text.Printable

/-!
# Quoted text

A text between quotes, on one line and in printable characters, from which the text can be read
back. The quote is single, unless the text holds a single quote and no double one. The quote in
use and the backslash are escaped, three control characters have letters of their own, and what
is not printable is written by its number in two, four or eight digits.
-/

set_option autoImplicit false

namespace RankOne.Text

def hexDigit (n : Nat) : Char :=
  if n < 10 then Char.ofNat (48 + n) else Char.ofNat (87 + n)

def hex : Nat → Nat → List Char
  | 0, _ => []
  | width + 1, n => hex width (n / 16) ++ [hexDigit (n % 16)]

def escapeHidden (c : Char) : List Char :=
  if c.toNat < 256 then '\\' :: 'x' :: hex 2 c.toNat
  else if c.toNat < 65536 then '\\' :: 'u' :: hex 4 c.toNat
  else '\\' :: 'U' :: hex 8 c.toNat

def escape (quote c : Char) : List Char :=
  if c = quote ∨ c = '\\' then ['\\', c]
  else if c = '\n' then ['\\', 'n']
  else if c = '\r' then ['\\', 'r']
  else if c = '\t' then ['\\', 't']
  else if isPrintable c then [c]
  else escapeHidden c

def quoteFor (s : List Char) : Char :=
  if '\'' ∈ s ∧ '"' ∉ s then '"' else '\''

def quoted (s : List Char) : List Char :=
  quoteFor s :: s.flatMap (escape (quoteFor s)) ++ [quoteFor s]

def quotedBytes (data : List UInt8) : List Char :=
  let s := data.map fun b => Char.ofNat b.toNat
  let byte := fun c => if c.toNat < 128 then escape (quoteFor s) c else escapeHidden c
  quoteFor s :: s.flatMap byte ++ [quoteFor s]

end RankOne.Text
