import RankOne.Json.Value
import RankOne.Text.Quoted

/-!
# Writing JSON

One value to a line, indented by two spaces a level, in ASCII: what lies beyond it is escaped in
units of sixteen bits.
-/

set_option autoImplicit false

namespace RankOne.Json

def escapeUnit (u : Nat) : List Char :=
  '\\' :: 'u' :: Text.hex 4 u

def escapeCode (c : Nat) : List Char :=
  if c = 34 then ['\\', '"']
  else if c = 92 then ['\\', '\\']
  else if c = 10 then ['\\', 'n']
  else if c = 13 then ['\\', 'r']
  else if c = 9 then ['\\', 't']
  else if c = 8 then ['\\', 'b']
  else if c = 12 then ['\\', 'f']
  else if 32 ≤ c ∧ c < 127 then [Char.ofNat c]
  else if c < 0x10000 then escapeUnit c
  else escapeUnit (0xd800 + (c - 0x10000) / 0x400) ++ escapeUnit (0xdc00 + (c - 0x10000) % 0x400)

def renderText (s : Unicode.Codes) : List Char :=
  '"' :: s.flatMap escapeCode ++ ['"']

def newLine (indent : Nat) : List Char :=
  '\n' :: List.replicate indent ' '

mutual

def renderAt (indent : Nat) : Json → List Char
  | .null => "null".toList
  | .bool true => "true".toList
  | .bool false => "false".toList
  | .int value => (toString value).toList
  | .real value => value.text
  | .text value => renderText value
  | .list [] => ['[', ']']
  | .list (x :: xs) =>
      '[' :: newLine (indent + 2) ++ renderAt (indent + 2) x ++ renderItems (indent + 2) xs ++
        newLine indent ++ [']']
  | .object [] => ['\x7b', '\x7d']
  | .object ((k, x) :: fields) =>
      '\x7b' :: newLine (indent + 2) ++ renderText k ++ ':' :: ' ' :: renderAt (indent + 2) x ++
        renderFields (indent + 2) fields ++ newLine indent ++ ['\x7d']

def renderItems (indent : Nat) : List Json → List Char
  | [] => []
  | x :: xs => ',' :: newLine indent ++ renderAt indent x ++ renderItems indent xs

def renderFields (indent : Nat) : List (Unicode.Codes × Json) → List Char
  | [] => []
  | (k, x) :: fields =>
      ',' :: newLine indent ++ renderText k ++ ':' :: ' ' :: renderAt indent x ++
        renderFields indent fields

end

def render (x : Json) : List Char :=
  renderAt 0 x

def toBytes (x : Json) : Bytes :=
  x.render.map fun c => UInt8.ofNat c.toNat

end RankOne.Json
