import RankOne.Fault
import RankOne.Sha256

/-!
# Reading bytes

A reader takes what it needs from the front of a list of bytes and leaves the rest. Numbers are
written with the most significant byte first.
-/

set_option autoImplicit false

namespace RankOne

abbrev Bytes := List UInt8

abbrev Parse (α : Type) := Bytes → Except Fault (α × Bytes)

namespace Bytes

def ofNat (width n : Nat) : Bytes :=
  Sha256.bigEndian width n

def toNatFrom (n : Nat) : Bytes → Nat
  | [] => n
  | b :: rest => toNatFrom (256 * n + b.toNat) rest

def toNat (data : Bytes) : Nat :=
  toNatFrom 0 data

def chunk (n : Nat) : Parse Bytes := fun data =>
  if data.length < n then .error (.malformed .shortData)
  else .ok (List.take n data, List.drop n data)

def countWidth : Nat := 4

def count : Parse Nat := fun data =>
  match chunk countWidth data with
  | .ok (bytes, rest) => .ok (toNat bytes, rest)
  | .error e => .error e

def many {α : Type} (one : Parse α) : Nat → Parse (List α)
  | 0, data => .ok ([], data)
  | n + 1, data =>
      match one data with
      | .error e => .error e
      | .ok (x, rest) =>
          match many one n rest with
          | .error e => .error e
          | .ok (xs, rest) => .ok (x :: xs, rest)

end Bytes

end RankOne
