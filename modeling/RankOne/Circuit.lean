import RankOne.Arithmetic
import RankOne.Shape
import RankOne.Text.Unicode

/-!
# Circuits and witnesses

A circuit describes a relation by the wires it allocates and the gates it emits. It is built twice
through the same operations: without a witness, when only the shape is wanted, and with one. A
witness gives data under names; whether a datum is of use is for the circuit to say.
-/

set_option autoImplicit false

namespace RankOne

/-- What a caller may hand over: a field element, a proof, a list or a tuple of data, or something
that is none of these. Of a thing of another kind only the name of its kind is known. -/
inductive Datum (P : Type)
  | absent
  | other (kind : String)
  | flag (value : Bool)
  | number (value : Int)
  | text (value : Unicode.Codes)
  | bytes (value : Bytes)
  | proof (value : P)
  | list (items : List (Datum P))
  | tuple (items : List (Datum P))
deriving Repr, Inhabited

abbrev Witness (P : Type) := List (String × Datum P)

namespace Datum

variable {P : Type}

def kind : Datum P → String
  | absent => "NoneType"
  | other kind => kind
  | flag _ => "bool"
  | number _ => "int"
  | text _ => "str"
  | bytes _ => "bytes"
  | proof _ => "Proof"
  | list _ => "list"
  | tuple _ => "tuple"

def items? : Datum P → Option (List (Datum P))
  | list items => some items
  | tuple items => some items
  | bytes value => some (value.map fun b => number b.toNat)
  | text value => some (value.map fun c => text [c])
  | _ => none

def slice (first count : Nat) : Datum P → Datum P
  | list items => list ((items.drop first).take count)
  | tuple items => tuple ((items.drop first).take count)
  | bytes value => bytes ((value.drop first).take count)
  | text value => text ((value.drop first).take count)
  | d => d

def isFlag : Datum P → Bool
  | flag _ => true
  | _ => false

def number? : Datum P → Option Int
  | number value => some value
  | flag value => some (if value then 1 else 0)
  | _ => none

def wireValue (name : String) (d : Datum P) : Except Fault Int :=
  match d with
  | absent => .error (.missing (.named name))
  | d =>
      match d.number? with
      | some value => .ok value
      | none => .error .wrongKind

end Datum

namespace Witness

variable {P : Type}

def get (w : Option (Witness P)) (name : String) : Datum P :=
  match w with
  | none => .absent
  | some entries => (Entries.get? name entries).getD .absent

end Witness

namespace Build

variable {P : Type}

def supplied (isPublic : Bool) (name : String) (d : Datum P) : Build Linear :=
  wire (fun _ => d.wireValue name) (if isPublic then some name else none)

def parameter (isPublic : Bool) (name : String) (w : Option (Witness P)) : Build Linear :=
  supplied isPublic name (Witness.get w name)

end Build

structure Circuit (P : Type) where
  name : String
  body : Option (Witness P) → Build Unit

namespace Circuit

variable {P : Type}

def build (c : Circuit P) (w : Option (Witness P)) : Except Fault R1CS :=
  match (c.body w).run (R1CS.fresh 0 w.isSome) with
  | (.ok (), s) => .ok s
  | (.error e, _) => .error e

def synthesize (c : Circuit P) (w : Option (Witness P)) : Except Fault R1CS :=
  match c.build w with
  | .ok s => .ok s.freeze
  | .error e => .error e

def mockProve (c : Circuit P) (w : Option (Witness P)) : Except Fault R1CS :=
  match c.synthesize w with
  | .error e => .error e
  | .ok s =>
      match s.check with
      | .error e => .error e
      | .ok (some message) => .error (.unsatisfied message)
      | .ok none => .ok s

def undescribed : Circuit P where
  name := "circuit"
  body _ := ExceptT.mk fun s => (.error .abstractCircuit, s)

end Circuit

def factorization {P : Type} : Circuit P where
  name := "factorization"
  body w := do
    let n ← Build.parameter true "N" w
    let p ← Build.parameter false "p" w
    let q ← Build.parameter false "q" w
    Build.gate p q n "p * q = N"

namespace Factorization

def assign {P : Type} (p q n : Datum P) : Except Fault (Witness P) :=
  match n with
  | .absent =>
      match p.number?, q.number? with
      | some x, some y => .ok [("N", .number (reduce (x * y))), ("p", p), ("q", q)]
      | _, _ => .error .wrongKind
  | n => .ok [("N", n), ("p", p), ("q", q)]

end Factorization

end RankOne
