import RankOne.Combination
import RankOne.Fault

/-!
# Rank-1 constraint systems

A system records wires and constraints `x * y = z`. It either carries the value of each wire or,
to learn the structure alone, none at all; both kinds go through the same operations. The
operations run in a state that outlives a failing one, because a selection over a list that
stops half way keeps the wires it has already added.
-/

set_option autoImplicit false

namespace RankOne

structure Gate where
  left : Linear
  right : Linear
  output : Linear
  message : String
  outputIsFlag : Bool
deriving DecidableEq, Repr

structure R1CS where
  tag : Nat
  witnessed : Bool
  wireCount : Nat
  values : List (Option Int)
  entries : List (Nat × String)
  gates : List Gate
  frozen : Bool
  relationCount : Nat
deriving DecidableEq, Repr

def placeAmong (count : Nat) (index : Int) : Option Nat :=
  if 0 ≤ index then
    if index.toNat < count then some index.toNat else none
  else if 0 ≤ count + index then some (count + index).toNat
  else none

abbrev Reader := Linear → Except Fault Int

abbrev Build := ExceptT Fault (StateM R1CS)

namespace R1CS

def fresh (tag : Nat) (witnessed : Bool) : R1CS where
  tag := tag
  witnessed := witnessed
  wireCount := 1
  values := [if witnessed then some 1 else none]
  entries := [(0, "ONE")]
  gates := []
  frozen := false
  relationCount := 0

def slot? (s : R1CS) (wire : Int) : Option (Option Int) :=
  (placeAmong s.values.length wire).bind fun m => s.values[m]?

def total (s : R1CS) : List (Int × Int) → Except Fault Int
  | [] => .ok 0
  | (m, a) :: rest =>
      match s.slot? m with
      | none => .error .outOfRange
      | some none => .error (.missing (.wire m))
      | some (some w) =>
          match s.total rest with
          | .ok t => .ok (w * a + t)
          | .error e => .error e

def read (s : R1CS) : Reader
  | .constant value => .ok (reduce value)
  | .combination x =>
      match s.total x.terms with
      | .ok t => .ok (reduce t)
      | .error e => .error e

/-- Whether an expression may be used in the system: constants always, a combination if the
system owns it and no wire lies beyond the assignment. -/
def owns (s : R1CS) : Linear → Bool
  | .constant _ => true
  | .combination x =>
      x.owner == some s.tag && x.terms.all fun term => decide (term.1 < (s.wireCount : Int))

def wireAt (s : R1CS) (index : Nat) : Linear :=
  .combination ⟨[((index : Int), 1)], some s.tag⟩

def inputs (s : R1CS) : Except Fault (List Int) :=
  (s.entries.filter fun entry => entry.1 ≠ 0).mapM fun entry => s.read (s.wireAt entry.1)

def checkGates (s : R1CS) : List Gate → Except Fault (Option String)
  | [] => .ok none
  | gate :: rest => do
      let x ← s.read gate.left
      let y ← s.read gate.right
      let z ← s.read gate.output
      if reduce (x * y) = z then s.checkGates rest else .ok (some gate.message)

def check (s : R1CS) : Except Fault (Option String) :=
  s.checkGates s.gates

def bindingGate (s : R1CS) (entry : Nat × String) : Gate :=
  ⟨s.wireAt entry.1, .constant 0, .constant 0, "public input binding", false⟩

/-- Closes the system. Each public entry gets the gate `x * 0 = 0`, which holds of every value
but gives the entry a polynomial of its own. -/
def freeze (s : R1CS) : R1CS :=
  if s.frozen then s
  else { s with
    relationCount := s.gates.length
    gates := s.gates ++ s.entries.map s.bindingGate
    frozen := true }

end R1CS

namespace R1CS

def wireValue (s : R1CS) (value : Reader → Except Fault Int) : Except Fault (Option Int) :=
  if s.witnessed then
    match value s.read with
    | .ok w => .ok (some (reduce w))
    | .error e => .error e
  else .ok none

def push (s : R1CS) (value : Option Int) (name : Option String) : R1CS :=
  { s with
    wireCount := s.wireCount + 1
    values := s.values ++ [value]
    entries := s.entries ++ (name.map fun text => (s.wireCount, text)).toList }

end R1CS

namespace Build

def own (xs : List Linear) : Build Unit :=
  ExceptT.mk fun s =>
    if s.frozen then (.error .frozen, s)
    else if xs.all s.owns then (.ok (), s)
    else (.error (.mismatch .foreignVariable), s)

def wire (value : Reader → Except Fault Int) (name : Option String) : Build Linear :=
  ExceptT.mk fun s =>
    if s.frozen then (.error .frozen, s)
    else
      match s.wireValue value with
      | .error e => (.error e, s)
      | .ok v => (.ok (s.wireAt s.wireCount), s.push v name)

def emit (gate : Gate) : Build Unit :=
  ExceptT.mk fun s => (.ok (), { s with gates := s.gates ++ [gate] })

def freeze : Build Unit :=
  ExceptT.mk fun s => (.ok (), s.freeze)

def known (name : String) : Option Int → Except Fault Int
  | some v => .ok v
  | none => .error (.missing (.named name))

def allocPublic (name : String) (value : Option Int) : Build Linear :=
  wire (fun _ => known name value) (some name)

def allocPrivate (name : String) (value : Option Int) : Build Linear :=
  wire (fun _ => known name value) none

end Build

end RankOne
