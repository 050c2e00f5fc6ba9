import RankOne.R1CS

/-!
# Arithmetic on linear expressions

Sums and multiples by a constant stay linear expressions and cost nothing. A product or a quotient
of two combinations becomes a new wire with a gate that fixes it. An assertion about constants
alone is decided on the spot, and one with a constant factor becomes a gate `0 * 0 = z`.
-/

set_option autoImplicit false

namespace RankOne

namespace Linear

def ofTerms (tag : Nat) (terms : List (Int × Int)) : Linear :=
  let kept := Combination.normalTerms terms
  if kept.all fun term => term.1 == 0 then .constant ((Entries.get? 0 kept).getD 0)
  else .combination ⟨kept, some tag⟩

def collect (xs : List Linear) : List (Int × Int) :=
  xs.foldl (fun terms x => Combination.addTerms x.terms terms) []

def sum (tag : Nat) (xs : List Linear) : Linear :=
  ofTerms tag (collect xs)

def multiple (tag : Nat) (x : Combination) (k : Int) : Linear :=
  if reduce k = 0 then .constant 0
  else .combination ⟨x.terms.map fun term => (term.1, reduce (term.2 * k)), some tag⟩

def product? (tag : Nat) : Linear → Linear → Option Linear
  | .constant a, .constant b => some (.constant (reduce (a * b)))
  | .constant a, .combination y => some (multiple tag y a)
  | .combination x, .constant b => some (multiple tag x b)
  | .combination _, .combination _ => none

def times (tag : Nat) (k : Int) : Linear → Linear
  | .constant a => .constant (reduce (a * k))
  | .combination x => multiple tag x k

def difference (tag : Nat) (x y : Linear) : Linear :=
  sum tag [.constant 0, x, times tag (order - 1) y]

end Linear

namespace Build

def sum (xs : List Linear) (start : Linear) : Build Linear := do
  own (start :: xs)
  let s ← get
  return Linear.sum s.tag (start :: xs)

def add (x y : Linear) : Build Linear :=
  sum [x, y] (.constant 0)

def sub (x y : Linear) : Build Linear := do
  own [x, y]
  let s ← get
  return Linear.difference s.tag x y

def zeroGate (z : Linear) (message : String) : Build Unit :=
  match z with
  | .constant k => if k = 0 then pure () else throw (.unsatisfied message)
  | .combination _ => emit ⟨.constant 0, .constant 0, z, message, false⟩

def gate (x y z : Linear) (message : String := "assertion error") (isFlag : Bool := false) :
    Build Unit := do
  own [x, y, z]
  let s ← get
  match Linear.product? s.tag x y with
  | some p => zeroGate (Linear.difference s.tag z p) message
  | none => emit ⟨x, y, z, message, isFlag⟩

def productValue (x y : Linear) (read : Reader) : Except Fault Int :=
  match read x with
  | .error e => .error e
  | .ok a =>
      match read y with
      | .error e => .error e
      | .ok b => .ok (a * b)

def mul (x y : Linear) (message : String := "multiplication error") : Build Linear := do
  own [x, y]
  let s ← get
  match Linear.product? s.tag x y with
  | some p => return p
  | none =>
      let z ← wire (productValue x y) none
      emit ⟨x, y, z, message, false⟩
      return z

def inverse (k : Int) : Int :=
  (Residue.inverse? k order).getD 0

def quotientValue (x y : Linear) (read : Reader) : Except Fault Int :=
  match read y with
  | .error e => .error e
  | .ok b =>
      if b = 0 then .ok 0
      else
        match read x with
        | .error e => .error e
        | .ok a => .ok (a * inverse b)

/-- Division. A divisor that turns out to be zero leaves the gate `z * y = x` without a solution,
unless the dividend is zero too. The dividend may come from a truth value. -/
def div (x y : Linear) (message : String := "division error") (isFlag : Bool := false) :
    Build Linear := do
  own [x, y]
  let s ← get
  match y with
  | .constant k =>
      if reduce k = 0 then throw (.unsatisfied message)
      else return Linear.times s.tag (inverse k) x
  | .combination _ =>
      if isZero x then return .constant 0
      else
        let z ← wire (quotientValue x y) none
        emit ⟨z, y, x, message, isFlag⟩
        return z
where
  isZero : Linear → Bool
    | .constant a => reduce a == 0
    | .combination _ => false

def selectScalar (b t f : Linear) : Build Linear := do
  let d ← sub t f
  let p ← mul b d
  add p f

def not (x : Linear) : Build Linear :=
  sub (.constant 1) x

def and (x y : Linear) : Build Linear :=
  mul x y

def assertZero (x : Linear) (message : String := "EQZ assertion failed") : Build Unit :=
  gate (.constant 0) (.constant 0) x message

def assertBit (x : Linear) (message : String := "IS_BOOL assertion failed") : Build Unit :=
  gate x x x message

def connect (x y : Linear) (message : String := "CONNECT assertion failed") : Build Unit := do
  let d ← sub x y
  assertZero d message

end Build

end RankOne
