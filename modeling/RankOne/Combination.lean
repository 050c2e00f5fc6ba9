import RankOne.Entries
import RankOne.Scalar

/-!
# Linear combinations of wires

A combination lists wires with their coefficients and carries the number of the system that owns
the wires. Wire 0 holds the value 1, so its coefficient is the constant term. A constant on its
own is written as an integer. Wire numbers and coefficients are plain integers: what an arbitrary
caller writes down is judged by the system that it is handed to.
-/

set_option autoImplicit false

namespace RankOne

structure Combination where
  terms : List (Int × Int)
  owner : Option Nat
deriving DecidableEq, Repr

inductive Linear
  | constant (value : Int)
  | combination (x : Combination)
deriving DecidableEq, Repr

namespace Combination

def addTerm (wire coefficient : Int) : List (Int × Int) → List (Int × Int)
  | [] => [(wire, 0 + coefficient)]
  | (m, a) :: rest =>
      if m = wire then (m, a + coefficient) :: rest
      else (m, a) :: addTerm wire coefficient rest

def addTerms (terms : List (Int × Int)) (sum : List (Int × Int)) : List (Int × Int) :=
  terms.foldl (fun sum term => addTerm term.1 term.2 sum) sum

def normalTerms : List (Int × Int) → List (Int × Int)
  | [] => []
  | (m, a) :: rest =>
      if reduce a = 0 then normalTerms rest else (m, reduce a) :: normalTerms rest

def termLe (x y : Int × Int) : Bool :=
  x.1 < y.1 || (x.1 == y.1 && x.2 ≤ y.2)

def sortedTerms (x : Combination) : List (Int × Int) :=
  x.terms.mergeSort termLe

end Combination

namespace Linear

def terms : Linear → List (Int × Int)
  | constant value => [(0, value)]
  | combination x => x.terms

end Linear

end RankOne
