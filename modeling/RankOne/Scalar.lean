import RankOne.Residue

/-!
# The scalar field

The prime order of the groups, and reduction modulo it. Field elements are integers; a function
says where it reduces.
-/

set_option autoImplicit false

namespace RankOne

def order : Int :=
  52435875175126190479447740508185965837690552500527637822603658699938581184513

def reduce (x : Int) : Int :=
  x % order

def isScalar (k : Int) : Bool :=
  -order < k && k < order

theorem order_pos : 0 < order := by decide

theorem reduce_nonneg (x : Int) : 0 ≤ reduce x :=
  Int.emod_nonneg _ (by decide)

theorem reduce_lt (x : Int) : reduce x < order :=
  Int.emod_lt_of_pos _ order_pos

end RankOne
