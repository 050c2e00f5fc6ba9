import RankOne.Fault
import RankOne.Residue

/-!
# Discrete Fourier transforms over residues

Evaluation and interpolation of polynomials on the powers of a root of unity, and on a coset of
them, where the vanishing polynomial of the powers is not zero. The transform halves its argument
by position; an argument of odd length leaves one entry of the even half over, which passes
through unchanged.
-/

set_option autoImplicit false

namespace RankOne.Transform

open RankOne.Residue

def powersFrom (r a p : Int) : Nat → List Int
  | 0 => []
  | n + 1 => r :: powersFrom (r * a % p) a p n

def powers (a : Int) (n : Nat) (p : Int) : List Int :=
  powersFrom 1 a p n

def powersModulo (a n p : Int) : Except Fault (List Int) :=
  if p = 0 ∧ 0 < n then .error .zeroModulus else .ok (powers a n.toNat p)

def bitsWithout (a b : Nat) : Nat :=
  a ^^^ (a &&& b)

/-- The bits that two integers have in common, where a negative number has all bits but those of
the number below its opposite. -/
def commonBits : Int → Int → Int
  | .ofNat a, .ofNat b => .ofNat (a &&& b)
  | .ofNat a, .negSucc b => .ofNat (bitsWithout a b)
  | .negSucc a, .ofNat b => .ofNat (bitsWithout b a)
  | .negSucc a, .negSucc b => .negSucc (a ||| b)

/-- The first of `count` candidates from `z` on that is no square by the criterion of Euler, and
the last candidate where each of them passes it. -/
def nonSquareFrom (p z : Int) : Nat → Option Int
  | 0 => none
  | 1 => some z
  | count + 2 =>
      if power z ((p - 1) / 2).toNat p ≠ 1 then some z
      else nonSquareFrom p (z + 1) (count + 1)

def nonSquare (p : Int) : Option Int :=
  nonSquareFrom p 2 (p - 2).toNat

def rootOfUnity (n p : Int) : Except Fault Int :=
  if commonBits n (n - 1) = 0 ∧ commonBits (p - 1) (n - 1) = 0 then
    match nonSquare p with
    | some z => .ok (power z ((p - 1) / n).toNat p)
    | none => .error .emptySearch
  else .error .rootOrder

def evens {α : Type} : List α → List α
  | [] => []
  | [x] => [x]
  | x :: _ :: rest => x :: evens rest

def odds {α : Type} : List α → List α
  | [] => []
  | [_] => []
  | _ :: y :: rest => y :: odds rest

theorem length_evens {α : Type} (a : List α) : (evens a).length = (a.length + 1) / 2 := by
  fun_induction evens a with
  | case1 => simp
  | case2 => simp
  | case3 x y rest ih => simp only [List.length_cons, ih]; omega

theorem length_odds {α : Type} (a : List α) : (odds a).length = a.length / 2 := by
  fun_induction odds a with
  | case1 => simp
  | case2 => simp
  | case3 x y rest ih => simp only [List.length_cons, ih]; omega

/-- The sums `b + k * c` and the differences `b - k * c`, with `k` multiplied by `w` from one pair
to the next. Entries without a partner stay as they are. -/
def butterfly (k w p : Int) : List Int → List Int → List Int × List Int
  | b :: bs, c :: cs =>
      let rest := butterfly (k * w % p) w p bs cs
      ((b + k * c) % p :: rest.1, (b - k * c) % p :: rest.2)
  | bs, cs => (bs, cs)

def transform (a : List Int) (w p : Int) : List Int :=
  match a with
  | [] => []
  | [x] => [x]
  | x :: y :: rest =>
      let halves := butterfly 1 w p
        (transform (evens (x :: y :: rest)) (w * w % p) p)
        (transform (odds (x :: y :: rest)) (w * w % p) p)
      halves.1 ++ halves.2
termination_by a.length
decreasing_by
  · simp only [length_evens, List.length_cons]; omega
  · simp only [length_odds, List.length_cons]; omega

def evaluate (a : List Int) (w p : Int) : Except Fault (List Int) :=
  if p = 0 ∧ a.length ≠ 1 then .error .zeroModulus
  else if a.isEmpty then .error .tooDeep
  else .ok (transform a w p)

def invert (a p : Int) : Except Fault Int :=
  match inverse? a p with
  | some b => .ok b
  | none => .error (.unusable .noInverse)

def interpolate (a : List Int) (w p : Int) : Except Fault (List Int) := do
  let m ← invert a.length p
  let v ← invert w p
  let b ← evaluate a v p
  return b.map fun x => x * m % p

def scale (a : List Int) (k p : Int) : List Int :=
  List.zipWith (fun x t => x * t % p) a (powers k a.length p)

def evaluateOnCoset (a : List Int) (k w p : Int) : Except Fault (List Int) :=
  if p = 0 then .error .zeroModulus else evaluate (scale a k p) w p

def interpolateOnCoset (a : List Int) (k w p : Int) : Except Fault (List Int) := do
  let b ← interpolate a w p
  let l ← invert k p
  return scale b l p

end RankOne.Transform
