/-!
# Residues of integers

Powers and inverses of integers modulo an integer. A power is taken by repeated squaring and an
inverse by Euclid's algorithm, which keeps for each remainder the multiple of the argument it is
congruent to. The modulus need not be prime.
-/

set_option autoImplicit false

namespace RankOne.Residue

def power (a : Int) (n : Nat) (p : Int) : Int :=
  if n = 0 then 1 % p
  else
    let h := power (a * a % p) (n / 2) p
    if n % 2 = 0 then h else h * a % p
termination_by n

def euclid (r₀ : Nat) (t₀ : Int) (r₁ : Nat) (t₁ : Int) : Nat × Int :=
  if r₁ = 0 then (r₀, t₀)
  else euclid r₁ t₁ (r₀ % r₁) (t₀ - (r₀ / r₁ : Nat) * t₁)
termination_by r₁
decreasing_by exact Nat.mod_lt _ (Nat.pos_of_ne_zero (by assumption))

def inverse? (a p : Int) : Option Int :=
  if p = 0 then none
  else
    match euclid p.natAbs 0 (a % p).toNat 1 with
    | (1, t) => some (t % p)
    | _ => none

end RankOne.Residue
