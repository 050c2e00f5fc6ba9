import RankOne.Argument.Prover
import RankOne.Proofs.RootOfUnity
import Mathlib.LinearAlgebra.Lagrange

/-!
# Interpolation on the points of a domain

What the two transforms are used for: the weights of a key are the values of the interpolation
basis at a point, and the quotient that a proof commits to is exact. The points are the powers of a
root of unity; on the coset next to them the polynomial that vanishes on the domain is minus two
throughout.
-/

set_option autoImplicit false

namespace RankOne
open Polynomial Transform

structure Domain (m : ℕ) where
  root : Int
  coset : Int
  rootInverse : Int
  cosetInverse : Int
  scaling : Int
  root_ok : rootOfUnity ((2 ^ m : ℕ) : Int) order = .ok root
  coset_ok : rootOfUnity (2 * ((2 ^ m : ℕ) : Int)) order = .ok coset
  rootInverse_ok : invert root order = .ok rootInverse
  cosetInverse_ok : invert coset order = .ok cosetInverse
  scaling_ok : invert ((2 ^ m : ℕ) : Int) order = .ok scaling
  isHalfRoot : IsHalfRoot (root : Scalar) m
  coset_sq : (coset : Scalar) ^ 2 = root
  coset_pow : (coset : Scalar) ^ 2 ^ m = -1

theorem orderNat_odd : orderNat / 2 = (orderNat - 1) / 2 := by
  norm_num [orderNat_eq]

theorem two_pow_dvd_orderNat {m : ℕ} (hm : m ≤ 32) : 2 ^ m ∣ orderNat - 1 :=
  (pow_dvd_pow 2 hm).trans (by norm_num [orderNat_eq])

/-- Up to `2 ^ 31` points there are roots for a domain and for its coset. -/
theorem exists_domain {m : ℕ} (hm : m ≤ 31) : Nonempty (Domain m) := by
  have hodd : orderNat ≠ 2 := by norm_num [orderNat_eq]
  obtain ⟨z, hz, hroots⟩ := rootOfUnity_spec orderNat hodd
  rw [orderNat_odd] at hz
  obtain ⟨w, hw, -, -, hwz⟩ := hroots m (two_pow_dvd_orderNat (by omega))
  obtain ⟨q, hq, -, -, hqz⟩ := hroots (m + 1) (two_pow_dvd_orderNat (by omega))
  have hdouble : ((2 ^ (m + 1) : ℕ) : Int) = 2 * ((2 ^ m : ℕ) : Int) := by
    push_cast
    ring
  rw [hdouble] at hq
  have hhalf := isHalfRoot_of_eq_pow hz (two_pow_dvd_orderNat (by omega)) hqz
  have hsq : (q : Scalar) ^ 2 = w := by
    rw [hwz, hqz, sq_pow_div _ (two_pow_dvd_orderNat (by omega))]
  have hq0 : (q : Scalar) ≠ 0 := by
    intro h
    have := hhalf.pow_eq_neg
    rw [h, zero_pow (Nat.two_pow_pos m).ne'] at this
    exact neg_ne_zero.mpr one_ne_zero this.symm
  have hw0 : (w : Scalar) ≠ 0 := by rw [← hsq]; exact pow_ne_zero 2 hq0
  have hn0 : (((2 ^ m : ℕ) : Int) : Scalar) ≠ 0 := by
    push_cast
    exact pow_ne_zero m two_ne_zero_scalar
  obtain ⟨v, hv, -⟩ := invert_order hw0
  obtain ⟨l, hl, -⟩ := invert_order hq0
  obtain ⟨k, hk, -⟩ := invert_order hn0
  exact ⟨⟨w, q, v, l, k, hw, hq, hv, hl, hk,
    isHalfRoot_of_eq_pow hz (two_pow_dvd_orderNat (by omega)) hwz, hsq, hhalf.pow_eq_neg⟩⟩

namespace Domain
variable {m : ℕ} (d : Domain m)

theorem scaling_mul : (d.scaling : Scalar) * 2 ^ m = 1 := by
  have h := invert_mul (R := Scalar) cast_order d.scaling_ok
  exact_mod_cast h

theorem coset_ne_zero : (d.coset : Scalar) ≠ 0 := by
  have h := invert_mul (R := Scalar) cast_order d.cosetInverse_ok
  exact right_ne_zero_of_mul_eq_one h

theorem root_pow_card : (d.root : Scalar) ^ 2 ^ m = 1 := by
  rw [← d.coset_sq, ← pow_mul, mul_comm, pow_mul, d.coset_pow]
  ring

theorem root_ne_zero : (d.root : Scalar) ≠ 0 := by
  rw [← d.coset_sq]
  exact pow_ne_zero 2 d.coset_ne_zero

theorem rootInverse_mul : (d.rootInverse : Scalar) * d.root = 1 :=
  invert_mul cast_order d.rootInverse_ok

theorem root_pow_injOn :
    Set.InjOn (fun j : ℕ => (d.root : Scalar) ^ j) (Finset.range (2 ^ m) : Set ℕ) := by
  intro i hi j hj hij
  have hi : i < 2 ^ m := Finset.mem_range.mp hi
  have hj : j < 2 ^ m := Finset.mem_range.mp hj
  by_contra hne
  have hsum := sum_root_pow d.rootInverse_mul d.isHalfRoot hj hi
  have hone : (d.rootInverse : Scalar) ^ i * (d.root : Scalar) ^ j = 1 := by
    rw [← show (d.root : Scalar) ^ i = d.root ^ j from hij, ← mul_pow, d.rootInverse_mul, one_pow]
  rw [if_neg hne, hone] at hsum
  simp only [one_pow, Finset.sum_const, Finset.card_range, nsmul_eq_mul, mul_one] at hsum
  apply pow_ne_zero m two_ne_zero_scalar
  exact_mod_cast hsum

def interpolated (a : List Int) : List Int :=
  (transform a d.rootInverse order).map fun x => x * d.scaling % order

theorem length_interpolated {a : List Int} (ha : a.length = 2 ^ m) :
    (d.interpolated a).length = 2 ^ m := by
  rw [interpolated, List.length_map, length_transform a _ _ ha]

theorem interpolate_eq {a : List Int} (ha : a.length = 2 ^ m) :
    interpolate a d.root order = .ok (d.interpolated a) := by
  have hk : invert (a.length : Nat) order = .ok d.scaling := by
    rw [ha]
    exact d.scaling_ok
  exact interpolate_ok ha order_pos.ne' hk d.rootInverse_ok

theorem eval_interpolated {a : List Int} (ha : a.length = 2 ^ m) {j : ℕ} (hj : j < 2 ^ m) :
    (polynomial Scalar (d.interpolated a)).eval ((d.root : Scalar) ^ j) = entryOf Scalar a j :=
  eval_interpolate cast_order ha d.isHalfRoot d.rootInverse_mul d.scaling_mul hj

def weight (t : Scalar) (l : ℕ) : Scalar :=
  d.scaling * ∑ i ∈ Finset.range (2 ^ m), ((d.rootInverse : Scalar) ^ l * t) ^ i

/-- Interpolation and evaluation in one: values at the points, taken with the weights, add up to
the value at `t`. -/
theorem eval_interpolated_eq_sum {a : List Int} (ha : a.length = 2 ^ m) (t : Scalar) :
    (polynomial Scalar (d.interpolated a)).eval t =
      ∑ l ∈ Finset.range (2 ^ m), entryOf Scalar a l * d.weight t l :=
  eval_interpolate_eq_sum cast_order ha d.isHalfRoot d.rootInverse_mul d.scaling t

theorem weight_root_pow {j l : ℕ} (hj : j < 2 ^ m) (hl : l < 2 ^ m) :
    d.weight ((d.root : Scalar) ^ j) l = if l = j then 1 else 0 := by
  rw [weight, sum_root_pow d.rootInverse_mul d.isHalfRoot hj hl]
  split
  · exact d.scaling_mul
  · exact mul_zero _

noncomputable def lagrange (f : ℕ → Scalar) : Scalar[X] :=
  Lagrange.interpolate (Finset.range (2 ^ m)) (fun j => (d.root : Scalar) ^ j) f

theorem degree_lagrange_lt (f : ℕ → Scalar) : (d.lagrange f).degree < (2 ^ m : ℕ) := by
  have h := Lagrange.degree_interpolate_lt f d.root_pow_injOn
  rwa [Finset.card_range] at h

theorem eval_lagrange_root_pow (f : ℕ → Scalar) {j : ℕ} (hj : j < 2 ^ m) :
    (d.lagrange f).eval ((d.root : Scalar) ^ j) = f j :=
  Lagrange.eval_interpolate_at_node f d.root_pow_injOn (Finset.mem_range.mpr hj)

theorem eq_lagrange {a : List Int} (ha : a.length = 2 ^ m) :
    polynomial Scalar (d.interpolated a) = d.lagrange (entryOf Scalar a) := by
  apply eq_of_degrees_lt_of_eval_index_eq (Finset.range (2 ^ m)) d.root_pow_injOn
  · rw [Finset.card_range]
    have h := degree_polynomial_lt (R := Scalar) (d.interpolated a)
    rwa [d.length_interpolated ha] at h
  · rw [Finset.card_range]
    exact d.degree_lagrange_lt _
  · intro j hj
    rw [d.eval_interpolated ha (Finset.mem_range.mp hj),
      d.eval_lagrange_root_pow _ (Finset.mem_range.mp hj)]

theorem lagrange_congr {f g : ℕ → Scalar} (h : ∀ l < 2 ^ m, f l = g l) :
    d.lagrange f = d.lagrange g :=
  Lagrange.interpolate_eq_of_values_eq_on f g fun l hl => h l (Finset.mem_range.mp hl)

theorem eval_lagrange (f : ℕ → Scalar) (t : Scalar) :
    (d.lagrange f).eval t = ∑ l ∈ Finset.range (2 ^ m), f l * d.weight t l := by
  let a : List Int := (List.range (2 ^ m)).map fun l => ((f l).val : Int)
  have ha : a.length = 2 ^ m := by simp [a]
  have hentry : ∀ l < 2 ^ m, entryOf Scalar a l = f l := by
    intro l hl
    simp [a, entryOf, hl]
  rw [← d.lagrange_congr hentry, ← d.eq_lagrange ha, d.eval_interpolated_eq_sum ha]
  apply Finset.sum_congr rfl
  intro l hl
  rw [hentry l (Finset.mem_range.mp hl)]

def weights (tau : Int) : List Int :=
  d.interpolated (powers tau (2 ^ m) order)

theorem basisAt_eq (tau : Int) : Key.basisAt (2 ^ m) tau = .ok (d.weights tau) := by
  have hlen : (powers tau (2 ^ m) order).length = 2 ^ m := length_powers _ _ _
  simp only [Key.basisAt, d.root_ok, bind, Except.bind, d.interpolate_eq hlen, weights]

theorem length_weights (tau : Int) : (d.weights tau).length = 2 ^ m :=
  d.length_interpolated (length_powers _ _ _)

theorem tabulates_weights (tau : Int) : Tabulates (d.weight (tau : Scalar)) (d.weights tau) :=
  tabulates_basis cast_order d.isHalfRoot d.rootInverse_mul d.scaling tau

end Domain

namespace Domain
variable {m : ℕ} (d : Domain m)

def cosetInterpolated (a : List Int) : List Int :=
  scale (d.interpolated a) d.cosetInverse order

theorem length_cosetInterpolated {a : List Int} (ha : a.length = 2 ^ m) :
    (d.cosetInterpolated a).length = 2 ^ m := by
  rw [cosetInterpolated, length_scale, d.length_interpolated ha]

theorem interpolateOnCoset_eq {a : List Int} (ha : a.length = 2 ^ m) :
    interpolateOnCoset a d.coset d.root order = .ok (d.cosetInterpolated a) := by
  simp only [interpolateOnCoset, d.interpolate_eq ha, d.cosetInverse_ok, bind, Except.bind, pure,
    Except.pure, cosetInterpolated]

theorem eval_scale (a : List Int) (k : Int) (t : Scalar) :
    (polynomial Scalar (scale a k order)).eval t = (polynomial Scalar a).eval (k * t) := by
  rw [eval_polynomial _ (tabulates_scale cast_order a k (tabulates_entryOf a)), length_scale,
    eval_polynomial a (tabulates_entryOf a)]
  apply Finset.sum_congr rfl
  intro i _
  rw [mul_pow]
  ring

theorem eval_cosetInterpolated {a : List Int} (ha : a.length = 2 ^ m) {j : ℕ} (hj : j < 2 ^ m) :
    (polynomial Scalar (d.cosetInterpolated a)).eval (d.coset * (d.root : Scalar) ^ j) =
      entryOf Scalar a j := by
  have hinv : (d.cosetInverse : Scalar) * d.coset = 1 := invert_mul cast_order d.cosetInverse_ok
  rw [cosetInterpolated, eval_scale, ← mul_assoc, hinv, one_mul, d.eval_interpolated ha hj]

def cosetValues (a : List Int) : List Int :=
  transform (scale a d.coset order) d.root order

theorem length_cosetValues {a : List Int} (ha : a.length = 2 ^ m) :
    (d.cosetValues a).length = 2 ^ m :=
  length_transform _ _ _ (by rw [length_scale, ha])

theorem evaluateOnCoset_eq {a : List Int} (ha : a.length = 2 ^ m) :
    evaluateOnCoset a d.coset d.root order = .ok (d.cosetValues a) := by
  have hlen : (scale a d.coset order).length = 2 ^ m := by rw [length_scale, ha]
  rw [evaluateOnCoset, if_neg order_pos.ne', evaluate_ok d.root hlen order_pos.ne']
  rfl

theorem tabulates_cosetValues {a : List Int} (ha : a.length = 2 ^ m) :
    Tabulates (fun j => (polynomial Scalar a).eval (d.coset * (d.root : Scalar) ^ j))
      (d.cosetValues a) := by
  have hlen : (scale a d.coset order).length = 2 ^ m := by rw [length_scale, ha]
  apply tabulates_congr _ _ (tabulates_transform cast_order _ d.root hlen d.isHalfRoot)
  intro j _
  rw [eval_scale]

end Domain

theorem cast_half_order : (((order - 1) / 2 : Int) : Scalar) * 2 = -1 := by
  have hdouble : (order - 1) / 2 * 2 = order - 1 := by decide
  have hcast : (((order - 1) / 2 * 2 : Int) : Scalar) = ((order - 1 : Int) : Scalar) := by
    rw [hdouble]
  push_cast at hcast
  rwa [cast_order, zero_sub] at hcast

theorem tabulates_quotientValues {f g h : ℕ → Scalar} (as bs cs : List Int)
    (hb : bs.length = as.length) (hc : cs.length = as.length) (hf : Tabulates f as)
    (hg : Tabulates g bs) (hh : Tabulates h cs) :
    Tabulates (fun j => (((order - 1) / 2 : Int) : Scalar) * (f j * g j - h j))
        (Quotient.quotientValues as bs cs) ∧
      (Quotient.quotientValues as bs cs).length = as.length := by
  induction as generalizing f g h bs cs with
  | nil =>
    obtain rfl := List.eq_nil_of_length_eq_zero hb
    exact ⟨trivial, rfl⟩
  | cons a as ih =>
    obtain ⟨b, bs, rfl⟩ := List.exists_cons_of_length_eq_add_one hb
    obtain ⟨c, cs, rfl⟩ := List.exists_cons_of_length_eq_add_one hc
    obtain ⟨htail, hlen⟩ :=
      ih bs cs (by simpa using hb) (by simpa using hc) hf.2 hg.2 hh.2
    refine ⟨⟨?_, htail⟩, by simp [Quotient.quotientValues, hlen]⟩
    rw [cast_reduce, Int.cast_mul, Int.cast_sub, Int.cast_mul, hf.1, hg.1, hh.1]

/-- A polynomial of small degree that is given on the points by a multiple of what vanishes there
is that multiple. -/
theorem eq_mul_vanishing {n : ℕ} (hn : n ≠ 0) {D H : Scalar[X]} {w q : Scalar}
    (hinj : Set.InjOn (fun j : ℕ => w ^ j) (Finset.range n : Set ℕ)) (hq : q ≠ 0)
    (hw : w ^ n = 1) (hqn : q ^ n = -1) (hH : H.degree < n) (hD : D.natDegree ≤ 2 * (n - 1))
    (hroots : ∀ j < n, D.eval (w ^ j) = 0)
    (hcoset : ∀ j < n, D.eval (q * w ^ j) = -2 * H.eval (q * w ^ j)) :
    D = (X ^ n - 1) * H := by
  have hmonic : (X ^ n - 1 : Scalar[X]).Monic := monic_X_pow_sub_C 1 hn
  have hdegree : (X ^ n - 1 : Scalar[X]).degree = n := degree_X_pow_sub_C (Nat.pos_of_ne_zero hn) 1
  have hvanish : ∀ j, (X ^ n - 1 : Scalar[X]).eval (w ^ j) = 0 := by
    intro j
    rw [eval_sub, eval_pow, eval_X, eval_one, ← pow_mul, mul_comm, pow_mul, hw, one_pow, sub_self]
  have hminus : ∀ j, (X ^ n - 1 : Scalar[X]).eval (q * w ^ j) = -2 := by
    intro j
    rw [eval_sub, eval_pow, eval_X, eval_one, mul_pow, hqn, ← pow_mul, mul_comm j, pow_mul, hw,
      one_pow]
    ring
  have hdiv := modByMonic_add_div D (X ^ n - 1 : Scalar[X])
  have hrem : D %ₘ (X ^ n - 1) = 0 := by
    apply eq_zero_of_degree_lt_of_eval_index_eq_zero (Finset.range n) hinj
    · rw [Finset.card_range, ← hdegree]
      exact degree_modByMonic_lt D hmonic
    · intro j hj
      have heval := congrArg (eval (w ^ j)) hdiv
      rwa [eval_add, eval_mul, hvanish, zero_mul, add_zero,
        hroots j (Finset.mem_range.mp hj)] at heval
  rw [hrem, zero_add] at hdiv
  have hquot : D /ₘ (X ^ n - 1) = H := by
    have hinj' : Set.InjOn (fun j : ℕ => q * w ^ j) (Finset.range n : Set ℕ) := by
      intro i hi j hj hij
      exact hinj hi hj (mul_left_cancel₀ hq hij)
    apply eq_of_degrees_lt_of_eval_index_eq (Finset.range n) hinj'
    · rw [Finset.card_range]
      apply lt_of_le_of_lt degree_le_natDegree
      have hnat : (X ^ n - 1 : Scalar[X]).natDegree = n := natDegree_X_pow_sub_C
      rw [natDegree_divByMonic D hmonic, hnat]
      exact_mod_cast (by omega : D.natDegree - n < n)
    · rwa [Finset.card_range]
    · intro j hj
      have heval := congrArg (eval (q * w ^ j)) hdiv
      rw [eval_mul, hminus, hcoset j (Finset.mem_range.mp hj)] at heval
      exact mul_left_cancel₀ (neg_ne_zero.mpr two_ne_zero_scalar) heval
  rw [← hquot, hdiv]

theorem natDegree_le_of_degree_lt {n : ℕ} {P : Scalar[X]} (h : P.degree < n) :
    P.natDegree ≤ n - 1 := by
  by_cases hzero : P = 0
  · simp [hzero]
  · have hnat := (natDegree_lt_iff_degree_lt hzero).mpr h
    omega

theorem natDegree_polynomial_le {n : ℕ} {a : List Int} (ha : a.length = n) :
    (polynomial Scalar a).natDegree ≤ n - 1 := by
  have hlt := degree_polynomial_lt (R := Scalar) a
  rw [ha] at hlt
  exact natDegree_le_of_degree_lt hlt

namespace Domain
variable {m : ℕ} (d : Domain m)

def quotient (a b c : List Int) : List Int :=
  d.cosetInterpolated (Quotient.quotientValues (d.cosetValues (d.interpolated a))
    (d.cosetValues (d.interpolated b)) (d.cosetValues (d.interpolated c)))

variable {a b c : List Int} (ha : a.length = 2 ^ m) (hb : b.length = 2 ^ m)
  (hc : c.length = 2 ^ m)
include ha hb hc

theorem tabulates_quotient :
    Tabulates (fun j => (((order - 1) / 2 : Int) : Scalar) *
        ((polynomial Scalar (d.interpolated a)).eval (d.coset * (d.root : Scalar) ^ j) *
          (polynomial Scalar (d.interpolated b)).eval (d.coset * (d.root : Scalar) ^ j) -
          (polynomial Scalar (d.interpolated c)).eval (d.coset * (d.root : Scalar) ^ j)))
      (Quotient.quotientValues (d.cosetValues (d.interpolated a))
        (d.cosetValues (d.interpolated b)) (d.cosetValues (d.interpolated c))) ∧
    (Quotient.quotientValues (d.cosetValues (d.interpolated a))
      (d.cosetValues (d.interpolated b)) (d.cosetValues (d.interpolated c))).length = 2 ^ m := by
  have hla := d.length_cosetValues (d.length_interpolated ha)
  have hlb := d.length_cosetValues (d.length_interpolated hb)
  have hlc := d.length_cosetValues (d.length_interpolated hc)
  have h := tabulates_quotientValues _ _ _ (hlb.trans hla.symm) (hlc.trans hla.symm)
    (d.tabulates_cosetValues (d.length_interpolated ha))
    (d.tabulates_cosetValues (d.length_interpolated hb))
    (d.tabulates_cosetValues (d.length_interpolated hc))
  exact ⟨h.1, h.2.trans hla⟩

theorem length_quotient : (d.quotient a b c).length = 2 ^ m :=
  d.length_cosetInterpolated (d.tabulates_quotient ha hb hc).2

/-- Where the values satisfy `a * b = c` at every point of the domain, the quotient by the
vanishing polynomial leaves no remainder. -/
theorem quotient_exact
    (h : ∀ j < 2 ^ m, entryOf Scalar a j * entryOf Scalar b j = entryOf Scalar c j) :
    polynomial Scalar (d.interpolated a) * polynomial Scalar (d.interpolated b) -
        polynomial Scalar (d.interpolated c) =
      (X ^ 2 ^ m - 1) * polynomial Scalar (d.quotient a b c) := by
  have hla := natDegree_polynomial_le (d.length_interpolated ha)
  have hlb := natDegree_polynomial_le (d.length_interpolated hb)
  have hlc := natDegree_polynomial_le (d.length_interpolated hc)
  obtain ⟨htab, hlen⟩ := d.tabulates_quotient ha hb hc
  apply eq_mul_vanishing (Nat.two_pow_pos m).ne' d.root_pow_injOn d.coset_ne_zero
    d.root_pow_card d.coset_pow
  · have hdegree := degree_polynomial_lt (R := Scalar) (d.quotient a b c)
    rwa [d.length_quotient ha hb hc] at hdegree
  · apply (natDegree_sub_le _ _).trans
    apply max_le _ (hlc.trans (by omega))
    exact natDegree_mul_le.trans (by omega)
  · intro j hj
    rw [eval_sub, eval_mul, d.eval_interpolated ha hj, d.eval_interpolated hb hj,
      d.eval_interpolated hc hj, h j hj, sub_self]
  · intro j hj
    rw [quotient, d.eval_cosetInterpolated hlen hj,
      tabulates_unique _ (tabulates_entryOf _) htab j (by rw [hlen]; exact hj), eval_sub, eval_mul]
    linear_combination
      ((polynomial Scalar (d.interpolated a)).eval (d.coset * (d.root : Scalar) ^ j) *
        (polynomial Scalar (d.interpolated b)).eval (d.coset * (d.root : Scalar) ^ j) -
        (polynomial Scalar (d.interpolated c)).eval (d.coset * (d.root : Scalar) ^ j)) *
        cast_half_order

end Domain

/-- Up to `2 ^ 31` gates the domain is a power of two that holds them all. -/
theorem domainSize_eq {gates : ℕ} (hmax : gates ≤ 2 ^ 31) :
    ∃ m, m ≤ 31 ∧ domainSize gates = 2 ^ m ∧ gates ≤ 2 ^ m := by
  by_cases hzero : gates = 0
  · exact ⟨1, by omega, by rw [hzero]; rfl, by omega⟩
  by_cases hone : gates = 1
  · exact ⟨0, by omega, by rw [hone]; rfl, by rw [hone]; decide⟩
  have hne : gates - 1 ≠ 0 := by omega
  refine ⟨Nat.log2 (gates - 1) + 1, ?_, ?_, ?_⟩
  · have hlt := (Nat.log2_lt hne).mpr (by omega : gates - 1 < 2 ^ 31)
    omega
  · rw [domainSize, if_neg hzero, if_neg hone]
    rfl
  · have := Nat.lt_log2_self (n := gates - 1)
    omega

/-- From one gate on, the domain has the least power of two that is enough for all gates. -/
theorem isLeast_domainSize {gates : ℕ} (hpos : 0 < gates) :
    IsLeast {n | gates ≤ n ∧ ∃ m, n = 2 ^ m} (domainSize gates) := by
  by_cases hone : gates = 1
  · subst hone
    exact ⟨⟨le_refl 1, 0, rfl⟩, fun n hn => hn.1⟩
  have hne : gates - 1 ≠ 0 := by omega
  have hsize : domainSize gates = 2 ^ (Nat.log2 (gates - 1) + 1) := by
    rw [domainSize, if_neg hpos.ne', if_neg hone]
    rfl
  rw [hsize]
  constructor
  · have hlt := Nat.lt_log2_self (n := gates - 1)
    exact ⟨by omega, _, rfl⟩
  · rintro n ⟨hle, k, rfl⟩
    apply Nat.pow_le_pow_right two_pos
    by_contra hlt
    have hk : 2 ^ k ≤ 2 ^ Nat.log2 (gates - 1) := Nat.pow_le_pow_right two_pos (by omega)
    have hlog := Nat.log2_self_le hne
    omega

end RankOne
