import RankOne.Transform
import RankOne.Proofs.Residue
import Mathlib.Algebra.Field.GeomSum
import Mathlib.Algebra.Polynomial.Eval.Defs
import Mathlib.Algebra.Polynomial.Degree.Operations
import Mathlib.Algebra.Polynomial.Eval.Coeff
import Mathlib.Tactic.LinearCombination

/-!
# The transforms evaluate and interpolate polynomials

Integers are read as elements of a ring in which the modulus is zero. A list of coefficients is a
polynomial there; the transform lists its values at the powers of a root, and the inverse transform
lists the coefficients of a polynomial with given values. The root need only have a power of minus
one half way round, so the modulus may be composite.
-/

set_option autoImplicit false

namespace RankOne.Transform
open Polynomial RankOne.Residue

section Tables
variable {R : Type*} [CommRing R]

def Tabulates (f : ℕ → R) : List Int → Prop
  | [] => True
  | x :: rest => (x : R) = f 0 ∧ Tabulates (fun j => f (j + 1)) rest

theorem tabulates_congr {f g : ℕ → R} (a : List Int) (hfg : ∀ j < a.length, f j = g j)
    (h : Tabulates f a) : Tabulates g a := by
  induction a generalizing f g with
  | nil => trivial
  | cons x rest ih =>
    have hzero : f 0 = g 0 := hfg 0 (by simp)
    exact ⟨h.1.trans hzero, ih (fun j hj => hfg (j + 1) (by simpa using hj)) h.2⟩

theorem tabulates_append (f : ℕ → R) (a b : List Int) :
    Tabulates f (a ++ b) ↔ Tabulates f a ∧ Tabulates (fun j => f (a.length + j)) b := by
  induction a generalizing f with
  | nil => simp [Tabulates]
  | cons x rest ih =>
    simp only [List.cons_append, Tabulates, ih, List.length_cons, and_assoc]
    simp only [Nat.add_right_comm]

theorem tabulates_unique {f g : ℕ → R} (a : List Int) (hf : Tabulates f a) (hg : Tabulates g a) :
    ∀ j < a.length, f j = g j := by
  induction a generalizing f g with
  | nil => simp
  | cons x rest ih =>
    intro j hj
    cases j with
    | zero => exact hf.1.symm.trans hg.1
    | succ j => exact ih hf.2 hg.2 j (by simpa using hj)

def entryOf (R : Type*) [CommRing R] (a : List Int) (j : ℕ) : R :=
  ((a.getD j 0 : Int) : R)

theorem tabulates_entryOf (a : List Int) : Tabulates (entryOf R a) a := by
  induction a with
  | nil => trivial
  | cons x rest ih => exact ⟨rfl, ih⟩

theorem tabulates_map (f : ℕ → R) (φ : Int → Int) (ψ : R → R) (a : List Int)
    (hφ : ∀ x : Int, ((φ x : Int) : R) = ψ x) (h : Tabulates f a) :
    Tabulates (fun j => ψ (f j)) (a.map φ) := by
  induction a generalizing f with
  | nil => trivial
  | cons x rest ih => exact ⟨by rw [hφ, h.1], ih _ h.2⟩

noncomputable def polynomial (R : Type*) [CommRing R] : List Int → R[X]
  | [] => 0
  | x :: rest => C (x : R) + X * polynomial R rest

theorem eval_polynomial_cons (x : Int) (rest : List Int) (t : R) :
    (polynomial R (x :: rest)).eval t = x + t * (polynomial R rest).eval t := by
  simp [polynomial]

theorem eval_polynomial {f : ℕ → R} (a : List Int) (h : Tabulates f a) (t : R) :
    (polynomial R a).eval t = ∑ i ∈ Finset.range a.length, f i * t ^ i := by
  induction a generalizing f with
  | nil => simp [polynomial]
  | cons x rest ih =>
    rw [eval_polynomial_cons, ih h.2, List.length_cons, Finset.sum_range_succ', h.1, Finset.mul_sum,
      add_comm]
    congr 1
    · apply Finset.sum_congr rfl
      intro i _
      ring
    · simp

theorem coeff_polynomial (a : List Int) (i : ℕ) :
    (polynomial R a).coeff i = entryOf R a i := by
  induction a generalizing i with
  | nil => simp [polynomial, entryOf]
  | cons x rest ih =>
    cases i with
    | zero => simp [polynomial, entryOf]
    | succ i =>
      rw [polynomial, coeff_add, coeff_C_succ, coeff_X_mul, ih, zero_add]
      rfl

theorem degree_polynomial_lt (a : List Int) : (polynomial R a).degree < a.length := by
  rw [degree_lt_iff_coeff_zero]
  intro i hi
  rw [coeff_polynomial, entryOf, List.getD_eq_getElem?_getD, List.getElem?_eq_none hi,
    Option.getD_none, Int.cast_zero]

end Tables

def IsHalfRoot {R : Type*} [CommRing R] (w : R) (m : ℕ) : Prop :=
  ∀ k, m = k + 1 → w ^ 2 ^ k = -1

section HalfRoots
variable {R : Type*} [CommRing R] {w : R} {m : ℕ}

theorem IsHalfRoot.sq (h : IsHalfRoot w (m + 1)) : IsHalfRoot (w * w) m := by
  rintro k rfl
  have hroot := h (k + 1) rfl
  rwa [pow_succ, mul_comm, pow_mul, pow_two] at hroot

theorem IsHalfRoot.pow_eq_neg (h : IsHalfRoot w (m + 1)) : w ^ 2 ^ m = -1 := h m rfl

theorem IsHalfRoot.inv {v : R} (h : IsHalfRoot w m) (hv : v * w = 1) : IsHalfRoot v m := by
  intro k hk
  have hw := h k hk
  have hone : v ^ 2 ^ k * w ^ 2 ^ k = 1 := by rw [← mul_pow, hv, one_pow]
  rw [hw] at hone
  linear_combination -hone

theorem sum_range_two_pow_succ (f : ℕ → R) (m : ℕ) :
    ∑ i ∈ Finset.range (2 ^ (m + 1)), f i =
      ∑ i ∈ Finset.range (2 ^ m), (f (2 * i) + f (2 * i + 1)) := by
  have hdouble : ∀ n, ∑ i ∈ Finset.range (2 * n), f i =
      ∑ i ∈ Finset.range n, (f (2 * i) + f (2 * i + 1)) := by
    intro n
    induction n with
    | zero => simp
    | succ n ih =>
      rw [Nat.mul_succ, Finset.sum_range_succ, Finset.sum_range_succ, ih, Finset.sum_range_succ,
        add_assoc]
  rw [pow_succ, Nat.mul_comm, hdouble]

/-- The powers of a root other than one add up to zero, also where the ring has zero divisors. -/
theorem IsHalfRoot.sum_pow_eq_zero (h : IsHalfRoot w m) {d : ℕ} (hd : ¬ 2 ^ m ∣ d) :
    ∑ i ∈ Finset.range (2 ^ m), (w ^ d) ^ i = 0 := by
  induction m generalizing w d with
  | zero => simp at hd
  | succ m ih =>
    have hpair : ∀ i, (w ^ d) ^ (2 * i) + (w ^ d) ^ (2 * i + 1) =
        (1 + w ^ d) * ((w * w) ^ d) ^ i := by
      intro i
      rw [pow_succ, pow_mul (w ^ d), pow_two, ← mul_pow]
      ring
    rw [sum_range_two_pow_succ, Finset.sum_congr rfl fun i _ => hpair i, ← Finset.mul_sum]
    by_cases hdvd : 2 ^ m ∣ d
    · obtain ⟨e, rfl⟩ := hdvd
      have hodd : Odd e := by
        rw [← Nat.not_even_iff_odd]
        rintro ⟨f, rfl⟩
        exact hd ⟨f, by rw [pow_succ]; ring⟩
      rw [pow_mul, h.pow_eq_neg, hodd.neg_one_pow]
      ring
    · rw [ih h.sq hdvd, mul_zero]

end HalfRoots

section Transforms
variable {R : Type*} [CommRing R] {p : Int} (hp : (p : R) = 0)
include hp

theorem cast_emod (x : Int) : ((x % p : Int) : R) = x := by
  rw [Int.emod_def, Int.cast_sub, Int.cast_mul, hp, zero_mul, sub_zero]

theorem tabulates_powersFrom (r a : Int) (n : ℕ) :
    Tabulates (fun i => (r : R) * (a : R) ^ i) (powersFrom r a p n) := by
  induction n generalizing r with
  | zero => trivial
  | succ n ih =>
    refine ⟨by simp, tabulates_congr _ (fun j _ => ?_) (ih (r * a % p))⟩
    rw [cast_emod hp, Int.cast_mul]
    ring

theorem tabulates_powers (a : Int) (n : ℕ) : Tabulates (fun i => (a : R) ^ i) (powers a n p) := by
  apply tabulates_congr _ _ (tabulates_powersFrom hp 1 a n)
  intro j _
  simp

theorem tabulates_butterfly (k w : Int) {f g : ℕ → R} (bs cs : List Int)
    (hlen : bs.length = cs.length) (hf : Tabulates f bs) (hg : Tabulates g cs) :
    Tabulates (fun j => f j + k * (w : R) ^ j * g j) (butterfly k w p bs cs).1 ∧
      Tabulates (fun j => f j - k * (w : R) ^ j * g j) (butterfly k w p bs cs).2 := by
  induction bs generalizing k f g cs with
  | nil =>
    obtain rfl := List.eq_nil_of_length_eq_zero hlen.symm
    exact ⟨trivial, trivial⟩
  | cons b bs ih =>
    obtain ⟨c, cs, rfl⟩ := List.exists_cons_of_length_eq_add_one hlen.symm
    have hrest := ih (k * w % p) cs (by simpa using hlen) hf.2 hg.2
    simp only [cast_emod hp, Int.cast_mul] at hrest
    refine ⟨⟨?_, tabulates_congr _ (fun j _ => ?_) hrest.1⟩,
      ⟨?_, tabulates_congr _ (fun j _ => ?_) hrest.2⟩⟩
    · simp only [cast_emod hp, Int.cast_add, Int.cast_mul, hf.1, hg.1, pow_zero, mul_one]
    · ring
    · simp only [cast_emod hp, Int.cast_sub, Int.cast_mul, hf.1, hg.1, pow_zero, mul_one]
    · ring

omit hp

theorem length_powersFrom (r a p : Int) (n : ℕ) : (powersFrom r a p n).length = n := by
  induction n generalizing r with
  | zero => rfl
  | succ n ih => simp [powersFrom, ih]

@[simp]
theorem length_powers (a p : Int) (n : ℕ) : (powers a n p).length = n :=
  length_powersFrom 1 a p n

theorem length_butterfly (k w p : Int) (bs cs : List Int) (hlen : bs.length = cs.length) :
    (butterfly k w p bs cs).1.length = bs.length ∧
      (butterfly k w p bs cs).2.length = bs.length := by
  induction bs generalizing k cs with
  | nil =>
    obtain rfl := List.eq_nil_of_length_eq_zero hlen.symm
    exact ⟨rfl, rfl⟩
  | cons b bs ih =>
    obtain ⟨c, cs, rfl⟩ := List.exists_cons_of_length_eq_add_one hlen.symm
    have hrest := ih (k * w % p) cs (by simpa using hlen)
    simpa [butterfly] using hrest

/-- A polynomial splits into the one of its even and the one of its odd coefficients. -/
theorem eval_evens_odds (a : List Int) (t : R) :
    (polynomial R a).eval t =
      (polynomial R (evens a)).eval (t * t) + t * (polynomial R (odds a)).eval (t * t) := by
  fun_induction evens a with
  | case1 => simp [odds, polynomial]
  | case2 x => simp [odds, polynomial]
  | case3 x y rest ih =>
    simp only [odds, eval_polynomial_cons, ih]
    ring

theorem length_evens_odds {a : List Int} {m : ℕ} (ha : a.length = 2 ^ (m + 1)) :
    (evens a).length = 2 ^ m ∧ (odds a).length = 2 ^ m := by
  rw [pow_succ] at ha
  rw [length_evens, length_odds]
  omega

theorem transform_step (a : List Int) (w p : Int) (ha : 2 ≤ a.length) :
    transform a w p =
      (butterfly 1 w p (transform (evens a) (w * w % p) p) (transform (odds a) (w * w % p) p)).1 ++
        (butterfly 1 w p (transform (evens a) (w * w % p) p)
          (transform (odds a) (w * w % p) p)).2 := by
  match a, ha with
  | x :: y :: rest, _ => rw [transform]

theorem length_transform {m : ℕ} (a : List Int) (w p : Int) (ha : a.length = 2 ^ m) :
    (transform a w p).length = 2 ^ m := by
  induction m generalizing a w with
  | zero =>
    obtain ⟨x, rfl⟩ := List.length_eq_one_iff.mp ha
    simp [transform]
  | succ m ih =>
    obtain ⟨heven, hodd⟩ := length_evens_odds ha
    have htwo : 2 ≤ a.length := by rw [ha, pow_succ]; have := Nat.one_le_two_pow (n := m); omega
    have hb := ih (evens a) (w * w % p) heven
    have hc := ih (odds a) (w * w % p) hodd
    have hlen := length_butterfly 1 w p _ _ (hb.trans hc.symm)
    rw [transform_step a w p htwo, List.length_append, hlen.1, hlen.2, hb, pow_succ]
    omega

include hp

/-- The transform lists the values of the polynomial at the powers of the root. -/
theorem tabulates_transform {m : ℕ} (a : List Int) (w : Int) (ha : a.length = 2 ^ m)
    (hw : IsHalfRoot (w : R) m) :
    Tabulates (fun j => (polynomial R a).eval ((w : R) ^ j)) (transform a w p) := by
  induction m generalizing a w with
  | zero =>
    obtain ⟨x, rfl⟩ := List.length_eq_one_iff.mp ha
    simp [transform, Tabulates, polynomial]
  | succ m ih =>
    obtain ⟨heven, hodd⟩ := length_evens_odds ha
    have htwo : 2 ≤ a.length := by rw [ha, pow_succ]; have := Nat.one_le_two_pow (n := m); omega
    have hsq : IsHalfRoot ((w * w % p : Int) : R) m := by
      rw [cast_emod hp, Int.cast_mul]
      exact hw.sq
    have hb := ih (evens a) (w * w % p) heven hsq
    have hc := ih (odds a) (w * w % p) hodd hsq
    have hlb := length_transform (evens a) (w * w % p) p heven
    have hlc := length_transform (odds a) (w * w % p) p hodd
    have hfly := tabulates_butterfly hp 1 w _ _ (hlb.trans hlc.symm) hb hc
    have hlen := length_butterfly 1 w p _ _ (hlb.trans hlc.symm)
    rw [transform_step a w p htwo, tabulates_append, hlen.1, hlb]
    simp only [cast_emod hp, Int.cast_mul, Int.cast_one, one_mul, mul_pow] at hfly
    refine ⟨tabulates_congr _ (fun j _ => ?_) hfly.1, tabulates_congr _ (fun j _ => ?_) hfly.2⟩
    · rw [eval_evens_odds a]
    · rw [eval_evens_odds a, pow_add, hw.pow_eq_neg, neg_one_mul, neg_mul_neg]
      ring

theorem invert_mul {a b : Int} (h : invert a p = .ok b) : (b : R) * a = 1 := by
  simp only [invert] at h
  split at h
  · rename_i c hc
    obtain rfl := Except.ok.inj h
    obtain ⟨e, he⟩ := (Int.modEq_iff_dvd.mp (inverse?_mul hc)).imp fun _ h => h
    have hcast := congrArg (Int.cast (R := R)) he
    push_cast at hcast
    rw [hp, zero_mul] at hcast
    linear_combination -hcast
  · simp at h

theorem tabulates_scale {f : ℕ → R} (a : List Int) (k : Int) (h : Tabulates f a) :
    Tabulates (fun i => f i * (k : R) ^ i) (scale a k p) := by
  have hgen : ∀ (a : List Int) (f : ℕ → R) (r : Int), Tabulates f a →
      Tabulates (fun i => f i * (r * (k : R) ^ i))
        (List.zipWith (fun x t => x * t % p) a (powersFrom r k p a.length)) := by
    intro a
    induction a with
    | nil => intros; trivial
    | cons x rest ih =>
      intro f r hf
      refine ⟨?_, tabulates_congr _ (fun j _ => ?_) (ih _ (r * k % p) hf.2)⟩
      · simp only [cast_emod hp, Int.cast_mul, hf.1, pow_zero, mul_one]
      · rw [cast_emod hp, Int.cast_mul]
        ring
  apply tabulates_congr _ _ (hgen a f 1 h)
  intro j _
  simp

omit hp

@[simp]
theorem length_scale (a : List Int) (k p : Int) : (scale a k p).length = a.length := by
  simp [scale]

theorem evaluate_ok {m : ℕ} {a : List Int} (w : Int) (ha : a.length = 2 ^ m) (hp : p ≠ 0) :
    evaluate a w p = .ok (transform a w p) := by
  have hne : a ≠ [] := by
    rintro rfl
    exact absurd ha.symm (Nat.two_pow_pos m).ne'
  rw [evaluate, if_neg (fun h => hp h.1), if_neg (by simpa using hne)]

theorem interpolate_ok {m : ℕ} {a : List Int} {w k v : Int} (ha : a.length = 2 ^ m) (hp : p ≠ 0)
    (hk : invert (a.length : Nat) p = .ok k) (hv : invert w p = .ok v) :
    interpolate a w p = .ok ((transform a v p).map fun x => x * k % p) := by
  simp only [interpolate, hk, hv, bind, Except.bind, evaluate_ok v ha hp, pure, Except.pure]

end Transforms

section Inverses
variable {R : Type*} [CommRing R] {p w k v : Int} {m : ℕ} {a : List Int}

/-- Of the powers of a root against those of its inverse, only equal ones do not cancel. -/
theorem sum_root_pow {w v : R} (h : v * w = 1) (hw : IsHalfRoot w m) {j l : ℕ} (hj : j < 2 ^ m)
    (hl : l < 2 ^ m) :
    ∑ i ∈ Finset.range (2 ^ m), (v ^ l * w ^ j) ^ i = if l = j then (2 ^ m : R) else 0 := by
  rcases lt_trichotomy l j with hlt | rfl | hlt
  · rw [if_neg hlt.ne]
    have hsplit : v ^ l * w ^ j = w ^ (j - l) := by
      rw [← Nat.add_sub_of_le hlt.le, pow_add, ← mul_assoc, ← mul_pow, h, one_pow, one_mul,
        Nat.add_sub_cancel_left]
    rw [hsplit]
    exact hw.sum_pow_eq_zero (Nat.not_dvd_of_pos_of_lt (by omega) (by omega))
  · rw [if_pos rfl, ← mul_pow, h]
    simp
  · rw [if_neg hlt.ne']
    have hsplit : v ^ l * w ^ j = v ^ (l - j) := by
      rw [← Nat.sub_add_cancel hlt.le, pow_add, mul_assoc, ← mul_pow, h, one_pow, mul_one,
        Nat.add_sub_cancel]
    rw [hsplit]
    exact (hw.inv h).sum_pow_eq_zero (Nat.not_dvd_of_pos_of_lt (by omega) (by omega))

variable (hp : (p : R) = 0) (ha : a.length = 2 ^ m) (hw : IsHalfRoot (w : R) m)
  (hv : (v : R) * w = 1)
include hp ha hw hv

theorem tabulates_interpolate (k : Int) :
    Tabulates (fun i => (polynomial R a).eval ((v : R) ^ i) * k)
      ((transform a v p).map fun x => x * k % p) := by
  have hinv : IsHalfRoot (v : R) m := hw.inv hv
  apply tabulates_map _ _ (fun x => x * (k : R)) _ _ (tabulates_transform hp a v ha hinv)
  intro x
  rw [cast_emod hp, Int.cast_mul]

/-- The value anywhere of the polynomial that interpolates `a`, as a combination of the entries
of `a`. -/
theorem eval_interpolate_eq_sum (k : Int) (t : R) :
    (polynomial R ((transform a v p).map fun x => x * k % p)).eval t =
      ∑ l ∈ Finset.range (2 ^ m),
        entryOf R a l * (k * ∑ i ∈ Finset.range (2 ^ m), ((v : R) ^ l * t) ^ i) := by
  have hlen : ((transform a v p).map fun x => x * k % p).length = 2 ^ m := by
    rw [List.length_map, length_transform a v p ha]
  rw [eval_polynomial _ (tabulates_interpolate hp ha hw hv k), hlen]
  simp only [eval_polynomial a (tabulates_entryOf a), ha, Finset.sum_mul, Finset.mul_sum]
  rw [Finset.sum_comm]
  apply Finset.sum_congr rfl
  intro l _
  apply Finset.sum_congr rfl
  intro i _
  rw [mul_pow, ← pow_mul, ← pow_mul, Nat.mul_comm i l]
  ring

theorem eval_interpolate (hk : (k : R) * 2 ^ m = 1) {j : ℕ} (hj : j < 2 ^ m) :
    (polynomial R ((transform a v p).map fun x => x * k % p)).eval ((w : R) ^ j) =
      entryOf R a j := by
  rw [eval_interpolate_eq_sum hp ha hw hv, Finset.sum_eq_single j]
  · rw [sum_root_pow hv hw hj hj, if_pos rfl, hk, mul_one]
  · intro l hl hne
    rw [sum_root_pow hv hw hj (Finset.mem_range.mp hl), if_neg hne, mul_zero, mul_zero]
  · intro hnot
    exact absurd (Finset.mem_range.mpr hj) hnot

omit ha

/-- The interpolated powers of a point are the weights by which values at the powers of the root
add up to the value at that point. -/
theorem tabulates_basis (k t : Int) :
    Tabulates (fun l => k * ∑ i ∈ Finset.range (2 ^ m), ((v : R) ^ l * (t : R)) ^ i)
      ((transform (powers t (2 ^ m) p) v p).map fun x => x * k % p) := by
  have hlen : (powers t (2 ^ m) p).length = 2 ^ m := length_powers t p _
  apply tabulates_congr _ _ (tabulates_interpolate hp hlen hw hv k)
  intro l _
  rw [eval_polynomial _ (tabulates_powers hp t (2 ^ m)), hlen, mul_comm]
  congr 1
  apply Finset.sum_congr rfl
  intro i _
  rw [mul_pow, mul_comm]

end Inverses

end RankOne.Transform
