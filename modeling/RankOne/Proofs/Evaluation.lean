import RankOne.Proofs.Fourier
import Mathlib.Algebra.BigOperators.ModEq
import Mathlib.Data.ZMod.Basic

/-!
# Evaluation modulo any number

What the transforms say about integers. The values are congruent to those of the polynomial, also
where the modulus is composite or one, and the entries of the argument may be negative or too large.
What comes out of a butterfly or of a multiplication by powers is reduced.
-/

set_option autoImplicit false

namespace RankOne.Transform

def Reduced (p : Int) (a : List Int) : Prop :=
  ∀ x ∈ a, 0 ≤ x ∧ x < p

section Ranges
variable {p : Int}

theorem emod_range (hp : 0 < p) (x : Int) : 0 ≤ x % p ∧ x % p < p :=
  ⟨Int.emod_nonneg x hp.ne', Int.emod_lt_of_pos x hp⟩

theorem reduced_cons {x : Int} {a : List Int} (hx : 0 ≤ x ∧ x < p) (ha : Reduced p a) :
    Reduced p (x :: a) :=
  List.forall_mem_cons.mpr ⟨hx, ha⟩

theorem reduced_append {a b : List Int} (ha : Reduced p a) (hb : Reduced p b) :
    Reduced p (a ++ b) :=
  List.forall_mem_append.mpr ⟨ha, hb⟩

theorem reduced_butterfly (hp : 0 < p) (k w : Int) (bs cs : List Int)
    (hlen : bs.length = cs.length) :
    Reduced p (butterfly k w p bs cs).1 ∧ Reduced p (butterfly k w p bs cs).2 := by
  induction bs generalizing k cs with
  | nil =>
    obtain rfl := List.eq_nil_of_length_eq_zero hlen.symm
    exact ⟨List.forall_mem_nil _, List.forall_mem_nil _⟩
  | cons b bs ih =>
    obtain ⟨c, cs, rfl⟩ := List.exists_cons_of_length_eq_add_one hlen.symm
    obtain ⟨hsums, hdifferences⟩ := ih (k * w % p) cs (by simpa using hlen)
    exact ⟨reduced_cons (emod_range hp _) hsums, reduced_cons (emod_range hp _) hdifferences⟩

/-- The last butterfly reduces all entries. Only a single value is passed on as it is. -/
theorem reduced_transform (hp : 0 < p) {k : ℕ} {a : List Int} (w : Int) (ha : a.length = 2 ^ k)
    (hsingle : k = 0 → Reduced p a) : Reduced p (transform a w p) := by
  cases k with
  | zero =>
    obtain ⟨x, rfl⟩ := List.length_eq_one_iff.mp ha
    simpa [transform] using hsingle rfl
  | succ k =>
    obtain ⟨heven, hodd⟩ := length_evens_odds ha
    have htwo : 2 ≤ a.length := by rw [ha, pow_succ]; have := Nat.one_le_two_pow (n := k); omega
    have hb := length_transform (evens a) (w * w % p) p heven
    have hc := length_transform (odds a) (w * w % p) p hodd
    obtain ⟨hsums, hdifferences⟩ := reduced_butterfly hp 1 w _ _ (hb.trans hc.symm)
    rw [transform_step a w p htwo]
    exact reduced_append hsums hdifferences

theorem reduced_scale (hp : 0 < p) (a : List Int) (c : Int) : Reduced p (scale a c p) := by
  intro x hx
  rw [scale, ← List.map_uncurry_zip_eq_zipWith] at hx
  obtain ⟨y, -, rfl⟩ := List.mem_map.mp hx
  exact emod_range hp _

end Ranges

section Congruences
variable {n k : ℕ} {w : Int}

/-- A list that tabulates the residues of integers holds integers congruent to them. -/
theorem getD_modEq {f : ℕ → Int} {b : List Int} (h : Tabulates (fun j => (f j : ZMod n)) b) {j : ℕ}
    (hj : j < b.length) : b.getD j 0 ≡ f j [ZMOD n] := by
  rw [← ZMod.intCast_eq_intCast_iff]
  exact tabulates_unique b (tabulates_entryOf b) h j hj

theorem isHalfRoot_of_modEq (hw : k ≠ 0 → w ^ (2 ^ k / 2) ≡ -1 [ZMOD n]) :
    IsHalfRoot (w : ZMod n) k := by
  rintro l rfl
  have hhalf : 2 ^ (l + 1) / 2 = 2 ^ l := by
    rw [pow_succ, Nat.mul_div_cancel _ (by decide)]
  have hmod := hw (Nat.succ_ne_zero l)
  rw [hhalf, ← ZMod.intCast_eq_intCast_iff] at hmod
  simpa using hmod

variable {a : List Int} (ha : a.length = 2 ^ k)
include ha

theorem transform_modEq (hw : k ≠ 0 → w ^ (2 ^ k / 2) ≡ -1 [ZMOD n]) {j : ℕ} (hj : j < 2 ^ k) :
    (transform a w n).getD j 0 ≡
      ∑ i ∈ Finset.range (2 ^ k), a.getD i 0 * w ^ (i * j) [ZMOD n] := by
  have hzero : (((n : ℕ) : Int) : ZMod n) = 0 := by simp
  apply getD_modEq (f := fun j => ∑ i ∈ Finset.range (2 ^ k), a.getD i 0 * w ^ (i * j))
  · apply tabulates_congr _ _ (tabulates_transform hzero a w ha (isHalfRoot_of_modEq hw))
    intro j _
    rw [eval_polynomial a (tabulates_entryOf a), ha, Int.cast_sum]
    apply Finset.sum_congr rfl
    intro i _
    rw [entryOf, Int.cast_mul, Int.cast_pow, ← pow_mul, Nat.mul_comm]
  · rwa [length_transform a w n ha]

/-- Coefficients multiplied by powers of a shift have the values of the shifted points. -/
theorem transform_scale_modEq (c : Int) (hw : k ≠ 0 → w ^ (2 ^ k / 2) ≡ -1 [ZMOD n]) {j : ℕ}
    (hj : j < 2 ^ k) :
    (transform (scale a c n) w n).getD j 0 ≡
      ∑ i ∈ Finset.range (2 ^ k), a.getD i 0 * (c * w ^ j) ^ i [ZMOD n] := by
  have hzero : (((n : ℕ) : Int) : ZMod n) = 0 := by simp
  have hlen : (scale a c n).length = 2 ^ k := by rw [length_scale, ha]
  have hscale := tabulates_scale hzero a c (tabulates_entryOf (R := ZMod n) a)
  refine (transform_modEq hlen hw hj).trans (Int.ModEq.sum fun i hi => ?_)
  have hentry : (scale a c n).getD i 0 ≡ a.getD i 0 * c ^ i [ZMOD n] := by
    apply getD_modEq (f := fun i => a.getD i 0 * c ^ i)
    · apply tabulates_congr _ _ hscale
      intro i _
      rw [entryOf, Int.cast_mul, Int.cast_pow]
    · rw [hlen]
      exact Finset.mem_range.mp hi
  have hpower : a.getD i 0 * (c * w ^ j) ^ i = a.getD i 0 * c ^ i * w ^ (i * j) := by
    rw [mul_pow, ← pow_mul, Nat.mul_comm j i, mul_assoc]
  rw [hpower]
  exact hentry.mul_right _

end Congruences

/-- On `2 ^ k` coefficients and with a root that is minus one half way round, both transforms have
an answer for each modulus: the values of the polynomial at the powers of the root, and at the
powers shifted by `c`. The entries are remainders unless a single value is passed on. -/
theorem evaluate_polynomial {p : Int} (hp : 1 ≤ p) {k : ℕ} {w : Int}
    (hw : k ≠ 0 → w ^ (2 ^ k / 2) ≡ -1 [ZMOD p]) (c : Int) {a : List Int}
    (ha : a.length = 2 ^ k) :
    (∃ b, evaluate a w p = .ok b ∧ b.length = 2 ^ k ∧
      (∀ j < 2 ^ k, b.getD j 0 ≡
        ∑ i ∈ Finset.range (2 ^ k), a.getD i 0 * w ^ (i * j) [ZMOD p]) ∧
      (k = 0 → b = a) ∧ (k ≠ 0 → Reduced p b)) ∧
    ∃ b, evaluateOnCoset a c w p = .ok b ∧ b.length = 2 ^ k ∧
      (∀ j < 2 ^ k, b.getD j 0 ≡
        ∑ i ∈ Finset.range (2 ^ k), a.getD i 0 * (c * w ^ j) ^ i [ZMOD p]) ∧
      Reduced p b := by
  have hpos : 0 < p := by omega
  have hlen : (scale a c p).length = 2 ^ k := by rw [length_scale, ha]
  lift p to ℕ using hpos.le with n
  refine ⟨⟨transform a w n, evaluate_ok w ha hpos.ne', length_transform a w n ha,
      fun j hj => transform_modEq ha hw hj, ?_,
      fun hk => reduced_transform hpos w ha fun hzero => absurd hzero hk⟩,
    transform (scale a c n) w n, ?_, length_transform _ w n hlen,
    fun j hj => transform_scale_modEq ha c hw hj,
    reduced_transform hpos w hlen fun _ => reduced_scale hpos a c⟩
  · rintro rfl
    obtain ⟨x, rfl⟩ := List.length_eq_one_iff.mp ha
    simp [transform]
  · rw [evaluateOnCoset, if_neg hpos.ne', evaluate_ok w hlen hpos.ne']

/-- Four coefficients modulo five, one of them negative, at the powers of two. -/
theorem evaluate_polynomial_five :
    evaluate [7, -1, 0, 3] 2 5 = .ok [4, 4, 0, 0] ∧
      ∀ j < 4, [4, 4, 0, 0].getD j 0 ≡
        ∑ i ∈ Finset.range 4, [7, -1, 0, 3].getD i 0 * 2 ^ (i * j) [ZMOD 5] := by
  have hvalue : evaluate [7, -1, 0, 3] 2 5 = .ok [4, 4, 0, 0] := by
    rw [evaluate_ok 2 (m := 2) rfl (by decide)]
    simp [transform, evens, odds, butterfly]
  obtain ⟨⟨b, hb, -, hvalues, -⟩, -⟩ := evaluate_polynomial (p := 5) (k := 2) (w := 2) (by decide)
    (by decide) 3 (a := [7, -1, 0, 3]) rfl
  obtain rfl := Except.ok.inj (hvalue.symm.trans hb)
  exact ⟨hvalue, hvalues⟩

end RankOne.Transform
