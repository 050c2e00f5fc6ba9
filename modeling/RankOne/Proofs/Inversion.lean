import RankOne.Proofs.Evaluation
import Mathlib.Data.List.GetD
import Mathlib.RingTheory.Coprime.Lemmas

/-!
# The transforms and their inverses undo each other

Interpolation undoes evaluation and evaluation undoes interpolation, at the powers of the root and
on a coset of them, and what comes back is the list of remainders. The root need only be minus one
half way round. That the transform with the inverse root cancels is the statement about
interpolation read with root and inverse exchanged, so one orthogonality serves both directions,
for prime and composite moduli.
-/

set_option autoImplicit false

namespace RankOne.Transform
open Polynomial RankOne.Residue

section Remainders
variable {p : Int} {a b : List Int}

theorem Reduced.map_emod (h : Reduced p a) : a.map (· % p) = a := by
  conv_rhs => rw [← List.map_id a]
  apply List.map_congr_left
  intro x hx
  obtain ⟨hle, hlt⟩ := h x hx
  exact Int.emod_eq_of_lt hle hlt

theorem reduced_map (hp : 0 < p) (φ : Int → Int) (a : List Int) :
    Reduced p (a.map fun x => φ x % p) := by
  intro x hx
  obtain ⟨y, -, rfl⟩ := List.mem_map.mp hx
  exact emod_range hp _

/-- A list of remainders is known from the residues of its entries. -/
theorem eq_map_emod {n : ℕ} {a b : List Int} (hb : Reduced n b) (hlen : b.length = a.length)
    (h : Tabulates (entryOf (ZMod n) a) b) : b = a.map (· % (n : Int)) := by
  rw [← hb.map_emod]
  apply List.ext_getElem
  · rw [List.length_map, List.length_map, hlen]
  · intro j hj _
    have hlt : j < b.length := by rwa [List.length_map] at hj
    have hmod : b.getD j 0 ≡ a.getD j 0 [ZMOD n] := getD_modEq h hlt
    rw [List.getD_eq_getElem _ _ hlt, List.getD_eq_getElem _ _ (hlen ▸ hlt)] at hmod
    rw [List.getElem_map, List.getElem_map, hmod.eq]

end Remainders

section Existence
variable {p : Int}

theorem exists_invert {a : Int} (hp : p ≠ 0) (h : IsCoprime a p) : ∃ b, invert a p = .ok b := by
  have hsome := (inverse?_isSome_iff hp).mpr (Int.isCoprime_iff_gcd_eq_one.mp h)
  obtain ⟨b, hb⟩ := Option.isSome_iff_exists.mp hsome
  exact ⟨b, by rw [invert, hb]⟩

/-- A number with a power of minus one has no factor in common with the modulus. -/
theorem isCoprime_of_pow_modEq {w : Int} {n : ℕ} (hn : 0 < n) (h : w ^ n ≡ -1 [ZMOD p]) :
    IsCoprime w p := by
  obtain ⟨e, he⟩ := Int.modEq_iff_dvd.mp h
  rw [← IsCoprime.pow_left_iff hn]
  exact ⟨-1, -e, by linear_combination he⟩

end Existence

section Rings
variable {R : Type*} [CommRing R] {p : Int} (hp : (p : R) = 0)
include hp

theorem eval_map_mul (a : List Int) (k : Int) (t : R) :
    (polynomial R (a.map fun x => x * k % p)).eval t = (polynomial R a).eval t * k := by
  induction a with
  | nil => simp [polynomial]
  | cons x rest ih =>
    rw [List.map_cons, eval_polynomial_cons, eval_polynomial_cons, ih, cast_emod hp, Int.cast_mul]
    ring

variable {w v k : Int} {m : ℕ} {a : List Int} (ha : a.length = 2 ^ m) (hw : IsHalfRoot (w : R) m)
  (hv : (v : R) * w = 1) (hk : (k : R) * 2 ^ m = 1)
include ha hw hv hk

theorem tabulates_transform_interpolated :
    Tabulates (entryOf R a) (transform ((transform a v p).map fun x => x * k % p) w p) := by
  have hlen : ((transform a v p).map fun x => x * k % p).length = 2 ^ m := by
    rw [List.length_map, length_transform a v p ha]
  apply tabulates_congr _ _ (tabulates_transform hp _ w hlen hw)
  intro j hj
  rw [length_transform _ w p hlen] at hj
  exact eval_interpolate hp ha hw hv hk hj

/-- The other direction, by the same orthogonality: here the first transform is the one with `w`,
and `w` is the inverse of the root `v`. -/
theorem tabulates_interpolated_transform :
    Tabulates (entryOf R a) ((transform (transform a w p) v p).map fun x => x * k % p) := by
  have hlen := length_transform a w p ha
  have hwv : (w : R) * v = 1 := by rw [mul_comm, hv]
  apply tabulates_congr _ _ (tabulates_interpolate hp hlen hw hv k)
  intro j hj
  rw [List.length_map, length_transform _ v p hlen] at hj
  rw [← eval_map_mul hp]
  exact eval_interpolate hp ha (hw.inv hv) hwv hk hj

end Rings

section Lists
variable {n k : ℕ} (hn : 0 < n)
include hn

/-- Multiplication by the powers of a number and then by those of its inverse leaves the
remainders. -/
theorem scale_scale {c l : Int} (hc : (c : ZMod n) * l = 1) (a : List Int) :
    scale (scale a c n) l n = a.map (· % (n : Int)) := by
  have hzero : (((n : ℕ) : Int) : ZMod n) = 0 := by simp
  apply eq_map_emod (reduced_scale (by exact_mod_cast hn) _ l) (by rw [length_scale, length_scale])
  have hscale := tabulates_scale hzero a c (tabulates_entryOf (R := ZMod n) a)
  apply tabulates_congr _ _ (tabulates_scale hzero _ l hscale)
  intro j _
  rw [mul_assoc, ← mul_pow, hc, one_pow, mul_one]

variable {w v m : Int} (hw : IsHalfRoot (w : ZMod n) k) (hm : invert (2 ^ k) n = .ok m)
  (hv : invert w n = .ok v) {a : List Int} (ha : a.length = 2 ^ k)
include hw hm hv ha

theorem interpolate_transform :
    interpolate (transform a w n) w n = .ok (a.map (· % (n : Int))) := by
  have hpos : (0 : Int) < n := by exact_mod_cast hn
  have hzero : (((n : ℕ) : Int) : ZMod n) = 0 := by simp
  have hmk : (m : ZMod n) * 2 ^ k = 1 := by simpa using invert_mul hzero hm
  have hlen := length_transform a w n ha
  have hcall := interpolate_ok hlen hpos.ne' (by rw [hlen]; exact_mod_cast hm) hv
  rw [hcall]
  apply congrArg
  apply eq_map_emod
  · exact reduced_map hpos (· * m) _
  · rw [List.length_map, length_transform _ v n hlen, ha]
  · exact tabulates_interpolated_transform hzero ha hw (invert_mul hzero hv) hmk

/-- The coefficients found are remainders whose transform has the remainders of the given values. -/
theorem transform_interpolate :
    ∃ b, interpolate a w n = .ok b ∧ b.length = 2 ^ k ∧ Reduced n b ∧
      transform b w n = a.map (· % (n : Int)) := by
  have hpos : (0 : Int) < n := by exact_mod_cast hn
  have hzero : (((n : ℕ) : Int) : ZMod n) = 0 := by simp
  have hmk : (m : ZMod n) * 2 ^ k = 1 := by simpa using invert_mul hzero hm
  have hlen : ((transform a v n).map fun x => x * m % n).length = 2 ^ k := by
    rw [List.length_map, length_transform a v n ha]
  have hreduced : Reduced n ((transform a v n).map fun x => x * m % n) :=
    reduced_map hpos (· * m) _
  refine ⟨_, interpolate_ok ha hpos.ne' (by rw [ha]; exact_mod_cast hm) hv, hlen, hreduced, ?_⟩
  apply eq_map_emod
  · exact reduced_transform hpos w hlen fun _ => hreduced
  · rw [length_transform _ w n hlen, ha]
  · exact tabulates_transform_interpolated hzero ha hw (invert_mul hzero hv) hmk

variable {c l : Int} (hl : invert c n = .ok l)
include hl

theorem interpolateOnCoset_evaluateOnCoset :
    (do interpolateOnCoset (← evaluateOnCoset a c w n) c w n) = .ok (a.map (· % (n : Int))) := by
  have hpos : (0 : Int) < n := by exact_mod_cast hn
  have hcl : (c : ZMod n) * l = 1 := by rw [mul_comm, invert_mul (by simp) hl]
  have hlen : (scale a c n).length = 2 ^ k := by rw [length_scale, ha]
  rw [evaluateOnCoset, if_neg hpos.ne', evaluate_ok w hlen hpos.ne']
  simp only [interpolateOnCoset, bind, Except.bind, pure, Except.pure, hl,
    interpolate_transform hn hw hm hv hlen]
  rw [(reduced_scale hpos a c).map_emod, scale_scale hn hcl]

theorem evaluateOnCoset_interpolateOnCoset :
    (do evaluateOnCoset (← interpolateOnCoset a c w n) c w n) = .ok (a.map (· % (n : Int))) := by
  have hpos : (0 : Int) < n := by exact_mod_cast hn
  have hlc : (l : ZMod n) * c = 1 := invert_mul (by simp) hl
  obtain ⟨b, hb, hlen, hreduced, htransform⟩ := transform_interpolate hn hw hm hv ha
  have hunscaled : scale (scale b l n) c n = b := by rw [scale_scale hn hlc, hreduced.map_emod]
  simp only [interpolateOnCoset, evaluateOnCoset, bind, Except.bind, pure, Except.pure, hb, hl,
    if_neg hpos.ne', hunscaled, evaluate_ok w hlen hpos.ne', htransform]

end Lists

/-- For each modulus without a factor in common with the number of points, and each root that is
minus one half way round, the inverses that interpolation takes exist, and evaluation and
interpolation undo each other in both orders, at the powers of the root and on their cosets. -/
theorem interpolate_evaluate {p : Int} (hp : 1 ≤ p) {k : ℕ} (hn : IsCoprime (2 ^ k : Int) p)
    {w : Int} (hw : k ≠ 0 → w ^ (2 ^ k / 2) ≡ -1 [ZMOD p]) (hw₀ : k = 0 → IsCoprime w p) {c : Int}
    (hc : IsCoprime c p) {a : List Int} (ha : a.length = 2 ^ k) :
    (∃ m v l, invert (2 ^ k) p = .ok m ∧ invert w p = .ok v ∧ invert c p = .ok l) ∧
    (do interpolate (← evaluate a w p) w p) = .ok (a.map (· % p)) ∧
    (do evaluate (← interpolate a w p) w p) = .ok (a.map (· % p)) ∧
    (do interpolateOnCoset (← evaluateOnCoset a c w p) c w p) = .ok (a.map (· % p)) ∧
    (do evaluateOnCoset (← interpolateOnCoset a c w p) c w p) = .ok (a.map (· % p)) := by
  have hpos : 0 < p := by omega
  have hcoprime : IsCoprime w p := by
    by_cases hk : k = 0
    · exact hw₀ hk
    · have htwo : 2 ^ 1 ≤ 2 ^ k := Nat.pow_le_pow_right (by decide) (by omega)
      exact isCoprime_of_pow_modEq (by omega) (hw hk)
  obtain ⟨m, hm⟩ := exists_invert hpos.ne' hn
  obtain ⟨v, hv⟩ := exists_invert hpos.ne' hcoprime
  obtain ⟨l, hl⟩ := exists_invert hpos.ne' hc
  lift p to ℕ using hpos.le with n
  have hn : 0 < n := by exact_mod_cast hpos
  have hroot : IsHalfRoot (w : ZMod n) k := isHalfRoot_of_modEq hw
  refine ⟨⟨m, v, l, hm, hv, hl⟩, ?_, ?_,
    interpolateOnCoset_evaluateOnCoset hn hroot hm hv ha hl,
    evaluateOnCoset_interpolateOnCoset hn hroot hm hv ha hl⟩
  · rw [evaluate_ok w ha hpos.ne']
    exact interpolate_transform hn hroot hm hv ha
  · obtain ⟨b, hb, hlen, -, htransform⟩ := transform_interpolate hn hroot hm hv ha
    rw [hb, ← htransform]
    exact evaluate_ok w hlen hpos.ne'

/-- Four entries modulo the composite number sixty-five, with a root whose square is minus one. -/
theorem interpolate_evaluate_sixty_five :
    IsCoprime (2 ^ 2 : Int) 65 ∧ IsCoprime (2 : Int) 65 ∧ (8 : Int) ^ (2 ^ 2 / 2) ≡ -1 [ZMOD 65] ∧
      (do interpolateOnCoset (← evaluateOnCoset [7, -1, 100, 3] 2 8 65) 2 8 65) =
        .ok [7, 64, 35, 3] := by
  have hn : IsCoprime (2 ^ 2 : Int) 65 := Int.isCoprime_iff_gcd_eq_one.mpr (by decide)
  have hc : IsCoprime (2 : Int) 65 := Int.isCoprime_iff_gcd_eq_one.mpr (by decide)
  have hw : (8 : Int) ^ (2 ^ 2 / 2) ≡ -1 [ZMOD 65] := by decide
  have hinverts := interpolate_evaluate (p := 65) (k := 2) (by decide) hn (fun _ => hw)
    (fun h => absurd h (by decide)) hc (a := [7, -1, 100, 3]) rfl
  exact ⟨hn, hc, hw, hinverts.2.2.2.1⟩

end RankOne.Transform
