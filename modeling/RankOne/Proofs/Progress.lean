import RankOne.Proofs.Filling

/-!
# Operations that are not refused

An operation on expressions of an open system fails only where it comes down to constants. An
expression whose value changes with a wire is no constant, so a constraint on it is put down as a
gate and not decided on the spot, and a product with it gets a wire.
-/

set_option autoImplicit false

namespace RankOne

def oneAt (k : ℕ) (m : Int) : Scalar :=
  if m = 0 ∨ m = k then 1 else 0

theorem oneAt_zero (k : ℕ) : oneAt k 0 = 1 :=
  if_pos (.inl rfl)

namespace Linear
variable {x y : Linear} {k m : ℕ}

def Uses (x : Linear) (k : ℕ) : Prop :=
  x.value (oneAt k) ≠ x.value (oneAt 0)

theorem Uses.exists_eq (h : x.Uses k) : ∃ c, x = .combination c := by
  cases x with
  | constant a => exact absurd rfl h
  | combination c => exact ⟨c, rfl⟩

theorem not_uses_constant (a : Int) (k : ℕ) : ¬ (Linear.constant a).Uses k :=
  not_not.mpr rfl

theorem Uses.difference_left (hx : x.Uses k) (hy : ¬ y.Uses k) (tag : ℕ) :
    (difference tag x y).Uses k := by
  rw [Uses, value_difference (oneAt_zero k), value_difference (oneAt_zero 0), not_not.mp hy]
  exact fun h => hx (sub_left_injective h)

theorem Uses.difference_right (hx : ¬ x.Uses k) (hy : y.Uses k) (tag : ℕ) :
    (difference tag x y).Uses k := by
  rw [Uses, value_difference (oneAt_zero k), value_difference (oneAt_zero 0), not_not.mp hx]
  exact fun h => hy (sub_right_injective h)

theorem uses_wireAt (s : R1CS) (hk : 0 < k) : (s.wireAt k).Uses k := by
  have hne : (k : Int) ≠ 0 := by omega
  rw [Uses, value_wireAt, value_wireAt, oneAt, oneAt, if_pos (.inr rfl), if_neg]
  · exact one_ne_zero
  · exact fun h => h.elim hne hne

theorem not_uses_wireAt (s : R1CS) (h : m ≠ k) : ¬ (s.wireAt m).Uses k := by
  have hne : (m : Int) ≠ k := by exact_mod_cast h
  rw [Uses, not_not, value_wireAt, value_wireAt, oneAt, oneAt]
  simp [hne]

end Linear

namespace Build
open Linear
variable {s : R1CS} {b x y z : Linear} {k : ℕ}

section
variable (hf : s.frozen = false)
include hf

theorem run_sub_of_within (hx : x.Within s) (hy : y.Within s) :
    (sub x y).run s = (.ok (difference s.tag x y), s) := by
  rw [run_sub, R1CS.access_eq_ok hf (by simpa using ⟨hx, hy⟩)]

theorem run_add_of_within (hx : x.Within s) (hy : y.Within s) :
    (add x y).run s = (.ok (Linear.sum s.tag [.constant 0, x, y]), s) := by
  have hzero : (Linear.constant 0).Within s := trivial
  rw [add, run_sum, R1CS.access_eq_ok hf (by simpa using ⟨hzero, hx, hy⟩)]

/-- A constraint on a product of two expressions that are no constants is a gate. -/
theorem exists_run_gate (hx : x.Within s) (hy : y.Within s) (hz : z.Within s)
    (hxc : ∃ c, x = .combination c) (hyc : ∃ c, y = .combination c) (message : String)
    (isFlag : Bool) :
    ∃ u, (gate x y z message isFlag).run s = (.ok (), u) ∧ u.wireCount = s.wireCount := by
  obtain ⟨c, rfl⟩ := hxc
  obtain ⟨d, rfl⟩ := hyc
  rw [run_gate, R1CS.access_eq_ok hf (by simpa using ⟨hx, hy, hz⟩)]
  exact ⟨_, rfl, rfl⟩

theorem exists_run_assertBit (hx : x.Within s) (h : x.Uses k) (message : String) :
    ∃ u, (assertBit x message).run s = (.ok (), u) ∧ u.wireCount = s.wireCount :=
  exists_run_gate hf hx hx hx h.exists_eq h.exists_eq message false

theorem exists_run_assertZero (hx : x.Within s) (h : x.Uses k) (message : String) :
    ∃ u, (assertZero x message).run s = (.ok (), u) ∧ u.wireCount = s.wireCount := by
  have hproduct : product? s.tag (.constant 0) (.constant 0) = some (.constant 0) := rfl
  have haccess : s.access [.constant 0, .constant 0, x] = .ok () :=
    R1CS.access_eq_ok hf (by simpa [Linear.Within] using hx)
  obtain ⟨c, hc⟩ := (h.difference_left (not_uses_constant 0 k) s.tag).exists_eq
  rw [assertZero, run_gate, haccess, hproduct]
  simp only [hc, run_zeroGate]
  exact ⟨_, rfl, rfl⟩

variable (hs : s.WellFormed)
include hs

/-- Two expressions are connected unless their difference is a constant. -/
theorem exists_run_connect (hx : x.Within s) (hy : y.Within s)
    (h : (difference s.tag x y).Uses k) (message : String) :
    ∃ u, (connect x y message).run s = (.ok (), u) ∧ u.wireCount = s.wireCount := by
  rw [connect, run_bind_of_ok (run_sub_of_within hf hx hy)]
  exact exists_run_assertZero hf (within_difference hs.wireCount_pos hx hy) h message

theorem exists_run_mul_combination (hx : x.Within s) (hy : y.Within s)
    (hxc : ∃ c, x = .combination c) (hyc : ∃ c, y = .combination c) (message : String) :
    ∃ u, (mul x y message).run s = (.ok (s.wireAt s.wireCount), u) ∧
      u.wireCount = s.wireCount + 1 := by
  obtain ⟨v, hv⟩ := R1CS.productValue_isOk hs hx hy
  obtain ⟨c, rfl⟩ := hxc
  obtain ⟨d, rfl⟩ := hyc
  rw [run_mul, R1CS.access_eq_ok hf (by simpa using ⟨hx, hy⟩)]
  simp only [product?, hv]
  exact ⟨_, rfl, rfl⟩

/-- A selection between an expression and a constant takes one wire, and its answer does not change
with earlier ones. -/
theorem exists_run_selectScalar {j : ℕ} (hb : b.Within s) (hx : x.Within s) (hbUses : b.Uses j)
    (hxUses : x.Uses k) (a : Int) :
    ∃ z u, (selectScalar b x (.constant a)).run s = (.ok z, u) ∧ u.wireCount = s.wireCount + 1 ∧
      ∀ l < s.wireCount, ¬ z.Uses l := by
  have ha : (Linear.constant a).Within s := trivial
  have hd := hxUses.difference_left (not_uses_constant a k) s.tag
  obtain ⟨u, hmul, hcount⟩ := exists_run_mul_combination hf hs hb
    (within_difference hs.wireCount_pos hx ha) hbUses.exists_eq hd.exists_eq "multiplication error"
  have hretains := (keeps_mul R1CS.isFrame_retains _ _ _).of_run hmul
  have hproduct : (s.wireAt s.wireCount).Within u := by
    rw [R1CS.wireAt_eq hretains.grows.extends_.tag.symm]
    exact within_wireAt (by omega)
  refine ⟨Linear.sum u.tag [.constant 0, s.wireAt s.wireCount, .constant a], u, ?_, hcount, ?_⟩
  · rw [selectScalar, run_bind_of_ok (run_sub_of_within hf hx ha), run_bind_of_ok hmul]
    exact run_add_of_within (hretains.frozen.trans hf) hproduct trivial
  · intro l hl
    have hother := not_not.mp (not_uses_wireAt s hl.ne')
    rw [Uses, not_not, value_sum (oneAt_zero l), value_sum (oneAt_zero 0)]
    simp only [List.map_cons, List.map_nil, hother]
    rfl

end

end Build

end RankOne
