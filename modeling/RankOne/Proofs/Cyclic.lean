import RankOne.Proofs.Allocation
import RankOne.Proofs.Calculation
import RankOne.Proofs.Transition

/-!
# The parts of a cyclic circuit

A step allocates its wires first, and then constrains three things: what is carried in, the proof
before, and what the transition makes of it. Each part is looked at by itself, from both sides: the
values of an honest run satisfy its gates, and whatever satisfies its gates says what it should.
-/

set_option autoImplicit false

namespace RankOne

theorem Transition.IsFaithful.completes {t : Transition} (h : t.IsFaithful) : t.Completes where
  program := h.program
  exists_run hs hw hf hpos hk := by
    obtain ⟨y, u, hrun, -⟩ := h.run_eq_ok hs hw hf hpos (R1CS.getElem?_values hs hw hk)
    exact ⟨y, u, hrun⟩

namespace Cyclic
open Build

section Parts

def constrainCarried (base : Int) (flag inner carried : Linear) : Build Unit := do
  assertBit flag "flag is boolean"
  let selected ← selectScalar flag inner (.constant base)
  connect carried selected "carried value"

def constrainNext (t : Transition) (z carried : Linear) : Build Unit := do
  let next ← t.constrain carried
  connect z next "transition"

variable {s u w : R1CS} {base : Int} {flag inner carried z : Linear} {t : Transition} {k : ℕ}

theorem keeps_constrainCarried {R : R1CS → R1CS → Prop} (hR : R1CS.IsFrame R) :
    (constrainCarried base flag inner carried).Keeps R :=
  keeps_bind hR (keeps_gate hR _ _ _ _ _) fun _ =>
    keeps_bind hR (keeps_selectScalar hR _ _ _) fun _ => keeps_connect hR _ _ _

/-- The states in between, with what the gates come to that each operation adds. -/
theorem exists_stages_carried (hs : s.WellFormed) (hflag : flag.Within s) (hinner : inner.Within s)
    (hcarried : carried.Within s)
    (h : (constrainCarried base flag inner carried).run s = (.ok (), u)) :
    ∃ selected s₁ s₂,
      s.Emits s₁ (fun v => flag.value v = 0 ∨ flag.value v = 1) ∧
      (selectScalar flag inner (.constant base)).run s₁ = (.ok selected, s₂) ∧
      s₁.Emits s₂ (fun v => selected.value v = flag.value v * (inner.value v - base) + base) ∧
      selected.Within s₂ ∧ s₂.Emits u (fun v => carried.value v = selected.value v) := by
  obtain ⟨_, s₁, hbit, h⟩ := of_run_bind h
  obtain ⟨selected, s₂, hselect, hconnect⟩ := of_run_bind h
  obtain ⟨hemits₁, -⟩ := (means_assertBit hs hflag _).of_run hbit
  have hext₁ := hemits₁.grows.extends_
  have hs₁ := hemits₁.grows.wellFormed hs
  obtain ⟨hemits₂, hselected⟩ := (means_selectScalar hs₁ (hflag.extend hext₁) (hinner.extend hext₁)
    (y := .constant base) trivial).of_run hselect
  have hs₂ := hemits₂.grows.wellFormed hs₁
  obtain ⟨hemits₃, -⟩ := (means_connect hs₂
    (hcarried.extend (hext₁.trans hemits₂.grows.extends_)) hselected _).of_run hconnect
  exact ⟨selected, s₁, s₂, hemits₁, hselect, hemits₂, hselected, hemits₃⟩

/-- Values that carry in what the flag stands for satisfy the gates. -/
theorem fulfils_constrainCarried (hs : s.WellFormed) (hw : s.witnessed = true)
    (hflag : flag.Within s) (hinner : inner.Within s) (hcarried : carried.Within s)
    (hbit : flag.value s.valuation = 0 ∨ flag.value s.valuation = 1)
    (hvalue : carried.value s.valuation =
      flag.value s.valuation * (inner.value s.valuation - base) + base)
    (h : (constrainCarried base flag inner carried).run s = (.ok (), u)) : s.Fulfils u := by
  obtain ⟨selected, s₁, s₂, hemits₁, hselect, hemits₂, hselected, hemits₃⟩ :=
    exists_stages_carried hs hflag hinner hcarried h
  have hext₁ := hemits₁.grows.extends_
  have hext₂ := hext₁.trans hemits₂.grows.extends_
  have hext₃ := hext₂.trans hemits₃.grows.extends_
  have hs₁ := hemits₁.grows.wellFormed hs
  have hs₂ := hemits₂.grows.wellFormed hs₁
  have hu := hemits₃.grows.wellFormed hs₂
  have hflag₁ := hflag.value_extend hs hext₁
  have hinner₁ := hinner.value_extend hs hext₁
  obtain ⟨hfulfils₂, -, hselect₂⟩ := (yields_selectScalar ⟨hs₁, hext₁.witnessed.trans hw⟩
    (hflag.extend hext₁) (hinner.extend hext₁) (y := .constant base) trivial).of_run hselect
  have hchosen : selected.value s₂.valuation =
      flag.value s.valuation * (inner.value s.valuation - base) + base := by
    rw [hselect₂, hflag₁, hinner₁]
    rfl
  have hfulfils₁ : s.Fulfils s₁ := by
    apply hemits₁.fulfils (R1CS.valuation_zero hs₁ (hext₁.witnessed.trans hw))
    rwa [hflag₁]
  have hfulfils₃ : s₂.Fulfils u := by
    apply hemits₃.fulfils (R1CS.valuation_zero hu (hext₃.witnessed.trans hw))
    rw [hcarried.value_extend hs hext₃, hselected.value_extend hs₂ hemits₃.grows.extends_, hchosen,
      hvalue]
  exact (hfulfils₁.trans hs₁ hfulfils₂).trans hs₂ hfulfils₃

theorem carried_of_holds (hs : s.WellFormed) (hflag : flag.Within s) (hinner : inner.Within s)
    (hcarried : carried.Within s)
    (h : (constrainCarried base flag inner carried).run s = (.ok (), u)) (huw : u.Extends w)
    {v : Int → Scalar} (hone : v 0 = 1) (hholds : ∀ g ∈ w.gates, g.Holds v) :
    (flag.value v = 0 ∨ flag.value v = 1) ∧
      carried.value v = flag.value v * (inner.value v - base) + base := by
  obtain ⟨selected, s₁, s₂, hemits₁, -, hemits₂, -, hemits₃⟩ :=
    exists_stages_carried hs hflag hinner hcarried h
  have hext₃ := hemits₃.grows.extends_.trans huw
  have hext₂ := hemits₂.grows.extends_.trans hext₃
  refine ⟨hemits₁.of_holds hext₂ hone hholds, ?_⟩
  exact (hemits₃.of_holds huw hone hholds).trans (hemits₂.of_holds hext₃ hone hholds)

theorem parallel_constrainCarried {s' : R1CS} (h : s.Twins s') (hflag : flag.Within s)
    (hinner : inner.Within s) (hcarried : carried.Within s) :
    Parallel (fun _ _ _ _ => True) (constrainCarried base flag inner carried)
      (constrainCarried base (flag.withOwner (some s'.tag)) (inner.withOwner (some s'.tag))
        (carried.withOwner (some s'.tag))) s s' := by
  apply parallel_bind (parallel_gate h hflag hflag hflag "flag is boolean" false)
  rintro s₁ s₁' _ _ h₁ hext hext' -
  rw [← hext'.tag]
  apply parallel_bind (parallel_selectScalar h₁ (hflag.extend hext) (hinner.extend hext)
    (y := .constant base) trivial)
  rintro s₂ s₂' selected _ h₂ hext₂ hext₂' ⟨hselected, rfl⟩
  rw [← hext₂'.tag]
  exact parallel_connect h₂ (hcarried.extend (hext.trans hext₂)) hselected _

theorem exists_stages_next (p : t.Program) (hs : s.WellFormed) (hf : s.frozen = false)
    (hpos : 0 < k) (hk : k < s.wireCount) (hz : z.Within s)
    (h : (constrainNext t z (s.wireAt k)).run s = (.ok (), u)) :
    ∃ y s₁, (t.constrain (s.wireAt k)).run s = (.ok y, s₁) ∧ s.Grows s₁ ∧ y.Within s₁ ∧
      s₁.Emits u (fun v => z.value v = y.value v) := by
  obtain ⟨y, s₁, hrun, hconnect⟩ := of_run_bind h
  obtain ⟨hemits, hy⟩ := (p.means hs hf hpos hk).of_run hrun
  obtain ⟨hemits', -⟩ := (means_connect (hemits.grows.wellFormed hs)
    (hz.extend hemits.grows.extends_) hy _).of_run hconnect
  exact ⟨y, s₁, hrun, hemits.grows, hy, hemits'⟩

theorem fulfils_constrainNext (ht : t.IsFaithful) (hs : s.WellFormed) (hw : s.witnessed = true)
    (hf : s.frozen = false) (hpos : 0 < k) {v : Int} (hv : s.values[k]? = some (some v))
    (hz : z.Within s) (hvalue : z.value s.valuation = t.advance v)
    (h : (constrainNext t z (s.wireAt k)).run s = (.ok (), u)) : s.Fulfils u := by
  obtain ⟨p⟩ := ht.program
  obtain ⟨y, s₁, hrun, hgrows, hy, hemits⟩ :=
    exists_stages_next p hs hf hpos (Transition.lt_wireCount_of_getElem? hs hv) hz h
  obtain ⟨y', s₁', hrun', hfulfils, -, hadvance, -⟩ := ht.exists_run hs hw hf hpos hv
  obtain ⟨hyy, rfl⟩ := Prod.mk.inj (hrun.symm.trans hrun')
  obtain rfl := Except.ok.inj hyy
  have hs₁ := hgrows.wellFormed hs
  have hext := hgrows.extends_.trans hemits.grows.extends_
  refine hfulfils.trans hs₁ (hemits.fulfils ?_ ?_)
  · exact R1CS.valuation_zero (hemits.grows.wellFormed hs₁) (hext.witnessed.trans hw)
  · rw [hz.value_extend hs hext, hy.value_extend hs₁ hemits.grows.extends_, hadvance, hvalue]

theorem next_of_holds (ht : t.IsSound) (hs : s.WellFormed) (hf : s.frozen = false) (hpos : 0 < k)
    (hk : k < s.wireCount) (hz : z.Within s)
    (h : (constrainNext t z (s.wireAt k)).run s = (.ok (), u)) (huw : u.Extends w)
    {v : Int → Scalar} (hone : v 0 = 1) (hholds : ∀ g ∈ w.gates, g.Holds v) :
    z.value v = t.advance (v k).val := by
  obtain ⟨p⟩ := ht.program
  obtain ⟨y, s₁, hrun, -, -, hemits⟩ := exists_stages_next p hs hf hpos hk hz h
  have hext := hemits.grows.extends_.trans huw
  rw [hemits.of_holds huw hone hholds]
  exact ht.value_eq hs hf hpos hk hrun v hone
    fun g hg => hholds g (hext.gates.subset (List.mem_of_mem_drop hg))

theorem parallel_constrainNext {s' : R1CS} (ht : t.Completes) (h : s.Twins s')
    (hf : s.frozen = false) (hpos : 0 < k) (hk : k < s.wireCount) (hz : z.Within s) :
    Parallel (fun _ _ _ _ => True) (constrainNext t z (s.wireAt k))
      (constrainNext t (z.withOwner (some s'.tag)) (s'.wireAt k)) s s' := by
  obtain ⟨p⟩ := ht.program
  have hf' : s'.frozen = false := h.frozen.trans hf
  have hk' : k < s'.wireCount := by rwa [h.wireCount]
  apply parallel_bind (p.parallel h hf hpos hk (fun hw => ht.exists_run h.left hw hf hpos hk)
    fun hw => ht.exists_run h.right hw hf' hpos hk')
  rintro s₁ s₁' y _ h₁ hext hext' ⟨hy, rfl⟩
  rw [← hext'.tag]
  exact parallel_connect h₁ (hz.extend hext) hy _

end Parts

section Previous

def constrainValid (flag valid : Linear) : Build Unit := do
  assertBit valid "valid is boolean"
  let invalid ← Build.not valid
  gate flag invalid (.constant 0) "previous proof verifies"

theorem means_constrainValid {s : R1CS} {flag valid : Linear} (hs : s.WellFormed)
    (hflag : flag.Within s) (hvalid : valid.Within s) :
    Means (fun _ _ => True)
      (fun _ v => (valid.value v = 0 ∨ valid.value v = 1) ∧
        flag.value v * (1 - valid.value v) = 0)
      (constrainValid flag valid) s := by
  have hone : ∀ v, (Linear.constant 1).value v = 1 := fun v => Int.cast_one
  have hzero : ∀ v, (Linear.constant 0).value v = 0 := fun v => Int.cast_zero
  apply means_bind (fun _ _ _ => True) (fun _ _ v => flag.value v * (1 - valid.value v) = 0)
    (means_assertBit hs hvalid _)
  · intro _ s₁ hs₁ _
    apply means_bind (fun _ _ _ => True) (fun invalid _ v => flag.value v * invalid.value v = 0)
      (means_sub (hs₁.wellFormed hs) (x := .constant 1) trivial (hvalid.extend hs₁.extends_))
    · intro invalid s₂ hs₂ hinvalid
      have hgate := means_gate (hs₂.wellFormed (hs₁.wellFormed hs))
        (hflag.extend (hs₁.trans hs₂).extends_) hinvalid.1 (z := .constant 0) trivial
        "previous proof verifies" false
      simp only [hzero] at hgate
      exact hgate
    · intro invalid _ _ _ hinvalid _
      refine ⟨trivial, fun v hv => ?_⟩
      have hvalue : invalid.value v = 1 - valid.value v :=
        (hinvalid.2 v hv).trans (congrArg (· - valid.value v) (hone v))
      rw [hvalue]
      exact and_iff_right trivial
  · exact fun _ _ => ⟨trivial, fun _ _ => Iff.rfl⟩

variable {G₁ G₂ Gₜ : Type} [CodedGroup G₁] [CodedGroup G₂] [Mul Gₜ] [DecidableEq Gₜ]
  [Pairing G₁ G₂ Gₜ] {vk vk' : Option (VerifyingKey G₁ G₂)} {mode : Mode}
  {proof inputs proof' inputs' : Datum (Proof G₁ G₂)} {s u : R1CS} {flag : Linear} {b : Int}

theorem check_eq_zero_or_one (h : VerifyingKey.check vk proof inputs = .ok b) : b = 0 ∨ b = 1 := by
  unfold VerifyingKey.check at h
  split at h
  · cases h
  · split at h
    · exact .inl (Except.ok.inj h).symm
    · exact .inl (Except.ok.inj h).symm
    · split at h
      · rename_i verdict _
        obtain rfl := Except.ok.inj h
        cases verdict.passed
        · exact .inl rfl
        · exact .inr rfl
      · exact .inl (Except.ok.inj h).symm
      · cases h

def constrainMode (vk : Option (VerifyingKey G₁ G₂)) (mode : Mode) (flag : Linear)
    (proof inputs : Datum (Proof G₁ G₂)) : Build Unit :=
  match mode with
  | .checked => constrainPrevious vk flag proof inputs
  | .placeholder => pure ()

theorem keeps_constrainMode {R : R1CS → R1CS → Prop} (hR : R1CS.IsFrame R) :
    (constrainMode vk mode flag proof inputs).Keeps R := by
  cases mode with
  | placeholder => exact keeps_pure hR ()
  | checked =>
    exact keeps_bind hR (keeps_wire hR _ (.inl rfl)) fun _ =>
      keeps_bind hR (keeps_gate hR _ _ _ _ _) fun _ =>
        keeps_bind hR (keeps_sub hR _ _) fun _ => keeps_gate hR _ _ _ _ _

/-- The states in between of a checked run: what the verification answers gets a wire, which the
gates then make a bit and tie to the flag. -/
theorem exists_stages_checked (hs : s.WellFormed) (hf : s.frozen = false) (hflag : flag.Within s)
    (h : (constrainMode vk .checked flag proof inputs).run s = (.ok (), u)) :
    ∃ x, s.wireValue (fun _ => VerifyingKey.check vk proof inputs) = .ok x ∧
      s.Emits (s.push x none) (fun _ => True) ∧
      (s.push x none).Emits u (fun v => (v s.wireCount = 0 ∨ v s.wireCount = 1) ∧
        flag.value v * (1 - v s.wireCount) = 0) := by
  obtain ⟨valid, s₁, hwire, hrest⟩ := of_run_bind h
  obtain ⟨hpush, hvalid⟩ := (means_wire _ none).of_run hwire
  obtain ⟨hemits, -⟩ := (means_constrainValid (hpush.grows.wellFormed hs)
    (hflag.extend hpush.grows.extends_) hvalid).of_run hrest
  rw [run_wire, if_neg (by simp [hf])] at hwire
  cases hvalue : s.wireValue (fun _ => VerifyingKey.check vk proof inputs) with
  | error e =>
    rw [hvalue] at hwire
    cases (Prod.mk.inj hwire).1
  | ok x =>
    rw [hvalue] at hwire
    obtain ⟨hwireAt, rfl⟩ := Prod.mk.inj hwire
    obtain rfl := Except.ok.inj hwireAt
    simp only [Linear.value_wireAt] at hemits
    exact ⟨x, rfl, hpush, hemits⟩

/-- The gates hold of an honest run: a proof before, if there is one, verifies. -/
theorem fulfils_constrainMode (hs : s.WellFormed) (hw : s.witnessed = true) (hf : s.frozen = false)
    (hflag : flag.Within s)
    (hchecks : mode = .checked → ∃ b, VerifyingKey.check vk proof inputs = .ok b ∧
      (flag.value s.valuation = 0 ∨ b = 1))
    (h : (constrainMode vk mode flag proof inputs).run s = (.ok (), u)) : s.Fulfils u := by
  cases mode with
  | placeholder =>
    obtain rfl := (Prod.mk.inj h).2
    exact (R1CS.emits_refl s fun _ _ => trivial).fulfils (R1CS.valuation_zero hs hw) trivial
  | checked =>
    obtain ⟨b, hb, hflagOrValid⟩ := hchecks rfl
    obtain ⟨x, hvalue, hpush, hemits⟩ := exists_stages_checked hs hf hflag h
    rw [R1CS.wireValue, if_pos hw, hb] at hvalue
    obtain rfl := Except.ok.inj hvalue
    have hs₁ := hpush.grows.wellFormed hs
    have hu := hemits.grows.wellFormed hs₁
    have hnumber : u.valuation s.wireCount = b := by
      rw [R1CS.valuation_of_getElem? (hemits.grows.extends_.getElem?_values
        (R1CS.getElem?_push hs _ none)), cast_reduce]
    refine (hpush.fulfils (R1CS.valuation_zero hs₁ hw) trivial).trans hs₁ (hemits.fulfils ?_ ?_)
    · exact R1CS.valuation_zero hu (hemits.grows.extends_.witnessed.trans hw)
    · rw [hnumber, hflag.value_extend hs (hpush.grows.trans hemits.grows).extends_]
      constructor
      · rcases check_eq_zero_or_one hb with rfl | rfl <;> simp
      · rcases hflagOrValid with hzero | rfl
        · rw [hzero, zero_mul]
        · rw [Int.cast_one, sub_self, mul_zero]

/-- The gates of a checked step leave no other choice than that the verdict is a bit, which is set
where the flag is. -/
theorem valid_of_holds {w : R1CS} (hs : s.WellFormed) (hf : s.frozen = false)
    (hflag : flag.Within s)
    (h : (constrainMode vk .checked flag proof inputs).run s = (.ok (), u)) (huw : u.Extends w)
    {v : Int → Scalar} (hone : v 0 = 1) (hholds : ∀ g ∈ w.gates, g.Holds v) :
    (v s.wireCount = 0 ∨ v s.wireCount = 1) ∧ flag.value v * (1 - v s.wireCount) = 0 := by
  obtain ⟨x, -, -, hemits⟩ := exists_stages_checked hs hf hflag h
  exact hemits.of_holds huw hone hholds

/-- Side by side the circuit is the same, whatever the keys and the data are, as long as they answer
the verification where there are values. -/
theorem parallel_constrainMode {s' : R1CS} (h : s.Twins s') (hflag : flag.Within s)
    (hs : mode = .checked → s.witnessed = true → ∃ b, VerifyingKey.check vk proof inputs = .ok b)
    (hs' : mode = .checked → s'.witnessed = true →
      ∃ b, VerifyingKey.check vk' proof' inputs' = .ok b) :
    Parallel (fun _ _ _ _ => True) (constrainMode vk mode flag proof inputs)
      (constrainMode vk' mode (flag.withOwner (some s'.tag)) proof' inputs') s s' := by
  cases mode with
  | placeholder => exact parallel_pure h trivial
  | checked =>
    apply parallel_bind (parallel_wire h none (R1CS.wireValue_isOk (hs rfl))
      (R1CS.wireValue_isOk (hs' rfl)))
    rintro s₁ s₁' valid _ h₁ hext hext' ⟨hvalid, rfl⟩
    rw [← hext'.tag]
    apply parallel_bind (parallel_gate h₁ hvalid hvalid hvalid _ _)
    rintro s₂ s₂' _ _ h₂ hext₂ hext₂' -
    rw [← hext₂'.tag]
    apply parallel_bind (parallel_sub h₂ (x := .constant 1) trivial (hvalid.extend hext₂))
    rintro s₃ s₃' invalid _ h₃ hext₃ hext₃' ⟨hinvalid, rfl⟩
    rw [← hext₃'.tag]
    exact parallel_gate h₃ (hflag.extend (hext.trans (hext₂.trans hext₃))) hinvalid
      (z := .constant 0) trivial _ _

end Previous

end Cyclic

end RankOne
