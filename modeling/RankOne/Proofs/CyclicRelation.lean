import RankOne.Proofs.Avoidance
import RankOne.Proofs.CyclicSystem
import RankOne.Proofs.Verdict

/-!
# The relation of a counting step

A step of a transition that raises nothing can be built with any numbers and any proof, so what a
counting step is handed is judged by its gates alone. They hold of the values on its wires exactly
if the flag is a bit, the value is one more than the value carried in, and that is the value before
or the base, as the flag says. In a checked step a flag that is set needs a verdict that is set as
well.
-/

set_option autoImplicit false

namespace RankOne

/-- A witness passes exactly if the closed system can be built with it and passes its check. -/
theorem Circuit.mockProve_eq_ok_iff {P : Type} {c : Circuit P} {w : Option (Witness P)} {s : R1CS} :
    c.mockProve w = .ok s ↔ c.synthesize w = .ok s ∧ s.check = .ok none := by
  rw [mockProve]
  cases c.synthesize w with
  | error e => simp
  | ok u =>
    simp only [Except.ok.injEq]
    constructor
    · intro h
      split at h
      · cases h
      · cases h
      · rename_i hcheck
        obtain rfl := Except.ok.inj h
        exact ⟨rfl, hcheck⟩
    · rintro ⟨rfl, hcheck⟩
      rw [hcheck]

theorem Circuit.synthesize_congr {P : Type} {c : Circuit P} {w w' : Witness P}
    (h : c.body (some w) = c.body (some w')) : c.synthesize (some w) = c.synthesize (some w') := by
  rw [synthesize, build, h]
  rfl

theorem R1CS.valuation_assign_natCast (s : R1CS) (a : List Int) (m : ℕ) :
    (s.assign a).valuation m = (a.getD m 0 : Int) := by
  by_cases hm : m < a.length
  · rw [R1CS.valuation_of_getElem? (w := a[m]) (by simp [R1CS.assign, hm])]
    simp [hm]
  · simp [R1CS.valuation, R1CS.slot?, R1CS.assign, placeAmong, hm]

namespace Cyclic
open Build Linear
open CodedGroup (multiple)

section Runs
variable {s : R1CS} {flag inner carried z : Linear} {j k l : ℕ}

/-- What is carried in can always be constrained, with one wire more. -/
theorem exists_run_constrainCarried (hs : s.WellFormed) (hf : s.frozen = false)
    (hflag : flag.Within s) (hinner : inner.Within s) (hcarried : carried.Within s)
    (hj : flag.Uses j) (hk : inner.Uses k) (hl : carried.Uses l) (hlt : l < s.wireCount)
    (base : Int) :
    ∃ u, (constrainCarried base flag inner carried).run s = (.ok (), u) ∧
      u.wireCount = s.wireCount + 1 := by
  obtain ⟨s₁, hbit, hcount₁⟩ := exists_run_assertBit hf hflag hj "flag is boolean"
  have hretains₁ := (keeps_gate R1CS.isFrame_retains _ _ _ _ _).of_run hbit
  have hs₁ := hretains₁.grows.wellFormed hs
  have hf₁ := hretains₁.frozen.trans hf
  have hext₁ := hretains₁.grows.extends_
  obtain ⟨selected, s₂, hselect, hcount₂, hother⟩ := exists_run_selectScalar hf₁ hs₁
    (hflag.extend hext₁) (hinner.extend hext₁) hj hk base
  have hretains₂ := (keeps_selectScalar R1CS.isFrame_retains _ _ _).of_run hselect
  obtain ⟨-, hselected⟩ := (means_selectScalar hs₁ (hflag.extend hext₁) (hinner.extend hext₁)
    (y := .constant base) trivial).of_run hselect
  -- what is selected does not change with what is carried in, so their difference is no constant
  obtain ⟨u, hconnect, hcount₃⟩ := exists_run_connect (hretains₂.frozen.trans hf₁)
    (hretains₂.grows.wellFormed hs₁) (hcarried.extend (hext₁.trans hretains₂.grows.extends_))
    hselected (hl.difference_left (hother l (by omega)) _) "carried value"
  refine ⟨u, ?_, by omega⟩
  rw [constrainCarried, run_bind_of_ok hbit, run_bind_of_ok hselect, hconnect]

/-- What a transition answers can be tied to an earlier wire that it is not handed, since this wire
does not enter the answer. -/
theorem exists_run_constrainNext {t : Transition} (ht : t.Completes) (hs : s.WellFormed)
    (hw : s.witnessed = true) (hf : s.frozen = false) (hpos : 0 < k) (hk : k < s.wireCount)
    (hj : 0 < j) (hlt : j < s.wireCount) (hne : k ≠ j) :
    ∃ u, (constrainNext t (s.wireAt j) (s.wireAt k)).run s = (.ok (), u) := by
  obtain ⟨p⟩ := ht.program
  obtain ⟨y, s₁, hrun⟩ := ht.exists_run hs hw hf hpos hk
  have hretains := p.keeps R1CS.isFrame_retains hs hf hpos hk
  rw [hrun] at hretains
  obtain ⟨-, hy⟩ := (p.means hs hf hpos hk).of_run hrun
  have hother : ¬ y.Uses j := p.not_uses hs hf hpos hk hj hlt hne hrun
  obtain ⟨u, hconnect, -⟩ := exists_run_connect (hretains.frozen.trans hf)
    (hretains.grows.wellFormed hs) ((within_wireAt hlt).extend hretains.grows.extends_) hy
    ((uses_wireAt s hj).difference_left hother _) "transition"
  exact ⟨u, by rw [constrainNext, run_bind_of_ok hrun, hconnect]⟩

variable {G₁ G₂ Gₜ : Type} [CodedGroup G₁] [CodedGroup G₂] [Mul Gₜ] [DecidableEq Gₜ]
  [Pairing G₁ G₂ Gₜ] {vk : Option (VerifyingKey G₁ G₂)} {mode : Mode}
  {proof inputs : Datum (Proof G₁ G₂)}

/-- The proof before can be constrained if the verification answers. -/
theorem exists_run_constrainMode (hs : s.WellFormed) (hf : s.frozen = false)
    (hflag : flag.Within s) (hj : flag.Uses j)
    (hchecks : mode = .checked → s.witnessed = true →
      ∃ b, VerifyingKey.check vk proof inputs = .ok b) :
    ∃ u, (constrainMode vk mode flag proof inputs).run s = (.ok (), u) := by
  cases mode with
  | placeholder => exact ⟨s, rfl⟩
  | checked =>
    obtain ⟨x, hx⟩ : ∃ x, s.wireValue (fun _ => VerifyingKey.check vk proof inputs) = .ok x :=
      R1CS.wireValue_isOk (hchecks rfl)
    have hwire : (wire (fun _ => VerifyingKey.check vk proof inputs) none).run s =
        (.ok (s.wireAt s.wireCount), s.push x none) := by
      rw [run_wire, if_neg (by simp [hf]), hx]
    have hpush := R1CS.grows_push hx hf none
    have hvalid : (s.wireAt s.wireCount).Within (s.push x none) :=
      within_wireAt (s := s.push x none) (Nat.lt_succ_self _)
    have hvalidUses := uses_wireAt s hs.wireCount_pos
    obtain ⟨s₁, hbit, -⟩ :=
      exists_run_assertBit (s := s.push x none) hf hvalid hvalidUses "valid is boolean"
    have hretains := (keeps_gate R1CS.isFrame_retains _ _ _ _ _).of_run hbit
    have hext := hretains.grows.extends_
    have hs₁ := hretains.grows.wellFormed (hpush.wellFormed hs)
    have hf₁ : s₁.frozen = false := hretains.frozen.trans hf
    have hone : (Linear.constant 1).Within s₁ := trivial
    have hnot := run_sub_of_within hf₁ hone (hvalid.extend hext)
    have hinvalid := Uses.difference_right (not_uses_constant 1 _) hvalidUses s₁.tag
    obtain ⟨u, hgate, -⟩ := exists_run_gate (z := .constant 0) hf₁
      (hflag.extend (hpush.extends_.trans hext))
      (within_difference hs₁.wireCount_pos hone (hvalid.extend hext)) trivial hj.exists_eq
      hinvalid.exists_eq "previous proof verifies" false
    refine ⟨u, ?_⟩
    rw [constrainMode, constrainPrevious, run_bind_of_ok hwire, run_bind_of_ok hbit]
    exact (run_bind_of_ok hnot).trans hgate

end Runs

section Places
variable (G₁ G₂ : Type) [CodedGroup G₁] [CodedGroup G₂]

def innerWire : ℕ := 3 + limbCount G₁ G₂

def carriedWire : ℕ := innerWire G₁ G₂ + stepInputCount G₁ G₂

def validWire : ℕ := carriedWire G₁ G₂ + 2

end Places

section Relation
variable {G₁ G₂ Gₜ : Type} [CodedGroup G₁] [CodedGroup G₂] [Mul Gₜ] [DecidableEq Gₜ]
  [Pairing G₁ G₂ Gₜ] {t : Transition} {vk : Option (VerifyingKey G₁ G₂)} {mode : Mode}
  {w : Option (Witness (Proof G₁ G₂))} {s : R1CS}

theorem exists_run_carried (d : Supply w) (base : Int) :
    ∃ u, (constrainCarried base (wires G₁ G₂).flag (wires G₁ G₂).inner
      (wires G₁ G₂).carried).run d.system = (.ok (), u) ∧ u.wireCount = validWire G₁ G₂ := by
  obtain ⟨-, hflag, hinner, hcarried⟩ := d.within_wires
  have hcount := d.wireCount_system
  obtain ⟨u, hrun, hcount'⟩ := exists_run_constrainCarried d.wellFormed_system rfl hflag hinner
    hcarried (uses_wireAt _ (by omega)) (uses_wireAt _ (by omega)) (uses_wireAt _ (by omega))
    (by omega) base
  refine ⟨u, hrun, ?_⟩
  rw [hcount', hcount, validWire, carriedWire, innerWire]
  omega

/-- Where there are values, a step can be built with whatever it is made of, if the verification
answers. -/
theorem exists_run_body_of_isSome (ht : t.Completes) (d : Supply w) (hw : w.isSome = true)
    (hchecks : Checks vk mode w) :
    ∃ u, (body t vk mode w).run (.fresh 0 w.isSome) = (.ok (), u) := by
  obtain ⟨-, hflag, -, -⟩ := d.within_wires
  obtain ⟨s₁, hrun₁, -⟩ := exists_run_carried d t.base
  have hretains₁ := (keeps_constrainCarried R1CS.isFrame_retains).of_run hrun₁
  have hext₁ := hretains₁.grows.extends_
  have hs₁ := hretains₁.grows.wellFormed d.wellFormed_system
  have hf₁ : s₁.frozen = false := hretains₁.frozen
  obtain ⟨s₂, hrun₂⟩ := exists_run_constrainMode hs₁ hf₁ (hflag.extend hext₁)
    (uses_wireAt _ (Nat.succ_pos 1)) fun hmode hw => hchecks hmode (hext₁.witnessed.symm.trans hw)
  have hretains₂ := (keeps_constrainMode R1CS.isFrame_retains).of_run hrun₂
  have hext₂ := hext₁.trans hretains₂.grows.extends_
  have hcount := d.wireCount_system ▸ hext₂.wireCount
  -- the value of a step is on an earlier wire than the value that is carried in
  obtain ⟨u, hrun₃⟩ := exists_run_constrainNext ht (hretains₂.grows.wellFormed hs₁)
    (hext₂.witnessed.trans hw) (hretains₂.frozen.trans hf₁)
    (k := 3 + limbCount G₁ G₂ + stepInputCount G₁ G₂) (by omega) (by omega) Nat.one_pos (by omega)
    (by omega)
  refine ⟨u, ?_⟩
  rw [R1CS.wireAt_eq hext₂.tag, R1CS.wireAt_eq hext₂.tag] at hrun₃
  rw [body_eq, run_bind_of_ok d.run_allocate, run_bind_of_ok hrun₁, run_bind_of_ok hrun₂]
  exact hrun₃

/-- The state of a checked step before the verdict gets its wire. -/
theorem exists_stage_valid (p : t.Program) (d : Supply w)
    (hs : (stepCircuit t vk .checked).circuit.synthesize w = .ok s) :
    ∃ s₁ s₂, s₁.wireCount = validWire G₁ G₂ ∧ d.system.Retains s₁ ∧ s₂.Extends s ∧
      (constrainMode vk .checked (wires G₁ G₂).flag (Witness.get w "proof")
        (Witness.get w "inputs")).run s₁ = (.ok (), s₂) := by
  obtain ⟨u, hrun, rfl⟩ := Circuit.synthesize_eq_ok_iff.mp hs
  have hbody : (body t vk .checked w).run (.fresh 0 w.isSome) = (.ok (), u) := hrun
  obtain ⟨s₁, s₂, hcarried, hmode, -, hretains₁, -, hretains₃⟩ := exists_stages p d hbody
  obtain ⟨s₁', hcarried', hcount⟩ := exists_run_carried d t.base
  obtain rfl : s₁ = s₁' := congrArg Prod.snd (hcarried.symm.trans hcarried')
  exact ⟨s₁, s₂, hcount, hretains₁,
    hretains₃.grows.extends_.trans (R1CS.grows_freeze u).extends_, hmode⟩

/-- What the gates of a checked step say of the verdict, under any assignment. -/
theorem valid_of_synthesize (p : t.Program) (d : Supply w)
    (hs : (stepCircuit t vk .checked).circuit.synthesize w = .ok s) {v : Int → Scalar}
    (hone : v 0 = 1) (hholds : ∀ g ∈ s.gates, g.Holds v) :
    (v (validWire G₁ G₂) = 0 ∨ v (validWire G₁ G₂) = 1) ∧
      v (2 : ℕ) * (1 - v (validWire G₁ G₂)) = 0 := by
  obtain ⟨s₁, s₂, hcount, hretains, hext, hrun⟩ := exists_stage_valid p d hs
  have hflag := d.within_wires.2.1.extend hretains.grows.extends_
  have hequations := valid_of_holds (hretains.grows.wellFormed d.wellFormed_system)
    hretains.frozen hflag hrun hext hone hholds
  rw [hcount, wires, Linear.value_wireAt] at hequations
  exact hequations

theorem getElem?_valid (p : t.Program) (d : Supply w) (hw : w.isSome = true)
    (hs : (stepCircuit t vk .checked).circuit.synthesize w = .ok s) {b : Int}
    (hb : VerifyingKey.check vk (Witness.get w "proof") (Witness.get w "inputs") = .ok b) :
    s.values[validWire G₁ G₂]? = some (some (reduce b)) := by
  obtain ⟨s₁, s₂, hcount, hretains, hext, hrun⟩ := exists_stage_valid p d hs
  have hext₁ := hretains.grows.extends_
  have hs₁ := hretains.grows.wellFormed d.wellFormed_system
  obtain ⟨x, hvalue, -, hemits⟩ := exists_stages_checked hs₁ hretains.frozen
    (d.within_wires.2.1.extend hext₁) hrun
  rw [R1CS.wireValue, if_pos (hext₁.witnessed.trans hw), hb] at hvalue
  obtain rfl := Except.ok.inj hvalue
  rw [← hcount]
  exact (hemits.grows.extends_.trans hext).getElem?_values (R1CS.getElem?_push hs₁ _ none)

/-- Whether a step counts up by one from where it should, modulo the order: from the value before if
the flag is set, and from the base if it is not. -/
structure Counts (z flag inner carried : Int) : Prop where
  flag_bit : reduce flag = 0 ∨ reduce flag = 1
  z_eq : reduce z = reduce (carried + 1)
  of_set : reduce flag = 1 → reduce carried = reduce inner
  of_unset : reduce flag = 0 → reduce carried = reduce Transition.counter.base

/-- The same as equations of the field, with one for the selection. -/
theorem counts_iff {z flag inner carried : Int} :
    Counts z flag inner carried ↔ ((flag : Scalar) = 0 ∨ (flag : Scalar) = 1) ∧
      (carried : Scalar) = flag * (inner - Transition.counter.base) + Transition.counter.base ∧
      (z : Scalar) = carried + 1 := by
  constructor
  · intro h
    have hz := cast_eq_cast_iff.mpr h.z_eq
    rw [Int.cast_add, Int.cast_one] at hz
    rcases h.flag_bit with hflag | hflag
    · have hcarried := cast_eq_cast_iff.mpr (h.of_unset hflag)
      have hzero := reduce_eq_zero_iff.mp hflag
      exact ⟨.inl hzero, by rw [hcarried, hzero, zero_mul, zero_add], hz⟩
    · have hcarried := cast_eq_cast_iff.mpr (h.of_set hflag)
      have hone := reduce_eq_one_iff.mp hflag
      exact ⟨.inr hone, by rw [hcarried, hone, one_mul, sub_add_cancel], hz⟩
  · rintro ⟨hbit, hcarried, hz⟩
    exact
      { flag_bit := hbit.imp reduce_eq_zero_iff.mpr reduce_eq_one_iff.mpr
        z_eq := cast_eq_cast_iff.mp (by rw [hz, Int.cast_add, Int.cast_one])
        of_set := fun hflag => cast_eq_cast_iff.mp (by
          rw [hcarried, reduce_eq_one_iff.mp hflag, one_mul, sub_add_cancel])
        of_unset := fun hflag => cast_eq_cast_iff.mp (by
          rw [hcarried, reduce_eq_zero_iff.mp hflag, zero_mul, zero_add]) }

theorem counts_of_holds (d : Supply w)
    (hs : (stepCircuit .counter vk mode).circuit.synthesize w = .ok s) {v : Int → Scalar}
    (hone : v 0 = 1) (hholds : ∀ g ∈ s.gates, g.Holds v) {z flag inner carried : Int}
    (hz : v (1 : ℕ) = z) (hflag : v (2 : ℕ) = flag) (hinner : v (innerWire G₁ G₂) = inner)
    (hcarried : v (carriedWire G₁ G₂) = carried) : Counts z flag inner carried := by
  obtain ⟨hbit, hselect, hnext⟩ :=
    equations_of_holds Transition.counter_isSound d hs hone hholds
  rw [← innerWire, ← carriedWire, hcarried, hflag, hinner] at hselect
  rw [← innerWire, ← carriedWire, hcarried, hz, Transition.counter, cast_reduce, Int.cast_add,
    cast_val, Int.cast_one] at hnext
  rw [hflag] at hbit
  exact counts_iff.mpr ⟨hbit, hselect, hnext⟩

structure IsComplete (w : Witness (Proof G₁ G₂)) (z flag : Int) (p : Proof G₁ G₂)
    (inputs : List Int) (carried : Int) : Prop where
  z_eq : Witness.get (some w) "z" = .number z
  flag_eq : Witness.get (some w) "flag" = .number flag
  proof_eq : Witness.get (some w) "proof" = .proof p
  inputs_eq : Witness.get (some w) "inputs" = .list (inputs.map .number)
  carried_eq : Witness.get (some w) "z_in" = .number carried
  length_inputs : inputs.length = stepInputCount G₁ G₂

section Complete
variable {w : Witness (Proof G₁ G₂)} {z flag carried : Int} {p : Proof G₁ G₂} {inputs : List Int}

theorem isComplete_witness (hlen : inputs.length = stepInputCount G₁ G₂) :
    IsComplete (witness z flag p inputs carried) z flag p inputs carried :=
  ⟨rfl, rfl, rfl, rfl, rfl, hlen⟩

theorem IsComplete.synthesize_eq (h : IsComplete w z flag p inputs carried) :
    (stepCircuit t vk mode).circuit.synthesize (some w) =
      (stepCircuit t vk mode).circuit.synthesize (some (witness z flag p inputs carried)) := by
  have h' : IsComplete (witness z flag p inputs carried) z flag p inputs carried :=
    isComplete_witness h.length_inputs
  apply Circuit.synthesize_congr
  change body t vk mode (some w) = body t vk mode (some (witness z flag p inputs carried))
  simp only [body, parameter, h.z_eq, h.flag_eq, h.proof_eq, h.inputs_eq, h.carried_eq, h'.z_eq,
    h'.flag_eq, h'.proof_eq, h'.inputs_eq, h'.carried_eq]

variable [LawfulCoding G₁] [LawfulCoding G₂] {vk : VerifyingKey G₁ G₂}

omit [LawfulCoding G₁] [LawfulCoding G₂] in
variable (mode vk) in
/-- With a key and a proof before the verification always answers. -/
theorem checks_some {w : Option (Witness (Proof G₁ G₂))} (hproof : Witness.get w "proof" = .proof p)
    (hinputs : Witness.get w "inputs" = .list (inputs.map .number)) :
    Checks (some vk) mode w := by
  intro _ _
  obtain ⟨b, hb, -⟩ := VerifyingKey.check_map_number vk p inputs
  exact ⟨b, by rw [hproof, hinputs, hb]⟩

variable (G₁ G₂ mode) in
/-- The draft of a step can be built, since it is built like a step with a key and data. -/
theorem exists_draft (ht : t.Completes) :
    ∃ u, (body t (none : Option (VerifyingKey G₁ G₂)) mode none).run (.fresh 0 false) =
      (.ok (), u) := by
  let inputs : List Int := List.replicate (stepInputCount G₁ G₂) 0
  let d : Supply (some (witness 0 0 (dummyProof : Proof G₁ G₂) inputs 0)) :=
    Supply.ofWitness 0 0 dummyProof 0 List.length_replicate
  let key : VerifyingKey G₁ G₂ := ⟨0, CodedGroup.generator, CodedGroup.generator,
    CodedGroup.generator, CodedGroup.generator, []⟩
  have hchecks : Checks (some key) mode (some (witness 0 0 (dummyProof : Proof G₁ G₂) inputs 0)) :=
    checks_some mode key rfl rfl
  obtain ⟨u, hrun⟩ := exists_run_body_of_isSome ht d rfl hchecks
  obtain ⟨_, u₀, hrun₀, -⟩ :=
    (parallel_body ht .absent d (checks_none none mode) hchecks).of_run hrun
  exact ⟨u₀, hrun₀⟩

/-- A step can be built with whatever it is made of, if the verification answers. -/
theorem exists_run_body (ht : t.Completes) {vk : Option (VerifyingKey G₁ G₂)}
    {w : Option (Witness (Proof G₁ G₂))} (d : Supply w) (hchecks : Checks vk mode w) :
    ∃ u, (body t vk mode w).run (.fresh 0 w.isSome) = (.ok (), u) := by
  obtain ⟨u₀, hdraft⟩ := exists_draft G₁ G₂ mode ht
  obtain ⟨u, hrun, -⟩ := exists_run_of_draft ht d hchecks hdraft
  exact ⟨u, hrun⟩

theorem exists_run_body_counter {vk : Option (VerifyingKey G₁ G₂)}
    {w : Option (Witness (Proof G₁ G₂))} (d : Supply w) (hchecks : Checks vk mode w) :
    ∃ u, (body .counter vk mode w).run (.fresh 0 w.isSome) = (.ok (), u) :=
  exists_run_body Transition.counter_isFaithful.completes d hchecks

variable (mode z flag carried p vk) in
/-- A counting step that is handed any numbers and any proof can be built, and holds them. -/
theorem exists_synthesize_counter (hlen : inputs.length = stepInputCount G₁ G₂) :
    ∃ s, (stepCircuit .counter (some vk) mode).circuit.synthesize
        (some (witness z flag p inputs carried)) = .ok s ∧
      s.values[1]? = some (some (reduce z)) ∧ s.values[2]? = some (some (reduce flag)) ∧
      s.values[innerWire G₁ G₂]? = some (some (reduce (inputs.headD 0))) ∧
      s.values[carriedWire G₁ G₂]? = some (some (reduce carried)) ∧
      (mode = .checked → ∃ b,
        VerifyingKey.check (some vk) (.proof p) (.list (inputs.map .number)) = .ok b ∧
        s.values[validWire G₁ G₂]? = some (some b)) := by
  let d := Supply.ofWitness z flag p carried hlen
  obtain ⟨u, hrun⟩ := exists_run_body_counter d (checks_some mode vk rfl rfl)
  have hs : (stepCircuit .counter (some vk) mode).circuit.synthesize
      (some (witness z flag p inputs carried)) = .ok u.freeze :=
    Circuit.synthesize_eq_ok_iff.mpr ⟨u, hrun, rfl⟩
  have hext := (grows_of_synthesize Transition.counterProgram d hs).extends_
  obtain ⟨hz, hflag, hinner, hcarried⟩ := getElem?_system z flag carried p hlen hext
  refine ⟨u.freeze, hs, hz, hflag, hinner, hcarried, ?_⟩
  rintro rfl
  obtain ⟨b, hb, hbit, -⟩ := VerifyingKey.check_map_number vk p inputs
  refine ⟨b, hb, ?_⟩
  rw [getElem?_valid Transition.counterProgram d rfl hs hb]
  rcases hbit with rfl | rfl <;> rfl

omit [LawfulCoding G₁] [LawfulCoding G₂] in
/-- A step that counts follows, with a proof before that passes where it is asked for one. -/
theorem Counts.follows (h : Counts z flag (inputs.headD 0) carried)
    (hverify : mode = .checked → reduce flag = 1 →
      ∃ verdict, vk.verify p inputs none = .ok verdict ∧ verdict.passed = true) :
    Follows .counter (some vk) mode z flag p inputs carried := by
  obtain ⟨hflag, hselect, hnext⟩ := counts_iff.mp h
  obtain ⟨bit, hbit, -, hpasses⟩ := VerifyingKey.check_map_number vk p inputs
  exact
    { flag_bit := hflag
      carried_eq := hselect
      z_eq := by rw [hnext, Transition.counter, cast_reduce, Int.cast_add, cast_reduce,
        Int.cast_one]
      checks := fun hmode => ⟨bit, hbit, hflag.imp_right fun hset =>
        hpasses.mpr (hverify hmode (reduce_eq_one_iff.mpr hset))⟩ }

/-- A counting step passes exactly if it counts and, checked, does not go on from a proof that does
not pass. -/
theorem exists_mockProve_iff (h : IsComplete w z flag p inputs carried) :
    (∃ s, (stepCircuit .counter (some vk) mode).circuit.mockProve (some w) = .ok s) ↔
      Counts z flag (inputs.headD 0) carried ∧
      (mode = .checked → reduce flag = 1 →
        ∃ verdict, vk.verify p inputs none = .ok verdict ∧ verdict.passed = true) := by
  have hlen := h.length_inputs
  let d := Supply.ofWitness z flag p carried hlen
  obtain ⟨s, hs, hz, hflag, hinner, hcarried, hvalid⟩ :=
    exists_synthesize_counter mode z flag carried p vk hlen
  obtain ⟨bit, hbit, hbits, hpasses⟩ := VerifyingKey.check_map_number vk p inputs
  have hmock : (∃ s, (stepCircuit .counter (some vk) mode).circuit.mockProve (some w) = .ok s) ↔
      s.check = .ok none := by
    simp only [Circuit.mockProve_eq_ok_iff, h.synthesize_eq, hs, Except.ok.injEq, exists_eq_left']
  have hvalue : ∀ {m : ℕ} {x : Int}, s.values[m]? = some (some (reduce x)) → s.valuation m = x := by
    intro m x hx
    rw [R1CS.valuation_of_getElem? hx, cast_reduce]
  rw [hmock]
  constructor
  · intro hcheck
    have hgrows := grows_of_synthesize Transition.counterProgram d hs
    have hone := R1CS.valuation_zero (hgrows.wellFormed d.wellFormed_system)
      hgrows.extends_.witnessed
    have hholds := (R1CS.check_eq_none_iff (R1CS.readsGate_of_check hcheck)).mp hcheck
    refine ⟨counts_of_holds d hs hone hholds (hvalue hz) (hvalue hflag) (hvalue hinner)
      (hvalue hcarried), ?_⟩
    rintro rfl hset
    -- the gate forces the verdict to one, and the wire has it from the verification
    obtain ⟨b, hb, hvalidValue⟩ := hvalid rfl
    obtain rfl := Except.ok.inj (hbit.symm.trans hb)
    obtain ⟨-, hgate⟩ := valid_of_synthesize Transition.counterProgram d hs hone hholds
    rw [hvalue hflag, reduce_eq_one_iff.mp hset, R1CS.valuation_of_getElem? hvalidValue,
      one_mul, sub_eq_zero] at hgate
    apply hpasses.mp
    rcases hbits with rfl | rfl
    · rw [Int.cast_zero] at hgate
      exact absurd hgate one_ne_zero
    · rfl
  · rintro ⟨hcounts, hverify⟩
    exact (hcounts.follows hverify).check_eq Transition.counter_isFaithful hlen hs

/-- Whatever assignment satisfies all gates of a counting step, with one on the wire of the
constant, counts, and if the step is checked its verdict is a bit that is set where the flag is. -/
theorem counts_of_check {w : Option (Witness (Proof G₁ G₂))} {s : R1CS}
    (hs : (stepCircuit .counter (some vk) mode).circuit.synthesize w = .ok s) {a : List Int}
    (hhead : a.head? = some 1) (hcheck : (s.assign a).check = .ok none) :
    Counts (a.getD 1 0) (a.getD 2 0) (a.getD (innerWire G₁ G₂) 0) (a.getD (carriedWire G₁ G₂) 0) ∧
      (mode = .checked →
        (reduce (a.getD (validWire G₁ G₂) 0) = 0 ∨ reduce (a.getD (validWire G₁ G₂) 0) = 1) ∧
        (reduce (a.getD 2 0) = 1 → reduce (a.getD (validWire G₁ G₂) 0) = 1)) := by
  -- whatever the data are, they did get their wires
  obtain ⟨u, hrun, -⟩ := Circuit.synthesize_eq_ok_iff.mp hs
  change (body .counter (some vk) mode w).run _ = _ at hrun
  rw [body_eq] at hrun
  obtain ⟨_, _, hallocate, -⟩ := of_run_bind hrun
  obtain ⟨d⟩ := exists_supply hallocate
  have hone := R1CS.valuation_assign_zero (s := s) hhead
  have hholds := (R1CS.check_eq_none_iff (R1CS.readsGate_of_check hcheck)).mp hcheck
  have hvalue := R1CS.valuation_assign_natCast s a
  refine ⟨counts_of_holds d hs hone hholds (hvalue 1) (hvalue 2) (hvalue _) (hvalue _), ?_⟩
  rintro rfl
  obtain ⟨hbit, hgate⟩ := valid_of_synthesize Transition.counterProgram d hs hone hholds
  rw [hvalue] at hbit hgate
  rw [hvalue] at hgate
  refine ⟨hbit.imp reduce_eq_zero_iff.mpr reduce_eq_one_iff.mpr, fun hset => ?_⟩
  rw [reduce_eq_one_iff.mp hset, one_mul, sub_eq_zero] at hgate
  exact reduce_eq_one_iff.mpr hgate.symm

/-- The relation of a counting step, for either mode and any key. It can be built without data and
with any. All assignments that its gates admit count, and of data it accepts those that count; in a
checked step a set flag in addition needs a verdict that is set, or a proof before that passes. -/
theorem counter_relation (vk : VerifyingKey G₁ G₂) (mode : Mode) :
    let c : Circuit (Proof G₁ G₂) := (stepCircuit .counter (some vk) mode).circuit
    (∃ s, c.synthesize none = .ok s) ∧
    (∀ w s, c.synthesize w = .ok s → ∀ a : List Int, a.head? = some 1 →
      (s.assign a).check = .ok none →
      Counts (a.getD 1 0) (a.getD 2 0) (a.getD (innerWire G₁ G₂) 0)
        (a.getD (carriedWire G₁ G₂) 0) ∧
      (mode = .checked →
        (reduce (a.getD (validWire G₁ G₂) 0) = 0 ∨ reduce (a.getD (validWire G₁ G₂) 0) = 1) ∧
        (reduce (a.getD 2 0) = 1 → reduce (a.getD (validWire G₁ G₂) 0) = 1))) ∧
    ∀ (w : Witness (Proof G₁ G₂)) (z flag : Int) (p : Proof G₁ G₂) (inputs : List Int)
      (carried : Int), IsComplete w z flag p inputs carried →
      (∃ s, c.synthesize (some w) = .ok s ∧
        s.values[1]? = some (some (reduce z)) ∧ s.values[2]? = some (some (reduce flag)) ∧
        s.values[innerWire G₁ G₂]? = some (some (reduce (inputs.headD 0))) ∧
        s.values[carriedWire G₁ G₂]? = some (some (reduce carried)) ∧
        (mode = .checked → ∃ b,
          VerifyingKey.check (some vk) (.proof p) (.list (inputs.map .number)) = .ok b ∧
          s.values[validWire G₁ G₂]? = some (some b))) ∧
      ((∃ s, c.mockProve (some w) = .ok s) ↔
        Counts z flag (inputs.headD 0) carried ∧
        (mode = .checked → reduce flag = 1 →
          ∃ verdict, vk.verify p inputs none = .ok verdict ∧ verdict.passed = true)) := by
  refine ⟨?_, fun w s hs a hhead hcheck => counts_of_check hs hhead hcheck, ?_⟩
  · obtain ⟨u, hrun⟩ := exists_run_body_counter .absent (checks_none (some vk) mode)
    exact ⟨u.freeze, Circuit.synthesize_eq_ok_iff.mpr ⟨u, hrun, rfl⟩⟩
  · intro w z flag p inputs carried h
    refine ⟨?_, exists_mockProve_iff h⟩
    rw [h.synthesize_eq]
    exact exists_synthesize_counter mode z flag carried p vk h.length_inputs

end Complete

end Relation

/-- From 41 a step goes to 42, also with numbers beyond the order, and not to 43, nor anywhere from
a proof that does not pass. The gates admit an assignment. -/
theorem counter_relation_forty_one :
    let vk : VerifyingKey Exponent Exponent :=
      VerifyingKey.ofExponents 7 1 1 1 1 (List.replicate 7 0)
    let p : Proof Exponent Exponent := ⟨multiple 1, multiple 1, multiple 0⟩
    let inputs : List Int := [41, 0, 0, 0, 0, 0]
    let c : Circuit (Proof Exponent Exponent) := (stepCircuit .counter (some vk) .checked).circuit
    (∃ s, c.mockProve (some (witness (order + 42) (order + 1) p inputs (41 - order))) = .ok s) ∧
    (¬ ∃ s, c.mockProve (some (witness 43 1 p inputs 41)) = .ok s) ∧
    (¬ ∃ s, c.mockProve (some (witness 42 1 dummyProof inputs 41)) = .ok s) ∧
    ∃ (s : R1CS) (a : List Int), c.synthesize none = .ok s ∧ a.head? = some 1 ∧
      (s.assign a).check = .ok none ∧
      Counts (a.getD 1 0) (a.getD 2 0) (a.getD (innerWire Exponent Exponent) 0)
        (a.getD (carriedWire Exponent Exponent) 0) := by
  intro vk p inputs c
  obtain ⟨-, hgates, hdata⟩ := counter_relation vk .checked
  have hverify : ∃ verdict, vk.verify p inputs none = .ok verdict ∧ verdict.passed = true :=
    ⟨_, rfl, by decide⟩
  have hrefused : ¬ ∃ verdict, vk.verify dummyProof inputs none = .ok verdict ∧
      verdict.passed = true := by
    rintro ⟨verdict, hverdict, hpassed⟩
    obtain rfl := Except.ok.inj hverdict
    revert hpassed
    decide
  have hcounts : Counts (order + 42) (order + 1) (inputs.headD 0) (41 - order) :=
    ⟨by decide, by decide, by decide, by decide⟩
  have hskips : ¬ Counts 43 1 (inputs.headD 0) 41 := by
    intro h
    have hz : reduce 43 ≠ reduce (41 + 1) := by decide
    exact hz h.z_eq
  obtain ⟨s, hs, hcheck⟩ : ∃ s, c.synthesize none = .ok s ∧
      (s.assign [1, 42, 1, 0, 0, 0, 0, 41, 0, 0, 0, 0, 0, 41, 41, 1]).check = .ok none :=
    ⟨_, rfl, by decide⟩
  refine ⟨?_, ?_, ?_, s, _, hs, rfl, hcheck, (hgates none s hs _ rfl hcheck).1⟩
  · exact (hdata _ _ _ _ _ _ (isComplete_witness rfl)).2.mpr ⟨hcounts, fun _ _ => hverify⟩
  · exact fun h => hskips ((hdata _ _ _ _ _ _ (isComplete_witness rfl)).2.mp h).1
  · exact fun h => hrefused
      (((hdata _ _ _ _ _ _ (isComplete_witness rfl)).2.mp h).2 rfl (by decide))

end Cyclic

end RankOne
