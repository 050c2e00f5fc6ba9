import RankOne.Proofs.Meaning
import RankOne.Proofs.Modes
import RankOne.Proofs.Progress
import RankOne.Recursion.Cyclic

/-!
# Transitions of a cyclic circuit

What a step of a chain may compute. A transition is a fixed program on one expression that makes no
wire public. It is faithful if an honest run always satisfies its gates and has the plain value of
the next state, and sound if its gates leave no other value to anybody.
-/

set_option autoImplicit false

namespace RankOne

def Surroundings.bare : Surroundings where
  parameters name := .error (.missing (.named name))
  shapes _ := []

namespace Transition

def run (steps : List Step) (result : Operand) (z : Linear) : Build Linear := do
  let s ← get
  let registers ← Step.runAll .bare steps (("z", .scalar z) :: Step.start "ONE" s)
  result.linear registers

structure Program (t : Transition) where
  steps : List Step
  result : Operand
  isPlain : ∀ step ∈ steps, step.instruction.IsPlain
  isPrivate : ∀ step ∈ steps, step.instruction.IsPrivate
  result_isPlain : result.IsPlain
  run_eq : ∀ {s : R1CS} {k : ℕ}, s.WellFormed → s.frozen = false → 0 < k → k < s.wireCount →
    (t.constrain (s.wireAt k)).run s = (run steps result (s.wireAt k)).run s

/-- Whether the values of an honest run satisfy the gates of a transition and agree with its plain
computation, wherever it starts. -/
structure IsFaithful (t : Transition) : Prop where
  program : Nonempty t.Program
  advance_base : t.advance (reduce t.base) = t.advance t.base
  run_eq_ok : ∀ {s : R1CS} {k : ℕ} {v : Int}, s.WellFormed → s.witnessed = true →
    s.frozen = false → 0 < k → s.values[k]? = some (some v) →
    ∃ y u, (t.constrain (s.wireAt k)).run s = (.ok y, u) ∧
      u.checkGates (u.gates.drop s.gates.length) = .ok none ∧ u.read y = .ok (t.advance v)

structure Completes (t : Transition) : Prop where
  program : Nonempty t.Program
  exists_run : ∀ {s : R1CS} {k : ℕ}, s.WellFormed → s.witnessed = true → s.frozen = false →
    0 < k → k < s.wireCount → ∃ y u, (t.constrain (s.wireAt k)).run s = (.ok y, u)

/-- Whether every assignment that satisfies the gates of a transition has the value of the next
state where the transition answers it. -/
structure IsSound (t : Transition) : Prop where
  program : Nonempty t.Program
  advance_base : t.advance (reduce t.base) = t.advance t.base
  advance_range : ∀ v, 0 ≤ v → v < order → 0 ≤ t.advance v ∧ t.advance v < order
  value_eq : ∀ {s u : R1CS} {k : ℕ} {y : Linear}, s.WellFormed → s.frozen = false → 0 < k →
    k < s.wireCount → (t.constrain (s.wireAt k)).run s = (.ok y, u) →
    ∀ v : Int → Scalar, v 0 = 1 → (∀ g ∈ u.gates.drop s.gates.length, g.Holds v) →
      y.value v = t.advance (v k).val

open Build

section Run
variable {s : R1CS} {steps : List Step} {result : Operand} {z : Linear}

theorem run_run (steps : List Step) (result : Operand) (z : Linear) (s : R1CS) :
    (run steps result z).run s =
      (do let registers ← Step.runAll .bare steps (("z", .scalar z) :: Step.start "ONE" s)
          result.linear registers : Build Linear).run s := by
  rw [run, run_bind, run_get]

theorem within_registers (hs : s.WellFormed) (hz : z.Within s) :
    Registers.Within s (("z", .scalar z) :: Step.start "ONE" s) := by
  intro entry hentry
  rcases List.mem_cons.mp hentry with rfl | hentry
  · exact hz
  · exact Step.within_start "ONE" hs entry hentry

end Run

namespace Program
variable {t : Transition} (p : t.Program) {s u : R1CS} {k : ℕ} {y : Linear}
include p

theorem keeps {R : R1CS → R1CS → Prop} (hR : R1CS.IsFrame R) (hs : s.WellFormed)
    (hf : s.frozen = false) (hpos : 0 < k) (hk : k < s.wireCount) :
    R s ((t.constrain (s.wireAt k)).run s).2 := by
  rw [p.run_eq hs hf hpos hk, run_run]
  exact keeps_bind hR (Step.keeps_runAll hR .bare p.steps _ fun step hstep =>
    .inl (p.isPrivate step hstep)) (fun registers => p.result.keeps_linear hR registers) s

theorem means (hs : s.WellFormed) (hf : s.frozen = false) (hpos : 0 < k) (hk : k < s.wireCount) :
    Means (fun u y => y.Within u)
      (fun _ v => Step.Equations .bare v p.steps
        (("z", .scalar (s.wireAt k)) :: Step.start "ONE" s) s)
      (t.constrain (s.wireAt k)) s := by
  rw [Means, p.run_eq hs hf hpos hk, run_run]
  have hwithin := within_registers hs (Linear.within_wireAt hk)
  apply means_bind (fun _ u y => y.Within u) (fun _ _ _ => True)
    (Step.means_runAll hs hwithin p.isPlain)
  · intro registers u hsu hregisters
    exact (Operand.means_linear hregisters p.result_isPlain).congr fun h =>
      ⟨h.1, fun _ _ => Iff.rfl⟩
  · exact fun _ hy => ⟨hy, fun v _ => and_iff_left trivial⟩

/-- A run that completes with values needs none that it is not handed. -/
theorem supplied (hs : s.WellFormed) (hw : s.witnessed = true) (hf : s.frozen = false)
    (hpos : 0 < k) (hk : k < s.wireCount) (h : (t.constrain (s.wireAt k)).run s = (.ok y, u)) :
    Step.Supplied .bare p.steps (("z", .scalar (s.wireAt k)) :: Step.start "ONE" s) s := by
  rw [p.run_eq hs hf hpos hk, run_run] at h
  obtain ⟨registers, u', hsteps, -⟩ := of_run_bind h
  exact Step.supplied_of_runAll hw hsteps

theorem parallel {s' : R1CS} (h : s.Twins s') (hf : s.frozen = false) (hpos : 0 < k)
    (hk : k < s.wireCount)
    (hs : s.witnessed = true → ∃ y u, (t.constrain (s.wireAt k)).run s = (.ok y, u))
    (hs' : s'.witnessed = true → ∃ y u, (t.constrain (s'.wireAt k)).run s' = (.ok y, u)) :
    Parallel Linear.Twins (t.constrain (s.wireAt k)) (t.constrain (s'.wireAt k)) s s' := by
  have hf' : s'.frozen = false := h.frozen.trans hf
  have hk' : k < s'.wireCount := by rwa [h.wireCount]
  have hwithin := within_registers h.left (Linear.within_wireAt hk)
  have hregisters : ("z", .scalar (s'.wireAt k)) :: Step.start "ONE" s' =
      Registers.withOwner (some s'.tag) (("z", .scalar (s.wireAt k)) :: Step.start "ONE" s) := rfl
  have halike : List.Forall₂ Step.Alike p.steps p.steps :=
    List.forall₂_same.mpr fun step _ => ⟨.same step.instruction, rfl⟩
  rw [Parallel, p.run_eq h.left hf hpos hk, p.run_eq h.right hf' hpos hk', run_run, run_run,
    hregisters]
  apply parallel_bind (Step.parallel_registers h hwithin halike p.isPlain ?_ ?_)
  · rintro u u' registers _ h' - hu' ⟨hr, rfl⟩
    exact Operand.parallel_linear h' hr p.result_isPlain rfl
  · intro hw
    obtain ⟨y, u, hrun⟩ := hs hw
    exact p.supplied h.left hw hf hpos hk hrun
  · intro hw
    obtain ⟨y, u, hrun⟩ := hs' hw
    exact p.supplied h.right hw hf' hpos hk' hrun

end Program

theorem IsFaithful.exists_run {t : Transition} (h : t.IsFaithful) {s : R1CS} {k : ℕ} {v : Int}
    (hs : s.WellFormed) (hw : s.witnessed = true) (hf : s.frozen = false) (hpos : 0 < k)
    (hv : s.values[k]? = some (some v)) :
    ∃ y u, (t.constrain (s.wireAt k)).run s = (.ok y, u) ∧ s.Fulfils u ∧ y.Within u ∧
      y.value u.valuation = t.advance v ∧ 0 ≤ t.advance v ∧ t.advance v < order := by
  obtain ⟨p⟩ := h.program
  have hk : k < s.wireCount := by
    rw [← hs.length_values]
    exact (List.getElem?_eq_some_iff.mp hv).1
  obtain ⟨y, u, hrun, hcheck, hread⟩ := h.run_eq_ok hs hw hf hpos hv
  obtain ⟨hemits, hy⟩ := (p.means hs hf hpos hk).of_run hrun
  obtain ⟨new, hnew, hwithin, -⟩ := hemits.gates
  rw [hnew, List.drop_left] at hcheck
  have hholds := (R1CS.checkGates_eq_none_iff (R1CS.readsGate_of_checkGates hcheck)).mp hcheck
  obtain ⟨r, hr, hvalue, hrange⟩ := R1CS.read_eq_ok (R1CS.reads_of_read hread)
  obtain rfl : r = t.advance v := Except.ok.inj (hr.symm.trans hread)
  exact ⟨y, u, hrun, ⟨hemits.grows, new, hnew, fun g hg => ⟨hwithin g hg, hholds g hg⟩⟩, hy,
    hvalue.symm, hrange⟩

theorem IsFaithful.advance_range {t : Transition} (h : t.IsFaithful) {v : Int} (hlow : 0 ≤ v)
    (hhigh : v < order) : 0 ≤ t.advance v ∧ t.advance v < order := by
  have hs : ((R1CS.fresh 0 true).push (some v) none).WellFormed := by
    apply (R1CS.wellFormed_fresh 0 true).push rfl
    rintro w ⟨⟩
    exact ⟨hlow, hhigh⟩
  obtain ⟨_, _, -, -, -, -, hrange⟩ := h.exists_run hs rfl rfl Nat.one_pos rfl
  exact hrange

section Instances
variable {around : Surroundings} {s u : R1CS} {registers : Registers} {a b : Operand}
  {x y z : Linear} {k : ℕ}

theorem run_linear_of_resolve (hf : s.frozen = false)
    (ha : a.resolve registers = .ok (.scalar x)) (hx : x.Within s) :
    (a.linear registers).run s = (.ok x, s) := by
  have haccess : s.access [x] = .ok () :=
    R1CS.access_eq_ok hf (List.forall_mem_singleton.mpr hx)
  simp only [Operand.linear, Operand.item, ha, run_bind, run_pure, expression, Item.linear?,
    run_own, haccess]

theorem run_runAll_cons {step : Step} {item : Item} (rest : List Step)
    (hreads : step.instruction.reads.find?
      (fun name => (Entries.get? name registers).isNone) = none)
    (h : (step.instruction.run around registers).run s = (.ok item, u)) :
    (Step.runAll around (step :: rest) registers).run s =
      (Step.runAll around rest (Step.store registers step.target item)).run u := by
  rw [Step.runAll, run_bind, Step.run, hreads, h]

def successor (s : R1CS) (x : Linear) : Linear :=
  Linear.sum s.tag [.constant 0, x, .constant 1]

theorem within_successor (hs : s.WellFormed) (hx : x.Within s) : (successor s x).Within s := by
  apply Linear.within_sum hs.wireCount_pos
  simpa [Linear.Within] using hx

theorem value_successor {v : Int → Scalar} (hone : v 0 = 1) (s : R1CS) (x : Linear) :
    (successor s x).value v = x.value v + 1 := by
  have hconstant : ∀ k : Int, (Linear.constant k).value v = k := fun k => rfl
  simp only [successor, Linear.value_sum hone, List.map_cons, List.map_nil, List.sum_cons,
    List.sum_nil, hconstant, Int.cast_zero, Int.cast_one, zero_add, add_zero]

theorem run_add_one (hf : s.frozen = false) (hx : x.Within s) :
    (add x (.constant 1)).run s = (.ok (successor s x), s) :=
  run_add_of_within hf hx trivial

theorem run_instruction_add_one (hf : s.frozen = false)
    (ha : a.resolve registers = .ok (.scalar x)) (hx : x.Within s) :
    ((Instruction.add a (.constant 1)).run around registers).run s =
      (.ok (.scalar (successor s x)), s) := by
  have hone : ((Operand.constant 1).linear registers).run s = (.ok (.constant 1), s) :=
    run_linear_of_resolve hf rfl trivial
  simp only [Instruction.run, Instruction.asItem, run_bind, run_map, run_linear_of_resolve hf ha hx,
    hone, run_add_one hf hx]

theorem read_successor (hs : s.WellFormed) (hw : s.witnessed = true) (hx : x.Within s) {v : Int}
    (hv : x.value s.valuation = v) : s.read (successor s x) = .ok (reduce (v + 1)) := by
  obtain ⟨r, hr, hval, hlow, hhigh⟩ := R1CS.read_eq_ok ((within_successor hs hx).reads hs hw)
  rw [value_successor (R1CS.valuation_zero hs hw), hv, ← Int.cast_one, ← Int.cast_add,
    cast_eq_cast_iff, reduce_eq_self hlow hhigh] at hval
  rw [hr, hval]

theorem lt_wireCount_of_getElem? (hs : s.WellFormed) {v : Option Int}
    (hv : s.values[k]? = some v) : k < s.wireCount := by
  rw [← hs.length_values]
  exact (List.getElem?_eq_some_iff.mp hv).1

def counterProgram : Program counter where
  steps := [⟨.add (.register "z") (.constant 1), some "y"⟩]
  result := .register "y"
  isPlain := by simp [Instruction.IsPlain, Operand.IsPlain]
  isPrivate := by simp [Instruction.IsPrivate]
  result_isPlain := trivial
  run_eq := by
    intro s k hs hf hpos hk
    have hz := Linear.within_wireAt hk
    have hstep : ((Instruction.add (.register "z") (.constant 1)).run .bare
        (("z", .scalar (s.wireAt k)) :: Step.start "ONE" s)).run s =
          (.ok (.scalar (successor s (s.wireAt k))), s) :=
      run_instruction_add_one hf rfl hz
    rw [run_run, run_bind, run_runAll_cons [] rfl hstep]
    exact (run_add_one hf hz).trans
      (run_linear_of_resolve hf rfl (within_successor hs hz)).symm

theorem counter_isFaithful : counter.IsFaithful where
  program := ⟨counterProgram⟩
  advance_base := rfl
  run_eq_ok := by
    intro s k v hs hw hf hpos hv
    have hz := Linear.within_wireAt (lt_wireCount_of_getElem? hs hv)
    refine ⟨_, s, run_add_one hf hz, by rw [List.drop_length, R1CS.checkGates], ?_⟩
    exact read_successor hs hw hz (by rw [Linear.value_wireAt, R1CS.valuation_of_getElem? hv])

theorem counter_isSound : counter.IsSound where
  program := ⟨counterProgram⟩
  advance_base := rfl
  advance_range v _ _ := ⟨reduce_nonneg _, reduce_lt _⟩
  value_eq := by
    intro s u k y hs hf hpos hk hrun v hone _
    obtain ⟨hy, rfl⟩ := Prod.mk.inj ((run_add_one hf (Linear.within_wireAt hk)).symm.trans hrun)
    obtain rfl := Except.ok.inj hy
    rw [value_successor hone, Linear.value_wireAt, counter, cast_reduce, Int.cast_add, cast_val,
      Int.cast_one]

theorem exists_run_square (hs : s.WellFormed) (hf : s.frozen = false) (hk : k < s.wireCount) :
    ∃ w u, (mul (s.wireAt k) (s.wireAt k)).run s = (.ok w, u) ∧ w.Within u ∧ u.frozen = false ∧
      s.Emits u (fun v => w.value v = v k * v k) ∧
      (square.constrain (s.wireAt k)).run s = (.ok (successor u w), u) := by
  have hz := Linear.within_wireAt hk
  obtain ⟨u, hmul, -⟩ :=
    exists_run_mul_combination hf hs hz hz ⟨_, rfl⟩ ⟨_, rfl⟩ "multiplication error"
  have hfrozen : u.frozen = false :=
    ((keeps_mul R1CS.isFrame_retains _ _ _).of_run hmul).frozen.trans hf
  obtain ⟨hemits, hw⟩ := (means_mul hz hz _).of_run hmul
  simp only [Linear.value_wireAt s k] at hemits
  refine ⟨_, u, hmul, hw, hfrozen, hemits, ?_⟩
  rw [square, run_bind_of_ok hmul]
  exact run_add_one hfrozen hw

def squareProgram : Program square where
  steps := [⟨.mul (.register "z") (.register "z") none, some "s"⟩,
    ⟨.add (.register "s") (.constant 1), some "y"⟩]
  result := .register "y"
  isPlain := by simp [Instruction.IsPlain, Operand.IsPlain]
  isPrivate := by simp [Instruction.IsPrivate]
  result_isPlain := trivial
  run_eq := by
    intro s k hs hf hpos hk
    have hz := Linear.within_wireAt hk
    obtain ⟨w, u, hmul, hw, hfrozen, hemits, hrun⟩ := exists_run_square hs hf hk
    have hlinear : ((Operand.register "z").linear
        (("z", .scalar (s.wireAt k)) :: Step.start "ONE" s)).run s = (.ok (s.wireAt k), s) :=
      run_linear_of_resolve hf rfl hz
    have hfirst : ((Instruction.mul (.register "z") (.register "z") none).run .bare
        (("z", .scalar (s.wireAt k)) :: Step.start "ONE" s)).run s = (.ok (.scalar w), u) := by
      simp only [Instruction.run, Instruction.asItem, run_bind, run_map, hlinear, Option.getD_none,
        hmul]
    have hsecond : ((Instruction.add (.register "s") (.constant 1)).run .bare
        [("z", .scalar (s.wireAt k)), ("ONE", .scalar (s.wireAt 0)), ("s", .scalar w)]).run u =
          (.ok (.scalar (successor u w)), u) :=
      run_instruction_add_one hfrozen rfl hw
    have hstore : Step.store (("z", .scalar (s.wireAt k)) :: Step.start "ONE" s) (some "s")
        (.scalar w) =
          [("z", .scalar (s.wireAt k)), ("ONE", .scalar (s.wireAt 0)), ("s", .scalar w)] := by
      simp [Step.store, Step.start, Entries.put]
    rw [hrun, run_run, run_bind, run_runAll_cons _ rfl hfirst, hstore,
      run_runAll_cons [] rfl hsecond]
    exact (run_linear_of_resolve hfrozen rfl
      (within_successor (hemits.grows.wellFormed hs) hw)).symm

theorem square_isFaithful : square.IsFaithful where
  program := ⟨squareProgram⟩
  advance_base := rfl
  run_eq_ok := by
    intro s k v hs hwitnessed hf hpos hv
    have hk := lt_wireCount_of_getElem? hs hv
    have hz := Linear.within_wireAt hk
    obtain ⟨w, u, hmul, hw, hfrozen, hemits, hrun⟩ := exists_run_square hs hf hk
    have hu := hemits.grows.wellFormed hs
    have hwu : u.witnessed = true := hemits.grows.extends_.witnessed.trans hwitnessed
    have hvalue : w.value u.valuation = ((v * v : Int) : Scalar) := by
      rw [value_of_run_mul hs hwitnessed hz hz hmul, Linear.value_wireAt,
        R1CS.valuation_of_getElem? hv, Int.cast_mul]
    have hkept : u.valuation k = v := by
      have hextend := hz.value_extend hs hemits.grows.extends_
      rw [Linear.value_wireAt, Linear.value_wireAt] at hextend
      rw [hextend, R1CS.valuation_of_getElem? hv]
    have hfulfils := hemits.fulfils (R1CS.valuation_zero hu hwu)
      (by rw [hvalue, hkept, Int.cast_mul])
    exact ⟨_, u, hrun, hfulfils.checkGates_drop hu hwu, read_successor hu hwu hw hvalue⟩

theorem square_isSound : square.IsSound where
  program := ⟨squareProgram⟩
  advance_base := rfl
  advance_range v _ _ := ⟨reduce_nonneg _, reduce_lt _⟩
  value_eq := by
    intro s u k y hs hf hpos hk hrun v hone hholds
    obtain ⟨w, u', hmul, hw, hfrozen, hemits, hrun'⟩ := exists_run_square hs hf hk
    obtain ⟨hy, rfl⟩ := Prod.mk.inj (hrun'.symm.trans hrun)
    obtain rfl := Except.ok.inj hy
    rw [value_successor hone, hemits.of_holds_drop hone hholds, square, cast_reduce, Int.cast_add,
      Int.cast_mul, cast_val, Int.cast_one]

end Instances

end Transition

end RankOne
