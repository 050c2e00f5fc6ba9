import RankOne.Proofs.Meaning

/-!
# Assignments of a closed system

An assignment satisfies the gates of a closed system exactly when all equations of the program hold
under it, whoever chose it. An assertion about constants is judged on the spot. It is refused as
unsatisfied only where its equation fails under every assignment, because a constant that is left
over is reduced and not zero. Looking up operands never ends in that fault.
-/

set_option autoImplicit false

namespace RankOne

namespace Linear

/-- A constant that a sum comes to is reduced, so it is zero only if it stands for zero. -/
theorem reduce_of_sum_eq_constant {tag : Nat} {xs : List Linear} {k : Int}
    (h : sum tag xs = .constant k) : reduce k = k := by
  obtain ⟨hlow, hhigh⟩ := range_of_ofTerms h
  exact reduce_eq_self hlow hhigh

end Linear

namespace Operand

mutual

theorem resolve_error {registers : Registers} {x : Operand} {e : Fault}
    (h : x.resolve registers = .error e) : ∃ name, e = .unset name := by
  cases x with
  | register name =>
    simp only [resolve] at h
    split at h
    · simp at h
    · exact ⟨name, (Except.error.inj h).symm⟩
  | list items =>
    simp only [resolve] at h
    split at h
    · simp at h
    · rename_i hall
      obtain rfl := Except.error.inj h
      exact resolveAll_error hall
  | tuple items =>
    simp only [resolve] at h
    split at h
    · simp at h
    · rename_i hall
      obtain rfl := Except.error.inj h
      exact resolveAll_error hall
  | _ => simp [resolve] at h

theorem resolveAll_error {registers : Registers} {xs : List Operand} {e : Fault}
    (h : resolveAll registers xs = .error e) : ∃ name, e = .unset name := by
  cases xs with
  | nil => simp [resolveAll] at h
  | cons x rest =>
    simp only [resolveAll] at h
    split at h
    · rename_i hx
      obtain rfl := Except.error.inj h
      exact resolve_error hx
    · split at h
      · simp at h
      · rename_i hall
        obtain rfl := Except.error.inj h
        exact resolveAll_error hall

end

end Operand

namespace Build
variable {α β : Type}

def Other (e : Fault) : Prop := ∀ message, e ≠ .unsatisfied message

def Looks (W : α → Prop) (x : Build α) : Prop :=
  ∀ s, match (x.run s).1 with
    | .ok a => W a
    | .error e => Other e

def Refutes (E : (Int → Scalar) → Prop) (x : Build α) : Prop :=
  ∀ s message t, x.run s = (.error (.unsatisfied message), t) → ∀ v, v 0 = 1 → ¬ E v

variable {W : α → Prop} {W' : β → Prop} {E : (Int → Scalar) → Prop}

theorem looks_bind {x : Build α} {f : α → Build β} (hx : Looks W x)
    (hf : ∀ a, W a → Looks W' (f a)) : Looks W' (x >>= f) := by
  intro s
  have hs := hx s
  rw [run_bind]
  generalize x.run s = p at hs ⊢
  obtain ⟨r, t⟩ := p
  cases r with
  | error e => exact hs
  | ok a => exact hf a hs t

theorem refutes_bind {x : Build α} {f : α → Build β} (hx : Looks W x)
    (hf : ∀ a, W a → Refutes E (f a)) : Refutes E (x >>= f) := by
  intro s message t h
  have hs := hx s
  rw [run_bind] at h
  generalize x.run s = p at hs h
  obtain ⟨r, u⟩ := p
  cases r with
  | error e => exact absurd (Except.error.inj (Prod.mk.inj h).1) (hs message)
  | ok a => exact hf a hs u message t h

theorem refutes_asNothing {x : Build Unit} (hx : Refutes E x) :
    Refutes E (Instruction.asNothing x) := by
  intro s message t h
  rw [Instruction.asNothing, run_bind] at h
  have hs := hx s message
  generalize x.run s = p at hs h
  obtain ⟨r, u⟩ := p
  cases r with
  | error e =>
    obtain rfl := Except.error.inj (Prod.mk.inj h).1
    exact hs u rfl
  | ok a => cases (Prod.mk.inj h).1

theorem other_of_access {s : R1CS} {xs : List Linear} {e : Fault} (h : s.access xs = .error e) :
    Other e := by
  intro message
  rw [R1CS.access] at h
  split at h
  · obtain rfl := Except.error.inj h
    simp
  · split at h
    · simp at h
    · obtain rfl := Except.error.inj h
      simp

theorem looks_own (xs : List Linear) : Looks (fun _ => True) (own xs) := by
  intro s
  rw [run_own]
  cases h : s.access xs with
  | error e => exact other_of_access h
  | ok u => trivial

theorem looks_expression (x : Item) : Looks (fun y => x.linear? = some y) (expression x) := by
  rw [expression]
  cases x.linear? with
  | none =>
    apply looks_bind (looks_own [])
    intro _ _ s message h
    cases h
  | some y => exact looks_bind (looks_own [y]) fun _ _ s => rfl

theorem looks_sub (x y : Linear) :
    Looks (fun d => ∀ v, v 0 = 1 → d.value v = x.value v - y.value v) (sub x y) := by
  intro s
  rw [run_sub]
  cases h : s.access [x, y] with
  | error e => exact other_of_access h
  | ok u => exact fun v hone => Linear.value_difference hone s.tag x y

/-- A constraint is refused as unsatisfied only where constants contradict it. -/
theorem refutes_gate (x y z : Linear) (message : String) (isFlag : Bool) :
    Refutes (fun v => x.value v * y.value v = z.value v) (gate x y z message isFlag) := by
  intro s message' t h v hone heq
  rw [run_gate] at h
  cases haccess : s.access [x, y, z] with
  | error e =>
    rw [haccess] at h
    exact other_of_access haccess message' (Except.error.inj (Prod.mk.inj h).1)
  | ok u =>
    rw [haccess] at h
    cases hp : Linear.product? s.tag x y with
    | none =>
      rw [hp] at h
      cases (Prod.mk.inj h).1
    | some p =>
      rw [hp] at h
      have hvalue := Linear.value_difference hone s.tag z p
      rw [Linear.value_product? hp, heq, sub_self] at hvalue
      change (zeroGate (Linear.difference s.tag z p) message).run s = _ at h
      rw [run_zeroGate] at h
      cases hdiff : Linear.difference s.tag z p with
      | combination c =>
        rw [hdiff] at h
        cases (Prod.mk.inj h).1
      | constant k =>
        rw [hdiff] at h hvalue
        have hreduce := Linear.reduce_of_sum_eq_constant hdiff
        have hk : k = 0 := by
          rw [← hreduce]
          exact reduce_eq_zero_iff.mpr hvalue
        simp only [hk, if_true] at h
        cases (Prod.mk.inj h).1

theorem refutes_assertZero (x : Linear) (message : String) :
    Refutes (fun v => x.value v = 0) (assertZero x message) := by
  intro s message' t h v hone hx
  have hzero : (Linear.constant 0).value v = 0 := Int.cast_zero
  apply refutes_gate (.constant 0) (.constant 0) x message false s message' t h v hone
  rw [hzero, hx, mul_zero]

theorem refutes_assertBit (x : Linear) (message : String) :
    Refutes (fun v => x.value v = 0 ∨ x.value v = 1) (assertBit x message) := by
  intro s message' t h v hone hx
  apply refutes_gate x x x message false s message' t h v hone
  exact IsIdempotentElem.iff_eq_zero_or_one.mpr hx

theorem refutes_connect (x y : Linear) (message : String) :
    Refutes (fun v => x.value v = y.value v) (connect x y message) := by
  apply refutes_bind (looks_sub x y)
  intro d hd s message' t h v hone hxy
  apply refutes_assertZero d message s message' t h v hone
  rw [hd v hone, hxy, sub_self]

end Build

namespace Operand
open Build

theorem looks_item (registers : Registers) (x : Operand) :
    Looks (fun item => x.found registers = item) (x.item registers) := by
  intro s
  rw [item, found]
  cases h : x.resolve registers with
  | ok y => rfl
  | error e =>
    obtain ⟨name, rfl⟩ := resolve_error h
    intro message h
    cases h

theorem looks_linear (registers : Registers) (x : Operand) :
    Looks (fun a => ∀ v, x.valueIn registers v = a.value v) (x.linear registers) := by
  apply looks_bind (looks_item registers x)
  rintro item rfl s
  have h := looks_expression (x.found registers) s
  generalize (expression (x.found registers)).run s = p at h ⊢
  obtain ⟨r, t⟩ := p
  cases r with
  | error e => exact h
  | ok a => exact Item.value_of_linear? h

end Operand

def Instruction.IsAssertion : Instruction → Prop
  | .gate _ _ _ _ => True
  | .assertZero _ _ => True
  | .assertBit _ _ => True
  | .connect _ _ _ => True
  | _ => False

open Build in
/-- The equation of a refused assertion fails whatever the assignment is. -/
theorem Instruction.refutes_run (around : Surroundings) (registers : Registers) {i : Instruction}
    (hi : i.IsAssertion) (result : Item) :
    Refutes (fun v => i.Equation registers v result) (i.run around registers) := by
  have hlinear := Operand.looks_linear registers
  cases i with
  | gate x y z message =>
    apply refutes_bind (Operand.looks_item registers z)
    rintro output rfl
    apply refutes_bind (hlinear x)
    intro a ha
    apply refutes_bind (hlinear y)
    intro b hb
    apply refutes_bind (looks_expression _)
    intro c hc
    have hvalue : ∀ v, z.valueIn registers v = c.value v := Item.value_of_linear? hc
    simp only [Equation, ha, hb, hvalue]
    exact refutes_asNothing (refutes_gate a b c _ _)
  | assertZero x message =>
    apply refutes_bind (hlinear x)
    intro a ha
    simp only [Equation, ha]
    exact refutes_asNothing (refutes_assertZero a _)
  | assertBit x message =>
    apply refutes_bind (hlinear x)
    intro a ha
    simp only [Equation, ha]
    exact refutes_asNothing (refutes_assertBit a _)
  | connect x y message =>
    apply refutes_bind (hlinear y)
    intro b hb
    apply refutes_bind (hlinear x)
    intro a ha
    simp only [Equation, ha, hb]
    exact refutes_asNothing (refutes_connect a b _)
  | _ => exact absurd hi id

namespace Step

/-- The gates of a closed system mean its program, for dishonest assignments too: the check passes
exactly when the equation of each step holds. A refused assertion after the program has an equation
that fails, and what a selection answers is one of its branches wherever the bit is one. -/
theorem check_iff_equations (around : Surroundings) (one : String) (tag : ℕ) (witnessed : Bool)
    {steps : List Step} (hplain : ∀ step ∈ steps, step.instruction.IsPlain)
    {registers : Registers} {s : R1CS}
    (hrun : (runAll around steps (start one (.fresh tag witnessed))).run (.fresh tag witnessed) =
      (.ok registers, s))
    {w : List Int} (hlen : w.length = s.wireCount) (hone : w.head? = some 1) :
    ((s.freeze.assign w).check = .ok none ↔
      Equations around (s.assign w).valuation steps (start one (.fresh tag witnessed))
        (.fresh tag witnessed)) ∧
    (∀ (step : Step) (message : String) (t : R1CS), step.instruction.IsAssertion →
      (step.run around registers).run s = (.error (.unsatisfied message), t) →
        ¬ step.instruction.Equation registers (s.assign w).valuation .nothing) ∧
    ∀ b t f r : Item, Item.Selects (s.assign w).valuation b t f r →
      (b.value (s.assign w).valuation = 1 →
        r.leaves (s.assign w).valuation = t.leaves (s.assign w).valuation) ∧
      (b.value (s.assign w).valuation = 0 →
        r.leaves (s.assign w).valuation = f.leaves (s.assign w).valuation) := by
  have hvaluation := R1CS.valuation_assign_zero (s := s) hone
  refine ⟨?_, ?_, fun b t f r h => h.leaves_eq⟩
  · have hfresh := R1CS.wellFormed_fresh tag witnessed
    have hemits := emits_runAll hfresh (within_start one hfresh) hplain hrun
    have hs := hemits.grows.wellFormed hfresh
    have hclosed := Build.means_freeze hs
    rw [Build.Means, Build.run_freeze] at hclosed
    cases hclosed with
    | ok hfreeze _ =>
      obtain ⟨new, hgates, hwithin, hiff⟩ := (hemits.trans hfreeze).gates
      have hcount : w.length = s.freeze.wireCount := by
        rw [hlen, R1CS.freeze]
        split <;> rfl
      have hnew : (s.freeze.assign w).gates = new := hgates
      have hsame : (s.freeze.assign w).valuation = (s.assign w).valuation := rfl
      rw [R1CS.check_eq_none_iff, hnew, hsame, hiff _ hvaluation, and_iff_left trivial]
      intro g hg
      obtain ⟨hl, hr, ho⟩ := hwithin g (hnew ▸ hg)
      exact ⟨hl.reads_assign hcount, hr.reads_assign hcount, ho.reads_assign hcount⟩
  · intro step message t hassert h
    rw [run] at h
    split at h
    · cases (Prod.mk.inj h).1
    · exact Instruction.refutes_run around registers hassert .nothing s message t h _ hvaluation

open Factorization in
/-- The program has run with other factors than the assignment claims. -/
theorem check_iff_equations_factorization :
    ∃ registers s, (runAll (.ofWitness (some factors)) steps (start "ONE" (.fresh 0 true))).run
        (.fresh 0 true) = (.ok registers, s) ∧
      ((s.freeze.assign [1, 391, 1, 391]).check = .ok none ↔
        Equations (.ofWitness (some factors)) (s.assign [1, 391, 1, 391]).valuation steps
          (start "ONE" (.fresh 0 true)) (.fresh 0 true)) := by
  refine ⟨_, _, rfl, ?_⟩
  exact (check_iff_equations (.ofWitness (some factors)) "ONE" 0 true isPlain_steps rfl rfl rfl).1

end Step

end RankOne
