import RankOne.Proofs.Transition

/-!
# Wires that a program avoids

A program that is handed an expression works on the wires of this expression, on the wire of the
constant, and on wires that it adds itself. Whatever it answers, no other wire occurs in it: an
earlier wire that the program was not handed does not enter the value of the answer, so the
difference of the two is never a constant.
-/

set_option autoImplicit false

namespace RankOne

def Combination.Avoids (j : ℕ) (c : Combination) : Prop :=
  ∀ term ∈ c.terms, term.1 ≠ j

namespace Linear
variable {x y : Linear} {j m tag : ℕ}

def Avoids (j : ℕ) (x : Linear) : Prop :=
  ∀ c, x = .combination c → c.Avoids j

theorem avoids_constant (a : Int) (j : ℕ) : (Linear.constant a).Avoids j := nofun

theorem avoids_combination {c : Combination} (h : c.Avoids j) : (combination c).Avoids j := by
  rintro _ ⟨⟩
  exact h

theorem avoids_wireAt (s : R1CS) (h : m ≠ j) : (s.wireAt m).Avoids j := by
  apply avoids_combination
  intro term hterm
  obtain rfl := List.mem_singleton.mp hterm
  exact Int.ofNat_inj.not.mpr h

theorem Avoids.key_ne (h : x.Avoids j) (hj : 0 < j) {k : Int} (hk : k ∈ x.terms.map Prod.fst) :
    k ≠ j := by
  cases x with
  | constant a =>
    obtain rfl : k = 0 := by simpa [terms] using hk
    omega
  | combination c =>
    obtain ⟨term, hterm, rfl⟩ := List.mem_map.mp hk
    exact h c rfl term hterm

theorem avoids_sum (hj : 0 < j) {xs : List Linear} (h : ∀ x ∈ xs, x.Avoids j) :
    (sum tag xs).Avoids j := by
  simp only [sum, ofTerms]
  split
  · exact avoids_constant _ j
  · apply avoids_combination
    intro term hterm
    have hkey := (keys_normalTerms_sublist (collect xs)).subset (List.mem_map_of_mem hterm)
    obtain ⟨x, hx, hk⟩ := mem_keys_collect hkey
    exact (h x hx).key_ne hj hk

theorem avoids_multiple {c : Combination} (h : c.Avoids j) (k : Int) :
    (multiple tag c k).Avoids j := by
  simp only [multiple]
  split
  · exact avoids_constant _ j
  · apply avoids_combination
    intro term hterm
    obtain ⟨term', hterm', rfl⟩ := List.mem_map.mp hterm
    exact h term' hterm'

theorem avoids_times (h : x.Avoids j) (k : Int) : (times tag k x).Avoids j := by
  cases x with
  | constant a => exact avoids_constant _ j
  | combination c => exact avoids_multiple (h c rfl) k

theorem avoids_product? (hx : x.Avoids j) (hy : y.Avoids j) {p : Linear}
    (h : product? tag x y = some p) : p.Avoids j := by
  cases x with
  | constant a =>
    cases y with
    | constant b => obtain rfl := Option.some.inj h; exact avoids_constant _ j
    | combination d => obtain rfl := Option.some.inj h; exact avoids_multiple (hy d rfl) a
  | combination c =>
    cases y with
    | constant b => obtain rfl := Option.some.inj h; exact avoids_multiple (hx c rfl) b
    | combination d => cases h

theorem avoids_difference (hj : 0 < j) (hx : x.Avoids j) (hy : y.Avoids j) :
    (difference tag x y).Avoids j := by
  apply avoids_sum hj
  simp only [List.forall_mem_cons, List.not_mem_nil, false_implies, implies_true, and_true]
  exact ⟨avoids_constant 0 j, hx, avoids_times hy _⟩

theorem termsValue_oneAt {terms : List (Int × Int)} (h : ∀ term ∈ terms, term.1 ≠ j) :
    termsValue (oneAt j) terms = termsValue (oneAt 0) terms := by
  induction terms with
  | nil => rfl
  | cons term rest ih =>
    rw [List.forall_mem_cons] at h
    have hother : oneAt j term.1 = oneAt 0 term.1 := by simp [oneAt, h.1]
    rw [termsValue, termsValue, ih h.2, hother]

/-- The value of an expression does not change with a wire that does not occur in it. -/
theorem Avoids.not_uses (h : x.Avoids j) : ¬ x.Uses j := by
  rw [Uses, not_not]
  cases x with
  | constant a => rfl
  | combination c => exact termsValue_oneAt (h c rfl)

end Linear

open Linear

namespace Build
variable {α β : Type} {j : ℕ} {P : α → Prop} {Q : β → Prop} {b x y t f : Linear}

def Answers (j : ℕ) (P : α → Prop) (x : Build α) : Prop :=
  ∀ ⦃s : R1CS⦄, j < s.wireCount → ∀ ⦃a u⦄, x.run s = (.ok a, u) → P a ∧ j < u.wireCount

theorem answers_pure {a : α} (h : P a) : (pure a : Build α).Answers j P := by
  rintro s hs _ _ ⟨⟩
  exact ⟨h, hs⟩

theorem answers_throw (e : Fault) : (throw e : Build α).Answers j P := by
  rintro s hs _ _ ⟨⟩

theorem answers_fail (e : Fault) : (fail e : Build α).Answers j P := by
  rintro s hs _ _ ⟨⟩

theorem answers_bind {x : Build α} {f : α → Build β} (hx : x.Answers j P)
    (hf : ∀ a, P a → (f a).Answers j Q) : (x >>= f).Answers j Q := by
  intro s hs b u h
  obtain ⟨a, s', ha, hb⟩ := of_run_bind h
  obtain ⟨hP, hs'⟩ := hx hs ha
  exact hf a hP hs' hb

theorem answers_map {x : Build α} (hx : x.Answers j P) (g : α → β) (h : ∀ a, P a → Q (g a)) :
    (g <$> x).Answers j Q := by
  rw [map_eq_pure_bind]
  exact answers_bind hx fun a ha => answers_pure (h a ha)

theorem Keeps.answers {x : Build α} (hx : x.Keeps R1CS.Grows) : x.Answers j fun _ => True :=
  fun _ hs _ _ h => ⟨trivial, hs.trans_le (hx.of_run h).extends_.wireCount⟩

theorem Still.answers {x : Build α} (hx : x.Still) : x.Answers j fun _ => True :=
  (keeps_of_still R1CS.isOpenFrame_grows.toIsFrame hx).answers

theorem answers_wire (value : Reader → Except Fault Int) (name : Option String) :
    (wire value name).Answers j (Avoids j) := by
  intro s hs z u h
  have hkeeps : (wire value name).Keeps R1CS.Grows :=
    keeps_wire R1CS.isOpenFrame_grows.toIsFrame value (.inr R1CS.isOpenFrame_grows)
  refine ⟨?_, (hkeeps.answers hs h).2⟩
  rw [run_wire] at h
  split at h
  · cases h
  · split at h
    · cases h
    · obtain rfl := Except.ok.inj (Prod.mk.inj h).1
      exact avoids_wireAt s hs.ne'

theorem answers_wire_emit (value : Reader → Except Fault Int) (g : Linear → Gate) :
    (do let z ← wire value none; emit (g z); return z : Build Linear).Answers j (Avoids j) :=
  answers_bind (answers_wire value none) fun z hz s hs _ _ h => by
    cases h
    exact ⟨hz, hs⟩

theorem answers_mul (hx : x.Avoids j) (hy : y.Avoids j) (message : String) :
    (mul x y message).Answers j (Avoids j) := by
  apply answers_bind (still_own _).answers
  intro _ _
  apply answers_bind still_get.answers
  intro s _
  split
  · rename_i p hp
    exact answers_pure (avoids_product? hx hy hp)
  · exact answers_wire_emit _ _

theorem answers_div (hx : x.Avoids j) (message : String) (isFlag : Bool) :
    (div x y message isFlag).Answers j (Avoids j) := by
  apply answers_bind (still_own _).answers
  intro _ _
  apply answers_bind still_get.answers
  intro s _
  split
  · split
    · exact answers_throw _
    · exact answers_pure (avoids_times hx _)
  · split
    · exact answers_pure (avoids_constant 0 j)
    · exact answers_wire_emit _ _

variable (hj : 0 < j)
include hj

theorem answers_sum {xs : List Linear} (h : ∀ y ∈ x :: xs, y.Avoids j) :
    (sum xs x).Answers j (Avoids j) :=
  answers_bind (still_own _).answers fun _ _ =>
    answers_bind still_get.answers fun _ _ => answers_pure (avoids_sum hj h)

theorem answers_sub (hx : x.Avoids j) (hy : y.Avoids j) : (sub x y).Answers j (Avoids j) :=
  answers_bind (still_own _).answers fun _ _ =>
    answers_bind still_get.answers fun _ _ => answers_pure (avoids_difference hj hx hy)

theorem answers_selectScalar (ht : t.Avoids j) (hf : f.Avoids j) (hb : b.Avoids j) :
    (selectScalar b t f).Answers j (Avoids j) := by
  apply answers_bind (answers_sub hj ht hf)
  intro d hd
  apply answers_bind (answers_mul hb hd _)
  intro p hp
  apply answers_sum hj
  simp only [List.forall_mem_cons, List.not_mem_nil, false_implies, implies_true, and_true]
  exact ⟨avoids_constant 0 j, hp, hf⟩

end Build

section
open Build Item
variable {j : ℕ} {registers : Registers}

def Item.Avoids (j : ℕ) (x : Item) : Prop := x.Over (Combination.Avoids j)

theorem Build.answers_expression {x : Item} (hx : x.Avoids j) :
    (expression x).Answers j (Linear.Avoids j) := by
  rw [expression]
  split
  · rename_i y hy
    apply answers_bind (still_own _).answers
    exact fun _ _ => answers_pure fun c hc => hx.linear? (hc ▸ hy)
  · exact answers_bind (still_own _).answers fun _ _ => answers_throw _

theorem Build.answers_asItem {x : Build Linear} (hx : x.Answers j (Linear.Avoids j)) :
    (Instruction.asItem x).Answers j (Item.Avoids j) :=
  answers_map hx _ fun _ hy => over_scalar hy

theorem Build.answers_asNothing {x : Build Unit} (hx : x.Keeps R1CS.Grows) :
    (Instruction.asNothing x).Answers j (Item.Avoids j) :=
  answers_bind hx.answers fun _ _ => answers_pure (by simp [Item.Avoids, Over, combinations])

theorem Build.answers_selectBetween (hj : 0 < j) {b t f : Item} (hb : b.Avoids j)
    (ht : t.Avoids j) (hf : f.Avoids j) : (selectBetween b t f).Answers j (Item.Avoids j) :=
  answers_bind (answers_expression hf) fun _ hy => answers_bind (answers_expression ht) fun _ hx =>
    answers_bind (answers_expression hb) fun _ hbit =>
      answers_asItem (answers_selectScalar hj hx hy hbit)

theorem Build.answers_select (hj : 0 < j) {b : Item} (hb : b.Avoids j) :
    (∀ t f : Item, t.Avoids j → f.Avoids j → (select b t f).Answers j (Item.Avoids j)) ∧
    ∀ ts fs : List Item, AllOver (Combination.Avoids j) ts → AllOver (Combination.Avoids j) fs →
      (selectAll b ts fs).Answers j (AllOver (Combination.Avoids j)) := by
  apply select.mutual_induct b
    (fun t f => t.Avoids j → f.Avoids j → (select b t f).Answers j (Item.Avoids j))
    (fun ts fs => AllOver (Combination.Avoids j) ts → AllOver (Combination.Avoids j) fs →
      (selectAll b ts fs).Answers j (AllOver (Combination.Avoids j)))
  case case1 =>
    intro t f hbit ht _
    rw [select_of_bit hbit]
    exact answers_pure ht
  case case2 =>
    intro t f hbit _ hf
    rw [select_of_bit hbit]
    exact answers_pure hf
  case case3 =>
    intro f hbit ts fs hfs ih ht hf
    simp only [select, hbit, hfs]
    exact answers_map (ih ht (hf.entries? hfs)) _ fun _ hitems => hitems
  case case4 =>
    intro f hbit ts hfs _ _
    simp only [select, hbit, hfs]
    exact answers_throw _
  case case5 =>
    intro f hbit ts fs hfs ih ht hf
    simp only [select, hbit, hfs]
    exact answers_map (ih ht (hf.entries? hfs)) _ fun _ hitems => hitems
  case case6 =>
    intro f hbit ts hfs _ _
    simp only [select, hbit, hfs]
    exact answers_throw _
  case case7 =>
    intro f hbit t hlist htuple ht hf
    rw [select_of_not_isSequence hbit (isSequence_eq_false hlist htuple)]
    exact answers_selectBetween hj hb ht hf
  case case8 =>
    intro hts _
    rw [selectAll]
    exact answers_pure hts
  case case9 =>
    intro t ts f fs iht ihts hts hfs
    rw [allOver_cons] at hts hfs
    rw [selectAll]
    apply answers_bind (iht hts.1 hfs.1)
    intro x hx
    apply answers_bind (ihts hts.2 hfs.2)
    exact fun xs hxs => answers_pure (allOver_cons.mpr ⟨hx, hxs⟩)
  case case10 =>
    intro ts fs hnil hcons _ _
    rw [selectAll_of_mismatch hnil hcons]
    exact answers_throw _

def Registers.Avoids (j : ℕ) (registers : Registers) : Prop :=
  ∀ entry ∈ registers, entry.2.Avoids j

theorem Registers.Avoids.store (h : registers.Avoids j) {item : Item} (hitem : item.Avoids j)
    (target : Option String) : (Step.store registers target item).Avoids j := by
  cases target with
  | none => exact h
  | some name => exact Entries.forall_put h name hitem

namespace Operand

theorem answers_item (hr : registers.Avoids j) {x : Operand} (hx : x.IsPlain) :
    (x.item registers).Answers j (Item.Avoids j) := by
  rw [item]
  split
  · rename_i found hfound
    exact answers_pure (over_resolve hr hx hfound)
  · exact answers_fail _

theorem answers_linear (hr : registers.Avoids j) {x : Operand} (hx : x.IsPlain) :
    (x.linear registers).Answers j (Linear.Avoids j) :=
  answers_bind (answers_item hr hx) fun _ => answers_expression

theorem answers_mapM_linear (hr : registers.Avoids j) {xs : List Operand}
    (hxs : ∀ x ∈ xs, x.IsPlain) :
    (xs.mapM fun x : Operand => x.linear registers).Answers j
      fun ys => ∀ y ∈ ys, Linear.Avoids j y := by
  induction xs with
  | nil => exact answers_pure (by simp)
  | cons x rest ih =>
    rw [List.forall_mem_cons] at hxs
    rw [List.mapM_cons]
    apply answers_bind (answers_linear hr hxs.1)
    intro y hy
    apply answers_bind (ih hxs.2)
    exact fun ys hys => answers_pure (List.forall_mem_cons.mpr ⟨hy, hys⟩)

end Operand

/-- What an instruction answers has no earlier wire in it that its operands do not have. -/
theorem Instruction.answers_run (hj : 0 < j) (around : Surroundings) (hr : registers.Avoids j)
    {i : Instruction} (hi : i.IsPlain) : (i.run around registers).Answers j (Item.Avoids j) := by
  have hframe := R1CS.isOpenFrame_grows.toIsFrame
  have hlinear := fun {x : Operand} => x.answers_linear hr
  have hitem := fun {x : Operand} => x.answers_item hr
  cases i with
  | publicInput name value => exact answers_asItem (answers_wire _ _)
  | privateInput name value => exact answers_asItem (answers_wire _ _)
  | parameter name isPublic given => cases given <;> exact answers_asItem (answers_wire _ _)
  | wire formula name => exact answers_asItem (answers_wire _ _)
  | add x y =>
    exact answers_bind (hlinear hi.1) fun a ha => answers_bind (hlinear hi.2) fun b hb =>
      answers_asItem (answers_sum hj (by simpa using ⟨avoids_constant 0 j, ha, hb⟩))
  | sub x y =>
    exact answers_bind (hlinear hi.2) fun b hb => answers_bind (hlinear hi.1) fun a ha =>
      answers_asItem (answers_sub hj ha hb)
  | mul x y message =>
    exact answers_bind (hlinear hi.1) fun a ha => answers_bind (hlinear hi.2) fun b hb =>
      answers_asItem (answers_mul ha hb _)
  | div x y message =>
    exact answers_bind (hitem hi.1) fun item hx => answers_bind (answers_expression hx)
      fun a ha => answers_bind (hlinear hi.2) fun b _ => answers_asItem (answers_div ha _ _)
  | not x =>
    exact answers_bind (hlinear hi) fun a ha =>
      answers_asItem (answers_sub hj (avoids_constant 1 j) ha)
  | and x y =>
    exact answers_bind (hlinear hi.1) fun a ha => answers_bind (hlinear hi.2) fun b hb =>
      answers_asItem (answers_mul ha hb _)
  | sum xs start =>
    exact answers_bind (hlinear hi.2) fun a ha =>
      answers_bind (Operand.answers_mapM_linear hr hi.1) fun ys hys =>
        answers_asItem (answers_sum hj (List.forall_mem_cons.mpr ⟨ha, hys⟩))
  | select b t f =>
    exact answers_bind (hitem hi.1) fun x hx => answers_bind (hitem hi.2.1) fun y hy =>
      answers_bind (hitem hi.2.2) fun z hz => (answers_select hj hx).1 y z hy hz
  | gate x y z message =>
    exact answers_bind (hitem hi.2.2) fun item hz => answers_bind (hlinear hi.1) fun a _ =>
      answers_bind (hlinear hi.2.1) fun b _ => answers_bind (answers_expression hz) fun c _ =>
        answers_asNothing (keeps_gate hframe _ _ _ _ _)
  | assertZero x message =>
    exact answers_bind (hlinear hi) fun a _ => answers_asNothing (keeps_gate hframe _ _ _ _ _)
  | assertBit x message =>
    exact answers_bind (hlinear hi) fun a _ => answers_asNothing (keeps_gate hframe _ _ _ _ _)
  | connect x y message =>
    exact answers_bind (hlinear hi.2) fun b _ => answers_bind (hlinear hi.1) fun a _ =>
      answers_asNothing (keeps_connect hframe _ _ _)
  | read x => exact absurd hi id
  | ask query => exact absurd hi id
  | freeze => exact answers_asNothing R1CS.grows_freeze

namespace Step

theorem answers_run (hj : 0 < j) (around : Surroundings) (hr : registers.Avoids j) {step : Step}
    (hstep : step.instruction.IsPlain) :
    (step.run around registers).Answers j (Item.Avoids j) := by
  rw [Step.run]
  split
  · exact answers_fail _
  · exact Instruction.answers_run hj around hr hstep

theorem answers_runAll (hj : 0 < j) (around : Surroundings) {steps : List Step}
    (hsteps : ∀ step ∈ steps, step.instruction.IsPlain) (hr : registers.Avoids j) :
    (runAll around steps registers).Answers j (Registers.Avoids j) := by
  induction steps generalizing registers with
  | nil => exact answers_pure hr
  | cons step rest ih =>
    rw [List.forall_mem_cons] at hsteps
    rw [runAll]
    apply answers_bind (answers_run hj around hr hsteps.1)
    exact fun item hitem => ih hsteps.2 (hr.store hitem step.target)

end Step

end

/-- A transition answers without the earlier wires that it is not handed. -/
theorem Transition.Program.not_uses {t : Transition} (p : t.Program) {s u : R1CS} {y : Linear}
    {j k : ℕ} (hs : s.WellFormed) (hf : s.frozen = false) (hpos : 0 < k) (hk : k < s.wireCount)
    (hj : 0 < j) (hlt : j < s.wireCount) (hne : k ≠ j)
    (h : (t.constrain (s.wireAt k)).run s = (.ok y, u)) : ¬ y.Uses j := by
  rw [p.run_eq hs hf hpos hk, run_run] at h
  have hr : Registers.Avoids j (("z", .scalar (s.wireAt k)) :: Step.start "ONE" s) := by
    intro entry hentry
    simp only [Step.start, List.mem_cons, List.not_mem_nil, or_false] at hentry
    rcases hentry with rfl | rfl
    · exact Item.over_scalar (avoids_wireAt s hne)
    · exact Item.over_scalar (avoids_wireAt s hj.ne)
  have hanswers := Build.answers_bind (Step.answers_runAll hj .bare p.isPlain hr)
    fun registers hregisters => p.result.answers_linear hregisters p.result_isPlain
  exact (hanswers hlt h).1.not_uses

end RankOne
