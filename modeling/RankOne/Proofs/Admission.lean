import RankOne.Proofs.Calculation
import RankOne.Proofs.Meaning

/-!
# Which operands a system lets in

An operation on an open system looks at the owner of each operand and at whether its wires lie
beyond the assignment. It does not look at whether they lie before it: a negative index counts from
the end of the assignment, and stands for another wire as soon as there is one more. Expressions
over the wires of the system, and what operations make of them, keep their values.
-/

set_option autoImplicit false

namespace RankOne

namespace R1CS
variable {s t : R1CS}

/-- Reading fails for want of a wire or of a value, and for no other reason. -/
theorem not_mismatch_of_read (x : Linear) (cause : Mismatch) :
    s.read x ≠ .error (.mismatch cause) := by
  have htotal : ∀ terms, s.total terms ≠ .error (.mismatch cause) := by
    intro terms
    induction terms with
    | nil => simp [total]
    | cons term rest ih =>
      obtain ⟨m, a⟩ := term
      simp only [total]
      split
      · simp
      · simp
      · split
        · simp
        · rename_i e he
          simpa [he] using ih
  cases x with
  | constant k => simp [read]
  | combination c =>
    simp only [read]
    split
    · simp
    · rename_i e he
      simpa [he] using htotal c.terms

theorem not_mismatch_of_wireValue {value : Reader → Except Fault Int} {cause : Mismatch}
    (h : value s.read ≠ .error (.mismatch cause)) :
    s.wireValue value ≠ .error (.mismatch cause) := by
  rw [wireValue]
  split
  · split
    · simp
    · rename_i e he
      simpa [he] using h
  · simp

theorem slot?_neg {m : ℕ} (hpos : 0 < m) (hle : m ≤ s.values.length) :
    s.slot? (-(m : Int)) = s.slot? ((s.values.length : Int) - m) := by
  have hneg : placeAmong s.values.length (-(m : Int)) = some (s.values.length - m) := by
    rw [placeAmong, if_neg (by omega), if_pos (by omega)]
    congr 1
    omega
  have hplace : placeAmong s.values.length ((s.values.length : Int) - m) =
      some (s.values.length - m) := by
    rw [placeAmong, if_pos (by omega), if_pos (by omega)]
    congr 1
    omega
  rw [slot?, slot?, hneg, hplace]

structure Guarded (s : R1CS) : Prop where
  wellFormed : s.WellFormed
  ownsGate : ∀ g ∈ s.gates, s.OwnsGate g

theorem OwnsGate.extend {g : Gate} (h : s.OwnsGate g) (hst : s.Extends t) : t.OwnsGate g :=
  ⟨hst.owns h.1, hst.owns h.2.1, hst.owns h.2.2⟩

theorem guarded_fresh (tag : Nat) (witnessed : Bool) : (fresh tag witnessed).Guarded :=
  ⟨wellFormed_fresh tag witnessed, by simp [fresh]⟩

/-- The system stays guarded as long as it owns the gates that come up. -/
theorem Guarded.grow (hs : s.Guarded) (hst : s.Grows t)
    (hgates : ∀ g ∈ t.gates, g ∈ s.gates ∨ t.OwnsGate g) : t.Guarded :=
  ⟨hst.wellFormed hs.wellFormed, fun g hg =>
    (hgates g hg).elim (fun hg => (hs.ownsGate g hg).extend hst.extends_) id⟩

theorem Guarded.freeze (hs : s.Guarded) : s.freeze.Guarded := by
  apply hs.grow (grows_freeze s)
  intro g hg
  rw [R1CS.freeze] at hg ⊢
  split at hg
  · exact .inl hg
  · rename_i hf
    rw [if_neg hf]
    refine (List.mem_append.mp hg).imp id fun hg => ?_
    obtain ⟨entry, hentry, rfl⟩ := List.mem_map.mp hg
    exact ⟨owns_wireAt (hs.wellFormed.entries_lt entry hentry), rfl, rfl⟩

theorem isOpenFrame_guarded : IsOpenFrame fun s t => s.Guarded → t.Guarded where
  refl _ := id
  trans h h' := h' ∘ h
  push hf hv hs := hs.grow (grows_push hv hf none) fun _ => .inl
  addGate g hf hg hs := by
    apply hs.grow (grows_addGate hf g)
    intro g' hg'
    refine (List.mem_append.mp hg').imp id fun hg' => ?_
    obtain rfl := List.mem_singleton.mp hg'
    exact hg hs.wellFormed.wireCount_pos
  publish name hf hv hs := hs.grow (grows_push hv hf (some name)) fun _ => .inl
  freeze _ hs := hs.freeze

end R1CS

namespace Call

theorem keeps_after {R : R1CS → R1CS → Prop} (hR : R1CS.IsOpenFrame R) (calls : List Call)
    (s : R1CS) : R s (after calls s) := by
  induction calls generalizing s with
  | nil => exact hR.refl s
  | cons call rest ih => exact hR.trans (call.keeps_run hR s) (ih _)

theorem guarded_after (tag : Nat) (witnessed : Bool) (calls : List Call) :
    (after calls (.fresh tag witnessed)).Guarded :=
  keeps_after R1CS.isOpenFrame_guarded calls _ (R1CS.guarded_fresh tag witnessed)

theorem grows_after (calls : List Call) (s : R1CS) : s.Grows (after calls s) :=
  keeps_after R1CS.isOpenFrame_grows calls s

end Call

namespace Build
variable {α β : Type} {s : R1CS}

def Screens (xs : List Linear) (x : Build α) : Prop :=
  ∀ s : R1CS, s.frozen = false → 0 < s.wireCount →
    ((x.run s).1 = .error (.mismatch .foreignVariable) ↔ ∃ y ∈ xs, s.owns y = false)

theorem access_eq_of_foreign (xs : List Linear) (hf : s.frozen = false)
    (h : ∃ y ∈ xs, s.owns y = false) : s.access xs = .error (.mismatch .foreignVariable) := by
  obtain ⟨y, hy, howns⟩ := h
  rw [R1CS.access, if_neg (by simp [hf]), if_neg]
  intro hall
  simp [List.all_eq_true.mp hall y hy] at howns

theorem access_eq_ok_of_forall (xs : List Linear) (hf : s.frozen = false)
    (h : ¬ ∃ y ∈ xs, s.owns y = false) : s.access xs = .ok () :=
  R1CS.access_eq_ok_iff.mpr ⟨hf, by simpa using h⟩

/-- A computation that asks for access first, and has no other use for the fault. -/
theorem screens_of_access {xs : List Linear} {x : Build α}
    (hforeign : ∀ s e, s.access xs = .error e → x.run s = (.error e, s))
    (howned : ∀ s, 0 < s.wireCount → s.access xs = .ok () →
      (x.run s).1 ≠ .error (.mismatch .foreignVariable)) : x.Screens xs := by
  intro s hf hpos
  by_cases h : ∃ y ∈ xs, s.owns y = false
  · simp only [hforeign s _ (access_eq_of_foreign xs hf h), h]
  · simp only [howned s hpos (access_eq_ok_of_forall xs hf h), h]

theorem screens_sum (xs : List Linear) (x : Linear) : (sum xs x).Screens (x :: xs) := by
  apply screens_of_access
  · intro s e h
    simp only [run_sum, h]
  · intro s _ h
    simp [run_sum, h]

theorem screens_sub (x y : Linear) : (sub x y).Screens [x, y] := by
  apply screens_of_access
  · intro s e h
    simp only [run_sub, h]
  · intro s _ h
    simp [run_sub, h]

theorem not_mismatch_of_productValue (x y : Linear) (cause : Mismatch) :
    productValue x y s.read ≠ .error (.mismatch cause) := by
  rw [productValue]
  split
  · rename_i e he
    simpa [he] using s.not_mismatch_of_read x cause
  · split
    · rename_i e he
      simpa [he] using s.not_mismatch_of_read y cause
    · simp

theorem not_mismatch_of_quotientValue (x y : Linear) (cause : Mismatch) :
    quotientValue x y s.read ≠ .error (.mismatch cause) := by
  rw [quotientValue]
  split
  · rename_i e he
    simpa [he] using s.not_mismatch_of_read y cause
  · split
    · simp
    · split
      · rename_i e he
        simpa [he] using s.not_mismatch_of_read x cause
      · simp

theorem screens_mul (x y : Linear) (message : String) : (mul x y message).Screens [x, y] := by
  apply screens_of_access
  · intro s e h
    simp only [run_mul, h]
  · intro s _ h
    simp only [run_mul, h]
    split
    · simp
    · split
      · rename_i e he
        simpa [he] using R1CS.not_mismatch_of_wireValue
          (not_mismatch_of_productValue (s := s) x y .foreignVariable)
      · simp

theorem screens_div (x y : Linear) (message : String) (isFlag : Bool) :
    (div x y message isFlag).Screens [x, y] := by
  apply screens_of_access
  · intro s e h
    simp only [run_div, h]
  · intro s _ h
    simp only [run_div, h]
    split
    · split <;> simp
    · split
      · simp
      · split
        · rename_i c _ _ e he
          simpa [he] using R1CS.not_mismatch_of_wireValue
            (not_mismatch_of_quotientValue (s := s) x (.combination c) .foreignVariable)
        · simp

theorem screens_gate (x y z : Linear) (message : String) (isFlag : Bool) :
    (gate x y z message isFlag).Screens [x, y, z] := by
  apply screens_of_access
  · intro s e h
    simp only [run_gate, h]
  · intro s _ h
    simp only [run_gate, h]
    split
    · rw [run_zeroGate]
      split
      · split <;> simp
      · simp
    · simp

/-- A difference of expressions of the system is one of them, so only the first step of the two
can find fault with an owner. -/
theorem screens_connect (x y : Linear) (message : String) :
    (connect x y message).Screens [x, y] := by
  apply screens_of_access
  · intro s e h
    simp only [connect, run_bind, run_sub, h]
  · intro s hpos h
    obtain ⟨hf, howns⟩ := R1CS.access_eq_ok_iff.mp h
    have hd := R1CS.owns_difference hpos (howns x (by simp)) (howns y (by simp))
    simp only [connect, run_bind, run_sub, h, assertZero]
    rw [ne_eq, screens_gate _ _ _ _ _ s hf hpos]
    simp [hd]

/-- Of a selection the sum at the end has nothing to find fault with, and the product in the middle
only the bit. -/
theorem screens_selectScalar (b t f : Linear) : (selectScalar b t f).Screens [b, t, f] := by
  intro s hf hpos
  simp only [selectScalar, run_bind, run_sub]
  by_cases hforeign : ∃ y ∈ [t, f], s.owns y = false
  · have hall : ∃ y ∈ [b, t, f], s.owns y = false := by
      obtain ⟨y, hy, howns⟩ := hforeign
      exact ⟨y, List.mem_cons_of_mem _ hy, howns⟩
    simp only [access_eq_of_foreign [t, f] hf hforeign, hall]
  · have haccess := access_eq_ok_of_forall [t, f] hf hforeign
    have howns := (R1CS.access_eq_ok_iff.mp haccess).2
    have ht := howns t (by simp)
    have hbranch := howns f (by simp)
    have hd := R1CS.owns_difference hpos ht hbranch
    have hmul := screens_mul b (Linear.difference s.tag t f) "multiplication error" s hf hpos
    simp only [haccess]
    simp only [List.mem_cons, List.not_mem_nil, or_false, exists_eq_or_imp, exists_eq_left, hd, ht,
      hbranch, Bool.true_eq_false] at hmul ⊢
    rw [← hmul]
    cases hrun : (mul b (Linear.difference s.tag t f) "multiplication error").run s with
    | mk r u =>
      cases r with
      | error e => rfl
      | ok p =>
        obtain ⟨z, hz⟩ := exists_run_add_of_run_mul hrun hbranch
        simp [hz]

theorem screens_expression_bind {x : Linear} {xs : List Linear} {f : Linear → Build β}
    (hf : (f x).Screens xs) : (expression (.scalar x) >>= f).Screens (x :: xs) := by
  intro s hopen hpos
  simp only [expression, Item.linear?, run_bind, run_own]
  by_cases hx : s.owns x = true
  · simp only [access_eq_ok_of_forall [x] hopen (by simp [hx]), run_pure]
    rw [hf s hopen hpos]
    simp [hx]
  · simp only [access_eq_of_foreign [x] hopen (by simpa using hx)]
    simpa using .inl (by simpa using hx)

theorem Screens.map {xs : List Linear} {x : Build α} (hx : x.Screens xs) (g : α → β) :
    (g <$> x).Screens xs := by
  intro s hf hpos
  rw [← hx s hf hpos, run_map]
  generalize x.run s = p
  obtain ⟨r, u⟩ := p
  cases r <;> simp

theorem Screens.congr {xs ys : List Linear} {x : Build α} (hx : x.Screens xs)
    (h : ∀ s : R1CS, (∃ y ∈ xs, s.owns y = false) ↔ ∃ y ∈ ys, s.owns y = false) :
    x.Screens ys :=
  fun s hf hpos => (hx s hf hpos).trans (h s)

theorem Screens.asNothing {xs : List Linear} {x : Build Unit} (hx : x.Screens xs) :
    (Instruction.asNothing x).Screens xs := by
  have hmap : Instruction.asNothing x = (fun _ => Item.nothing) <$> x := by
    rw [map_eq_pure_bind]
    rfl
  rw [hmap]
  exact hx.map _

/-- A selection looks at its three operands one after the other, and then computes with them. -/
theorem screens_selectBetween (b t f : Linear) :
    (selectBetween (.scalar b) (.scalar t) (.scalar f)).Screens [b, t, f] := by
  have hbit := screens_expression_bind (f := fun bit => Item.scalar <$> selectScalar bit t f)
    ((screens_selectScalar b t f).map _)
  have hfirst := screens_expression_bind (f := fun x => do
    let bit ← expression (.scalar b)
    Item.scalar <$> selectScalar bit x f) hbit
  have hsecond := screens_expression_bind (f := fun y => do
    let x ← expression (.scalar t)
    let bit ← expression (.scalar b)
    Item.scalar <$> selectScalar bit x y) hfirst
  refine hsecond.congr fun s => ?_
  simp only [List.mem_cons, List.not_mem_nil, or_false, exists_eq_or_imp, exists_eq_left]
  tauto

end Build

inductive Operation
  | sum (x : Linear) (xs : List Linear)
  | add (x y : Linear)
  | sub (x y : Linear)
  | mul (x y : Linear) (message : String)
  | div (x y : Linear) (message : String) (isFlag : Bool)
  | not (x : Linear)
  | and (x y : Linear)
  | select (b : Combination) (t f : Linear)
  | gate (x y z : Linear) (message : String) (isFlag : Bool)
  | assertZero (x : Linear) (message : String)
  | assertBit (x : Linear) (message : String)
  | connect (x y : Linear) (message : String)

namespace Operation
open Instruction (asItem asNothing)

def operands : Operation → List Linear
  | sum x xs => x :: xs
  | add x y => [x, y]
  | sub x y => [x, y]
  | mul x y _ => [x, y]
  | div x y _ _ => [x, y]
  | not x => [x]
  | and x y => [x, y]
  | select b t f => [.combination b, t, f]
  | gate x y z _ _ => [x, y, z]
  | assertZero x _ => [x]
  | assertBit x _ => [x]
  | connect x y _ => [x, y]

def run : Operation → Build Item
  | sum x xs => asItem (Build.sum xs x)
  | add x y => asItem (Build.add x y)
  | sub x y => asItem (Build.sub x y)
  | mul x y message => asItem (Build.mul x y message)
  | div x y message isFlag => asItem (Build.div x y message isFlag)
  | not x => asItem (Build.not x)
  | and x y => asItem (Build.and x y)
  | select b t f => Build.select (.scalar (.combination b)) (.scalar t) (.scalar f)
  | gate x y z message isFlag => asNothing (Build.gate x y z message isFlag)
  | assertZero x message => asNothing (Build.assertZero x message)
  | assertBit x message => asNothing (Build.assertBit x message)
  | connect x y message => asNothing (Build.connect x y message)

theorem run_select (b : Combination) (t f : Linear) :
    (select b t f).run =
      Build.selectBetween (.scalar (.combination b)) (.scalar t) (.scalar f) :=
  Build.select_of_not_isSequence rfl rfl _

theorem atomic_run (op : Operation) : op.run.Atomic := by
  cases op with
  | sum x xs => exact (Build.still_sum xs x).atomic.map _
  | add x y => exact (Build.still_sum [x, y] _).atomic.map _
  | sub x y => exact (Build.still_sub x y).atomic.map _
  | mul x y message => exact (Build.atomic_mul x y message).map _
  | div x y message isFlag => exact (Build.atomic_div x y message isFlag).map _
  | not x => exact (Build.still_sub _ x).atomic.map _
  | and x y => exact (Build.atomic_mul x y _).map _
  | select b t f => exact Build.atomic_select rfl _ _
  | gate x y z message isFlag => exact (Build.atomic_gate x y z message isFlag).asNothing
  | assertZero x message => exact (Build.atomic_gate _ _ x message false).asNothing
  | assertBit x message => exact (Build.atomic_gate x x x message false).asNothing
  | connect x y message => exact (Build.atomic_connect x y message).asNothing

/-- Constants that an operation brings with it are owned by every system. -/
theorem screens_run (op : Operation) : op.run.Screens op.operands := by
  cases op with
  | sum x xs => exact (Build.screens_sum xs x).map _
  | add x y =>
    exact ((Build.screens_sum [x, y] (.constant 0)).map _).congr fun s => by simp [operands]
  | sub x y => exact (Build.screens_sub x y).map _
  | mul x y message => exact (Build.screens_mul x y message).map _
  | div x y message isFlag => exact (Build.screens_div x y message isFlag).map _
  | not x =>
    exact ((Build.screens_sub (.constant 1) x).map _).congr fun s => by simp [operands]
  | and x y => exact (Build.screens_mul x y _).map _
  | select b t f =>
    rw [run_select]
    exact Build.screens_selectBetween _ t f
  | gate x y z message isFlag => exact (Build.screens_gate x y z message isFlag).asNothing
  | assertZero x message =>
    have h := (Build.screens_gate (.constant 0) (.constant 0) x message false).asNothing
    exact h.congr fun s => by simp [operands]
  | assertBit x message =>
    exact (Build.screens_gate x x x message false).asNothing.congr fun s => by simp [operands]
  | connect x y message => exact (Build.screens_connect x y message).asNothing

theorem means_asItem {x : Build Linear} {s : R1CS} {E : Linear → (Int → Scalar) → Prop}
    (h : Build.Means (fun t z => z.Within t) E x s) :
    ∃ E', Build.Means (fun t item => item.Within t) E' (asItem x) s :=
  ⟨fun item v => ∀ z, item = .scalar z → E z v, Instruction.means_asItem h fun z v => by simp⟩

/-- What an operation makes of expressions over the wires of a system is over them too. -/
theorem means_run (op : Operation) {s : R1CS} (hs : s.WellFormed)
    (h : ∀ x ∈ op.operands, x.Within s) :
    ∃ E, Build.Means (fun t item => item.Within t) E op.run s := by
  cases op with
  | sum x xs =>
    obtain ⟨hx, hxs⟩ := List.forall_mem_cons.mp h
    exact ⟨_, Instruction.means_worth (Build.means_sum hs hx hxs)⟩
  | add x y =>
    obtain ⟨hx, hy⟩ : x.Within s ∧ y.Within s := by simpa [operands] using h
    exact ⟨_, Instruction.means_worth (Build.means_add hs hx hy)⟩
  | sub x y =>
    obtain ⟨hx, hy⟩ : x.Within s ∧ y.Within s := by simpa [operands] using h
    exact ⟨_, Instruction.means_worth (Build.means_sub hs hx hy)⟩
  | mul x y message =>
    obtain ⟨hx, hy⟩ : x.Within s ∧ y.Within s := by simpa [operands] using h
    exact means_asItem (Build.means_mul hx hy message)
  | div x y message isFlag =>
    obtain ⟨hx, hy⟩ : x.Within s ∧ y.Within s := by simpa [operands] using h
    exact means_asItem (Build.means_div hx hy message isFlag)
  | not x =>
    have hx : x.Within s := by simpa [operands] using h
    exact ⟨_, Instruction.means_worth (Build.means_sub hs (x := .constant 1) trivial hx)⟩
  | and x y =>
    obtain ⟨hx, hy⟩ : x.Within s ∧ y.Within s := by simpa [operands] using h
    exact means_asItem (Build.means_mul hx hy _)
  | select b t f =>
    obtain ⟨hb, ht, hf⟩ : (Linear.combination b).Within s ∧ t.Within s ∧ f.Within s := by
      simpa [operands] using h
    rw [run_select]
    exact ⟨_, Build.means_selectBetween hs hb ht hf⟩
  | gate x y z message isFlag =>
    obtain ⟨hx, hy, hz⟩ : x.Within s ∧ y.Within s ∧ z.Within s := by simpa [operands] using h
    exact ⟨_, Instruction.means_asNothing (Build.means_gate hs hx hy hz message isFlag)⟩
  | assertZero x message =>
    have hx : x.Within s := by simpa [operands] using h
    exact ⟨_, Instruction.means_asNothing (Build.means_assertZero hs hx message)⟩
  | assertBit x message =>
    have hx : x.Within s := by simpa [operands] using h
    exact ⟨_, Instruction.means_asNothing (Build.means_assertBit hs hx message)⟩
  | connect x y message =>
    obtain ⟨hx, hy⟩ : x.Within s ∧ y.Within s := by simpa [operands] using h
    exact ⟨_, Instruction.means_asNothing (Build.means_connect hs hx hy message)⟩

theorem within_of_run (op : Operation) {s t : R1CS} (hs : s.WellFormed)
    (h : ∀ x ∈ op.operands, x.Within s) {item : Item} (hrun : op.run.run s = (.ok item, t)) :
    item.Within t ∧ ∀ g ∈ t.gates, g ∈ s.gates ∨ g.Within t := by
  obtain ⟨E, hmeans⟩ := op.means_run hs h
  obtain ⟨hemits, hitem⟩ := hmeans.of_run hrun
  obtain ⟨new, hnew, hwithin, -⟩ := hemits.gates
  refine ⟨hitem, fun g hg => ?_⟩
  rw [hnew] at hg
  exact (List.mem_append.mp hg).imp id (hwithin g)

/-- An operation is refused for a foreign operand exactly where its system owns not all of them. -/
theorem run_eq_foreign_iff (op : Operation) {s : R1CS} (hf : s.frozen = false)
    (hpos : 0 < s.wireCount) :
    op.run.run s = (.error (.mismatch .foreignVariable), s) ↔
      ∃ x ∈ op.operands, s.owns x = false := by
  rw [← op.screens_run s hf hpos]
  constructor
  · intro h
    rw [h]
  · intro h
    have hatomic := op.atomic_run s
    generalize op.run.run s = p at hatomic h ⊢
    cases hatomic with
    | ok item t => cases h
    | error e =>
      obtain rfl := Except.error.inj h
      rfl

end Operation

def Combination.IsForeign (s : R1CS) (c : Combination) : Prop :=
  c.owner ≠ some s.tag ∨ ∃ term ∈ c.terms, (s.wireCount : Int) ≤ term.1

theorem Combination.isForeign_iff {s : R1CS} {c : Combination} :
    c.IsForeign s ↔ s.owns (.combination c) = false := by
  rw [← Bool.not_eq_true, R1CS.owns_combination, Decidable.not_and_iff_or_not]
  simp [IsForeign]

theorem exists_foreign_iff {s : R1CS} {xs : List Linear} :
    (∃ x ∈ xs, s.owns x = false) ↔ ∃ c, .combination c ∈ xs ∧ c.IsForeign s := by
  constructor
  · rintro ⟨x, hx, howns⟩
    cases x with
    | constant k => simp at howns
    | combination c => exact ⟨c, hx, Combination.isForeign_iff.mpr howns⟩
  · rintro ⟨c, hc, hforeign⟩
    exact ⟨_, hc, Combination.isForeign_iff.mp hforeign⟩

namespace Call

/-- Whatever has been called on a system, an operation on it while it is open is refused exactly
for an operand of another system or with a wire beyond the assignment, and no side of a gate is such
an operand. Operands over the wires of the system give an answer and gates over them, and keep their
values in all that follows. A negative index is the index of a wire counted from the end, whichever
wire is there at the time. -/
theorem operands_and_values (tag : ℕ) (witnessed : Bool) (calls : List Call) :
    let s := after calls (.fresh tag witnessed)
    (s.frozen = false → ∀ op : Operation,
      op.run.run s = (.error (.mismatch .foreignVariable), s) ↔
        ∃ c, .combination c ∈ op.operands ∧ c.IsForeign s) ∧
    (∀ g ∈ s.gates, ∀ c, .combination c ∈ [g.left, g.right, g.output] → ¬ c.IsForeign s) ∧
    (∀ (op : Operation) (item : Item) (t : R1CS), (∀ x ∈ op.operands, x.Within s) →
      op.run.run s = (.ok item, t) →
        item.Within t ∧ ∀ g ∈ t.gates, g ∈ s.gates ∨ g.Within t) ∧
    (witnessed = true → ∀ x : Linear, x.Within s →
      ∃ n, ∀ later, (after later s).read x = .ok n) ∧
    ∀ m : ℕ, 0 < m → m ≤ s.wireCount → s.slot? (-(m : Int)) = s.slot? ((s.wireCount : Int) - m) := by
  intro s
  have hs : s.Guarded := guarded_after tag witnessed calls
  refine ⟨fun hf op => ?_, fun g hg c hc hforeign => ?_, fun op item t => ?_, fun hw x hx => ?_,
    fun m hpos hle => ?_⟩
  · rw [op.run_eq_foreign_iff hf hs.wellFormed.wireCount_pos]
    exact exists_foreign_iff
  · obtain ⟨hleft, hright, houtput⟩ := hs.ownsGate g hg
    have howns : s.owns (.combination c) = true := by
      simp only [List.mem_cons, List.not_mem_nil, or_false] at hc
      rcases hc with h | h | h <;> rwa [h]
    rw [Combination.isForeign_iff, howns] at hforeign
    simp at hforeign
  · exact fun h hrun => op.within_of_run hs.wellFormed h hrun
  · have hwitnessed : s.witnessed = true := by
      rw [(grows_after calls (.fresh tag witnessed)).extends_.witnessed, hw]
      rfl
    have hvalued : s.Valued := ⟨hs.wellFormed, hwitnessed⟩
    obtain ⟨n, hn, -⟩ := hvalued.exists_read hx
    exact ⟨n, fun later => (hvalued.read_extend (grows_after later s) hx).trans hn⟩
  · rw [← hs.wellFormed.length_values] at hle ⊢
    exact s.slot?_neg hpos hle

/-- A wire that is worth 5: its square stays what it is, and a wire that is not there yet is
refused. -/
theorem operands_and_values_five :
    let s := after [.wire (fun _ => .ok 5) none] (.fresh 0 true)
    let x := s.wireAt 1
    let t := ((Operation.mul x x "").run.run s).2
    let beyond : Combination := ⟨[(2, 1)], some 0⟩
    s.frozen = false ∧ x.Within s ∧ beyond.IsForeign s ∧
      (Operation.add (.combination beyond) x).run.run s =
        (.error (.mismatch .foreignVariable), s) ∧
      (∀ g ∈ t.gates, g ∈ s.gates ∨ g.Within t) ∧
      (∃ n, ∀ later, (after later s).read x = .ok n) ∧ s.slot? (-1) = s.slot? 1 := by
  intro s x t beyond
  obtain ⟨hrefused, -, hwithin, hreads, hslot⟩ :=
    operands_and_values 0 true [.wire (fun _ => .ok 5) none]
  have hx : x.Within s := Linear.within_wireAt (by decide)
  have hforeign : beyond.IsForeign s := .inr ⟨(2, 1), by decide⟩
  refine ⟨rfl, hx, hforeign, (hrefused rfl _).mpr ⟨beyond, List.mem_cons_self .., hforeign⟩, ?_,
    hreads rfl x hx, hslot 1 (by decide) (by decide)⟩
  have hboth : ∀ y ∈ (Operation.mul x x "").operands, y.Within s := by
    simpa [Operation.operands] using hx
  exact (hwithin (.mul x x "") _ t hboth rfl).2

/-- The last wire counted from the end is let in where there is one wire besides the constant. The
gate that says that it is 5 holds, and no longer holds when another wire has come. -/
theorem negative_wire_accepted :
    let s := after [.wire (fun _ => .ok 5) none] (.fresh 0 true)
    let last : Linear := .combination ⟨[(-1, 1)], some 0⟩
    let t := ((Operation.gate last (.constant 1) (.constant 5) "" false).run.run s).2
    let u := after [.wire (fun _ => .ok 7) none] t
    (Operation.sum last []).run.run s = (.ok (.scalar last), s) ∧
      (Operation.gate last (.constant 1) (.constant 5) "" false).run.run s = (.ok .nothing, t) ∧
      s.read last = .ok 5 ∧ u.read last = .ok 7 ∧
      t.gates.length = 1 ∧ u.gates = t.gates ∧ t.check = .ok none ∧ u.check = .ok (some "") :=
  ⟨rfl, rfl, by decide, by decide, rfl, rfl, by decide, by decide⟩

end Call

end RankOne
