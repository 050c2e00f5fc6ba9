import RankOne.Proofs.Admission

/-!
# The normal form of linear expressions

What operations that stay linear answer is written in one way only. An answer that depends on no
wire is an integer in the range of the field, and any other lists each wire once, with a coefficient
that is reduced and not zero. Two such answers have the same value under all assignments only if
they are the same, but for the order of the terms. So an expression tree may be rewritten at will as
long as it denotes the same function of the wires.
-/

set_option autoImplicit false

namespace RankOne

structure Combination.IsNormal (s : R1CS) (c : Combination) : Prop where
  owner : c.owner = some s.tag
  nodup : (c.terms.map Prod.fst).Nodup
  wires : ∀ term ∈ c.terms, 0 ≤ term.1 ∧ term.1 < s.wireCount
  coefficients : ∀ term ∈ c.terms, IsDraw term.2
  dependent : ∃ term ∈ c.terms, term.1 ≠ 0

theorem Combination.IsNormal.extend {s t : R1CS} {c : Combination} (h : c.IsNormal s)
    (hst : s.Extends t) : c.IsNormal t where
  owner := by rw [h.owner, hst.tag]
  nodup := h.nodup
  wires term hterm := by
    have hwire := h.wires term hterm
    have hle := hst.wireCount
    omega
  coefficients := h.coefficients
  dependent := h.dependent

namespace Linear

def IsNormal (s : R1CS) : Linear → Prop
  | .constant k => 0 ≤ k ∧ k < order
  | .combination c => c.IsNormal s

def IsOperand (s : R1CS) : Linear → Prop
  | .constant _ => True
  | .combination c => c.IsNormal s

def Same : Linear → Linear → Prop
  | .constant a, .constant b => a = b
  | .combination c, .combination d => c.owner = d.owner ∧ c.terms.Perm d.terms
  | _, _ => False

variable {s t : R1CS} {x y p : Linear}

theorem IsNormal.isOperand (h : x.IsNormal s) : x.IsOperand s := by
  cases x with
  | constant k => trivial
  | combination c => exact h

theorem IsOperand.within (h : x.IsOperand s) : x.Within s := by
  cases x with
  | constant k => trivial
  | combination c => exact ⟨h.owner, h.wires⟩

theorem IsOperand.extend (h : x.IsOperand s) (hst : s.Extends t) : x.IsOperand t := by
  cases x with
  | constant k => trivial
  | combination c => exact Combination.IsNormal.extend h hst

theorem isNormal_sum (hpos : 0 < s.wireCount) {xs : List Linear} (h : ∀ x ∈ xs, x.Within s) :
    (sum s.tag xs).IsNormal s := by
  have hwithin := within_sum hpos h
  cases hsum : sum s.tag xs with
  | constant k => exact range_of_ofTerms hsum
  | combination c =>
    rw [hsum] at hwithin
    simp only [sum, ofTerms] at hsum
    split at hsum
    · simp at hsum
    · rename_i hall
      obtain rfl := Linear.combination.inj hsum
      have hkeys := keys_normalTerms_sublist (collect xs)
      exact ⟨rfl, (nodup_keys_collect xs).sublist hkeys, hwithin.2,
        fun term hterm => isDraw_of_mem_normalTerms hterm, by simpa using hall⟩

theorem isNormal_multiple {c : Combination} (h : c.IsNormal s) (k : Int) :
    (multiple s.tag c k).IsNormal s := by
  simp only [multiple]
  split
  · exact ⟨le_refl _, order_pos⟩
  · rename_i hk
    have hkeys : (c.terms.map fun term => (term.1, reduce (term.2 * k))).map Prod.fst =
        c.terms.map Prod.fst := by
      rw [List.map_map]
      rfl
    refine ⟨rfl, by rw [hkeys]; exact h.nodup, ?_, ?_, ?_⟩
    · intro term hterm
      obtain ⟨term', hterm', rfl⟩ := List.mem_map.mp hterm
      exact h.wires term' hterm'
    · intro term hterm
      obtain ⟨term', hterm', rfl⟩ := List.mem_map.mp hterm
      -- The field has no divisors of zero, so the coefficient does not vanish.
      have hne : ((term'.2 * k : Int) : Scalar) ≠ 0 := by
        rw [Int.cast_mul]
        exact mul_ne_zero (h.coefficients term' hterm').cast_ne_zero (mt reduce_eq_zero_iff.mpr hk)
      exact ⟨lt_of_le_of_ne (reduce_nonneg _) (Ne.symm (mt reduce_eq_zero_iff.mp hne)), reduce_lt _⟩
    · obtain ⟨term, hterm, hwire⟩ := h.dependent
      exact ⟨_, List.mem_map_of_mem hterm, hwire⟩

theorem isNormal_times (h : x.IsOperand s) (k : Int) : (times s.tag k x).IsNormal s := by
  cases x with
  | constant a => exact ⟨reduce_nonneg _, reduce_lt _⟩
  | combination c => exact isNormal_multiple h k

theorem isNormal_difference (hpos : 0 < s.wireCount) (hx : x.IsOperand s) (hy : y.IsOperand s) :
    (difference s.tag x y).IsNormal s := by
  apply isNormal_sum hpos
  simpa using ⟨trivial, hx.within, within_times hy.within _⟩

theorem isNormal_product? (hx : x.IsOperand s) (hy : y.IsOperand s)
    (h : product? s.tag x y = some p) : p.IsNormal s := by
  cases x with
  | constant a =>
    cases y with
    | constant b => obtain rfl := Option.some.inj h; exact ⟨reduce_nonneg _, reduce_lt _⟩
    | combination d => obtain rfl := Option.some.inj h; exact isNormal_multiple hy a
  | combination c =>
    cases y with
    | constant b => obtain rfl := Option.some.inj h; exact isNormal_multiple hx b
    | combination d => simp [product?] at h

theorem isNormal_wireAt {m : ℕ} (hm : 0 < m) (hlt : m < s.wireCount) :
    (s.wireAt m).IsNormal s where
  owner := rfl
  nodup := List.nodup_singleton _
  wires := (within_wireAt hlt).2
  coefficients := by
    have hone : IsDraw 1 := by decide
    simpa using hone
  dependent := ⟨_, List.mem_singleton_self _, by simpa using hm.ne'⟩

end Linear

def unitAt (m : Int) (wire : Int) : Scalar :=
  if wire = m then 1 else 0

theorem termsValue_add (v w : Int → Scalar) (terms : List (Int × Int)) :
    termsValue (v + w) terms = termsValue v terms + termsValue w terms := by
  induction terms with
  | nil => simp [termsValue]
  | cons term rest ih =>
    simp only [termsValue, ih, Pi.add_apply]
    ring

theorem termsValue_unitAt_of_notMem {m : Int} {terms : List (Int × Int)}
    (h : m ∉ terms.map Prod.fst) : termsValue (unitAt m) terms = 0 := by
  induction terms with
  | nil => rfl
  | cons term rest ih =>
    rw [List.map_cons, List.mem_cons, not_or] at h
    rw [termsValue, ih h.2, unitAt, if_neg (Ne.symm h.1), mul_zero, add_zero]

theorem termsValue_unitAt (m : Int) {terms : List (Int × Int)}
    (h : (terms.map Prod.fst).Nodup) :
    termsValue (unitAt m) terms = ((Entries.get? m terms).getD 0 : Int) := by
  induction terms with
  | nil => simp [termsValue, Entries.get?]
  | cons term rest ih =>
    obtain ⟨k, a⟩ := term
    rw [List.map_cons, List.nodup_cons] at h
    rw [termsValue, Entries.get?]
    by_cases hkm : k = m
    · subst hkm
      rw [termsValue_unitAt_of_notMem h.1, unitAt, if_pos rfl, if_pos rfl]
      simp
    · rw [ih h.2, unitAt, if_neg hkm, if_neg hkm]
      simp

namespace Linear
variable {s t : R1CS} {x y : Linear}

theorem nodup_terms (h : x.IsOperand s) : (x.terms.map Prod.fst).Nodup := by
  cases x with
  | constant k => exact List.nodup_singleton 0
  | combination c => exact h.nodup

/-- Values under all assignments with a constant wire determine the coefficients: the unit of
wire 0 is one of these assignments, and adding another unit to it makes one too. -/
theorem cast_coefficient_eq (hx : x.IsOperand s) (hy : y.IsOperand t)
    (h : ∀ v : Int → Scalar, v 0 = 1 → x.value v = y.value v) (m : Int) :
    (((Entries.get? m x.terms).getD 0 : Int) : Scalar) = ((Entries.get? m y.terms).getD 0 : Int) := by
  rw [← termsValue_unitAt m (nodup_terms hx), ← termsValue_unitAt m (nodup_terms hy)]
  have hvalues : ∀ v : Int → Scalar, v 0 = 1 → termsValue v x.terms = termsValue v y.terms := by
    intro v hone
    rw [termsValue_terms hone, termsValue_terms hone, h v hone]
  have hconstant := hvalues (unitAt 0) (if_pos rfl)
  by_cases hm : m = 0
  · rwa [hm]
  · have hone : (unitAt 0 + unitAt m) 0 = 1 := by
      rw [Pi.add_apply, unitAt, unitAt, if_pos rfl, if_neg (Ne.symm hm), add_zero]
    have hboth := hvalues _ hone
    rwa [termsValue_add, termsValue_add, hconstant, add_right_inj] at hboth

/-- A coefficient that is kept is the same in another normal form of the same value. -/
theorem mem_terms_of_value_eq {c d : Combination} (hc : c.IsNormal s) (hd : d.IsNormal t)
    (h : ∀ v : Int → Scalar, v 0 = 1 → (combination c).value v = (combination d).value v)
    {term : Int × Int} (hterm : term ∈ c.terms) : term ∈ d.terms := by
  obtain ⟨m, a⟩ := term
  have ha : IsDraw a := hc.coefficients (m, a) hterm
  have hcast := cast_coefficient_eq (x := .combination c) (y := .combination d) hc hd h m
  simp only [terms, Entries.get?_of_mem hc.nodup hterm, Option.getD_some] at hcast
  cases hget : Entries.get? m d.terms with
  | none =>
    rw [hget, Option.getD_none, Int.cast_zero] at hcast
    exact absurd hcast ha.cast_ne_zero
  | some b =>
    have hmem := Entries.mem_of_get? hget
    have hb : IsDraw b := hd.coefficients (m, b) hmem
    rw [hget, Option.getD_some] at hcast
    obtain rfl := eq_of_cast_eq ⟨ha.1.le, ha.2⟩ ⟨hb.1.le, hb.2⟩ hcast
    exact hmem

theorem not_value_eq_constant {c : Combination} (hc : c.IsNormal s) (k : Int) :
    ¬ ∀ v : Int → Scalar, v 0 = 1 → (combination c).value v = (constant k).value v := by
  intro h
  obtain ⟨⟨m, a⟩, hterm, hwire⟩ := hc.dependent
  have hcast := cast_coefficient_eq (x := .combination c) (y := .constant k) (t := s) hc trivial h m
  simp only [terms, Entries.get?_of_mem hc.nodup hterm, Entries.get?, if_neg (Ne.symm hwire),
    Option.getD_some, Option.getD_none, Int.cast_zero] at hcast
  exact (hc.coefficients _ hterm).cast_ne_zero hcast

theorem termsValue_perm (v : Int → Scalar) {xs ys : List (Int × Int)} (h : xs.Perm ys) :
    termsValue v xs = termsValue v ys := by
  induction h with
  | nil => rfl
  | cons term _ ih => rw [termsValue, termsValue, ih]
  | swap term term' rest =>
    simp only [termsValue]
    ring
  | trans _ _ ih ih' => exact ih.trans ih'

theorem Same.value_eq (h : x.Same y) (v : Int → Scalar) : x.value v = y.value v := by
  cases x with
  | constant a =>
    cases y with
    | constant b => rw [show a = b from h]
    | combination d => exact h.elim
  | combination c =>
    cases y with
    | constant b => exact h.elim
    | combination d => exact termsValue_perm v h.2

/-- Two normal forms of a system are the same exactly if they have the same value under all
assignments with a constant wire. -/
theorem same_iff_value_eq (hx : x.IsNormal s) (hy : y.IsNormal t) (htag : s.tag = t.tag) :
    x.Same y ↔ ∀ v : Int → Scalar, v 0 = 1 → x.value v = y.value v := by
  refine ⟨fun h v _ => h.value_eq v, fun h => ?_⟩
  cases x with
  | constant a =>
    cases y with
    | constant b => exact eq_of_cast_eq hx hy (h (fun _ => 1) rfl)
    | combination d => exact not_value_eq_constant hy a fun v hone => (h v hone).symm
  | combination c =>
    cases y with
    | constant b => exact not_value_eq_constant hx b h
    | combination d =>
      have hsymm := fun v hone => (h v hone).symm
      refine ⟨by rw [hx.owner, hy.owner, htag], ?_⟩
      rw [List.perm_ext_iff_of_nodup hx.nodup.of_map hy.nodup.of_map]
      exact fun term => ⟨mem_terms_of_value_eq hx hy h, mem_terms_of_value_eq hy hx hsymm⟩

end Linear

abbrev Form := (Int → Scalar) → Scalar

def Form.IsConstant (f : Form) : Prop :=
  ∃ k : Scalar, ∀ v : Int → Scalar, v 0 = 1 → f v = k

open Classical in
noncomputable def Form.product (f g : Form) (n : ℕ) : Form × ℕ :=
  if f.IsConstant ∨ g.IsConstant then (f * g, n) else (fun v => v n, n + 1)

theorem Linear.isConstant_iff {s : R1CS} {x : Linear} (hx : x.IsOperand s) {f : Form}
    (hf : ∀ v : Int → Scalar, v 0 = 1 → x.value v = f v) :
    f.IsConstant ↔ ∃ k, x = .constant k := by
  constructor
  · rintro ⟨k, hk⟩
    cases x with
    | constant a => exact ⟨a, rfl⟩
    | combination c =>
      refine absurd (fun v hone => ?_) (not_value_eq_constant hx k.val)
      rw [hf v hone, hk v hone]
      exact (cast_val k).symm
  · rintro ⟨k, rfl⟩
    exact ⟨k, fun v hone => (hf v hone).symm⟩

namespace Build
variable {α β : Type} {s : R1CS} {n m : ℕ} {Q : R1CS → α → Prop} {Q' : R1CS → β → Prop}

def Computes (Q : R1CS → α → Prop) (n : ℕ) (x : Build α) (s : R1CS) : Prop :=
  ∃ a t, x.run s = (.ok a, t) ∧ s.Grows t ∧ t.frozen = false ∧ t.wireCount = n ∧ Q t a

theorem computes_of_run {x : Build α} {a : α} (hx : x.run s = (.ok a, s)) (hf : s.frozen = false)
    (hQ : Q s a) : Computes Q s.wireCount x s :=
  ⟨a, s, hx, R1CS.Grows.refl s, hf, rfl, hQ⟩

theorem computes_bind {x : Build α} {f : α → Build β} (hx : Computes Q n x s)
    (hf : ∀ a t, s.Grows t → t.frozen = false → t.wireCount = n → Q t a →
      Computes Q' m (f a) t) : Computes Q' m (x >>= f) s := by
  obtain ⟨a, t, hrun, hst, hopen, hcount, hQ⟩ := hx
  obtain ⟨b, u, hrun', htu, hopen', hcount', hQ'⟩ := hf a t hst hopen hcount hQ
  exact ⟨b, u, by rw [run_bind_of_ok hrun, hrun'], hst.trans htu, hopen', hcount', hQ'⟩

def Carries (f : Form) (t : R1CS) (z : Linear) : Prop :=
  z.IsOperand t ∧ ∀ v : Int → Scalar, v 0 = 1 → z.value v = f v

def Stands (f : Form) (t : R1CS) (z : Linear) : Prop :=
  z.IsNormal t ∧ ∀ v : Int → Scalar, v 0 = 1 → z.value v = f v

variable {x y : Linear} {f g : Form}

theorem Carries.extend {t : R1CS} (h : Carries f s x) (hst : s.Grows t) : Carries f t x :=
  ⟨h.1.extend hst.extends_, h.2⟩

theorem access_of_operands {xs : List Linear} (hf : s.frozen = false)
    (h : ∀ x ∈ xs, x.IsOperand s) : s.access xs = .ok () :=
  R1CS.access_eq_ok hf fun x hx => (h x hx).within

theorem computes_div (hf : s.frozen = false) (hx : Carries f s x) {k : Int} (hk : ¬ order ∣ k)
    (message : String) (isFlag : Bool) :
    Computes (Stands fun v => f v / k) s.wireCount
      (div x (.constant k) message isFlag) s := by
  have hreduce : ¬ reduce k = 0 := mt Int.dvd_of_emod_eq_zero hk
  have hcast : (k : Scalar) ≠ 0 := mt reduce_eq_zero_iff.mpr hreduce
  refine computes_of_run (a := Linear.times s.tag (inverse k) x) ?_ hf ⟨?_, ?_⟩
  · rw [run_div, access_of_operands hf (by simpa using ⟨hx.1, trivial⟩)]
    exact if_neg hreduce
  · exact Linear.isNormal_times hx.1 _
  · intro v hone
    rw [Linear.value_times, cast_inverse hcast, hx.2 v hone, inv_mul_eq_div]

section
variable (hs : s.WellFormed) (hf : s.frozen = false)
include hs hf

theorem computes_sum {xs : List Linear} (hx : Carries f s x) (hxs : ∀ y ∈ xs, y.IsOperand s)
    (hg : ∀ v : Int → Scalar, v 0 = 1 → (xs.map (Linear.value v)).sum = g v) :
    Computes (Stands (f + g)) s.wireCount (sum xs x) s := by
  have hall : ∀ y ∈ x :: xs, y.IsOperand s := List.forall_mem_cons.mpr ⟨hx.1, hxs⟩
  refine computes_of_run (a := Linear.sum s.tag (x :: xs)) ?_ hf ⟨?_, ?_⟩
  · rw [run_sum, access_of_operands hf hall]
  · exact Linear.isNormal_sum hs.wireCount_pos fun y hy => (hall y hy).within
  · intro v hone
    rw [Linear.value_sum hone, List.map_cons, List.sum_cons, hx.2 v hone, hg v hone]
    rfl

theorem computes_add (hx : Carries f s x) (hy : Carries g s y) :
    Computes (Stands (f + g)) s.wireCount (add x y) s := by
  have hzero : Carries 0 s (.constant 0) := ⟨trivial, fun v _ => Int.cast_zero⟩
  have hboth : ∀ z ∈ [x, y], z.IsOperand s := by simpa using ⟨hx.1, hy.1⟩
  have hvalue : ∀ v : Int → Scalar, v 0 = 1 →
      ([x, y].map (Linear.value v)).sum = (f + g) v := by
    intro v hone
    simp [hx.2 v hone, hy.2 v hone]
  have hsum := computes_sum hs hf hzero hboth hvalue
  rwa [zero_add] at hsum

theorem computes_sub (hx : Carries f s x) (hy : Carries g s y) :
    Computes (Stands (f - g)) s.wireCount (sub x y) s := by
  refine computes_of_run (a := Linear.difference s.tag x y) ?_ hf ⟨?_, fun v hone => ?_⟩
  · rw [run_sub, access_of_operands hf (by simpa using ⟨hx.1, hy.1⟩)]
  · exact Linear.isNormal_difference hs.wireCount_pos hx.1 hy.1
  · rw [Linear.value_difference hone, hx.2 v hone, hy.2 v hone]
    rfl

/-- A product with a constant factor is computed at once; any other one is a new wire. -/
theorem computes_mul (hx : Carries f s x) (hy : Carries g s y) (message : String) :
    Computes (Stands (f.product g s.wireCount).1) (f.product g s.wireCount).2
      (mul x y message) s := by
  have haccess : s.access [x, y] = .ok () := access_of_operands hf (by simpa using ⟨hx.1, hy.1⟩)
  have hconstant : f.IsConstant ∨ g.IsConstant ↔ ∃ p, Linear.product? s.tag x y = some p := by
    rw [Linear.isConstant_iff hx.1 hx.2, Linear.isConstant_iff hy.1 hy.2]
    cases x <;> cases y <;> simp [Linear.product?]
  cases hp : Linear.product? s.tag x y with
  | some p =>
    rw [Form.product, if_pos (hconstant.mpr ⟨p, hp⟩)]
    refine computes_of_run (a := p) ?_ hf ⟨?_, fun v hone => ?_⟩
    · rw [run_mul, haccess, hp]
    · exact Linear.isNormal_product? hx.1 hy.1 hp
    · rw [Linear.value_product? hp, hx.2 v hone, hy.2 v hone]
      rfl
  | none =>
    rw [Form.product, if_neg (by rw [hconstant, hp]; simp)]
    obtain ⟨v, hv⟩ := R1CS.productValue_isOk hs hx.1.within hy.1.within
    refine ⟨s.wireAt s.wireCount, s.pushGate v ⟨x, y, s.wireAt s.wireCount, message, false⟩, ?_,
      R1CS.grows_pushGate hv hf _, hf, rfl, ?_, fun w _ => Linear.value_wireAt s s.wireCount w⟩
    · rw [run_mul, haccess, hp]
      simp only [hv]
    · exact Linear.isNormal_wireAt (s := s.pushGate v _) hs.wireCount_pos (Nat.lt_succ_self _)

end

end Build

/-- An expression as it is put together from wires and constants. A product is one by a constant
or it adds a wire; a quotient has a constant divisor. -/
inductive Expression
  | wire (m : ℕ)
  | constant (k : Int)
  | sum (xs : List Expression) (start : Expression)
  | add (x y : Expression)
  | sub (x y : Expression)
  | not (x : Expression)
  | product (x y : Expression)
  | quotient (x : Expression) (k : Int)

namespace Expression

mutual

def build : Expression → Build Linear
  | .wire m => do
      let s ← get
      return s.wireAt m
  | .constant k => return .constant k
  | .sum xs start => do
      let ys ← buildAll xs
      let y ← build start
      Build.sum ys y
  | .add x y => do
      let a ← build x
      let b ← build y
      Build.add a b
  | .sub x y => do
      let a ← build x
      let b ← build y
      Build.sub a b
  | .not x => do
      let a ← build x
      Build.not a
  | .product x y => do
      let a ← build x
      let b ← build y
      Build.mul a b
  | .quotient x k => do
      let a ← build x
      Build.div a (.constant k)

def buildAll : List Expression → Build (List Linear)
  | [] => return []
  | x :: rest => do
      let a ← build x
      let as ← buildAll rest
      return a :: as

end

mutual

noncomputable def denote : Expression → ℕ → Form × ℕ
  | .wire m, n => (fun v => v m, n)
  | .constant k, n => (fun _ => k, n)
  | .sum xs start, n =>
      let fs := denoteAll xs n
      let f := denote start fs.2
      (f.1 + fs.1, f.2)
  | .add x y, n =>
      let f := denote x n
      let g := denote y f.2
      (f.1 + g.1, g.2)
  | .sub x y, n =>
      let f := denote x n
      let g := denote y f.2
      (f.1 - g.1, g.2)
  | .not x, n =>
      let f := denote x n
      (1 - f.1, f.2)
  | .product x y, n =>
      let f := denote x n
      let g := denote y f.2
      f.1.product g.1 g.2
  | .quotient x k, n =>
      let f := denote x n
      (fun v => f.1 v / k, f.2)

noncomputable def denoteAll : List Expression → ℕ → Form × ℕ
  | [], n => (0, n)
  | x :: rest, n =>
      let f := denote x n
      let fs := denoteAll rest f.2
      (f.1 + fs.1, fs.2)

end

mutual

def Over (s : R1CS) : Expression → Prop
  | .wire m => 0 < m ∧ m < s.wireCount
  | .constant _ => True
  | .sum xs start => AllOver s xs ∧ Over s start
  | .add x y => Over s x ∧ Over s y
  | .sub x y => Over s x ∧ Over s y
  | .not x => Over s x
  | .product x y => Over s x ∧ Over s y
  | .quotient x k => Over s x ∧ ¬ order ∣ k

def AllOver (s : R1CS) : List Expression → Prop
  | [] => True
  | x :: rest => Over s x ∧ AllOver s rest

end

def IsLiteral : Expression → Prop
  | .constant _ => True
  | _ => False

mutual

theorem Over.extend {s t : R1CS} {e : Expression} (h : e.Over s) (hst : s.Extends t) :
    e.Over t := by
  cases e with
  | wire m => exact ⟨h.1, h.2.trans_le hst.wireCount⟩
  | constant k => trivial
  | sum xs start => exact ⟨AllOver.extend h.1 hst, Over.extend h.2 hst⟩
  | add x y => exact ⟨Over.extend h.1 hst, Over.extend h.2 hst⟩
  | sub x y => exact ⟨Over.extend h.1 hst, Over.extend h.2 hst⟩
  | not x => exact Over.extend (e := x) h hst
  | product x y => exact ⟨Over.extend h.1 hst, Over.extend h.2 hst⟩
  | quotient x k => exact ⟨Over.extend h.1 hst, h.2⟩

theorem AllOver.extend {s t : R1CS} {es : List Expression} (h : AllOver s es)
    (hst : s.Extends t) : AllOver t es := by
  cases es with
  | nil => trivial
  | cons e rest => exact ⟨Over.extend h.1 hst, AllOver.extend h.2 hst⟩

end

open Build (Computes Stands Carries computes_bind computes_of_run)

/-- What computing an expression answers: an operand with the value of a function, which is in
normal form unless the expression is a literal. -/
def Denotes (e : Expression) (f : Form) (t : R1CS) (z : Linear) : Prop :=
  Carries f t z ∧ (¬ e.IsLiteral → z.IsNormal t)

def DenotesAll (f : Form) (t : R1CS) (zs : List Linear) : Prop :=
  (∀ z ∈ zs, z.IsOperand t) ∧
    ∀ v : Int → Scalar, v 0 = 1 → (zs.map (Linear.value v)).sum = f v

theorem computes_denotes {e : Expression} {x : Build Linear} {s : R1CS} {f : Form} {n : ℕ}
    (h : Computes (Stands f) n x s) : Computes (e.Denotes f) n x s := by
  obtain ⟨z, t, hrun, hst, hopen, hcount, hnormal, hvalue⟩ := h
  exact ⟨z, t, hrun, hst, hopen, hcount, ⟨hnormal.isOperand, hvalue⟩, fun _ => hnormal⟩

/-- Two expressions one after the other: the answer of the first one carries its value on. -/
theorem computes_two {β : Type} {s : R1CS} {x y : Expression} {k : ℕ} {Q : R1CS → β → Prop}
    {h : Linear → Linear → Build β} (hs : s.WellFormed)
    (hx : Computes (x.Denotes (x.denote s.wireCount).1) (x.denote s.wireCount).2 x.build s)
    (hy : ∀ t, s.Grows t → t.frozen = false →
      Computes (y.Denotes (y.denote t.wireCount).1) (y.denote t.wireCount).2 y.build t)
    (hh : ∀ a b u, u.WellFormed → u.frozen = false →
      u.wireCount = (y.denote (x.denote s.wireCount).2).2 → Carries (x.denote s.wireCount).1 u a →
      Carries (y.denote (x.denote s.wireCount).2).1 u b → Computes Q k (h a b) u) :
    Computes Q k (do let a ← x.build; let b ← y.build; h a b) s := by
  refine computes_bind hx fun a t hst hopen hcount ha => ?_
  have hy' := hy t hst hopen
  rw [hcount] at hy'
  refine computes_bind hy' fun b u htu hopen' hcount' hb => ?_
  exact hh a b u (htu.wellFormed (hst.wellFormed hs)) hopen' hcount' (ha.1.extend htu) hb.1

mutual

/-- Computing an expression over wires of an open system succeeds with what it denotes. -/
theorem computes_build {e : Expression} {s : R1CS} (hs : s.WellFormed) (hf : s.frozen = false)
    (he : e.Over s) :
    Computes (e.Denotes (e.denote s.wireCount).1) (e.denote s.wireCount).2 e.build s := by
  cases e with
  | wire m =>
    have hnormal := Linear.isNormal_wireAt he.1 he.2
    exact computes_of_run (a := s.wireAt m) rfl hf
      ⟨⟨hnormal.isOperand, fun v _ => Linear.value_wireAt s m v⟩, fun _ => hnormal⟩
  | constant k =>
    exact computes_of_run (a := .constant k) rfl hf
      ⟨⟨trivial, fun v _ => rfl⟩, fun h => absurd trivial h⟩
  | sum xs start =>
    rw [build, denote]
    refine computes_bind (computes_buildAll hs hf he.1) fun as t hst hopen hcount has => ?_
    have ht := hst.wellFormed hs
    have hstart := computes_build ht hopen (he.2.extend hst.extends_)
    rw [hcount] at hstart
    refine computes_bind hstart fun a u htu hopen' hcount' ha => ?_
    have hall : ∀ y ∈ as, y.IsOperand u := fun y hy => (has.1 y hy).extend htu.extends_
    rw [← hcount']
    exact computes_denotes (Build.computes_sum (htu.wellFormed ht) hopen' ha.1 hall has.2)
  | add x y =>
    rw [build, denote]
    refine computes_two hs (computes_build hs hf he.1) (fun t hst hopen => ?_)
      fun a b u hu hopen hcount ha hb => ?_
    · exact computes_build (hst.wellFormed hs) hopen (he.2.extend hst.extends_)
    · rw [← hcount]
      exact computes_denotes (Build.computes_add hu hopen ha hb)
  | sub x y =>
    rw [build, denote]
    refine computes_two hs (computes_build hs hf he.1) (fun t hst hopen => ?_)
      fun a b u hu hopen hcount ha hb => ?_
    · exact computes_build (hst.wellFormed hs) hopen (he.2.extend hst.extends_)
    · rw [← hcount]
      exact computes_denotes (Build.computes_sub hu hopen ha hb)
  | not x =>
    rw [build, denote]
    refine computes_bind (computes_build (e := x) hs hf he) fun a t hst hopen hcount ha => ?_
    have hone : Carries 1 t (.constant 1) := ⟨trivial, fun v _ => Int.cast_one⟩
    rw [← hcount]
    exact computes_denotes (Build.computes_sub (hst.wellFormed hs) hopen hone ha.1)
  | product x y =>
    rw [build, denote]
    refine computes_two hs (computes_build hs hf he.1) (fun t hst hopen => ?_)
      fun a b u hu hopen hcount ha hb => ?_
    · exact computes_build (hst.wellFormed hs) hopen (he.2.extend hst.extends_)
    · rw [← hcount]
      exact computes_denotes (Build.computes_mul hu hopen ha hb _)
  | quotient x k =>
    rw [build, denote]
    refine computes_bind (computes_build hs hf he.1) fun a t hst hopen hcount ha => ?_
    rw [← hcount]
    exact computes_denotes (Build.computes_div hopen ha.1 he.2 _ _)

theorem computes_buildAll {es : List Expression} {s : R1CS} (hs : s.WellFormed)
    (hf : s.frozen = false) (he : AllOver s es) :
    Computes (DenotesAll (denoteAll es s.wireCount).1) (denoteAll es s.wireCount).2
      (buildAll es) s := by
  cases es with
  | nil =>
    rw [buildAll, denoteAll]
    exact computes_of_run (a := []) rfl hf ⟨by simp, fun v _ => rfl⟩
  | cons e rest =>
    rw [buildAll, denoteAll]
    refine computes_bind (computes_build hs hf he.1) fun a t hst hopen hcount ha => ?_
    have hrest := computes_buildAll (hst.wellFormed hs) hopen (he.2.extend hst.extends_)
    rw [hcount] at hrest
    refine computes_bind hrest fun as u htu hopen' hcount' has => ?_
    rw [← hcount']
    refine computes_of_run (a := a :: as) rfl hopen' ⟨?_, fun v hone => ?_⟩
    · exact List.forall_mem_cons.mpr ⟨ha.1.1.extend htu.extends_, has.1⟩
    · rw [List.map_cons, List.sum_cons, ha.1.2 v hone, has.2 v hone]
      rfl

end

/-- Whatever has been called on a system, on an open one every expression that is not a literal is
computed. The answer is an integer exactly if the expression denotes a constant function, and then
one in the range of the field; otherwise it has each wire once, with a coefficient in the range that
is not zero. If after any more calls another expression is computed, its answer is the same exactly
if it denotes the same function of the wires. -/
theorem answers_same_iff (tag : ℕ) (witnessed : Bool) (calls more : List Call)
    (e e' : Expression) :
    let s := Call.after calls (.fresh tag witnessed)
    s.frozen = false → e.Over s → ¬ e.IsLiteral →
      ∃ x t, e.build.run s = (.ok x, t) ∧
        ((e.denote s.wireCount).1.IsConstant ↔ ∃ k, x = .constant k) ∧
        (∀ k, x = .constant k → 0 ≤ k ∧ k < order) ∧
        (∀ c, x = .combination c → (c.terms.map Prod.fst).Nodup ∧
          ∀ term ∈ c.terms, 1 ≤ term.2 ∧ term.2 < order) ∧
        let u := Call.after more t
        u.frozen = false → e'.Over u → ¬ e'.IsLiteral →
          ∃ y w, e'.build.run u = (.ok y, w) ∧
            (x.Same y ↔ ∀ v : Int → Scalar, v 0 = 1 →
              (e.denote s.wireCount).1 v = (e'.denote u.wireCount).1 v) := by
  intro s hf he hliteral
  have hs : s.WellFormed := (Call.guarded_after tag witnessed calls).wellFormed
  obtain ⟨x, t, hrun, hst, -, -, hx, hnormal⟩ := computes_build hs hf he
  have hxnormal := hnormal hliteral
  refine ⟨x, t, hrun, Linear.isConstant_iff hx.1 hx.2, ?_, ?_, fun hf' he' hliteral' => ?_⟩
  · rintro k rfl
    exact hxnormal
  · rintro c rfl
    exact ⟨hxnormal.nodup, hxnormal.coefficients⟩
  · have htu := Call.grows_after more t
    have hgrows := hst.trans htu
    obtain ⟨y, w, hrun', huw, -, -, hy, hnormal'⟩ :=
      computes_build (hgrows.wellFormed hs) hf' he'
    have htag : t.tag = w.tag := by rw [huw.extends_.tag, htu.extends_.tag]
    refine ⟨y, w, hrun', ?_⟩
    rw [Linear.same_iff_value_eq hxnormal (hnormal' hliteral') htag]
    refine forall₂_congr fun v hone => ?_
    rw [hx.2 v hone, hy.2 v hone]

/-- Two wires are added and one is taken away again, and what is left is once the other wire. -/
theorem answers_same_iff_twoWires :
    let s := Call.after [.wire (fun _ => .ok 5) none, .wire (fun _ => .ok 7) none] (.fresh 0 true)
    let e : Expression := .sub (.add (.wire 1) (.wire 2)) (.wire 2)
    let e' : Expression := .product (.constant (order + 1)) (.wire 1)
    s.frozen = false ∧ e.Over s ∧ ¬ e.IsLiteral ∧ e'.Over s ∧ ¬ e'.IsLiteral ∧
      ∃ x y w, e.build.run s = (.ok x, s) ∧ e'.build.run s = (.ok y, w) ∧ x.Same y := by
  intro s e e'
  have hcount : s.wireCount = 3 := rfl
  have he : e.Over s := by simp [e, Over, hcount]
  have he' : e'.Over s := by simp [e', Over, hcount]
  obtain ⟨x, t, hrun, -, -, -, hnext⟩ := answers_same_iff 0 true
    [.wire (fun _ => .ok 5) none, .wire (fun _ => .ok 7) none] [] e e' rfl he id
  have hts : (e.build.run s).2 = s := rfl
  rw [hrun] at hts
  obtain rfl : t = s := hts
  obtain ⟨y, w, hrun', hsame⟩ := hnext rfl he' id
  refine ⟨rfl, he, id, he', id, x, y, w, hrun, hrun', hsame.mpr fun v _ => ?_⟩
  have hconstant : Form.IsConstant fun _ => ((order + 1 : Int) : Scalar) := ⟨_, fun _ _ => rfl⟩
  have hproduct : (e'.denote s.wireCount).1 v = ((order + 1 : Int) : Scalar) * v 1 := by
    simp only [e', denote]
    rw [Form.product, if_pos (.inl hconstant)]
    rfl
  have hdifference : (e.denote s.wireCount).1 v = v 1 + v 2 - v 2 := rfl
  change (e.denote s.wireCount).1 v = (e'.denote s.wireCount).1 v
  rw [hproduct, hdifference, Int.cast_add, cast_order, zero_add, Int.cast_one, one_mul,
    add_sub_cancel_right]

end Expression

end RankOne
