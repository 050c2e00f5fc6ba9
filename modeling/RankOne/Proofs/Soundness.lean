import RankOne.Proofs.Completeness
import RankOne.Proofs.Monomials
import RankOne.Proofs.Ownership

/-!
# Passing proofs have witnesses

A prover that combines the elements of a key with coefficients that do not depend on the secrets,
and that passes whatever the secrets are, has a witness: the coefficients of the private columns
satisfy the gates, with the public inputs in their places. With the secret point on the domain the
pairing equation speaks of one gate at a time, and its monomials leave nothing of the elements that
a prover has no use for. An honest prover is one of that kind, so there is one exactly where there
is a witness.
-/

set_option autoImplicit false

namespace RankOne
open CodedGroup (multiple)
open Pairing (pair)
open Transform

def entryFor (m : ℕ) : List ℕ → List Int → Int
  | k :: wires, z :: zs => if k = m then z else entryFor m wires zs
  | _, _ => 0

theorem entryFor_append (m : ℕ) {wires : List ℕ} {zs : List Int} (h : zs.length = wires.length)
    (wires' : List ℕ) (zs' : List Int) :
    entryFor m (wires ++ wires') (zs ++ zs') =
      if m ∈ wires then entryFor m wires zs else entryFor m wires' zs' := by
  induction wires generalizing zs with
  | nil =>
    obtain rfl := List.eq_nil_of_length_eq_zero h
    simp
  | cons k wires ih =>
    obtain ⟨z, zs, rfl⟩ := List.exists_cons_of_length_eq_add_one h
    simp only [List.cons_append, entryFor, List.mem_cons, ih (by simpa using h)]
    by_cases hk : k = m
    · simp [hk]
    · simp [hk, Ne.symm hk]

theorem entryFor_cons_of_mem {k m : ℕ} {wires : List ℕ} (hk : k ∉ wires) (hm : m ∈ wires) (z : Int)
    (zs : List Int) : entryFor m (k :: wires) (z :: zs) = entryFor m wires zs := by
  rw [entryFor, if_neg]
  rintro rfl
  exact hk hm

theorem map_entryFor {wires : List ℕ} {zs : List Int} (hnodup : wires.Nodup)
    (h : zs.length = wires.length) : (wires.map fun m => entryFor m wires zs) = zs := by
  induction wires generalizing zs with
  | nil => exact (List.eq_nil_of_length_eq_zero h).symm
  | cons k wires ih =>
    obtain ⟨z, zs, rfl⟩ := List.exists_cons_of_length_eq_add_one h
    obtain ⟨hk, hnodup⟩ := List.nodup_cons.mp hnodup
    have hrest : (wires.map fun m => entryFor m (k :: wires) (z :: zs)) = zs := by
      rw [List.map_congr_left fun m hm => entryFor_cons_of_mem hk hm z zs]
      exact ih hnodup (by simpa using h)
    rw [List.map_cons, hrest, entryFor, if_pos rfl]

theorem cast_inner_map_entryFor (f : ℕ → Int) {wires : List ℕ} (hnodup : wires.Nodup)
    (zs : List Int) :
    (inner (wires.map f) zs : Scalar) =
      (wires.map fun m => (entryFor m wires zs : Scalar) * f m).sum := by
  induction wires generalizing zs with
  | nil => simp [inner]
  | cons k wires ih =>
    obtain ⟨hk, hnodup⟩ := List.nodup_cons.mp hnodup
    cases zs with
    | nil =>
      have hzero : ∀ wires : List ℕ, ∀ m, entryFor m wires [] = 0 := by
        intro wires m
        cases wires <;> rfl
      simp [inner, hzero]
    | cons z zs =>
      have hrest : (wires.map fun m => (entryFor m (k :: wires) (z :: zs) : Scalar) * f m) =
          wires.map fun m => (entryFor m wires zs : Scalar) * f m := by
        apply List.map_congr_left
        intro m hm
        rw [entryFor_cons_of_mem hk hm]
      rw [List.map_cons, List.map_cons, inner, Int.cast_add, Int.cast_mul, ih hnodup, List.sum_cons,
        hrest, entryFor, if_pos rfl]

/-- Coefficients for the elements of a key that lie in the first group. Elements beyond the end of a
list of coefficients are left out. -/
structure FirstCombination where
  alpha : Int
  beta : Int
  delta : Int
  publicColumns : List Int
  privateColumns : List Int
  powers : List Int
  quotients : List Int

structure SecondCombination where
  beta : Int
  gamma : Int
  delta : Int
  powers : List Int

structure LinearProver where
  a : FirstCombination
  b : SecondCombination
  c : FirstCombination

section Elements
variable {G₁ G₂ : Type} [CodedGroup G₁] [CodedGroup G₂]
open CodedGroup (add smul dot)

def FirstCombination.element (z : FirstCombination) (k : Key G₁ G₂) : G₁ :=
  let fixed := add (add (smul z.alpha k.alpha₁) (smul z.beta k.beta₁)) (smul z.delta k.delta₁)
  let columns := dot (dot fixed k.publicColumns z.publicColumns) k.privateColumns z.privateColumns
  dot (dot columns k.powers₁ z.powers) k.quotients z.quotients

def SecondCombination.element (z : SecondCombination) (k : Key G₁ G₂) : G₂ :=
  let fixed := add (add (smul z.beta k.beta₂) (smul z.gamma k.gamma₂)) (smul z.delta k.delta₂)
  dot fixed k.powers₂ z.powers

def LinearProver.prove (p : LinearProver) (k : Key G₁ G₂) : Proof G₁ G₂ :=
  ⟨p.a.element k, p.b.element k, p.c.element k⟩

end Elements

def Shape.sideSum (s : Shape) (weights : List Int) (side : Gate → Linear) (wires : List ℕ)
    (zs : List Int) : Scalar :=
  inner (wires.map (s.column side weights)) zs

section Exponents
variable {m : ℕ} (d : Domain m) (s : Shape) (t : Trapdoor)

def FirstCombination.exponent (z : FirstCombination) (g e : Int) : Int :=
  z.alpha * t.alpha + z.beta * t.beta + z.delta * t.delta +
    inner (d.columnExponents s t g s.publicWires) z.publicColumns +
    inner (d.columnExponents s t e s.privateWires) z.privateColumns +
    inner (t.powerExponents (2 ^ m)) z.powers + inner (t.quotientExponents (2 ^ m) e) z.quotients

def SecondCombination.exponent (m : ℕ) (t : Trapdoor) (z : SecondCombination) : Int :=
  z.beta * t.beta + z.gamma * t.gamma + z.delta * t.delta +
    inner (t.powerExponents (2 ^ m)) z.powers

variable {G₁ G₂ : Type} [CodedGroup G₁] [CodedGroup G₂]

theorem FirstCombination.element_key [PrimeOrder G₁] (z : FirstCombination) (g e : Int) :
    z.element (d.key s t g e : Key G₁ G₂) = multiple (z.exponent d s t g e) := by
  simp only [element, Domain.key, PrimeOrder.smul_multiple, PrimeOrder.add_multiple, dot_multiple,
    exponent]

theorem SecondCombination.element_key [PrimeOrder G₂] (z : SecondCombination) (g e : Int) :
    z.element (d.key s t g e : Key G₁ G₂) = multiple (z.exponent m t) := by
  simp only [element, Domain.key, PrimeOrder.smul_multiple, PrimeOrder.add_multiple, dot_multiple,
    exponent]

variable {s t}

theorem Domain.cast_inner_columns (e : Int) (wires : List ℕ) (zs : List Int) :
    (inner (d.columnExponents s t e wires) zs : Scalar) =
      e * (t.beta * s.sideSum (d.weights t.tau) Gate.left wires zs +
        t.alpha * s.sideSum (d.weights t.tau) Gate.right wires zs +
        s.sideSum (d.weights t.tau) Gate.output wires zs) := by
  simp only [columnExponents, Shape.sideSum]
  induction wires generalizing zs with
  | nil => simp [inner]
  | cons k wires ih =>
    cases zs with
    | nil => simp [inner]
    | cons z zs =>
      have hcolumn : (s.columnValue t (d.weights t.tau) k : Scalar) =
          t.beta * s.column Gate.left (d.weights t.tau) k +
            t.alpha * s.column Gate.right (d.weights t.tau) k +
            s.column Gate.output (d.weights t.tau) k := by
        rw [Shape.columnValue]
        push_cast
        ring
      simp only [List.map_cons, inner, Int.cast_add, Int.cast_mul, ih, cast_reduce, hcolumn]
      ring

theorem cast_inner_quotientExponents_eq_zero {n : ℕ} (htau : (t.tau : Scalar) ^ n = 1) (e : Int)
    (zs : List Int) : (inner (t.quotientExponents n e) zs : Scalar) = 0 := by
  have hpower : ((Residue.power t.tau n order : Int) : Scalar) = 1 := by
    rw [Residue.power_eq, cast_emod cast_order, Int.cast_pow, htau]
  rw [Trapdoor.quotientExponents]
  generalize t.powerExponents n = xs
  induction xs generalizing zs with
  | nil => simp [inner]
  | cons x xs ih =>
    cases zs with
    | nil => simp [inner]
    | cons z zs =>
      simp only [List.map_cons, inner, Int.cast_add, Int.cast_mul, ih, cast_reduce, Int.cast_sub,
        hpower, Int.cast_one]
      ring

theorem FirstCombination.cast_exponent (htau : (t.tau : Scalar) ^ 2 ^ m = 1)
    (z : FirstCombination) (g e : Int) :
    (z.exponent d s t g e : Scalar) =
      z.alpha * t.alpha + z.beta * t.beta + z.delta * t.delta +
        g * (t.beta * s.sideSum (d.weights t.tau) Gate.left s.publicWires z.publicColumns +
          t.alpha * s.sideSum (d.weights t.tau) Gate.right s.publicWires z.publicColumns +
          s.sideSum (d.weights t.tau) Gate.output s.publicWires z.publicColumns) +
        e * (t.beta * s.sideSum (d.weights t.tau) Gate.left s.privateWires z.privateColumns +
          t.alpha * s.sideSum (d.weights t.tau) Gate.right s.privateWires z.privateColumns +
          s.sideSum (d.weights t.tau) Gate.output s.privateWires z.privateColumns) +
        (inner (t.powerExponents (2 ^ m)) z.powers : Scalar) := by
  simp only [exponent, Int.cast_add, Int.cast_mul, d.cast_inner_columns,
    cast_inner_quotientExponents_eq_zero htau, add_zero]

end Exponents

section Accepted
variable {G₁ G₂ Gₜ : Type} [CodedGroup G₁] [CodedGroup G₂] [Mul Gₜ] [DecidableEq Gₜ]
  [Pairing G₁ G₂ Gₜ]

/-- A proof passes only with as many inputs as the key takes, all of them field elements. -/
theorem VerifyingKey.of_verify {vk : VerifyingKey G₁ G₂} {proof : Proof G₁ G₂} {inputs : List Int}
    {names : Option (List Unicode.Codes)} {values : List (Unicode.Codes × Int)}
    (h : vk.verify proof inputs names = .ok ⟨true, values⟩) :
    (inputs.length : Int) = vk.inputCount ∧ (∀ x ∈ inputs, 0 ≤ x ∧ x < order) ∧
      vk.accepts proof inputs = true := by
  obtain ⟨⟨hfits, -⟩, hverdict⟩ := verify_eq_ok_iff.mp h
  exact ⟨hfits.count, hfits.range, (Verdict.mk.inj hverdict).1.symm⟩

omit [DecidableEq Gₜ] in
/-- Inputs of the number that a key takes fit the public wires of the shape that it is made for. -/
theorem Shape.WellFormed.length_inputs {s : Shape} (hs : s.WellFormed) {t : Trapdoor}
    {k : Key G₁ G₂} (hderive : Key.derive s t = .ok k) {inputs : List Int}
    (hcount : (inputs.length : Int) = k.verifyingKey.inputCount) :
    (1 :: inputs).length = s.publicWires.length := by
  have hentries : k.verifyingKey.entryCount = s.entries.length := by
    rw [Key.verifyingKey, (Key.of_derive hderive).2.1]
    rfl
  obtain ⟨rest, hrest⟩ := hs.entries_eq
  rw [VerifyingKey.inputCount, hentries] at hcount
  rw [Shape.publicWires, List.length_map, List.length_cons]
  rw [hrest, List.length_cons] at hcount ⊢
  omega

variable (G₁ G₂) in
def LinearProver.Passes (p : LinearProver) (s : Shape) (inputs : List Int)
    (names : Option (List Unicode.Codes)) : Prop :=
  ∀ t : Trapdoor, t.IsDrawn → ∃ (k : Key G₁ G₂) (values : List (Unicode.Codes × Int)),
    Key.derive s t = .ok k ∧ k.verifyingKey.verify (p.prove k) inputs names = .ok ⟨true, values⟩

theorem LinearProver.Passes.columnsExist {p : LinearProver} {s : Shape} {inputs : List Int}
    {names : Option (List Unicode.Codes)} (h : p.Passes G₁ G₂ s inputs names) :
    s.columnsExist = true := by
  obtain ⟨k, values, hk, -⟩ := h _ Trapdoor.isDrawn_ones
  exact (Key.of_derive hk).1

theorem LinearProver.Passes.accepts {p : LinearProver} {s : Shape} {inputs : List Int}
    {names : Option (List Unicode.Codes)} (h : p.Passes G₁ G₂ s inputs names) {m : ℕ} (d : Domain m)
    (hsize : domainSize s.gates.length = 2 ^ m) {t : Trapdoor} (ht : t.IsDrawn) :
    ∃ g e : Int, (g : Scalar) = (t.gamma : Scalar)⁻¹ ∧ (e : Scalar) = (t.delta : Scalar)⁻¹ ∧
      (d.key s t g e : Key G₁ G₂).verifyingKey.accepts (p.prove (d.key s t g e)) inputs = true := by
  obtain ⟨g, e, hg, he, hderive⟩ := d.derive_eq G₁ G₂ hsize h.columnsExist ht
  obtain ⟨k, values, hk, hverify⟩ := h t ht
  rw [hderive] at hk
  obtain rfl := Except.ok.inj hk
  exact ⟨g, e, hg, he, (VerifyingKey.of_verify hverify).2.2⟩

theorem LinearProver.Passes.inputs {p : LinearProver} {s : Shape} {inputs : List Int}
    {names : Option (List Unicode.Codes)} (h : p.Passes G₁ G₂ s inputs names) (hs : s.WellFormed) :
    (1 :: inputs).length = s.publicWires.length ∧ ∀ x ∈ inputs, 0 ≤ x ∧ x < order := by
  obtain ⟨k, values, hk, hverify⟩ := h _ Trapdoor.isDrawn_ones
  obtain ⟨hcount, hrange, -⟩ := VerifyingKey.of_verify hverify
  exact ⟨hs.length_inputs hk hcount, hrange⟩

variable [PrimeOrder G₁] [PrimeOrder G₂] [Bilinear G₁ G₂ Gₜ] [NonDegenerate G₁ G₂ Gₜ]

/-- The sides at a point of the domain, as a prover that always passes has them: the public columns
taken with the inputs, and the private columns as they are in the third element of its proof. -/
theorem Domain.sideSum_mul_of_accepts {m : ℕ} (d : Domain m) (s : Shape) (p : LinearProver)
    (inputs : List Int) {tau : Int} (hdraw : IsDraw tau) (htau : (tau : Scalar) ^ 2 ^ m = 1)
    (h : ∀ t : Trapdoor, t.IsDrawn → ∃ g e : Int, (g : Scalar) = (t.gamma : Scalar)⁻¹ ∧
      (e : Scalar) = (t.delta : Scalar)⁻¹ ∧
      (d.key s t g e : Key G₁ G₂).verifyingKey.accepts (p.prove (d.key s t g e)) inputs = true) :
    (s.sideSum (d.weights tau) Gate.left s.publicWires (1 :: inputs) +
        s.sideSum (d.weights tau) Gate.left s.privateWires p.c.privateColumns) *
      (s.sideSum (d.weights tau) Gate.right s.publicWires (1 :: inputs) +
        s.sideSum (d.weights tau) Gate.right s.privateWires p.c.privateColumns) =
      s.sideSum (d.weights tau) Gate.output s.publicWires (1 :: inputs) +
        s.sideSum (d.weights tau) Gate.output s.privateWires p.c.privateColumns := by
  apply mul_eq_of_identity
  intro α β γ δ hα hβ hγ hδ
  obtain ⟨g, e, hg, he, haccepts⟩ := h ⟨α.val, β.val, γ.val, δ.val, tau⟩
    ⟨isDraw_val hα, isDraw_val hβ, isDraw_val hγ, isDraw_val hδ, hdraw⟩
  rw [LinearProver.prove, FirstCombination.element_key, SecondCombination.element_key,
    FirstCombination.element_key, d.accepts_iff] at haccepts
  have hcast := cast_eq_of_pair_eq haccepts
  have hexponent := FirstCombination.cast_exponent d (s := s)
    (t := ⟨α.val, β.val, γ.val, δ.val, tau⟩) htau
  simp only [Int.cast_add, Int.cast_mul, hexponent,
    SecondCombination.exponent, d.cast_inner_columns, hg, he, cast_val,
    Trapdoor.powerExponents] at hcast
  rw [mul_right_comm γ⁻¹, inv_mul_cancel₀ hγ, one_mul] at hcast
  exact hcast

end Accepted

def LinearProver.assignment (p : LinearProver) (s : Shape) (inputs : List Int) : List Int :=
  (List.range s.wireCount).map fun m =>
    reduce (entryFor m (s.publicWires ++ s.privateWires) (1 :: inputs ++ p.c.privateColumns))

theorem Shape.WellFormed.sideSum_add {s : Shape} (hs : s.WellFormed) (weights : List Int)
    (side : Gate → Linear) {xs : List Int} (hxs : xs.length = s.publicWires.length)
    (zs : List Int) :
    s.sideSum weights side s.publicWires xs + s.sideSum weights side s.privateWires zs =
      ∑ m ∈ Finset.range s.wireCount,
        (entryFor m (s.publicWires ++ s.privateWires) (xs ++ zs) : Scalar) *
          s.column side weights m := by
  have hprivate : s.privateWires.Nodup := List.nodup_range.filter _
  rw [Shape.sideSum, Shape.sideSum, cast_inner_map_entryFor _ hs.nodup_publicWires,
    cast_inner_map_entryFor _ hprivate, ← hs.sum_wires]
  congr 2
  · apply List.map_congr_left
    intro m hm
    rw [entryFor_append m hxs, if_pos hm]
  · apply List.map_congr_left
    intro m hm
    have hnot : m ∉ s.publicWires := by
      rw [mem_publicWires]
      simpa using (List.mem_filter.mp hm).2
    rw [entryFor_append m hxs, if_neg hnot]

namespace R1CS
variable {s : R1CS}

theorem WellFormed.assign (hs : s.WellFormed) {w : List Int} (hlen : w.length = s.wireCount)
    (hone : w.head? = some 1) (hrange : ∀ k ∈ w, 0 ≤ k ∧ k < order) : (s.assign w).WellFormed where
  length_values := by simpa [R1CS.assign] using hlen
  head_values := by simp [R1CS.assign, hone]
  isSome_values := by simp [R1CS.assign]
  values_range := by simpa [R1CS.assign] using hrange
  head_entries := hs.head_entries
  entries_sorted := hs.entries_sorted
  entries_lt := hs.entries_lt

theorem wireNumber_assign {w : List Int} {m : ℕ} : (s.assign w).wireNumber m = w[m]?.getD 0 := by
  rw [wireNumber, R1CS.assign, List.getElem?_map]
  cases w[m]? <;> rfl

/-- Where all wires of the gates have columns, the gates can be read with any assignment. -/
theorem readsGate_assign (h : s.shape.columnsExist = true) {w : List Int}
    (hlen : w.length = s.wireCount) : ∀ g ∈ (s.assign w).gates, (s.assign w).ReadsGate g := by
  have hreads : ∀ x : Linear,
      (x.terms.all fun term => (placeAmong s.wireCount term.1).isSome) = true →
        (s.assign w).Reads x := by
    intro x hx
    cases x with
    | constant k => trivial
    | combination x =>
      intro term hterm
      obtain ⟨m, hm⟩ := Option.isSome_iff_exists.mp (List.all_eq_true.mp hx term hterm)
      have hlt : m < w.length := hlen ▸ placeAmong_lt hm
      refine ⟨w[m], ?_⟩
      simp [slot?, R1CS.assign, hlen, hm]
  intro g hg
  have hcolumns := List.all_eq_true.mp h g hg
  simp only [List.all_cons, List.all_nil, Bool.and_true, Bool.and_eq_true] at hcolumns
  exact ⟨hreads _ hcolumns.1, hreads _ hcolumns.2.1, hreads _ hcolumns.2.2⟩

def Admits (s : R1CS) (inputs : List Int) : Prop :=
  ∃ w : List Int, w.length = s.wireCount ∧ w.head? = some 1 ∧ (∀ k ∈ w, 0 ≤ k ∧ k < order) ∧
    (s.assign w).inputs = .ok inputs ∧ (s.assign w).check = .ok none

/-- The values of a system that passes its check are an assignment for all systems of its shape. -/
theorem admits_of_shape_eq {u : R1CS} (hu : u.WellFormed) (hw : u.witnessed = true)
    (hshape : u.shape = s.shape) {inputs : List Int} (hinputs : u.inputs = .ok inputs)
    (hcheck : u.check = .ok none) : s.Admits inputs := by
  obtain ⟨hcount, hentries, hgates⟩ :
      u.wireCount = s.wireCount ∧ u.entries = s.entries ∧ u.gates = s.gates := by
    simpa only [shape, Shape.mk.injEq] using hshape
  have hvalues : (s.assign (u.values.map (Option.getD · 0))).values = u.values := by
    change (u.values.map _).map some = _
    rw [List.map_map]
    refine (List.map_congr_left fun v hv => ?_).trans (List.map_id _)
    obtain ⟨k, rfl⟩ := Option.isSome_iff_exists.mp ((hu.isSome_values v hv).trans hw)
    rfl
  refine ⟨u.values.map (Option.getD · 0), ?_, ?_, ?_, ?_, ?_⟩
  · rw [List.length_map, hu.length_values, hcount]
  · simp [hu.head_values, hw]
  · intro k hk
    apply hu.values_range
    rw [← hvalues]
    exact List.mem_map_of_mem hk
  · rw [← hinputs, R1CS.inputs, R1CS.inputs, read_eq_of_values hvalues, hentries]
    rfl
  · rw [← hcheck, check, check, checkGates_eq_of_values hvalues, hgates]
    rfl

/-- The values of a side at the gates under a prover's assignment. -/
theorem value_assignment (hs : s.WellFormed) {m : ℕ} (d : Domain m) (hle : s.gates.length ≤ 2 ^ m)
    (p : LinearProver) {inputs : List Int}
    (hlen : (1 :: inputs).length = s.shape.publicWires.length)
    (hwell : (s.assign (p.assignment s.shape inputs)).WellFormed) (side : Gate → Linear) {l : ℕ}
    (hl : l < s.gates.length) {tau : Int} (htau : (tau : Scalar) = (d.root : Scalar) ^ l) :
    s.shape.sideSum (d.weights tau) side s.shape.publicWires (1 :: inputs) +
        s.shape.sideSum (d.weights tau) side s.shape.privateWires p.c.privateColumns =
      (side s.gates[l]).value (s.assign (p.assignment s.shape inputs)).valuation := by
  have hone : (((s.assign (p.assignment s.shape inputs)).wireNumber 0 : Int) : Scalar) = 1 := by
    rw [wireNumber_zero hwell rfl, Int.cast_one]
  have hplaced := valuation_eq_placed hwell rfl
  have hcolumn := Shape.sum_column
    (fun k => ((s.assign (p.assignment s.shape inputs)).wireNumber k : Scalar)) s.shape
    (by rw [placed_zero hs.shape.wireCount_pos, hone]) d side tau
  have hentry : ∀ k ∈ Finset.range s.shape.wireCount,
      (entryFor k (s.shape.publicWires ++ s.shape.privateWires)
          (1 :: inputs ++ p.c.privateColumns) : Scalar) =
        (s.assign (p.assignment s.shape inputs)).wireNumber k := by
    intro k hk
    rw [wireNumber_assign, LinearProver.assignment, List.getElem?_map,
      List.getElem?_range (Finset.mem_range.mp hk), Option.map_some, Option.getD_some, cast_reduce]
  rw [hs.shape.sideSum_add _ side hlen, Finset.sum_congr rfl fun k hk => by rw [hentry k hk],
    hcolumn, hplaced, htau, Finset.sum_eq_single l]
  · rw [d.weight_root_pow (hl.trans_le hle) (hl.trans_le hle), if_pos rfl, mul_one]
    exact sideTable_getElem _ side s.gates hl
  · intro l' hl' hne
    rw [d.weight_root_pow (hl.trans_le hle) (Finset.mem_range.mp hl'), if_neg hne, mul_zero]
  · intro hnot
    exact absurd (Finset.mem_range.mpr (hl.trans_le hle)) hnot

theorem assignment_entries (hs : s.WellFormed) (p : LinearProver) (inputs : List Int) :
    (p.assignment s.shape inputs).head? = some 1 ∧
      ∀ k ∈ p.assignment s.shape inputs, 0 ≤ k ∧ k < order := by
  obtain ⟨rest, hrest⟩ := hs.shape.entries_eq
  constructor
  · have hone : reduce (entryFor 0 (s.shape.publicWires ++ s.shape.privateWires)
        (1 :: inputs ++ p.c.privateColumns)) = 1 := by
      rw [Shape.publicWires, hrest, List.map_cons, List.cons_append, List.cons_append, entryFor,
        if_pos rfl]
      rfl
    rw [LinearProver.assignment, List.head?_map, List.head?_range,
      if_neg hs.shape.wireCount_pos.ne', Option.map_some, hone]
  · intro k hk
    obtain ⟨m, -, rfl⟩ := List.mem_map.mp hk
    exact ⟨reduce_nonneg _, reduce_lt _⟩

theorem wellFormed_assignment (hs : s.WellFormed) (p : LinearProver) (inputs : List Int) :
    (s.assign (p.assignment s.shape inputs)).WellFormed := by
  obtain ⟨hhead, hentry⟩ := assignment_entries hs p inputs
  exact hs.assign (by simp [LinearProver.assignment, shape]) hhead hentry

theorem inputs_assignment (hs : s.WellFormed) (p : LinearProver) {inputs : List Int}
    (hlen : (1 :: inputs).length = s.shape.publicWires.length)
    (hrange : ∀ x ∈ inputs, 0 ≤ x ∧ x < order) :
    (s.assign (p.assignment s.shape inputs)).inputs = .ok inputs := by
  obtain ⟨rest, hentries⟩ := hs.shape.entries_eq
  have hwell := wellFormed_assignment hs p inputs
  have hwires : s.shape.publicWires = 0 :: rest.map Prod.fst := by
    rw [Shape.publicWires, hentries, List.map_cons]
  have hmap := map_entryFor hs.shape.nodup_publicWires hlen
  rw [inputs_eq hwell rfl hentries]
  congr 1
  have hrest : rest.map (fun entry => (s.assign (p.assignment s.shape inputs)).wireNumber entry.1) =
      (s.shape.publicWires.tail.map fun m => entryFor m s.shape.publicWires (1 :: inputs)).map
        reduce := by
    rw [hwires, List.tail_cons, List.map_map, List.map_map]
    apply List.map_congr_left
    intro entry hentry
    have hpublic : entry.1 ∈ s.shape.publicWires := by
      rw [hwires]
      exact List.mem_cons_of_mem _ (List.mem_map_of_mem hentry)
    have hlt : entry.1 < s.shape.wireCount :=
      hs.shape.entries_lt entry (hentries ▸ List.mem_cons_of_mem _ hentry)
    rw [wireNumber_assign, LinearProver.assignment, List.getElem?_map, List.getElem?_range hlt,
      Option.map_some, Option.getD_some, entryFor_append _ hlen, if_pos hpublic, hwires]
    rfl
  rw [hrest, List.map_tail, hmap, List.tail_cons]
  conv_rhs => rw [← List.map_id inputs]
  apply List.map_congr_left
  intro x hx
  exact reduce_eq_self (hrange x hx).1 (hrange x hx).2

variable {G₁ G₂ Gₜ : Type} [CodedGroup G₁] [CodedGroup G₂] [PrimeOrder G₁] [PrimeOrder G₂] [Mul Gₜ]
  [DecidableEq Gₜ] [Pairing G₁ G₂ Gₜ] [Bilinear G₁ G₂ Gₜ] [NonDegenerate G₁ G₂ Gₜ]

/-- A prover that passes with a system's keys has an assignment for the system. -/
theorem exists_assignment_of_passes (hs : s.WellFormed) (hgates : s.gates.length ≤ 2 ^ 31)
    {p : LinearProver} {inputs : List Int} {names : Option (List Unicode.Codes)}
    (h : p.Passes G₁ G₂ s.shape inputs names) :
    ∃ w : List Int, w.length = s.wireCount ∧ w.head? = some 1 ∧ (∀ k ∈ w, 0 ≤ k ∧ k < order) ∧
      (s.assign w).inputs = .ok inputs ∧ (s.assign w).check = .ok none := by
  obtain ⟨m, hm, hsize, hle⟩ := domainSize_eq hgates
  obtain ⟨d⟩ := exists_domain hm
  obtain ⟨hlen, hrange⟩ := h.inputs hs.shape
  have hwell := wellFormed_assignment hs p inputs
  have hcount : (p.assignment s.shape inputs).length = s.wireCount := by
    simp [LinearProver.assignment, shape]
  obtain ⟨hhead, hentry⟩ := assignment_entries hs p inputs
  refine ⟨p.assignment s.shape inputs, hcount, hhead, hentry,
    inputs_assignment hs p hlen hrange, ?_⟩
  · rw [check_eq_none_iff (readsGate_assign h.columnsExist hcount)]
    intro g hg
    obtain ⟨l, hl, rfl⟩ := List.getElem_of_mem hg
    have hroot : (d.root : Scalar) ^ l ≠ 0 := pow_ne_zero _ d.root_ne_zero
    have hpow : ((((d.root : Scalar) ^ l).val : Int) : Scalar) ^ 2 ^ m = 1 := by
      rw [cast_val, ← pow_mul, mul_comm, pow_mul, d.root_pow_card, one_pow]
    have hmul := d.sideSum_mul_of_accepts s.shape p inputs (isDraw_val hroot) hpow
      fun t ht => h.accepts d hsize ht
    rw [value_assignment hs d hle p hlen hwell Gate.left hl (cast_val _),
      value_assignment hs d hle p hlen hwell Gate.right hl (cast_val _),
      value_assignment hs d hle p hlen hwell Gate.output hl (cast_val _)] at hmul
    exact hmul

omit [NonDegenerate G₁ G₂ Gₜ] in
variable (G₁ G₂) in
/-- An honest prover without blinding factors is linear, and passes. -/
theorem exists_passing_prover (hs : s.WellFormed) (hw : s.witnessed = true)
    (hcheck : s.check = .ok none) (hgates : s.gates.length ≤ 2 ^ 31) {inputs : List Int}
    (hinputs : s.inputs = .ok inputs) :
    ∃ p : LinearProver, p.Passes G₁ G₂ s.shape inputs none := by
  obtain ⟨m, d, a, b, c, hsize, ha, hb, hc⟩ := exists_sideTables hcheck hgates
  obtain ⟨rest, hentries⟩ := hs.shape.entries_eq
  have hreads := readsGate_of_check hcheck
  have hrest := inputs_eq hs hw hentries
  rw [hinputs] at hrest
  obtain rfl := Except.ok.inj hrest
  refine ⟨{
    a := ⟨1, 0, 0, [], [], d.interpolated a, []⟩
    b := ⟨1, 0, 0, d.interpolated b⟩
    c := ⟨0, 0, 0, [], s.shape.privateWires.map s.wireNumber, [], d.quotient a b c⟩ }, ?_⟩
  intro t ht
  obtain ⟨g, e, hg, he, hderive⟩ :=
    d.derive_eq G₁ G₂ hsize (columnsExist_of_reads hs hreads) ht
  obtain ⟨values, hverify⟩ := verify_key hs hw hentries d t g e
    (LinearProver.prove _ (d.key s.shape t g e : Key G₁ G₂))
  refine ⟨_, values, hderive, hverify.trans ?_⟩
  congr 2
  rw [LinearProver.prove, FirstCombination.element_key, SecondCombination.element_key,
    FirstCombination.element_key]
  have hvalues := s.cast_map_wireNumber s.shape.privateWires
  apply accepts_of_cast_eq hs hw ((check_eq_none_iff hreads).mp hcheck) hentries d ha hb hc ht hg
    he 0 0
  · simp [FirstCombination.exponent, inner, Trapdoor.powerExponents,
      cast_inner_powers t.tau (d.length_interpolated ha.length_eq)]
  · simp [SecondCombination.exponent, Trapdoor.powerExponents,
      cast_inner_powers t.tau (d.length_interpolated hb.length_eq)]
  · simp [FirstCombination.exponent, inner, d.cast_inner_columnExponents e hvalues,
      cast_inner_quotientExponents t e (d.length_quotient ha.length_eq hb.length_eq hc.length_eq),
      add_comm]

end R1CS

namespace Step
variable {G₁ G₂ Gₜ : Type} [CodedGroup G₁] [CodedGroup G₂] [PrimeOrder G₁] [PrimeOrder G₂] [Mul Gₜ]
  [DecidableEq Gₜ] [Pairing G₁ G₂ Gₜ] [Bilinear G₁ G₂ Gₜ] [NonDegenerate G₁ G₂ Gₜ]

/-- Whatever steps a closed system comes from: if fixed coefficients for the elements of its keys
make a proof that passes under all secrets, then all gates of the system hold of an assignment that
has the public inputs in their places. -/
theorem exists_assignment (around : Surroundings) (registers : Registers) (steps : List Step)
    (tag : ℕ) (witnessed : Bool) {s : R1CS}
    (hs : ((runAll around steps registers).run (.fresh tag witnessed)).2.freeze = s)
    (hgates : s.gates.length ≤ 2 ^ 31) {p : LinearProver} {inputs : List Int}
    {names : Option (List Unicode.Codes)} (h : p.Passes G₁ G₂ s.shape inputs names) :
    ∃ w : List Int, w.length = s.wireCount ∧ w.head? = some 1 ∧ (∀ k ∈ w, 0 ≤ k ∧ k < order) ∧
      (s.assign w).inputs = .ok inputs ∧ (s.assign w).check = .ok none := by
  have hwell := wellFormed_runAll around steps registers tag witnessed
  rw [hs] at hwell
  exact R1CS.exists_assignment_of_passes hwell hgates h

open Factorization in
/-- The honest prover for two factors is a prover of that kind. -/
theorem exists_assignment_factorization :
    ∃ (s : R1CS) (p : LinearProver),
      ((runAll (.ofWitness (some factors)) steps (start "ONE" (.fresh 0 true))).run
        (.fresh 0 true)).2.freeze = s ∧
      p.Passes Exponent Exponent s.shape [391] none ∧
      ∃ w : List Int, w.length = s.wireCount ∧ w.head? = some 1 ∧ (∀ k ∈ w, 0 ≤ k ∧ k < order) ∧
        (s.assign w).inputs = .ok [391] ∧ (s.assign w).check = .ok none := by
  have hgates : ((runAll (.ofWitness (some factors)) steps (start "ONE" (.fresh 0 true))).run
      (.fresh 0 true)).2.freeze.gates.length ≤ 2 ^ 31 := by decide
  obtain ⟨p, hp⟩ := R1CS.exists_passing_prover Exponent Exponent
    (wellFormed_runAll _ steps _ 0 true) rfl rfl hgates rfl
  exact ⟨_, p, rfl, hp, exists_assignment _ _ steps 0 true rfl hgates hp⟩

end Step

end RankOne
