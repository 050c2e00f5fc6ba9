import RankOne.Proofs.KeyLayout

/-!
# Honest proofs pass

A system whose gates all hold has a proof under each key of its shape, and the proof passes with
the public inputs of the system. The values of the gates' sides make three polynomials whose
quotient by the vanishing polynomial is exact at the secret point, wherever this point lies, and
the blinding factors cancel.
-/

set_option autoImplicit false

namespace RankOne
open CodedGroup (multiple)
open Transform

theorem mapM_eq_ok {α β : Type} {f : α → Except Fault β} {g : α → β} {xs : List α}
    (h : ∀ x ∈ xs, f x = .ok (g x)) : xs.mapM f = .ok (xs.map g) := by
  induction xs with
  | nil => rfl
  | cons x rest ih =>
    rw [List.mapM_cons, h x (List.mem_cons_self ..), ih fun y hy => h y (List.mem_cons_of_mem _ hy)]
    rfl

namespace R1CS
variable {s : R1CS}

def wireNumber (s : R1CS) (m : ℕ) : Int :=
  (s.values[m]?.join).getD 0

theorem getElem?_values (h : s.WellFormed) (hw : s.witnessed = true) {m : ℕ}
    (hm : m < s.wireCount) : s.values[m]? = some (some (s.wireNumber m)) := by
  have hlen : m < s.values.length := by rwa [h.length_values]
  have hsome := h.isSome_values _ (List.getElem_mem hlen)
  rw [hw] at hsome
  obtain ⟨v, hv⟩ := Option.isSome_iff_exists.mp hsome
  have hget : s.values[m]? = some (some v) := by rw [List.getElem?_eq_getElem hlen, hv]
  rw [wireNumber, hget]
  rfl

theorem cast_map_wireNumber (s : R1CS) (wires : List ℕ) :
    (wires.map s.wireNumber).map (Int.cast : Int → Scalar) =
      wires.map fun k => (s.wireNumber k : Scalar) := by
  rw [List.map_map, Function.comp_def]

theorem wireNumber_range (h : s.WellFormed) (hw : s.witnessed = true) {m : ℕ}
    (hm : m < s.wireCount) : 0 ≤ s.wireNumber m ∧ s.wireNumber m < order :=
  h.values_range _ (List.mem_of_getElem? (getElem?_values h hw hm))

theorem wireNumber_zero (h : s.WellFormed) (hw : s.witnessed = true) : s.wireNumber 0 = 1 := by
  have hhead := h.head_values
  rw [hw, if_pos rfl, List.head?_eq_getElem?] at hhead
  rw [wireNumber, hhead]
  rfl

theorem valuation_eq_placed (h : s.WellFormed) (hw : s.witnessed = true) :
    s.valuation = placed s.wireCount fun m => (s.wireNumber m : Scalar) := by
  funext wire
  rw [valuation, slot?, placed, h.length_values]
  cases hplace : placeAmong s.wireCount wire with
  | none => rfl
  | some m =>
    rw [Option.bind_some, getElem?_values h hw (placeAmong_lt hplace)]

theorem read_wireAt (h : s.WellFormed) (hw : s.witnessed = true) {m : ℕ} (hm : m < s.wireCount) :
    s.read (s.wireAt m) = .ok (s.wireNumber m) := by
  obtain ⟨hlow, hhigh⟩ := wireNumber_range h hw hm
  have hplace : placeAmong s.values.length (m : Int) = some m := by
    simp [placeAmong, h.length_values, hm]
  have hentry : s.slot? (m : Int) = some (some (s.wireNumber m)) := by
    rw [slot?, hplace, Option.bind_some, getElem?_values h hw hm]
  simp only [read, wireAt, total, hentry, mul_one, add_zero]
  rw [reduce_eq_self hlow hhigh]

theorem WellFormed.filter_entries (h : s.WellFormed) {rest : List (ℕ × String)}
    (hentries : s.entries = (0, "ONE") :: rest) :
    s.entries.filter (fun entry => entry.1 ≠ 0) = rest := by
  have hsorted := h.entries_sorted
  rw [hentries, List.map_cons, List.pairwise_cons] at hsorted
  rw [hentries, List.filter_cons_of_neg (by simp), List.filter_eq_self]
  intro entry hentry
  have hpos := hsorted.1 _ (List.mem_map_of_mem hentry)
  simpa using Nat.ne_of_gt hpos

theorem WellFormed.names_eq (h : s.WellFormed) {rest : List (ℕ × String)}
    (hentries : s.entries = (0, "ONE") :: rest) : s.shape.names = rest.map Prod.snd :=
  congrArg (List.map Prod.snd) (h.filter_entries hentries)

theorem inputs_eq (h : s.WellFormed) (hw : s.witnessed = true) {rest : List (ℕ × String)}
    (hentries : s.entries = (0, "ONE") :: rest) :
    s.inputs = .ok (rest.map fun entry => s.wireNumber entry.1) := by
  rw [inputs, h.filter_entries hentries]
  apply mapM_eq_ok
  intro entry hentry
  apply read_wireAt h hw
  apply h.entries_lt
  rw [hentries]
  exact List.mem_cons_of_mem _ hentry

theorem privateValues_eq (h : s.WellFormed) (hw : s.witnessed = true) :
    s.privateValues = .ok (s.shape.privateWires.map s.wireNumber) := by
  apply mapM_eq_ok
  intro m hm
  have hlt : m < s.wireCount := List.mem_range.mp (List.mem_filter.mp hm).1
  rw [getElem?_values h hw hlt]

theorem columnsExist_of_reads (h : s.WellFormed) (hreads : ∀ g ∈ s.gates, s.ReadsGate g) :
    s.shape.columnsExist = true := by
  have hplace : ∀ x : Linear, s.Reads x →
      x.terms.all (fun term => (placeAmong s.wireCount term.1).isSome) = true := by
    intro x hx
    cases x with
    | constant k =>
      have hpos := h.shape.wireCount_pos
      have hpos : 0 < s.wireCount := hpos
      simp [Linear.terms, placeAmong, hpos]
    | combination x =>
      rw [List.all_eq_true]
      intro term hterm
      obtain ⟨v, hv⟩ := hx term hterm
      rw [slot?, h.length_values] at hv
      cases hp : placeAmong s.wireCount term.1 with
      | none => simp [hp] at hv
      | some m => rfl
  rw [Shape.columnsExist, List.all_eq_true]
  intro g hg
  obtain ⟨hl, hr, ho⟩ := hreads g hg
  have hcount : s.shape.wireCount = s.wireCount := rfl
  simp only [hcount, List.all_cons, List.all_nil, hplace _ hl, hplace _ hr, hplace _ ho,
    Bool.and_true]

theorem sideValues_eq (side : Gate → Linear) {gates : List Gate}
    (h : ∀ g ∈ gates, s.Reads (side g)) :
    ∃ a, s.sideValues side gates = .ok a ∧ a.length = gates.length ∧
      Tabulates (sideTable s.valuation side gates) a := by
  induction gates with
  | nil => exact ⟨[], rfl, rfl, trivial⟩
  | cons g rest ih =>
    obtain ⟨x, hx, hval, -⟩ := read_eq_ok (h g (List.mem_cons_self ..))
    obtain ⟨a, ha, hlen, htab⟩ := ih fun g' hg' => h g' (List.mem_cons_of_mem _ hg')
    refine ⟨x :: a, ?_, by simp [hlen], hval, htab⟩
    simp only [sideValues, hx, ha, bind, Except.bind, pure, Except.pure]

structure SideTable (s : R1CS) (m : ℕ) (side : Gate → Linear) (a : List Int) : Prop where
  length_eq : a.length = 2 ^ m
  entry_eq : ∀ l < 2 ^ m, entryOf Scalar a l = sideTable s.valuation side s.gates l
  sidePolynomial_eq : ∀ p, s.sidePolynomial side (2 ^ m) p = interpolate a p order

theorem tabulates_replicate_zero {f : ℕ → Scalar} (n : ℕ) (h : ∀ l < n, f l = 0) :
    Tabulates f (List.replicate n 0) := by
  induction n generalizing f with
  | zero => trivial
  | succ n ih =>
    refine ⟨?_, ih fun l hl => h (l + 1) (by omega)⟩
    rw [h 0 (Nat.succ_pos n), Int.cast_zero]

theorem exists_sideTable {m : ℕ} (hm : s.gates.length ≤ 2 ^ m) (side : Gate → Linear)
    (h : ∀ g ∈ s.gates, s.Reads (side g)) : ∃ a, SideTable s m side a := by
  obtain ⟨a, ha, hlen, htab⟩ := sideValues_eq side h
  have hpadded : Tabulates (sideTable s.valuation side s.gates)
      (a ++ List.replicate (2 ^ m - a.length) 0) := by
    rw [tabulates_append]
    refine ⟨htab, tabulates_replicate_zero _ fun l _ => ?_⟩
    exact sideTable_of_length_le _ side (by omega)
  have hlength : (a ++ List.replicate (2 ^ m - a.length) 0).length = 2 ^ m := by
    rw [List.length_append, List.length_replicate]
    omega
  refine ⟨a ++ List.replicate (2 ^ m - a.length) 0, hlength, fun l hl => ?_, fun p => ?_⟩
  · exact tabulates_unique _ (tabulates_entryOf _) hpadded l (by rwa [hlength])
  · simp only [sidePolynomial, ha, bind, Except.bind]

namespace SideTable
variable {m : ℕ} (d : Domain m) {a b c : List Int}

/-- The value at a point of the polynomial of one side is what the weights of the point give. -/
theorem eval_eq {side : Gate → Linear} (h : SideTable s m side a) (tau : Scalar) :
    (polynomial Scalar (d.interpolated a)).eval tau =
      ∑ l ∈ Finset.range (2 ^ m), sideTable s.valuation side s.gates l * d.weight tau l := by
  rw [d.eval_interpolated_eq_sum h.length_eq]
  apply Finset.sum_congr rfl
  intro l hl
  rw [h.entry_eq l (Finset.mem_range.mp hl)]

theorem ofSystem_eq (hsize : domainSize s.gates.length = 2 ^ m) (ha : SideTable s m Gate.left a)
    (hb : SideTable s m Gate.right b) (hc : SideTable s m Gate.output c) :
    Quotient.ofSystem s = .ok ⟨d.interpolated a, d.interpolated b, d.quotient a b c⟩ := by
  have hla := d.length_interpolated ha.length_eq
  have hlb := d.length_interpolated hb.length_eq
  have hlc := d.length_interpolated hc.length_eq
  have hlen := (d.tabulates_quotient ha.length_eq hb.length_eq hc.length_eq).2
  simp only [Quotient.ofSystem, hsize, d.root_ok, d.coset_ok, ha.sidePolynomial_eq,
    hb.sidePolynomial_eq, hc.sidePolynomial_eq, d.interpolate_eq ha.length_eq,
    d.interpolate_eq hb.length_eq, d.interpolate_eq hc.length_eq, d.evaluateOnCoset_eq hla,
    d.evaluateOnCoset_eq hlb, d.evaluateOnCoset_eq hlc, d.interpolateOnCoset_eq hlen, bind,
    Except.bind, pure, Except.pure, Domain.quotient]

theorem eval_quotient (ha : SideTable s m Gate.left a) (hb : SideTable s m Gate.right b)
    (hc : SideTable s m Gate.output c) (hholds : ∀ g ∈ s.gates, g.Holds s.valuation)
    (tau : Scalar) :
    (polynomial Scalar (d.interpolated a)).eval tau *
        (polynomial Scalar (d.interpolated b)).eval tau -
        (polynomial Scalar (d.interpolated c)).eval tau =
      (tau ^ 2 ^ m - 1) * (polynomial Scalar (d.quotient a b c)).eval tau := by
  have hentries : ∀ l < 2 ^ m, entryOf Scalar a l * entryOf Scalar b l = entryOf Scalar c l := by
    intro l hl
    rw [ha.entry_eq l hl, hb.entry_eq l hl, hc.entry_eq l hl]
    by_cases hlt : l < s.gates.length
    · rw [sideTable_getElem _ _ _ hlt, sideTable_getElem _ _ _ hlt, sideTable_getElem _ _ _ hlt]
      exact hholds _ (List.getElem_mem hlt)
    · have hzero := fun side => sideTable_of_length_le s.valuation side (not_lt.mp hlt)
      rw [hzero, hzero, hzero, zero_mul]
  have hexact := congrArg (Polynomial.eval tau)
    (d.quotient_exact ha.length_eq hb.length_eq hc.length_eq hentries)
  simpa using hexact

end SideTable

end R1CS

theorem cast_inner_quotientExponents (t : Trapdoor) (e : Int) {n : ℕ} {h : List Int}
    (hlen : h.length = n) :
    (inner (t.quotientExponents n e) h : Scalar) =
      (polynomial Scalar h).eval (t.tau : Scalar) * (((t.tau : Scalar) ^ n - 1) * e) := by
  have hpower : ((Residue.power t.tau n order : Int) : Scalar) = (t.tau : Scalar) ^ n := by
    rw [Residue.power_eq, cast_emod cast_order, Int.cast_pow]
  have hscale : ∀ x : Int,
      ((reduce (x * e * (Residue.power t.tau n order - 1)) : Int) : Scalar) =
        (x : Scalar) * (((t.tau : Scalar) ^ n - 1) * e) := by
    intro x
    rw [cast_reduce, Int.cast_mul, Int.cast_mul, Int.cast_sub, hpower, Int.cast_one]
    ring
  have htab : Tabulates (fun i => (t.tau : Scalar) ^ i * (((t.tau : Scalar) ^ n - 1) * e))
      (t.quotientExponents n e) :=
    tabulates_map _ _ (fun x => x * (((t.tau : Scalar) ^ n - 1) * e)) _ hscale
      (tabulates_powers cast_order t.tau n)
  rw [cast_inner _ h (by rw [t.length_quotientExponents, hlen]) htab (tabulates_entryOf h),
    eval_polynomial h (tabulates_entryOf h), Finset.sum_mul]
  apply Finset.sum_congr rfl
  intro i _
  ring

/-- The blinding factors cancel. Here `A`, `B`, `C` and `H` are the values of the polynomials at the
secret point, `Z` is that of the vanishing polynomial, and `P` and `Q` are the sums of the public
and of the private columns. -/
theorem blinded_product_eq {α β γ δ g e r u A B C H Z P Q : Scalar}
    (hcolumns : P + Q = β * A + α * B + C) (hquotient : A * B - C = Z * H) (hgamma : g * γ = 1)
    (hdelta : e * δ = 1) :
    (α + r * δ + A) * (β + u * δ + B) =
      α * β + g * P * γ +
        (u * (α + r * δ + A) + r * (β + u * δ + B) - r * u * δ + H * (Z * e) + e * Q) * δ := by
  linear_combination hquotient - hcolumns - P * hgamma - (H * Z + Q) * hdelta

/-- The exponents of an honest proof solve the equation that the pairing checks: on both sides
stands the same element of the field. -/
theorem R1CS.cast_mul_eq {s : R1CS} (hs : s.WellFormed) (hw : s.witnessed = true)
    (hholds : ∀ g ∈ s.gates, g.Holds s.valuation) {rest : List (ℕ × String)}
    (hentries : s.entries = (0, "ONE") :: rest) {m : ℕ} (d : Domain m) {a b c : List Int}
    (ha : s.SideTable m Gate.left a) (hb : s.SideTable m Gate.right b)
    (hc : s.SideTable m Gate.output c) {t : Trapdoor} (ht : t.IsDrawn) {g e : Int}
    (hg : (g : Scalar) = (t.gamma : Scalar)⁻¹) (he : (e : Scalar) = (t.delta : Scalar)⁻¹)
    (r u : Scalar) {x y z : Scalar}
    (hx : x = t.alpha + r * t.delta +
      (polynomial Scalar (d.interpolated a)).eval (t.tau : Scalar))
    (hy : y = t.beta + u * t.delta +
      (polynomial Scalar (d.interpolated b)).eval (t.tau : Scalar))
    (hz : z = u * x + r * y - r * u * t.delta +
      (polynomial Scalar (d.quotient a b c)).eval (t.tau : Scalar) *
        (((t.tau : Scalar) ^ 2 ^ m - 1) * e) +
      e * (s.shape.privateWires.map fun k => (s.wireNumber k : Scalar) *
        (s.shape.columnValue t (d.weights t.tau) k : Scalar)).sum) :
    x * y = t.alpha * t.beta +
      (inner (d.columnExponents s.shape t g s.shape.publicWires)
        (1 :: rest.map fun entry => s.wireNumber entry.1) : Scalar) * t.gamma + z * t.delta := by
  -- the columns of all wires add up to the three polynomials at the secret point
  have hone : ((s.wireNumber 0 : Int) : Scalar) = 1 := by
    rw [wireNumber_zero hs hw, Int.cast_one]
  have hplaced : placed s.shape.wireCount (fun k => (s.wireNumber k : Scalar)) = s.valuation :=
    (valuation_eq_placed hs hw).symm
  have hsum := Shape.sum_columnValue (fun k => (s.wireNumber k : Scalar)) s.shape
    (by rw [placed_zero hs.shape.wireCount_pos, hone]) d t
  have hgatesEq : s.shape.gates = s.gates := rfl
  rw [hplaced, hgatesEq, ← ha.eval_eq, ← hb.eval_eq, ← hc.eval_eq, ← hs.shape.sum_wires] at hsum
  have hvalues : (1 :: rest.map fun entry => s.wireNumber entry.1).map (Int.cast : Int → Scalar) =
      s.shape.publicWires.map fun k => (s.wireNumber k : Scalar) := by
    rw [Shape.publicWires, R1CS.shape, hentries, List.map_cons, List.map_cons, List.map_cons,
      List.map_map, List.map_map, hone, Int.cast_one]
    rfl
  have hinput := d.cast_inner_columnExponents (s := s.shape) (t := t) g hvalues
  have hgamma : (g : Scalar) * t.gamma = 1 := by
    rw [hg, inv_mul_cancel₀ ht.gamma.cast_ne_zero]
  have hdelta : (e : Scalar) * t.delta = 1 := by
    rw [he, inv_mul_cancel₀ ht.delta.cast_ne_zero]
  rw [hinput, hz, hx, hy]
  exact blinded_product_eq hsum (SideTable.eval_quotient d ha hb hc hholds (t.tau : Scalar)) hgamma
    hdelta

section Proving
variable {G₁ G₂ : Type} [CodedGroup G₁] [CodedGroup G₂] [PrimeOrder G₁] [PrimeOrder G₂]

variable (G₁ G₂) in
theorem ProvingKey.assemble_eq {s : R1CS} (hs : s.WellFormed) (hw : s.witnessed = true) {m : ℕ}
    (d : Domain m) (hsize : domainSize s.gates.length = 2 ^ m) {a b c : List Int}
    (ha : s.SideTable m Gate.left a) (hb : s.SideTable m Gate.right b)
    (hc : s.SideTable m Gate.output c) (t : Trapdoor) (g e : Int) {r u : Int} (hr : IsDraw r)
    (hu : IsDraw u) :
    ∃ x y z : Int,
      (d.key s.shape t g e : Key G₁ G₂).provingKey.assemble s r u =
        .ok ⟨multiple x, multiple y, multiple z⟩ ∧
      (x : Scalar) = t.alpha + r * t.delta +
        (polynomial Scalar (d.interpolated a)).eval (t.tau : Scalar) ∧
      (y : Scalar) = t.beta + u * t.delta +
        (polynomial Scalar (d.interpolated b)).eval (t.tau : Scalar) ∧
      (z : Scalar) = u * x + r * y - r * u * t.delta +
        (polynomial Scalar (d.quotient a b c)).eval (t.tau : Scalar) *
          (((t.tau : Scalar) ^ 2 ^ m - 1) * e) +
        e * (s.shape.privateWires.map fun k => (s.wireNumber k : Scalar) *
          (s.shape.columnValue t (d.weights t.tau) k : Scalar)).sum := by
  have hla := d.length_interpolated ha.length_eq
  have hlb := d.length_interpolated hb.length_eq
  have hlq := d.length_quotient ha.length_eq hb.length_eq hc.length_eq
  have hpowers := t.length_powerExponents (2 ^ m)
  have hcolumns : (d.columnExponents s.shape t e s.shape.privateWires).length =
      (s.shape.privateWires.map s.wireNumber).length := by
    simp [Domain.columnExponents]
  let x := t.alpha + r * t.delta + inner (t.powerExponents (2 ^ m)) (d.interpolated a)
  let y := t.beta + u * t.delta + inner (t.powerExponents (2 ^ m)) (d.interpolated b)
  let z := u * x + r * y - reduce (r * u) * t.delta +
    inner (t.quotientExponents (2 ^ m) e) (d.quotient a b c) +
    inner (d.columnExponents s.shape t e s.shape.privateWires)
      (s.shape.privateWires.map s.wireNumber)
  refine ⟨x, y, z, ?_, ?_, ?_, ?_⟩
  · simp only [ProvingKey.assemble, Domain.key, Key.provingKey,
      R1CS.SideTable.ofSystem_eq d hsize ha hb hc, R1CS.privateValues_eq hs hw, hr.isScalar,
      hu.isScalar, PrimeOrder.smul_multiple, PrimeOrder.add_multiple, sub_multiple,
      combine_multiple _ (hpowers.trans hla.symm), combine_multiple _ (hpowers.trans hlb.symm),
      combine_multiple _ ((t.length_quotientExponents (2 ^ m) e).trans hlq.symm),
      combine_multiple _ hcolumns, bind, Except.bind, pure, Except.pure, Bool.and_self,
      Bool.not_true, Bool.false_eq_true, if_false]
    rfl
  · rw [Int.cast_add, Int.cast_add, Int.cast_mul, Trapdoor.powerExponents,
      cast_inner_powers t.tau hla]
  · rw [Int.cast_add, Int.cast_add, Int.cast_mul, Trapdoor.powerExponents,
      cast_inner_powers t.tau hlb]
  · have hprivate := d.cast_inner_columnExponents (s := s.shape) (t := t) e
      (s.cast_map_wireNumber s.shape.privateWires)
    have hquotient := cast_inner_quotientExponents t e hlq
    simp only [z, Int.cast_add, Int.cast_sub, Int.cast_mul, cast_reduce, hprivate, hquotient]

variable {Gₜ : Type} [Mul Gₜ] [DecidableEq Gₜ] [Pairing G₁ G₂ Gₜ] [Bilinear G₁ G₂ Gₜ]

theorem R1CS.accepts_of_cast_eq {s : R1CS} (hs : s.WellFormed) (hw : s.witnessed = true)
    (hholds : ∀ g ∈ s.gates, g.Holds s.valuation) {rest : List (ℕ × String)}
    (hentries : s.entries = (0, "ONE") :: rest) {m : ℕ} (d : Domain m) {a b c : List Int}
    (ha : s.SideTable m Gate.left a) (hb : s.SideTable m Gate.right b)
    (hc : s.SideTable m Gate.output c) {t : Trapdoor} (ht : t.IsDrawn) {g e : Int}
    (hg : (g : Scalar) = (t.gamma : Scalar)⁻¹) (he : (e : Scalar) = (t.delta : Scalar)⁻¹)
    (r u : Scalar) {x y z : Int}
    (hx : (x : Scalar) = t.alpha + r * t.delta +
      (polynomial Scalar (d.interpolated a)).eval (t.tau : Scalar))
    (hy : (y : Scalar) = t.beta + u * t.delta +
      (polynomial Scalar (d.interpolated b)).eval (t.tau : Scalar))
    (hz : (z : Scalar) = u * x + r * y - r * u * t.delta +
      (polynomial Scalar (d.quotient a b c)).eval (t.tau : Scalar) *
        (((t.tau : Scalar) ^ 2 ^ m - 1) * e) +
      e * (s.shape.privateWires.map fun k => (s.wireNumber k : Scalar) *
        (s.shape.columnValue t (d.weights t.tau) k : Scalar)).sum) :
    (d.key s.shape t g e : Key G₁ G₂).verifyingKey.accepts ⟨multiple x, multiple y, multiple z⟩
      (rest.map fun entry => s.wireNumber entry.1) = true := by
  refine (d.accepts_iff s.shape t g e x y z _).mpr (pair_eq_of_cast_eq ?_)
  push_cast
  exact cast_mul_eq hs hw hholds hentries d ha hb hc ht hg he r u hx hy hz

omit [PrimeOrder G₁] [PrimeOrder G₂] [Bilinear G₁ G₂ Gₜ] in
theorem R1CS.verify_key {s : R1CS} (hs : s.WellFormed) (hw : s.witnessed = true)
    {rest : List (ℕ × String)} (hentries : s.entries = (0, "ONE") :: rest) {m : ℕ} (d : Domain m)
    (t : Trapdoor) (g e : Int) (proof : Proof G₁ G₂) :
    ∃ values, (d.key s.shape t g e : Key G₁ G₂).verifyingKey.verify proof
        (rest.map fun entry => s.wireNumber entry.1) none =
      .ok ⟨(d.key s.shape t g e : Key G₁ G₂).verifyingKey.accepts proof
        (rest.map fun entry => s.wireNumber entry.1), values⟩ := by
  refine ⟨_, VerifyingKey.Fits.verify_eq ⟨?_, ?_, ?_⟩ proof⟩
  · simp [VerifyingKey.inputCount, Key.verifyingKey, Domain.key, Shape.counts, R1CS.shape, hentries]
  · simp [Key.verifyingKey, Domain.key, Shape.counts, Domain.columnExponents, Shape.publicWires]
  · intro x hx
    obtain ⟨entry, hentry, rfl⟩ := List.mem_map.mp hx
    exact wireNumber_range hs hw (hs.entries_lt entry (hentries ▸ List.mem_cons_of_mem _ hentry))

/-- A system that passes its check has tables of its sides on a domain. -/
theorem R1CS.exists_sideTables {s : R1CS} (hcheck : s.check = .ok none)
    (hgates : s.gates.length ≤ 2 ^ 31) :
    ∃ (m : ℕ) (_ : Domain m) (a b c : List Int), domainSize s.gates.length = 2 ^ m ∧
      s.SideTable m Gate.left a ∧ s.SideTable m Gate.right b ∧ s.SideTable m Gate.output c := by
  obtain ⟨m, hm, hsize, hle⟩ := domainSize_eq hgates
  obtain ⟨d⟩ := exists_domain hm
  have hreads := readsGate_of_check hcheck
  obtain ⟨a, ha⟩ := exists_sideTable hle Gate.left fun x hx => (hreads x hx).1
  obtain ⟨b, hb⟩ := exists_sideTable hle Gate.right fun x hx => (hreads x hx).2.1
  obtain ⟨c, hc⟩ := exists_sideTable hle Gate.output fun x hx => (hreads x hx).2.2
  exact ⟨m, d, a, b, c, hsize, ha, hb, hc⟩

variable (G₁ G₂) in
theorem R1CS.exists_accepted {s : R1CS} (hs : s.WellFormed) (hw : s.witnessed = true)
    (hcheck : s.check = .ok none) (hgates : s.gates.length ≤ 2 ^ 31) {rest : List (ℕ × String)}
    (hentries : s.entries = (0, "ONE") :: rest) {t : Trapdoor} (ht : t.IsDrawn) :
    ∃ (m : ℕ) (d : Domain m) (g e : Int),
      Key.derive s.shape t = .ok (d.key s.shape t g e : Key G₁ G₂) ∧
      ∀ r u : Int, IsDraw r → IsDraw u → ∃ proof,
        (d.key s.shape t g e : Key G₁ G₂).provingKey.assemble s r u = .ok proof ∧
        (d.key s.shape t g e : Key G₁ G₂).verifyingKey.accepts proof
          (rest.map fun entry => s.wireNumber entry.1) = true := by
  obtain ⟨m, d, a, b, c, hsize, ha, hb, hc⟩ := exists_sideTables hcheck hgates
  have hreads := readsGate_of_check hcheck
  obtain ⟨g, e, hg, he, hderive⟩ :=
    d.derive_eq G₁ G₂ hsize (columnsExist_of_reads hs hreads) ht
  refine ⟨m, d, g, e, hderive, fun r u hr hu => ?_⟩
  obtain ⟨x, y, z, hproof, hx, hy, hz⟩ :=
    ProvingKey.assemble_eq G₁ G₂ hs hw d hsize ha hb hc t g e hr hu
  exact ⟨_, hproof, accepts_of_cast_eq hs hw ((check_eq_none_iff hreads).mp hcheck) hentries d ha hb
    hc ht hg he r u hx hy hz⟩

end Proving

end RankOne
