import RankOne.Proofs.Growth
import RankOne.Proofs.Interpolation
import RankOne.Proofs.Verdict

/-!
# What a key is made of

The exponents of the elements of a derived key, and what the columns are for: taken with values of
the wires, the columns of one side add up to the values of that side at the gates, taken with the
weights of the points. At a secret point that happens to lie in the domain these are the values at
one gate.
-/

set_option autoImplicit false

namespace RankOne
open CodedGroup (multiple)
open Pairing (pair)
open Transform

def placed (count : ℕ) (w : ℕ → Scalar) (wire : Int) : Scalar :=
  match placeAmong count wire with
  | some m => w m
  | none => 0

theorem placed_zero {count : ℕ} (hcount : 0 < count) (w : ℕ → Scalar) : placed count w 0 = w 0 := by
  simp [placed, placeAmong, hcount]

theorem placeAmong_lt {count m : ℕ} {wire : Int} (h : placeAmong count wire = some m) :
    m < count := by
  rw [placeAmong] at h
  split at h
  · split at h
    · obtain rfl := Option.some.inj h
      assumption
    · simp at h
  · split at h
    · obtain rfl := Option.some.inj h
      omega
    · simp at h

def sideTable (v : Int → Scalar) (side : Gate → Linear) : List Gate → ℕ → Scalar
  | [], _ => 0
  | g :: _, 0 => (side g).value v
  | _ :: gs, l + 1 => sideTable v side gs l

theorem sideTable_of_length_le (v : Int → Scalar) (side : Gate → Linear) {gates : List Gate}
    {l : ℕ} (h : gates.length ≤ l) : sideTable v side gates l = 0 := by
  induction gates generalizing l with
  | nil => rfl
  | cons g gs ih =>
    cases l with
    | zero => simp at h
    | succ l => exact ih (by simpa using h)

theorem sideTable_getElem (v : Int → Scalar) (side : Gate → Linear) (gates : List Gate) {l : ℕ}
    (h : l < gates.length) : sideTable v side gates l = (side gates[l]).value v := by
  induction gates generalizing l with
  | nil => simp at h
  | cons g gs ih =>
    cases l with
    | zero => rfl
    | succ l => exact ih (by simpa using h)

namespace Shape
variable {count : ℕ} (w : ℕ → Scalar)

/-- The coefficients of an expression at all wires, taken with values, are its value. -/
theorem sum_coefficientAt (terms : List (Int × Int)) :
    ∑ m ∈ Finset.range count, w m * (coefficientAt count m terms : Scalar) =
      termsValue (placed count w) terms := by
  induction terms with
  | nil => simp [coefficientAt, termsValue]
  | cons term rest ih =>
    obtain ⟨wire, a⟩ := term
    simp only [coefficientAt, termsValue, Int.cast_add, mul_add, Finset.sum_add_distrib, ih]
    congr 1
    rw [placed]
    cases hplace : placeAmong count wire with
    | none => simp
    | some m =>
      rw [Finset.sum_eq_single m]
      · simp [mul_comm]
      · intro m' _ hne
        have hne' : ¬ some m = some m' := fun h => hne (Option.some.inj h).symm
        simp [hne']
      · intro hm
        exact absurd (Finset.mem_range.mpr (placeAmong_lt hplace)) hm

theorem sum_columnOf (hone : placed count w 0 = 1) (side : Gate → Linear) {f : ℕ → Scalar}
    (weights : List Int) (gates : List Gate) (hf : Tabulates f weights) :
    ∑ m ∈ Finset.range count, w m * (columnOf count m side weights gates : Scalar) =
      ∑ l ∈ Finset.range weights.length, sideTable (placed count w) side gates l * f l := by
  induction weights generalizing gates f with
  | nil => simp [columnOf]
  | cons x weights ih =>
    cases gates with
    | nil => simp [columnOf, sideTable]
    | cons g gs =>
      have hside : termsValue (placed count w) (side g).terms =
          (side g).value (placed count w) := by
        cases side g with
        | constant k => simp [Linear.terms, Linear.value, termsValue, hone]
        | combination x => rfl
      simp only [columnOf, Int.cast_add, Int.cast_mul, mul_add, Finset.sum_add_distrib]
      rw [ih gs hf.2, List.length_cons, Finset.sum_range_succ', add_comm]
      congr 1
      rw [sideTable, ← hside, ← sum_coefficientAt, ← hf.1, Finset.sum_mul]
      apply Finset.sum_congr rfl
      intro m _
      ring

/-- The values of one side at a point, as the weights of a key give them. -/
theorem sum_column (s : Shape) (hone : placed s.wireCount w 0 = 1) {m : ℕ} (d : Domain m)
    (side : Gate → Linear) (tau : Int) :
    ∑ k ∈ Finset.range s.wireCount, w k * (s.column side (d.weights tau) k : Scalar) =
      ∑ l ∈ Finset.range (2 ^ m),
        sideTable (placed s.wireCount w) side s.gates l * d.weight tau l := by
  have h := sum_columnOf w hone side (d.weights tau) s.gates (d.tabulates_weights tau)
  rwa [d.length_weights] at h

/-- All columns of a key together, each taken with the value of its wire. -/
theorem sum_columnValue (s : Shape) (hone : placed s.wireCount w 0 = 1) {m : ℕ} (d : Domain m)
    (t : Trapdoor) :
    ∑ k ∈ Finset.range s.wireCount, w k * (s.columnValue t (d.weights t.tau) k : Scalar) =
      t.beta * ∑ l ∈ Finset.range (2 ^ m),
          sideTable (placed s.wireCount w) Gate.left s.gates l * d.weight t.tau l +
        t.alpha * ∑ l ∈ Finset.range (2 ^ m),
          sideTable (placed s.wireCount w) Gate.right s.gates l * d.weight t.tau l +
        ∑ l ∈ Finset.range (2 ^ m),
          sideTable (placed s.wireCount w) Gate.output s.gates l * d.weight t.tau l := by
  rw [← sum_column w s hone, ← sum_column w s hone, ← sum_column w s hone, Finset.mul_sum,
    Finset.mul_sum, ← Finset.sum_add_distrib, ← Finset.sum_add_distrib]
  apply Finset.sum_congr rfl
  intro k _
  rw [columnValue]
  push_cast
  ring

structure WellFormed (s : Shape) : Prop where
  head_entries : s.entries.head? = some (0, "ONE")
  entries_sorted : (s.entries.map Prod.fst).Pairwise (· < ·)
  entries_lt : ∀ entry ∈ s.entries, entry.1 < s.wireCount

def publicWires (s : Shape) : List ℕ := s.entries.map Prod.fst

theorem mem_publicWires {s : Shape} {m : ℕ} : m ∈ s.publicWires ↔ s.isPublic m = true := by
  simp [publicWires, isPublic]

variable {s : Shape}

theorem WellFormed.entries_eq (h : s.WellFormed) : ∃ rest, s.entries = (0, "ONE") :: rest := by
  cases hentries : s.entries with
  | nil =>
    have hhead := h.head_entries
    simp [hentries] at hhead
  | cons entry rest =>
    have hhead := h.head_entries
    rw [hentries] at hhead
    obtain rfl := Option.some.inj hhead
    exact ⟨rest, rfl⟩

theorem WellFormed.wireCount_pos (h : s.WellFormed) : 0 < s.wireCount := by
  obtain ⟨rest, hrest⟩ := h.entries_eq
  exact h.entries_lt (0, "ONE") (by simp [hrest])

theorem WellFormed.nodup_publicWires (h : s.WellFormed) : s.publicWires.Nodup :=
  h.entries_sorted.imp fun hlt => Nat.ne_of_lt hlt

/-- The public and the private wires together are all wires, each of them once. -/
theorem wires_perm (hnodup : s.publicWires.Nodup) (hlt : ∀ m ∈ s.publicWires, m < s.wireCount) :
    (s.publicWires ++ s.privateWires).Perm (List.range s.wireCount) := by
  have hpublic : s.publicWires.Perm ((List.range s.wireCount).filter fun m => s.isPublic m) := by
    apply (List.perm_ext_iff_of_nodup hnodup (List.nodup_range.filter _)).mpr
    intro m
    rw [List.mem_filter, List.mem_range, mem_publicWires]
    constructor
    · exact fun hm => ⟨hlt m (mem_publicWires.mpr hm), hm⟩
    · exact fun hm => hm.2
  exact (hpublic.append_right _).trans (List.filter_append_perm _ _)

theorem WellFormed.wires_perm (h : s.WellFormed) :
    (s.publicWires ++ s.privateWires).Perm (List.range s.wireCount) :=
  Shape.wires_perm h.nodup_publicWires (List.forall_mem_map.mpr h.entries_lt)

theorem WellFormed.sum_wires (h : s.WellFormed) (f : ℕ → Scalar) :
    (s.publicWires.map f).sum + (s.privateWires.map f).sum =
      ∑ m ∈ Finset.range s.wireCount, f m := by
  rw [← List.sum_append, ← List.map_append]
  exact (h.wires_perm.map f).sum_eq

end Shape

theorem R1CS.WellFormed.shape {s : R1CS} (h : s.WellFormed) : s.shape.WellFormed :=
  ⟨h.head_entries, h.entries_sorted, h.entries_lt⟩

structure Trapdoor.IsDrawn (t : Trapdoor) : Prop where
  alpha : IsDraw t.alpha
  beta : IsDraw t.beta
  gamma : IsDraw t.gamma
  delta : IsDraw t.delta
  tau : IsDraw t.tau

namespace Trapdoor

theorem isDrawn_ones : (⟨1, 1, 1, 1, 1⟩ : Trapdoor).IsDrawn := by
  have h : IsDraw 1 := by decide
  exact ⟨h, h, h, h, h⟩

def powerExponents (t : Trapdoor) (size : ℕ) : List Int :=
  powers t.tau size order

def quotientExponents (t : Trapdoor) (size : ℕ) (inverse : Int) : List Int :=
  (t.powerExponents size).map fun x => reduce (x * inverse * (Residue.power t.tau size order - 1))

theorem length_powerExponents (t : Trapdoor) (size : ℕ) : (t.powerExponents size).length = size :=
  length_powers _ _ _

theorem length_quotientExponents (t : Trapdoor) (size : ℕ) (e : Int) :
    (t.quotientExponents size e).length = size := by
  rw [quotientExponents, List.length_map, length_powerExponents]

end Trapdoor

namespace Domain
variable {m : ℕ} (d : Domain m) (s : Shape) (t : Trapdoor)

def columnExponents (inverse : Int) (wires : List ℕ) : List Int :=
  wires.map fun k => reduce (s.columnValue t (d.weights t.tau) k * inverse)

variable {G₁ G₂ : Type} [CodedGroup G₁] [CodedGroup G₂]

def key (gammaInverse deltaInverse : Int) : Key G₁ G₂ where
  counts := s.counts
  digest := s.digest
  alpha₁ := multiple t.alpha
  beta₁ := multiple t.beta
  delta₁ := multiple t.delta
  beta₂ := multiple t.beta
  gamma₂ := multiple t.gamma
  delta₂ := multiple t.delta
  publicColumns := (d.columnExponents s t gammaInverse s.publicWires).map multiple
  privateColumns := (d.columnExponents s t deltaInverse s.privateWires).map multiple
  powers₁ := (t.powerExponents (2 ^ m)).map multiple
  powers₂ := (t.powerExponents (2 ^ m)).map multiple
  quotients := (t.quotientExponents (2 ^ m) deltaInverse).map multiple

variable {s t}

variable (G₁ G₂) in
/-- With drawn secrets and a column for each wire the derivation succeeds. -/
theorem derive_eq (hsize : domainSize s.gates.length = 2 ^ m) (hcolumns : s.columnsExist = true)
    (ht : t.IsDrawn) :
    ∃ g e : Int, (g : Scalar) = (t.gamma : Scalar)⁻¹ ∧ (e : Scalar) = (t.delta : Scalar)⁻¹ ∧
      Key.derive s t = .ok (d.key s t g e : Key G₁ G₂) := by
  obtain ⟨g, hg, hgcast⟩ := invert_order ht.gamma.cast_ne_zero
  obtain ⟨e, he, hecast⟩ := invert_order ht.delta.cast_ne_zero
  have husable : t.isUsable = true := by
    simp [Trapdoor.isUsable, ht.alpha.isScalar, ht.beta.isScalar, ht.gamma.isScalar,
      ht.delta.isScalar]
  refine ⟨g, e, hgcast, hecast, ?_⟩
  simp only [Key.derive, hsize, d.basisAt_eq, hcolumns, hg, he, husable, bind, Except.bind, pure,
    Except.pure, Bool.not_true, Bool.false_eq_true, if_false]
  simp only [key, columnExponents, Trapdoor.powerExponents, Trapdoor.quotientExponents,
    Shape.publicWires, List.map_map, Function.comp_def]

end Domain

structure Key.IsFor {G₁ G₂ : Type} (k : Key G₁ G₂) (s : Shape) : Prop where
  counts : k.counts = s.counts
  digest : k.digest = s.digest
  publicColumns : k.publicColumns.length = s.entries.length
  privateColumns : k.privateColumns.length = s.privateWires.length
  powers₁ : k.powers₁.length = domainSize s.gates.length
  powers₂ : k.powers₂.length = domainSize s.gates.length
  quotients : k.quotients.length = domainSize s.gates.length

/-- What a derivation that succeeds has gone through. Each public column is that of one wire. -/
theorem Key.exists_of_derive {G₁ G₂ : Type} [CodedGroup G₁] [CodedGroup G₂] {s : Shape}
    {t : Trapdoor} {k : Key G₁ G₂} (h : Key.derive s t = .ok k) :
    ∃ weights g, Key.basisAt (domainSize s.gates.length) t.tau = .ok weights ∧
      invert t.gamma order = .ok g ∧ s.columnsExist = true ∧ k.IsFor s ∧
      k.publicColumns = s.entries.map fun entry =>
        multiple (reduce (s.columnValue t weights entry.1 * g)) := by
  simp only [Key.derive, bind, Except.bind, throw, throwThe, MonadExceptOf.throw, pure,
    Except.pure] at h
  split at h
  · simp at h
  · rename_i weights hweights
    split at h
    · simp at h
    · rename_i hcolumns
      rw [Bool.not_eq_true, Bool.not_eq_false'] at hcolumns
      split at h
      · simp at h
      · rename_i g hg
        split at h
        · simp at h
        · split at h
          · simp at h
          · have hpowers : (powers t.tau (domainSize s.gates.length) order).length =
                domainSize s.gates.length := length_powers _ _ _
            obtain rfl := Except.ok.inj h
            exact ⟨weights, g, hweights, hg, hcolumns, ⟨rfl, rfl, List.length_map _,
              List.length_map _, (List.length_map _).trans hpowers,
              (List.length_map _).trans hpowers, (List.length_map _).trans hpowers⟩, rfl⟩

theorem Key.isFor_of_derive {G₁ G₂ : Type} [CodedGroup G₁] [CodedGroup G₂] {s : Shape}
    {t : Trapdoor} {k : Key G₁ G₂} (h : Key.derive s t = .ok k) :
    s.columnsExist = true ∧ k.IsFor s :=
  have ⟨_, _, _, _, hcolumns, hk, _⟩ := Key.exists_of_derive h
  ⟨hcolumns, hk⟩

theorem Key.of_derive {G₁ G₂ : Type} [CodedGroup G₁] [CodedGroup G₂] {s : Shape} {t : Trapdoor}
    {k : Key G₁ G₂} (h : Key.derive s t = .ok k) :
    s.columnsExist = true ∧ k.counts = s.counts ∧ k.digest = s.digest ∧
      k.publicColumns.length = s.entries.length :=
  have hk := (Key.isFor_of_derive h).2
  ⟨(Key.isFor_of_derive h).1, hk.counts, hk.digest, hk.publicColumns⟩

/-- Exponents listed along some indices, combined by values that are listed along them too. -/
theorem cast_inner_map {ι : Type} (f : ι → Int) (w : ι → Scalar) {xs : List ι} {zs : List Int}
    (h : zs.map (Int.cast : Int → Scalar) = xs.map w) :
    (inner (xs.map f) zs : Scalar) = (xs.map fun x => w x * f x).sum := by
  induction xs generalizing zs with
  | nil => simp [inner]
  | cons x rest ih =>
    cases zs with
    | nil => simp at h
    | cons z zs =>
      rw [List.map_cons, List.map_cons, List.cons.injEq] at h
      simp only [List.map_cons, inner, List.sum_cons, Int.cast_add, Int.cast_mul, ih h.2, h.1]

namespace Domain
variable {m : ℕ} (d : Domain m) {s : Shape} {t : Trapdoor}

/-- A list of columns of wires, combined by values of these wires. -/
theorem cast_inner_columnExponents (e : Int) {wires : List ℕ} {zs : List Int} {w : ℕ → Scalar}
    (h : zs.map (Int.cast : Int → Scalar) = wires.map w) :
    (inner (d.columnExponents s t e wires) zs : Scalar) =
      e * (wires.map fun k => w k * (s.columnValue t (d.weights t.tau) k : Scalar)).sum := by
  rw [columnExponents, cast_inner_map _ w h, ← List.sum_map_mul_left]
  congr 1
  apply List.map_congr_left
  intro k _
  rw [cast_reduce, Int.cast_mul]
  ring

end Domain

section Verification
variable {G₁ G₂ Gₜ : Type} [CodedGroup G₁] [CodedGroup G₂] [PrimeOrder G₁] [PrimeOrder G₂]
  [Mul Gₜ] [DecidableEq Gₜ] [Pairing G₁ G₂ Gₜ] [Bilinear G₁ G₂ Gₜ]

/-- The pairing equation of a key on a domain, with one exponent on each side. -/
theorem Domain.accepts_iff {m : ℕ} (d : Domain m) (s : Shape) (t : Trapdoor) (g e x y z : Int)
    (inputs : List Int) :
    (d.key s t g e : Key G₁ G₂).verifyingKey.accepts ⟨multiple x, multiple y, multiple z⟩ inputs =
        true ↔
      pair (multiple (x * y) : G₁) (multiple 1 : G₂) =
        pair (multiple (t.alpha * t.beta +
          inner (d.columnExponents s t g s.publicWires) (1 :: inputs) * t.gamma +
            z * t.delta) : G₁) (multiple 1 : G₂) :=
  VerifyingKey.accepts_ofExponents_iff s.counts.entries t.alpha t.beta t.gamma t.delta _ x y z inputs

end Verification

end RankOne
