import RankOne.Proofs.Exponent
import RankOne.Recursion.Attestation

/-!
# What a verification decides

Inputs that do not fit a key are refused as malformed, whatever the key and the proof are, and there
is no other refusal. Of inputs that fit, a verification says whether the exponents of key, proof
and inputs solve one equation in the scalar field. As a bit it never fails.
-/

set_option autoImplicit false

namespace RankOne
open CodedGroup (multiple)
open Pairing (pair)
open Unicode (Codes)

namespace VerifyingKey

section Labels
variable {G₁ G₂ : Type} {vk : VerifyingKey G₁ G₂} {inputs : List Int} {names : Option (List Codes)}

theorem numbers?_map_number {P : Type} (inputs : List Int) :
    numbers? (inputs.map (Datum.number : Int → Datum P)) = some inputs := by
  induction inputs with
  | nil => rfl
  | cons v rest ih => simp only [List.map_cons, numbers?, Datum.number?, ih]

structure Fits (vk : VerifyingKey G₁ G₂) (inputs : List Int) : Prop where
  count : (inputs.length : Int) = vk.inputCount
  columns : vk.publicColumns.length = vk.entryCount
  range : ∀ x ∈ inputs, 0 ≤ x ∧ x < order

theorem all_isFieldElement_iff :
    inputs.all isFieldElement = true ↔ ∀ x ∈ inputs, 0 ≤ x ∧ x < order := by
  simp [List.all_eq_true, isFieldElement]

theorem length_getD_names {count : ℕ} (h : ∀ xs ∈ names, xs.length = count) :
    (names.getD (defaultNames count)).length = count := by
  cases names with
  | none => simp [defaultNames]
  | some xs => exact h xs rfl

theorem Fits.label_eq (h : vk.Fits inputs) (names : Option (List Codes))
    (hnames : ∀ xs ∈ names, xs.length = inputs.length) :
    vk.label inputs names = .ok ((names.getD (defaultNames inputs.length)).zip inputs) := by
  simp [label, h.count, h.columns, all_isFieldElement_iff.mpr h.range, length_getD_names hnames]

/-- Only inputs that fit come under names, and only names that are as many. -/
theorem fits_of_label {values : List (Codes × Int)} (h : vk.label inputs names = .ok values) :
    vk.Fits inputs ∧ ∀ xs ∈ names, xs.length = inputs.length := by
  rw [label] at h
  split at h
  · cases h
  · rename_i hcounts
    split at h
    · cases h
    · rename_i hrange
      dsimp only at h
      split at h
      · cases h
      · rename_i hlength
        rw [not_or, not_not, not_not] at hcounts
        rw [Bool.not_eq_true', Bool.not_eq_false] at hrange
        refine ⟨⟨hcounts.1, hcounts.2, all_isFieldElement_iff.mp hrange⟩, ?_⟩
        rintro xs hxs
        rw [Option.mem_def.mp hxs, Option.getD_some] at hlength
        exact not_not.mp hlength

theorem label_eq_ok_iff {values : List (Codes × Int)} : vk.label inputs names = .ok values ↔
    (vk.Fits inputs ∧ ∀ xs ∈ names, xs.length = inputs.length) ∧
      values = (names.getD (defaultNames inputs.length)).zip inputs := by
  constructor
  · intro h
    obtain ⟨hfits, hnames⟩ := fits_of_label h
    exact ⟨⟨hfits, hnames⟩, Except.ok.inj (h.symm.trans (hfits.label_eq names hnames))⟩
  · rintro ⟨⟨hfits, hnames⟩, rfl⟩
    exact hfits.label_eq names hnames

theorem map_snd_of_label {values : List (Codes × Int)} (h : vk.label inputs names = .ok values) :
    values.map Prod.snd = inputs := by
  obtain ⟨⟨-, hnames⟩, rfl⟩ := label_eq_ok_iff.mp h
  exact List.map_snd_zip (length_getD_names hnames).ge

theorem malformed_of_label {e : Fault} (h : vk.label inputs names = .error e) :
    ∃ cause, e = .malformed cause := by
  rw [label] at h
  split at h
  · exact ⟨_, (Except.error.inj h).symm⟩
  · split at h
    · exact ⟨_, (Except.error.inj h).symm⟩
    · dsimp only at h
      split at h
      · exact ⟨_, (Except.error.inj h).symm⟩
      · cases h

/-- Numbers that fit a key come under any names that are as many. -/
theorem Fits.claimOf_eq (h : vk.Fits inputs) (proof : Proof G₁ G₂) (names : Option (List Codes))
    (hnames : ∀ xs ∈ names, xs.length = inputs.length) :
    vk.claimOf (.proof proof) (.list (inputs.map .number)) names =
      .ok (proof, (names.getD (defaultNames inputs.length)).zip inputs) := by
  have hflags :
      (inputs.map (Datum.number : Int → Datum (Proof G₁ G₂))).any Datum.isFlag = false := by
    simp [Datum.isFlag]
  simp only [claimOf, Datum.items?, labelData, numbers?_map_number, h.label_eq names hnames, hflags]
  rfl

end Labels

section Verification
variable {G₁ G₂ Gₜ : Type} [CodedGroup G₁] [CodedGroup G₂] [Mul Gₜ] [DecidableEq Gₜ]
  [Pairing G₁ G₂ Gₜ] {vk : VerifyingKey G₁ G₂} {inputs : List Int} {names : Option (List Codes)}

theorem Fits.verify_eq (h : vk.Fits inputs) (proof : Proof G₁ G₂) :
    vk.verify proof inputs none =
      .ok ⟨vk.accepts proof inputs, (defaultNames inputs.length).zip inputs⟩ := by
  rw [verify, h.label_eq none (by simp)]
  rfl

theorem Fits.verifyData_eq (h : vk.Fits inputs) (proof : Proof G₁ G₂)
    (names : Option (List Codes)) (hnames : ∀ xs ∈ names, xs.length = inputs.length) :
    vk.verifyData (.proof proof) (.list (inputs.map .number)) names =
      .ok ⟨vk.accepts proof inputs, (names.getD (defaultNames inputs.length)).zip inputs⟩ := by
  rw [verifyData, h.claimOf_eq proof names hnames]
  simp only [List.map_snd_zip (length_getD_names hnames).ge]

theorem Fits.check_eq (h : vk.Fits inputs) (proof : Proof G₁ G₂) :
    check (some vk) (.proof proof) (.list (inputs.map .number)) =
      .ok (if vk.accepts proof inputs then 1 else 0) := by
  simp only [check, h.verifyData_eq proof none (by simp)]

theorem verify_eq_ok_iff {proof : Proof G₁ G₂} {verdict : Verdict} :
    vk.verify proof inputs names = .ok verdict ↔
      (vk.Fits inputs ∧ ∀ xs ∈ names, xs.length = inputs.length) ∧
        verdict = ⟨vk.accepts proof inputs, (names.getD (defaultNames inputs.length)).zip inputs⟩ := by
  rw [verify]
  split
  · rename_i e he
    refine iff_of_false (by simp) fun h => ?_
    rw [h.1.1.label_eq names h.1.2] at he
    cases he
  · rename_i values hvalues
    obtain ⟨hfits, rfl⟩ := label_eq_ok_iff.mp hvalues
    rw [Except.ok.injEq, and_iff_right hfits]
    exact eq_comm

theorem malformed_of_verify {proof : Proof G₁ G₂} {e : Fault}
    (h : vk.verify proof inputs names = .error e) : ∃ cause, e = .malformed cause := by
  rw [verify] at h
  split at h
  · rename_i e' he
    obtain rfl := Except.error.inj h
    exact malformed_of_label he
  · cases h

theorem verifyData_map_number (proof : Proof G₁ G₂) (names : Option (List Codes)) :
    vk.verifyData (.proof proof) (.list (inputs.map .number)) names =
      vk.verify proof inputs names := by
  cases hverify : vk.verify proof inputs names with
  | ok verdict =>
    obtain ⟨⟨hfits, hnames⟩, rfl⟩ := verify_eq_ok_iff.mp hverify
    exact hfits.verifyData_eq proof names hnames
  | error e =>
    rw [verify] at hverify
    split at hverify
    · rename_i e' he
      obtain rfl := Except.error.inj hverify
      simp only [verifyData, claimOf, Datum.items?, labelData, numbers?_map_number, he]
    · cases hverify

/-- As a bit a verification never fails, because all that is refused is malformed. -/
theorem check_map_number (vk : VerifyingKey G₁ G₂) (proof : Proof G₁ G₂) (inputs : List Int) :
    ∃ bit, check (some vk) (.proof proof) (.list (inputs.map .number)) = .ok bit ∧
      (bit = 0 ∨ bit = 1) ∧
      (bit = 1 ↔ ∃ verdict, vk.verify proof inputs none = .ok verdict ∧ verdict.passed = true) := by
  simp only [check, verifyData_map_number]
  cases hverify : vk.verify proof inputs none with
  | ok verdict =>
    refine ⟨_, rfl, ?_, ?_⟩
    · cases verdict.passed <;> simp
    · cases hpassed : verdict.passed <;> simp [hpassed]
  | error e =>
    obtain ⟨cause, rfl⟩ := malformed_of_verify hverify
    exact ⟨0, rfl, .inl rfl, by simp⟩

end Verification

section Equation
variable {G₁ G₂ Gₜ : Type} [CodedGroup G₁] [PrimeOrder G₁]

/-- The inputs come with a one in front, for the column of the constant. -/
theorem inputSum_eq {vk : VerifyingKey G₁ G₂} {us : List Int}
    (h : vk.publicColumns = us.map multiple) (inputs : List Int) :
    vk.inputSum inputs = multiple (inner us (1 :: inputs)) := by
  rw [inputSum, h]
  cases us with
  | nil => exact PrimeOrder.zero_eq
  | cons u us =>
    rw [inner, one_mul]
    exact dot_multiple u us inputs

variable [CodedGroup G₂] [PrimeOrder G₂] [Mul Gₜ] [DecidableEq Gₜ] [Pairing G₁ G₂ Gₜ]
  [Bilinear G₁ G₂ Gₜ]

def ofExponents (count : ℕ) (alpha beta gamma delta : Int) (columns : List Int) :
    VerifyingKey G₁ G₂ where
  entryCount := count
  alpha₁ := multiple alpha
  beta₂ := multiple beta
  gamma₂ := multiple gamma
  delta₂ := multiple delta
  publicColumns := columns.map multiple

theorem accepts_ofExponents_iff (count : ℕ) (alpha beta gamma delta : Int) (columns : List Int)
    (x y z : Int) (inputs : List Int) :
    (ofExponents count alpha beta gamma delta columns : VerifyingKey G₁ G₂).accepts
        ⟨multiple x, multiple y, multiple z⟩ inputs = true ↔
      pair (multiple (x * y) : G₁) (multiple 1 : G₂) =
        pair (multiple (alpha * beta + inner columns (1 :: inputs) * gamma + z * delta) : G₁)
          (multiple 1 : G₂) := by
  have hsum : (ofExponents count alpha beta gamma delta columns :
      VerifyingKey G₁ G₂).inputSum inputs = multiple (inner columns (1 :: inputs)) :=
    inputSum_eq rfl inputs
  rw [accepts, decide_eq_true_iff, hsum]
  change pair (multiple x) (multiple y) = pair (multiple alpha) (multiple beta) *
    pair (multiple _) (multiple gamma) * pair (multiple z) (multiple delta) ↔ _
  rw [pair_mul_pair, pair_multiple z, ← Bilinear.pair_add_left, pair_multiple x]

end Equation

end VerifyingKey

end RankOne
