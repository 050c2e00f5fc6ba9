import RankOne.Proofs.Attestation
import RankOne.Proofs.CyclicRelation

/-!
# What an attestation commits to

The public wires of a checked circuit hold residues, while the verifier sees the numbers that were
given. Both agree where these are field elements. Of any other number the verdict is that it is no
input, so the claim that goes with it is zero, even where the residues that are committed to pass.
A claim of one is always right.
-/

set_option autoImplicit false

namespace RankOne

namespace VerifyingKey
variable {G₁ G₂ Gₜ : Type} [CodedGroup G₁] [CodedGroup G₂] [Mul Gₜ] [DecidableEq Gₜ]
  [Pairing G₁ G₂ Gₜ] {vk : VerifyingKey G₁ G₂} {p : Proof G₁ G₂} {inputs : List Int}

def Passes (vk : VerifyingKey G₁ G₂) (p : Proof G₁ G₂) (inputs : List Int) : Prop :=
  ∃ verdict, vk.verify p inputs none = .ok verdict ∧ verdict.passed = true

theorem passes_iff : vk.Passes p inputs ↔ vk.Fits inputs ∧ vk.accepts p inputs = true := by
  constructor
  · rintro ⟨verdict, hverify, hpassed⟩
    obtain ⟨⟨hfits, -⟩, rfl⟩ := verify_eq_ok_iff.mp hverify
    exact ⟨hfits, hpassed⟩
  · rintro ⟨hfits, haccepts⟩
    exact ⟨_, hfits.verify_eq p, haccepts⟩

/-- Numbers pass if they are field elements and their residues pass. -/
theorem passes_iff_reduce : vk.Passes p inputs ↔
    (∀ x ∈ inputs, 0 ≤ x ∧ x < order) ∧ vk.Passes p (inputs.map reduce) := by
  have hreduce (h : ∀ x ∈ inputs, 0 ≤ x ∧ x < order) : inputs.map reduce = inputs :=
    (List.map_congr_left fun x hx => reduce_eq_self (h x hx).1 (h x hx).2).trans
      (List.map_id inputs)
  constructor
  · intro h
    have hrange := (passes_iff.mp h).1.range
    exact ⟨hrange, by rwa [hreduce hrange]⟩
  · rintro ⟨hrange, h⟩
    rwa [hreduce hrange] at h

end VerifyingKey

namespace Attestation
variable {G₁ G₂ Gₜ : Type} [CodedGroup G₁] [CodedGroup G₂] [LawfulCoding G₁] [LawfulCoding G₂]
  [Mul Gₜ] [DecidableEq Gₜ] [Pairing G₁ G₂ Gₜ] {vk : VerifyingKey G₁ G₂} {p : Proof G₁ G₂}
  {inputs : List Int} {claim b : Int}

section Witness
variable (h : (inputs.length : Int) = vk.inputCount)
  (hcheck : VerifyingKey.check (some vk) (.proof p) (.list (inputs.map .number)) = .ok b)
include h hcheck

theorem wellFormed_systemOf_reduce (claim : Int) :
    (systemOf vk p (inputs.map reduce) (reduce claim) b).WellFormed := by
  have hgrows := (keeps_body R1CS.isOpenFrame_grows).of_run (run_witness_reduce h claim hcheck)
  exact hgrows.wellFormed (R1CS.wellFormed_fresh 0 true)

/-- The trial run stands or falls with the residue of the claim. -/
theorem mockProve_witness (claim : Int) :
    (circuit vk .checked).mockProve (some (witness p inputs claim)) =
      if reduce claim = b then .ok (systemOf vk p (inputs.map reduce) (reduce claim) b).freeze
      else .error (.unsatisfied "inner proof verifies") := by
  have hsynthesize : (circuit vk .checked).synthesize (some (witness p inputs claim)) =
      .ok (systemOf vk p (inputs.map reduce) (reduce claim) b).freeze :=
    Circuit.synthesize_eq_ok_iff.mpr ⟨_, run_witness_reduce h claim hcheck, rfl⟩
  have hlen : ((inputs.map reduce).length : Int) = vk.inputCount := by rwa [List.length_map]
  rw [Circuit.mockProve, hsynthesize]
  dsimp only
  rw [check_freeze_systemOf hlen (wellFormed_systemOf_reduce h hcheck claim)
    ⟨reduce_nonneg claim, reduce_lt claim⟩ (Cyclic.check_eq_zero_or_one hcheck)]
  by_cases hclaim : reduce claim = b
  · rw [if_pos hclaim, if_pos hclaim]
  · rw [if_neg hclaim, if_neg hclaim]

/-- Whoever takes apart what is committed to finds the residues. -/
theorem split_inputs_systemOf (claim : Int) : ∃ outer,
    (systemOf vk p (inputs.map reduce) (reduce claim) b).freeze.inputs = .ok outer ∧
    split outer vk.inputCount = .ok (p, inputs.map reduce, reduce claim) := by
  have hlen : ((inputs.map reduce).length : Int) = vk.inputCount := by rwa [List.length_map]
  refine ⟨_, inputs_freeze_systemOf hlen (wellFormed_systemOf_reduce h hcheck claim), ?_⟩
  rw [← hlen]
  exact split_commitments p (inputs.map reduce) (reduce claim)

end Witness

/-- With whatever numbers and whatever claim a checked circuit is tried, the trial succeeds exactly
for a claim that is the verdict on the numbers as they were given. What is then committed to is the
proof, the residues of the numbers and a claim of zero or one, and the claim is one if and only if
the numbers are field elements and the proof passes with them. -/
theorem committed_claim_iff (h : (inputs.length : Int) = vk.inputCount) (p : Proof G₁ G₂)
    (claim : Int) :
    ∃ w, assign (.proof p) (.list (inputs.map .number)) (.number claim) = .ok w ∧
      ((∃ s, (circuit vk .checked).mockProve (some w) = .ok s) ↔
        (reduce claim = 1 ∧ vk.Passes p inputs) ∨ (reduce claim = 0 ∧ ¬ vk.Passes p inputs)) ∧
      ∀ s, (circuit vk .checked).mockProve (some w) = .ok s → ∃ outer xs c,
        s.inputs = .ok outer ∧ split outer vk.inputCount = .ok (p, xs, c) ∧
        xs = inputs.map reduce ∧ (c = 0 ∨ c = 1) ∧
        (c = 1 ↔ (∀ x ∈ inputs, 0 ≤ x ∧ x < order) ∧ vk.Passes p xs) := by
  obtain ⟨b, hcheck, hbit, hone⟩ := VerifyingKey.check_map_number vk p inputs
  have hpasses : b = 1 ↔ vk.Passes p inputs := hone
  have hmock := mockProve_witness h hcheck claim
  refine ⟨witness p inputs claim, rfl, ?_, fun s hs => ?_⟩
  · have hsucceeds : (∃ s, (circuit vk .checked).mockProve (some (witness p inputs claim)) =
        .ok s) ↔ reduce claim = b := by
      rw [hmock]
      split <;> simp [*]
    rw [hsucceeds, ← hpasses]
    rcases hbit with rfl | rfl <;> simp
  · rw [hmock] at hs
    split at hs
    · rename_i hclaim
      obtain rfl := Except.ok.inj hs
      obtain ⟨outer, houter, hsplit⟩ := split_inputs_systemOf h hcheck claim
      refine ⟨outer, _, _, houter, hsplit, rfl, ?_, ?_⟩
      · rwa [hclaim]
      · rw [hclaim, hpasses, VerifyingKey.passes_iff_reduce]
    · cases hs

/-- Of a proof that passes whatever the input is, with an input that is given in its canonical form,
and once more with the order added. -/
theorem committed_claim_iff_lenientKey :
    let p : Proof Exponent Exponent := ⟨⟨1⟩, ⟨1⟩, ⟨0⟩⟩
    (∃ w s outer, assign (.proof p) (.list [.number 6]) (.number (order + 1)) = .ok w ∧
      (circuit lenientKey .checked).mockProve (some w) = .ok s ∧ s.inputs = .ok outer ∧
      split outer lenientKey.inputCount = .ok (p, [6], 1)) ∧
    ∃ w, assign (.proof p) (.list [.number (order + 6)]) (.number 1) = .ok w ∧
      ¬ ∃ s, (circuit lenientKey .checked).mockProve (some w) = .ok s := by
  intro p
  have hcount : (1 : Int) = lenientKey.inputCount := rfl
  have haccepts : lenientKey.accepts p [6] = true := by decide
  have hfits : lenientKey.Fits [6] := ⟨rfl, rfl, by decide⟩
  have hpasses : lenientKey.Passes p [6] := VerifyingKey.passes_iff.mpr ⟨hfits, haccepts⟩
  have hfails : ¬ lenientKey.Passes p [order + 6] := fun h => by
    have hlt := ((VerifyingKey.passes_iff.mp h).1.range (order + 6) (by simp)).2
    exact absurd hlt (by decide)
  constructor
  · obtain ⟨w, hw, hsucceeds, hcommitted⟩ :=
      committed_claim_iff (show (([6] : List Int).length : Int) = _ from hcount) p (order + 1)
    obtain ⟨s, hs⟩ := hsucceeds.mpr (.inl ⟨by decide, hpasses⟩)
    obtain ⟨outer, xs, c, houter, hsplit, rfl, -, hclaim⟩ := hcommitted s hs
    obtain rfl := hclaim.mpr ⟨by decide, hpasses⟩
    exact ⟨w, s, outer, hw, hs, houter, hsplit⟩
  · obtain ⟨w, hw, hsucceeds, -⟩ :=
      committed_claim_iff (show (([order + 6] : List Int).length : Int) = _ from hcount) p 1
    refine ⟨w, hw, fun h => ?_⟩
    rcases hsucceeds.mp h with ⟨-, hpassed⟩ | ⟨hzero, -⟩
    · exact hfails hpassed
    · exact absurd hzero (by decide)

/-- An input with the order added to it is attested with a claim of zero, though the proof passes
with the input that is committed to. -/
theorem exists_claim_zero_of_passes :
    let p : Proof Exponent Exponent := ⟨⟨1⟩, ⟨1⟩, ⟨0⟩⟩
    ∃ w s outer, assign (.proof p) (.list [.number (order + 6)]) (.number 0) = .ok w ∧
      (circuit lenientKey .checked).mockProve (some w) = .ok s ∧ s.inputs = .ok outer ∧
      split outer lenientKey.inputCount = .ok (p, [6], 0) ∧ lenientKey.Passes p [6] := by
  intro p
  have hcheck : VerifyingKey.check (some lenientKey) (.proof p)
      (.list ([order + 6].map .number)) = .ok 0 := by decide
  have hmock := mockProve_witness rfl hcheck 0
  rw [if_pos (by decide)] at hmock
  obtain ⟨outer, houter, hsplit⟩ := split_inputs_systemOf rfl hcheck 0
  have hfits : lenientKey.Fits [6] := ⟨rfl, rfl, by decide⟩
  exact ⟨witness p [order + 6] 0, _, outer, rfl, hmock, houter, hsplit,
    VerifyingKey.passes_iff.mpr ⟨hfits, by decide⟩⟩

end Attestation

end RankOne
