import RankOne.Proofs.FixedPoint
import RankOne.Recursion.Chain

/-!
# What an audit looks at

An audit goes through the links of a chain, one after the other. It passes if and only if each link
holds a proof that verifies, and continues from the link before it. Where every link holds a proof
with at least two field elements, it answers, one way or the other.
-/

set_option autoImplicit false

namespace RankOne

namespace VerifyingKey
variable {G₁ G₂ : Type} {vk : VerifyingKey G₁ G₂}

theorem eq_map_number_of_numbers? {P : Type} {items : List (Datum P)} {values : List Int}
    (h : numbers? items = some values) (hflags : items.any Datum.isFlag = false) :
    items = values.map .number := by
  induction items generalizing values with
  | nil =>
    obtain rfl := Option.some.inj h
    rfl
  | cons d rest ih =>
    rw [List.any_cons, Bool.or_eq_false_iff] at hflags
    rw [numbers?] at h
    split at h
    · rename_i v vs hv hvs
      obtain rfl := Option.some.inj h
      rw [List.map_cons, ← ih hvs hflags.2]
      cases d with
      | number w => rw [Option.some.inj hv]
      | flag b => cases hflags.1
      | _ => cases hv
    · cases h

/-- What is accepted as a proof with inputs is a proof with a list of numbers. -/
theorem of_claimOf {proof inputs : Datum (Proof G₁ G₂)} {names : Option (List Unicode.Codes)}
    {p : Proof G₁ G₂} {values : List (Unicode.Codes × Int)}
    (h : vk.claimOf proof inputs names = .ok (p, values)) :
    proof = .proof p ∧ inputs.items? = some ((values.map Prod.snd).map .number) := by
  cases proof with
  | proof q =>
    rw [claimOf] at h
    split at h
    · cases h
    · rename_i items hitems
      split at h
      · cases h
      · rename_i values' hlabel
        split at h
        · cases h
        · rename_i hflags
          rw [Bool.not_eq_true] at hflags
          obtain ⟨rfl, rfl⟩ := Prod.mk.inj (Except.ok.inj h)
          refine ⟨rfl, ?_⟩
          rw [labelData] at hlabel
          split at hlabel
          · rename_i numbers hnumbers
            rw [map_snd_of_label hlabel, hitems, eq_map_number_of_numbers? hnumbers hflags]
          · split at hlabel <;> cases hlabel
  | _ => cases h

end VerifyingKey

def StepCircuit.inputsAt {G₁ G₂ : Type} [CodedGroup G₁] [CodedGroup G₂] (s : StepCircuit G₁ G₂)
    (i : ℕ) (p : Proof G₁ G₂) : List Int :=
  s.advance^[i + 1] s.base :: (if i = 0 then 0 else 1) :: p.limbs

def Datum.proof? {P : Type} : Datum P → Option P
  | .proof p => some p
  | _ => none

def Chain.proofBefore {G₁ G₂ : Type} [CodedGroup G₁] [CodedGroup G₂]
    (links : List (Link (Proof G₁ G₂))) : ℕ → Option (Proof G₁ G₂)
  | 0 => some dummyProof
  | i + 1 => links[i]?.bind fun link => link.proof.proof?

abbrev Claim (G₁ G₂ : Type) := Proof G₁ G₂ × List Int

namespace Chain

section Claims
variable {G₁ G₂ : Type} {vk : VerifyingKey G₁ G₂} {link : Link (Proof G₁ G₂)}
  {claim : Claim G₁ G₂} {previous : Option (Claim G₁ G₂)}

def Holds (vk : VerifyingKey G₁ G₂) (link : Link (Proof G₁ G₂)) (claim : Claim G₁ G₂) : Prop :=
  ∃ values, vk.claimOf link.proof link.inputs none = .ok (claim.1, values) ∧
    values.map Prod.snd = claim.2

theorem Holds.eq_proof (h : Holds vk link claim) : link.proof = .proof claim.1 := by
  obtain ⟨values, hclaim, -⟩ := h
  exact (VerifyingKey.of_claimOf hclaim).1

theorem Holds.items_eq (h : Holds vk link claim) :
    link.inputs.items? = some (claim.2.map .number) := by
  obtain ⟨values, hclaim, hvalues⟩ := h
  rw [(VerifyingKey.of_claimOf hclaim).2, hvalues]

def before (previous : Option (Claim G₁ G₂)) (claims : List (Claim G₁ G₂)) :
    ℕ → Option (Claim G₁ G₂)
  | 0 => previous
  | i + 1 => claims[i]?

variable (previous) in
theorem before_cons (claim : Claim G₁ G₂) (rest : List (Claim G₁ G₂)) (i : ℕ) :
    before previous (claim :: rest) (i + 1) = before (some claim) rest i := by
  cases i <;> rfl

theorem before_append {claims : List (Claim G₁ G₂)} {i : ℕ} (hi : i ≤ claims.length)
    (previous : Option (Claim G₁ G₂)) (claim : Claim G₁ G₂) :
    before previous (claims ++ [claim]) i = before previous claims i := by
  cases i with
  | zero => rfl
  | succ i => exact List.getElem?_append_left hi

theorem exists_getElem?_of_succ {claims : List (Claim G₁ G₂)} {i : ℕ}
    (hi : claims[i + 1]? = some claim) : ∃ claim', claims[i]? = some claim' :=
  ⟨_, List.getElem?_eq_getElem (Nat.lt_of_succ_lt (List.getElem?_eq_some_iff.mp hi).1)⟩

/-- What stands at a position of one list stands in the relation to what is there in the other. -/
theorem exists_of_forall₂ {α β : Type} {R : α → β → Prop} {xs : List α} {ys : List β}
    (h : List.Forall₂ R xs ys) {i : ℕ} {x : α} (hi : xs[i]? = some x) :
    ∃ y, ys[i]? = some y ∧ R x y := by
  induction h generalizing i with
  | nil => cases hi
  | cons hxy _ ih =>
    cases i with
    | zero =>
      obtain rfl := Option.some.inj hi
      exact ⟨_, rfl, hxy⟩
    | succ i => exact ih hi

variable [CodedGroup G₁] [CodedGroup G₂]

def proofAt (claims : List (Claim G₁ G₂)) (i : ℕ) : Proof G₁ G₂ :=
  ((before none claims i).map Prod.fst).getD dummyProof

theorem proofAt_succ {claims : List (Claim G₁ G₂)} {i : ℕ} (hi : claims[i]? = some claim) :
    proofAt claims (i + 1) = claim.1 := by
  rw [proofAt, before, hi]
  rfl

theorem proofBefore_eq {links : List (Link (Proof G₁ G₂))} {claims : List (Claim G₁ G₂)}
    (h : List.Forall₂ (fun link claim => link.proof = .proof claim.1) links claims) {i : ℕ}
    (hi : claims[i]? = some claim) : proofBefore links i = some (proofAt claims i) := by
  cases i with
  | zero => rfl
  | succ i =>
    obtain ⟨claim', hclaim'⟩ := exists_getElem?_of_succ hi
    obtain ⟨link, hlink, hproof⟩ := exists_of_forall₂ h.flip hclaim'
    rw [proofBefore, hlink, proofAt_succ hclaim']
    simp only [Option.bind_some, hproof]
    rfl

/-- After the first position, the inputs are those that the step before should go on with. -/
theorem inputsAt_succ (step : StepCircuit G₁ G₂) (i : ℕ) (q : Proof G₁ G₂) :
    step.inputsAt (i + 1) q =
      step.advance (step.advance^[i + 1] step.base) :: 1 :: q.limbs := by
  rw [StepCircuit.inputsAt, Function.iterate_succ_apply', if_neg (Nat.succ_ne_zero i)]

end Claims

variable {G₁ G₂ Gₜ σ : Type} [CodedGroup G₁] [CodedGroup G₂] [Mul Gₜ] [DecidableEq Gₜ]
  [Pairing G₁ G₂ Gₜ] {c : Chain G₁ G₂ σ} {previous : Option (Claim G₁ G₂)}
  {links : List (Link (Proof G₁ G₂))}

section Continues
variable {s : StepCircuit G₁ G₂} {p : Proof G₁ G₂} {inputs inputs' : List Int}

omit [Mul Gₜ] [DecidableEq Gₜ] [Pairing G₁ G₂ Gₜ] in
theorem continues_none_iff :
    continues s none inputs = .ok true ↔
      ∃ z, inputs = z :: 0 :: (dummyProof : Proof G₁ G₂).limbs := by
  rcases inputs with _ | ⟨z, _ | ⟨flag, limbs⟩⟩
  · simp [continues]
  · simp [continues]
  · simp [continues]

omit [Mul Gₜ] [DecidableEq Gₜ] [Pairing G₁ G₂ Gₜ] in
theorem continues_some_iff :
    continues s (some (p, inputs')) inputs = .ok true ↔
      ∃ z rest, inputs' = z :: rest ∧ inputs = s.advance z :: 1 :: p.limbs := by
  rcases inputs with _ | ⟨z, _ | ⟨flag, limbs⟩⟩
  · simp [continues]
  · simp [continues]
  · by_cases hstop : flag ≠ 1 ∨ limbs ≠ p.limbs
    · rcases hstop with hflag | hlimbs
      · simp [continues, hflag]
      · simp [continues, hlimbs]
    · obtain ⟨rfl, rfl⟩ : flag = 1 ∧ limbs = p.limbs := by simpa using hstop
      cases inputs' <;> simp [continues]

end Continues

structure Consistent (c : Chain G₁ G₂ σ) (previous : Option (Claim G₁ G₂))
    (claims : List (Claim G₁ G₂)) : Prop where
  accepts : ∀ claim ∈ claims, c.vk.accepts claim.1 claim.2 = true
  continues : ∀ i claim, claims[i]? = some claim →
    Chain.continues c.step (before previous claims i) claim.2 = .ok true

theorem consistent_cons_iff {claim : Claim G₁ G₂} {rest : List (Claim G₁ G₂)} :
    c.Consistent previous (claim :: rest) ↔
      (c.vk.accepts claim.1 claim.2 = true ∧
        Chain.continues c.step previous claim.2 = .ok true) ∧
      c.Consistent (some claim) rest := by
  constructor
  · intro h
    refine ⟨⟨h.accepts claim (List.mem_cons_self ..), h.continues 0 claim rfl⟩, ?_, ?_⟩
    · exact fun x hx => h.accepts x (List.mem_cons_of_mem _ hx)
    · intro i x hx
      rw [← before_cons previous]
      exact h.continues (i + 1) x hx
  · rintro ⟨⟨haccepts, hcontinues⟩, h⟩
    refine ⟨List.forall_mem_cons.mpr ⟨haccepts, h.accepts⟩, ?_⟩
    intro i x hx
    cases i with
    | zero =>
      obtain rfl := Option.some.inj hx
      exact hcontinues
    | succ i =>
      rw [before_cons]
      exact h.continues i x hx

theorem auditFrom_eq_true_iff :
    c.auditFrom previous links = .ok true ↔
      ∃ claims, List.Forall₂ (Holds c.vk) links claims ∧ c.Consistent previous claims := by
  induction links generalizing previous with
  | nil =>
    refine iff_of_true rfl ⟨[], .nil, ?_, ?_⟩
    · exact fun _ h => absurd h (List.not_mem_nil)
    · exact fun _ _ h => by cases h
  | cons link rest ih =>
    rw [auditFrom]
    constructor
    · intro h
      split at h
      · cases h
      · rename_i p values hclaim
        dsimp only at h
        split at h
        · cases h
        · rename_i haccepts
          rw [Bool.not_eq_true, Bool.not_eq_false'] at haccepts
          split at h
          · cases h
          · cases h
          · rename_i hcontinues
            obtain ⟨claims, hholds, hconsistent⟩ := ih.mp h
            exact ⟨(p, values.map Prod.snd) :: claims, .cons ⟨values, hclaim, rfl⟩ hholds,
              consistent_cons_iff.mpr ⟨⟨haccepts, hcontinues⟩, hconsistent⟩⟩
    · rintro ⟨_, _ | ⟨hlink, hrest⟩, hconsistent⟩
      obtain ⟨⟨haccepts, hcontinues⟩, hconsistent⟩ := consistent_cons_iff.mp hconsistent
      obtain ⟨values, hclaim, hvalues⟩ := hlink
      simp only [hclaim, hvalues, haccepts, hcontinues]
      exact ih.mpr ⟨_, hrest, hconsistent⟩

/-- Where every link holds a proof with a value and a flag, an audit has an answer. -/
theorem exists_auditFrom_eq
    (hlinks : ∀ link ∈ links, ∃ p z flag limbs, Holds c.vk link (p, z :: flag :: limbs))
    (hprevious : ∀ claim ∈ previous, claim.2 ≠ []) :
    ∃ b, c.auditFrom previous links = .ok b := by
  induction links generalizing previous with
  | nil => exact ⟨true, rfl⟩
  | cons link rest ih =>
    rw [List.forall_mem_cons] at hlinks
    obtain ⟨⟨p, z, flag, limbs, values, hclaim, hvalues⟩, hrest⟩ := hlinks
    have hnext : ∃ b, c.auditFrom (some (p, z :: flag :: limbs)) rest = .ok b := ih hrest (by simp)
    obtain ⟨b, hb⟩ := hnext
    have hcontinues : ∃ b, continues c.step previous (z :: flag :: limbs) = .ok b := by
      cases previous with
      | none => exact ⟨_, rfl⟩
      | some claim =>
        obtain ⟨q, inputs⟩ := claim
        cases inputs with
        | nil => exact absurd rfl (hprevious _ rfl)
        | cons z' _ =>
          by_cases hstop : flag ≠ 1 ∨ limbs ≠ q.limbs
          · exact ⟨false, if_pos hstop⟩
          · exact ⟨_, if_neg hstop⟩
    obtain ⟨b', hb'⟩ := hcontinues
    rw [auditFrom, hclaim]
    simp only [hvalues, hb']
    split
    · exact ⟨false, rfl⟩
    · cases b'
      · exact ⟨false, rfl⟩
      · exact ⟨b, hb⟩

end Chain

end RankOne
