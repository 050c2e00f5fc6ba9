import RankOne.Proofs.Attestation
import RankOne.Proofs.BinaryForm

/-!
# The factorization circuit

The one system that the circuit builds, its keys, and its proofs. A witness for two factors and a
number is accepted exactly if the number is the product of the factors in the field, and then a
proof is made that passes with the number as the only input.
-/

set_option autoImplicit false

namespace RankOne.Factorization

def wireOf (m : ℕ) : Linear :=
  .combination ⟨[((m : Int), 1)], some 0⟩

def closed (witnessed : Bool) (values : List (Option Int)) : R1CS where
  tag := 0
  witnessed := witnessed
  wireCount := 4
  values := values
  entries := [(0, "ONE"), (1, "N")]
  gates := [⟨wireOf 2, wireOf 3, wireOf 1, "p * q = N", false⟩,
    ⟨wireOf 0, .constant 0, .constant 0, "public input binding", false⟩,
    ⟨wireOf 1, .constant 0, .constant 0, "public input binding", false⟩]
  frozen := true
  relationCount := 1

def shape : Shape :=
  (closed false []).shape

section Systems
variable {P : Type}

def witness (p q n : Int) : Witness P :=
  [("N", .number n), ("p", .number p), ("q", .number q)]

def filled (p q n : Int) : R1CS :=
  closed true [some 1, some (reduce n), some (reduce p), some (reduce q)]

theorem synthesize_none :
    (factorization (P := P)).synthesize none = .ok (closed false [none, none, none, none]) := rfl

theorem synthesize_witness (p q n : Int) :
    (factorization (P := P)).synthesize (some (witness p q n)) = .ok (filled p q n) := rfl

variable (p q n : Int)

theorem wellFormed_filled : (filled p q n).WellFormed where
  length_values := rfl
  head_values := rfl
  isSome_values := by simp [filled, closed]
  values_range := by
    have hone : (0 : Int) ≤ 1 ∧ 1 < order := by decide
    simp only [filled, closed, List.mem_cons, Option.some.injEq, List.not_mem_nil, or_false]
    rintro w (rfl | rfl | rfl | rfl)
    exacts [hone, ⟨reduce_nonneg _, reduce_lt _⟩, ⟨reduce_nonneg _, reduce_lt _⟩,
      ⟨reduce_nonneg _, reduce_lt _⟩]
  head_entries := rfl
  entries_sorted := by simp [filled, closed]
  entries_lt := by simp [filled, closed]

theorem read_filled :
    (filled p q n).read (wireOf 1) = .ok (reduce n) ∧
      (filled p q n).read (wireOf 2) = .ok (reduce p) ∧
      (filled p q n).read (wireOf 3) = .ok (reduce q) := by
  have hreduce : ∀ u : Int, reduce (reduce u * 1 + 0) = reduce u := fun u => by
    rw [mul_one, add_zero, reduce_eq_self (reduce_nonneg u) (reduce_lt u)]
  exact ⟨congrArg Except.ok (hreduce n), congrArg Except.ok (hreduce p),
    congrArg Except.ok (hreduce q)⟩

theorem inputs_filled : (filled p q n).inputs = .ok [reduce n] := by
  have h : (filled p q n).inputs = [wireOf 1].mapM (filled p q n).read := rfl
  rw [h, List.mapM_cons, (read_filled p q n).1]
  rfl

/-- The gate of the product is the only one that a witness can fail. -/
theorem check_filled :
    (filled p q n).check =
      .ok (if reduce (p * q) = reduce n then none else some "p * q = N") := by
  obtain ⟨hn, hp, hq⟩ := read_filled p q n
  have hproduct : reduce (reduce p * reduce q) = reduce (p * q) := (Int.mul_emod p q order).symm
  have hbinding : (filled p q n).checkGates
      [⟨wireOf 0, .constant 0, .constant 0, "public input binding", false⟩,
        ⟨wireOf 1, .constant 0, .constant 0, "public input binding", false⟩] = .ok none := by
    have hone : (filled p q n).read (wireOf 0) = .ok 1 := rfl
    have hzero : (filled p q n).read (.constant 0) = .ok 0 := rfl
    have hreduce : reduce 0 = 0 := rfl
    simp only [R1CS.checkGates, hone, hzero, hn, mul_zero, hreduce, bind, Except.bind, if_true]
  change (filled p q n).checkGates (⟨wireOf 2, wireOf 3, wireOf 1, "p * q = N", false⟩ :: _) = _
  rw [R1CS.checkGates, hp, hq, hn]
  simp only [bind, Except.bind, hproduct]
  split
  · exact hbinding
  · rfl

end Systems

variable {G₁ G₂ Gₜ σ : Type} [CodedGroup G₁] [CodedGroup G₂] [RandomSource σ]

def IsKey (key : Key G₁ G₂) : Prop :=
  ∃ secrets : Trapdoor, secrets.IsDrawn ∧ Key.derive shape secrets = .ok key

variable (G₁ G₂) in
theorem exists_setup {P : Type} {source : σ}
    (hsecrets : ∀ x ∈ RandomSource.draws 5 source, IsDraw x) :
    ∃ key : Key G₁ G₂, (((factorization : Circuit P).setup).run source).1 = .ok key ∧
      IsKey key := by
  obtain ⟨key, hkey, -⟩ : ∃ key : Key G₁ G₂,
      (((factorization : Circuit P).setup).run source).1 = .ok key ∧ _ :=
    Circuit.exists_run_setup synthesize_none (by decide) (by decide) (by decide) hsecrets
  obtain ⟨s, secrets, hs, -, hdrawn, hderive⟩ := Circuit.of_run_setup hsecrets hkey
  obtain rfl := Except.ok.inj (synthesize_none.symm.trans hs)
  exact ⟨key, hkey, secrets, hdrawn, hderive⟩

namespace IsKey
variable {key : Key G₁ G₂} (h : IsKey key)
include h

theorem counts_eq : key.counts = ⟨4, 3, 2⟩ := by
  obtain ⟨secrets, -, hderive⟩ := h
  exact (Key.of_derive hderive).2.1

theorem isSized : key.provingKey.IsSized ∧ key.verifyingKey.IsSized := by
  have hcounts := h.counts_eq
  obtain ⟨secrets, -, hderive⟩ := h
  refine Key.isSized_of_derive hderive (by decide) (by decide) ?_ ?_ ?_ <;>
  · rw [hcounts]
    decide

theorem parse_toBytes [LawfulCoding G₁] [LawfulCoding G₂] :
    Key.parse key.toBytes = .ok (key, []) := by
  have hparse := Key.parse_append h.isSized.1 h.isSized.2 []
  rwa [List.append_nil] at hparse

theorem fits {n : Int} (hn : 0 ≤ n ∧ n < order) : key.verifyingKey.Fits [n] := by
  obtain ⟨secrets, -, hderive⟩ := h
  exact VerifyingKey.Fits.of_derive hderive rfl (List.forall_mem_singleton.mpr hn)

theorem columns_eq :
    key.verifyingKey.publicColumns.length = key.verifyingKey.entryCount ∧
      0 < key.verifyingKey.entryCount := by
  refine ⟨h.isSized.2.publicColumns, ?_⟩
  rw [Key.verifyingKey, h.counts_eq]
  exact Nat.zero_lt_two

theorem prepare_eq {P : Type} (p q n : Int) :
    key.provingKey.prepare (factorization : Circuit P) (some (witness p q n)) =
      if reduce (p * q) = reduce n then .ok (filled p q n)
      else .error (.unsatisfied "p * q = N") := by
  obtain ⟨secrets, -, hderive⟩ := h
  have hfits : key.provingKey.fits (filled p q n).shape = true := Key.fits_of_derive hderive
  have hcheck := check_filled p q n
  split_ifs at hcheck ⊢ with heq
  · exact ProvingKey.prepare_eq_ok (synthesize_witness p q n) hfits hcheck
  · exact ProvingKey.prepare_eq_error (synthesize_witness p q n) hfits hcheck

variable [PrimeOrder G₁] [PrimeOrder G₂] [Mul Gₜ] [DecidableEq Gₜ] [Pairing G₁ G₂ Gₜ]
  [Bilinear G₁ G₂ Gₜ]

/-- Whoever knows the factors of the number makes a proof that passes. -/
theorem exists_blind {p q n : Int} (heq : reduce (p * q) = reduce n) {source : σ}
    (hblinding : ∀ x ∈ RandomSource.draws 2 source, IsDraw x) :
    ∃ proof : Proof G₁ G₂, ((key.provingKey.blind (filled p q n)).run source).1 = .ok proof ∧
      key.verifyingKey.accepts proof [reduce n] = true := by
  have hprepare := h.prepare_eq (P := Proof G₁ G₂) p q n
  rw [if_pos heq] at hprepare
  obtain ⟨secrets, hdrawn, hderive⟩ := h
  have hcheck := check_filled p q n
  rw [if_pos heq] at hcheck
  obtain ⟨proof, source', hrun, haccepts, -⟩ := Key.exists_proof
    (synthesize_witness (P := Proof G₁ G₂) p q n) (wellFormed_filled p q n) rfl hcheck
    (by decide : 3 ≤ 2 ^ 31) (inputs_filled p q n) hdrawn hderive hblinding
  refine ⟨proof, ?_, haccepts⟩
  rw [← key.provingKey.run_prove hprepare, hrun]

end IsKey

end RankOne.Factorization
