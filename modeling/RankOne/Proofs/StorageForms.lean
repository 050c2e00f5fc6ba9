import RankOne.Proofs.BinaryForm
import RankOne.Proofs.ExchangeForm

/-!
# Keys and proofs that have been stored

A verifying key and a proof are kept in the exchange form or in the binary form. Both give back what
was stored, so no verification depends on the form that was chosen. The exchange form has no count
of the public columns, and takes it from their number; the binary form has four bytes for it.
-/

set_option autoImplicit false

namespace RankOne
open Unicode (Codes)

inductive StorageForm
  | exchange
  | binary
deriving DecidableEq, Repr

namespace StorageForm
variable {G₁ G₂ : Type} [CodedGroup G₁] [CodedGroup G₂]

def ofKey (vk : VerifyingKey G₁ G₂) : StorageForm → Bytes
  | exchange => (Exchange.ofVerifyingKey vk).toBytes
  | binary => vk.toBytes

def key (G₁ G₂ : Type) [CodedGroup G₁] [CodedGroup G₂] (data : Bytes) :
    StorageForm → Except Fault (VerifyingKey G₁ G₂)
  | exchange => Json.ofBytes data >>= Exchange.verifyingKey
  | binary => Prod.fst <$> VerifyingKey.parse data

def ofProof (p : Proof G₁ G₂) : StorageForm → Bytes
  | exchange => (Exchange.ofProof p).toBytes
  | binary => p.toBytes

def proof (G₁ G₂ : Type) [CodedGroup G₁] [CodedGroup G₂] (data : Bytes) :
    StorageForm → Except Fault (Proof G₁ G₂)
  | exchange => Json.ofBytes data >>= Exchange.proof
  | binary => Proof.ofBytes data

def verify {Gₜ : Type} [Mul Gₜ] [DecidableEq Gₜ] [Pairing G₁ G₂ Gₜ]
    (keyForm proofForm : StorageForm) (vk : VerifyingKey G₁ G₂) (p : Proof G₁ G₂)
    (inputs : Datum (Proof G₁ G₂)) (names : Option (List Codes)) : Except Fault Verdict := do
  let vk ← keyForm.key G₁ G₂ (keyForm.ofKey vk)
  let p ← proofForm.proof G₁ G₂ (proofForm.ofProof p)
  vk.verifyData (.proof p) inputs names

variable [LawfulText G₁] [LawfulText G₂] [LawfulCoding G₁] [LawfulCoding G₂]

theorem key_ofKey (f : StorageForm) {vk : VerifyingKey G₁ G₂}
    (hcolumns : vk.publicColumns.length = vk.entryCount) (hentries : 0 < vk.entryCount)
    (hcount : f = binary → vk.entryCount < 2 ^ 32) : f.key G₁ G₂ (f.ofKey vk) = .ok vk := by
  cases f with
  | exchange =>
    rw [key, ofKey, Exchange.ofBytes_verifyingKey]
    exact Exchange.verifyingKey_ofVerifyingKey hcolumns hentries
  | binary =>
    have hparse := VerifyingKey.parse_append ⟨hcount rfl, hcolumns⟩ []
    rw [List.append_nil] at hparse
    rw [key, ofKey, hparse]
    rfl

theorem proof_ofProof (f : StorageForm) (p : Proof G₁ G₂) :
    f.proof G₁ G₂ (f.ofProof p) = .ok p := by
  cases f with
  | exchange =>
    rw [proof, ofProof, Exchange.ofBytes_proof]
    exact Exchange.proof_ofProof p
  | binary => exact p.ofBytes_toBytes

/-- A key with a column for each of its public entries and a proof are read from the exchange form
as they were, and so have the same binary form. Every verification has the same verdict or the same
fault with what was stored as with what it was stored from, whichever form the key and the proof
have. -/
theorem verify_eq_verifyData {Gₜ : Type} [Mul Gₜ] [DecidableEq Gₜ] [Pairing G₁ G₂ Gₜ]
    {vk : VerifyingKey G₁ G₂} (hcolumns : vk.publicColumns.length = vk.entryCount)
    (hentries : 0 < vk.entryCount) (p : Proof G₁ G₂) :
    exchange.key G₁ G₂ (exchange.ofKey vk) = .ok vk ∧
    exchange.proof G₁ G₂ (exchange.ofProof p) = .ok p ∧
    VerifyingKey.toBytes <$> exchange.key G₁ G₂ (exchange.ofKey vk) = .ok (binary.ofKey vk) ∧
    Proof.toBytes <$> exchange.proof G₁ G₂ (exchange.ofProof p) = .ok (binary.ofProof p) ∧
    ∀ keyForm proofForm : StorageForm, (keyForm = binary → vk.entryCount < 2 ^ 32) →
      ∀ (inputs : Datum (Proof G₁ G₂)) (names : Option (List Codes)),
        verify keyForm proofForm vk p inputs names = vk.verifyData (.proof p) inputs names := by
  have hkey := exchange.key_ofKey hcolumns hentries nofun
  have hproof := exchange.proof_ofProof p
  refine ⟨hkey, hproof, by rw [hkey]; rfl, by rw [hproof]; rfl, ?_⟩
  intro keyForm proofForm hcount inputs names
  rw [verify, keyForm.key_ofKey hcolumns hentries hcount, proofForm.proof_ofProof]
  rfl

end StorageForm

structure Marked where
  exponent : Exponent
deriving DecidableEq

namespace Marked

instance : CodedGroup Marked where
  zero := ⟨CodedGroup.zero⟩
  add x y := ⟨CodedGroup.add x.exponent y.exponent⟩
  neg x := ⟨CodedGroup.neg x.exponent⟩
  smul k x := ⟨CodedGroup.smul k x.exponent⟩
  generator := ⟨CodedGroup.generator⟩
  width := CodedGroup.width Exponent
  encode x := CodedGroup.encode x.exponent
  decode? data := (CodedGroup.decode? data).map mk
  parts x := if x.exponent = ⟨0⟩ then ["0"] else "1" :: CodedGroup.parts x.exponent
  ofText?
    | ['0'] => some ⟨⟨0⟩⟩
    | '1' :: ' ' :: text => (CodedGroup.ofText? text).map mk
    | _ => none

instance : Pairing Marked Marked (Multiplicative Scalar) where
  pair x y := Pairing.pair x.exponent y.exponent

instance : LawfulCoding Marked where
  length_encode x := LawfulCoding.length_encode x.exponent
  decode?_encode x := congrArg (Option.map mk) (LawfulCoding.decode?_encode x.exponent)

instance : LawfulText Marked where
  ofText?_parts x := by
    obtain ⟨x⟩ := x
    have htext : (CodedGroup.ofText? (List.intercalate [' ']
        ((CodedGroup.parts x).map String.toList))).map mk = some ⟨x⟩ :=
      congrArg (Option.map mk) (LawfulText.ofText?_parts x)
    by_cases hx : x = ⟨0⟩
    · subst hx
      rfl
    · have hparts : CodedGroup.parts (⟨x⟩ : Marked) = "1" :: CodedGroup.parts x := if_neg hx
      rw [hparts]
      exact htext

end Marked

namespace StorageForm

/-- A key that has zero for a column, and a proof that has it for its last element. -/
theorem verify_eq_verifyData_marked :
    let vk : VerifyingKey Marked Marked := ⟨2, ⟨⟨1⟩⟩, ⟨⟨1⟩⟩, ⟨⟨1⟩⟩, ⟨⟨1⟩⟩, [⟨⟨5⟩⟩, ⟨⟨0⟩⟩]⟩
    let p : Proof Marked Marked := ⟨⟨⟨6⟩⟩, ⟨⟨1⟩⟩, ⟨⟨0⟩⟩⟩
    vk.publicColumns.length = vk.entryCount ∧ 0 < vk.entryCount ∧ vk.entryCount < 2 ^ 32 ∧
      exchange.key Marked Marked (exchange.ofKey vk) = .ok vk ∧
      (∃ verdict, verify .exchange .binary vk p (.list [.number 7]) none = .ok verdict ∧
        verdict.passed = true) ∧
      verify .binary .exchange vk p (.list []) none =
        .error (.malformed (.inputCount 1 0)) := by
  intro vk p
  have hcolumns : vk.publicColumns.length = vk.entryCount := rfl
  obtain ⟨hkey, -, -, -, hverify⟩ := verify_eq_verifyData hcolumns (by decide) p
  refine ⟨hcolumns, by decide, by decide, hkey, ?_, ?_⟩
  · rw [hverify .exchange .binary nofun]
    exact ⟨_, rfl, by decide⟩
  · rw [hverify .binary .exchange fun _ => by decide]
    rfl

end StorageForm

end RankOne
