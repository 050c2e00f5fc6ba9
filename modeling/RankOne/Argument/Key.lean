import RankOne.Bytes
import RankOne.Pairing
import RankOne.Shape

/-!
# Keys and proofs

The keys of the Groth16 argument, the proofs made with them, and their binary form. A proving key
starts with the counts and the digest of the shape that it belongs to; the number of its elements
follows from the counts. A stored key is a proving key with a verifying key after it.
-/

set_option autoImplicit false

namespace RankOne

def domainSize (gates : Nat) : Nat :=
  if gates = 0 then 2 else if gates = 1 then 1 else Nat.pow 2 (Nat.log2 (gates - 1) + 1)

structure ProvingKey (G₁ G₂ : Type) where
  counts : Counts
  digest : Bytes
  alpha₁ : G₁
  beta₁ : G₁
  delta₁ : G₁
  beta₂ : G₂
  delta₂ : G₂
  privateColumns : List G₁
  powers₁ : List G₁
  powers₂ : List G₂
  quotients : List G₁
deriving DecidableEq, Repr

structure VerifyingKey (G₁ G₂ : Type) where
  entryCount : Nat
  alpha₁ : G₁
  beta₂ : G₂
  gamma₂ : G₂
  delta₂ : G₂
  publicColumns : List G₁
deriving DecidableEq, Repr

structure Key (G₁ G₂ : Type) where
  counts : Counts
  digest : Bytes
  alpha₁ : G₁
  beta₁ : G₁
  delta₁ : G₁
  beta₂ : G₂
  gamma₂ : G₂
  delta₂ : G₂
  publicColumns : List G₁
  privateColumns : List G₁
  powers₁ : List G₁
  powers₂ : List G₂
  quotients : List G₁
deriving DecidableEq, Repr

structure Proof (G₁ G₂ : Type) where
  a : G₁
  b : G₂
  c : G₁
deriving DecidableEq, Repr

namespace Bytes

variable {G : Type} [CodedGroup G]

def element (G : Type) [CodedGroup G] (invalid : Malformed) : Parse G := fun data =>
  match chunk (CodedGroup.width G) data with
  | .error e => .error e
  | .ok (bytes, rest) =>
      match CodedGroup.decode? bytes with
      | some x => .ok (x, rest)
      | none => .error (.malformed invalid)

def first (G : Type) [CodedGroup G] : Parse G :=
  element G .firstGroup

def second (G : Type) [CodedGroup G] : Parse G :=
  element G .secondGroup

def ofElements (xs : List G) : Bytes :=
  xs.flatMap CodedGroup.encode

end Bytes

variable {G₁ G₂ : Type}

namespace Key

def provingKey (k : Key G₁ G₂) : ProvingKey G₁ G₂ where
  counts := k.counts
  digest := k.digest
  alpha₁ := k.alpha₁
  beta₁ := k.beta₁
  delta₁ := k.delta₁
  beta₂ := k.beta₂
  delta₂ := k.delta₂
  privateColumns := k.privateColumns
  powers₁ := k.powers₁
  powers₂ := k.powers₂
  quotients := k.quotients

def verifyingKey (k : Key G₁ G₂) : VerifyingKey G₁ G₂ where
  entryCount := k.counts.entries
  alpha₁ := k.alpha₁
  beta₂ := k.beta₂
  gamma₂ := k.gamma₂
  delta₂ := k.delta₂
  publicColumns := k.publicColumns

end Key

section Multiples

variable [CodedGroup G₁] [CodedGroup G₂]

open CodedGroup (multiple)

def VerifyingKey.ofScalars (count alpha beta gamma delta : Int) (columns : List Int) :
    Except Fault (VerifyingKey G₁ G₂) :=
  if !(alpha :: beta :: gamma :: delta :: columns).all isScalar then .error .notScalar
  else if count < 0 ∨ Nat.pow 256 Bytes.countWidth ≤ count then .error .countRange
  else
    .ok ⟨count.toNat, multiple alpha, multiple beta, multiple gamma, multiple delta,
      columns.map multiple⟩

def Proof.ofScalars (a b c : Int) : Except Fault (Proof G₁ G₂) :=
  if [a, b, c].all isScalar then .ok ⟨multiple a, multiple b, multiple c⟩
  else .error .notScalar

end Multiples

def VerifyingKey.inputCount (k : VerifyingKey G₁ G₂) : Int :=
  k.entryCount - 1

variable [CodedGroup G₁] [CodedGroup G₂]

open CodedGroup (encode)

namespace ProvingKey

def toBytes (k : ProvingKey G₁ G₂) : Bytes :=
  Bytes.ofNat Bytes.countWidth k.counts.wires ++ Bytes.ofNat Bytes.countWidth k.counts.gates ++
    Bytes.ofNat Bytes.countWidth k.counts.entries ++ k.digest ++
    encode k.alpha₁ ++ encode k.beta₁ ++ encode k.delta₁ ++ encode k.beta₂ ++ encode k.delta₂ ++
    Bytes.ofElements k.privateColumns ++ Bytes.ofElements k.powers₁ ++
    Bytes.ofElements k.powers₂ ++ Bytes.ofElements k.quotients

def digestWidth : Nat := 32

def parse : Parse (ProvingKey G₁ G₂) := fun data => do
  let (wires, data) ← Bytes.count data
  let (gates, data) ← Bytes.count data
  let (entries, data) ← Bytes.count data
  let (digest, data) ← Bytes.chunk digestWidth data
  let (alpha₁, data) ← Bytes.first G₁ data
  let (beta₁, data) ← Bytes.first G₁ data
  let (delta₁, data) ← Bytes.first G₁ data
  let (beta₂, data) ← Bytes.second G₂ data
  let (delta₂, data) ← Bytes.second G₂ data
  let (privateColumns, data) ← Bytes.many (Bytes.first G₁) (wires - entries) data
  let (powers₁, data) ← Bytes.many (Bytes.first G₁) (domainSize gates) data
  let (powers₂, data) ← Bytes.many (Bytes.second G₂) (domainSize gates) data
  let (quotients, data) ← Bytes.many (Bytes.first G₁) (domainSize gates) data
  let counts : Counts := ⟨wires, gates, entries⟩
  return (⟨counts, digest, alpha₁, beta₁, delta₁, beta₂, delta₂, privateColumns, powers₁, powers₂,
    quotients⟩, data)

end ProvingKey

namespace VerifyingKey

def toBytes (k : VerifyingKey G₁ G₂) : Bytes :=
  Bytes.ofNat Bytes.countWidth k.entryCount ++ encode k.alpha₁ ++ encode k.beta₂ ++
    encode k.gamma₂ ++ encode k.delta₂ ++ Bytes.ofElements k.publicColumns

def parse : Parse (VerifyingKey G₁ G₂) := fun data => do
  let (entryCount, data) ← Bytes.count data
  let (alpha₁, data) ← Bytes.first G₁ data
  let (beta₂, data) ← Bytes.second G₂ data
  let (gamma₂, data) ← Bytes.second G₂ data
  let (delta₂, data) ← Bytes.second G₂ data
  let (publicColumns, data) ← Bytes.many (Bytes.first G₁) entryCount data
  return (⟨entryCount, alpha₁, beta₂, gamma₂, delta₂, publicColumns⟩, data)

end VerifyingKey

namespace Key

def toBytes (k : Key G₁ G₂) : Bytes :=
  k.provingKey.toBytes ++ k.verifyingKey.toBytes

def parse : Parse (Key G₁ G₂) := fun data => do
  let (pk, data) ← ProvingKey.parse data
  let (vk, data) ← VerifyingKey.parse data
  if vk.entryCount ≠ pk.counts.entries then throw (.malformed .keysDisagree)
  return ({
    counts := pk.counts
    digest := pk.digest
    alpha₁ := pk.alpha₁
    beta₁ := pk.beta₁
    delta₁ := pk.delta₁
    beta₂ := pk.beta₂
    gamma₂ := vk.gamma₂
    delta₂ := pk.delta₂
    publicColumns := vk.publicColumns
    privateColumns := pk.privateColumns
    powers₁ := pk.powers₁
    powers₂ := pk.powers₂
    quotients := pk.quotients }, data)

end Key

namespace Proof

def size (G₁ G₂ : Type) [CodedGroup G₁] [CodedGroup G₂] : Nat :=
  CodedGroup.width G₁ + CodedGroup.width G₂ + CodedGroup.width G₁

def toBytes (p : Proof G₁ G₂) : Bytes :=
  encode p.a ++ encode p.b ++ encode p.c

def parse : Parse (Proof G₁ G₂) := fun data => do
  let (a, data) ← Bytes.first G₁ data
  let (b, data) ← Bytes.second G₂ data
  let (c, data) ← Bytes.first G₁ data
  return (⟨a, b, c⟩, data)

def ofBytes (data : Bytes) : Except Fault (Proof G₁ G₂) :=
  if data.length ≠ size G₁ G₂ then
    .error (.malformed (.proofSize (size G₁ G₂) data.length))
  else
    match parse data with
    | .error e => .error e
    | .ok (proof, []) => .ok proof
    | .ok (_, _ :: _) => .error (.malformed .longData)

end Proof

end RankOne
