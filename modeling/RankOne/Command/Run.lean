import RankOne.Archive
import RankOne.Command.Invocation
import RankOne.Exchange
import RankOne.Recursion.Chain
import RankOne.Shape.Encoding

/-!
# Running a command

Each command as a sequence of disk operations, printed lines and draws, over any disk and any
groups. What is printed before a command stops stays printed. A number of workers below one is
refused where work would first be handed out, which is after the checks that need none, and a
directory that was chosen without a value where a path would first be made.
-/

set_option autoImplicit false

namespace RankOne

inductive Halt
  | fault (e : Fault)
  | missingArtifact (path : String)
deriving DecidableEq, Repr

def Halt.missingText (path : String) : String :=
  "zkrec: error: missing artifact " ++ path ++ ", run the previous sub-command first"

abbrev Job (σ : Type) (m : Type → Type) := ExceptT Halt (StateT σ m)

open Unicode (Codes)

namespace Job

variable {σ α : Type} {m : Type → Type} [Monad m]

def ofExcept (r : Except Fault α) : Job σ m α :=
  ExceptT.mk (pure (r.mapError Halt.fault))

def random (r : Random σ α) : Job σ m α :=
  ExceptT.mk fun source =>
    let (v, source) := r.run source
    pure (v.mapError Halt.fault, source)

def disk (r : ExceptT Fault m α) : Job σ m α :=
  ExceptT.mk (StateT.lift (r.run >>= fun v => pure (v.mapError Halt.fault)))

def print [Console m] (line : Codes) : Job σ m Unit :=
  ExceptT.mk (StateT.lift (Console.say line >>= fun _ => pure (.ok ())))

def say [Console m] (line : String) : Job σ m Unit :=
  print (Unicode.ofString line)

def demand [Disk m] (a : Archive) : List Artifact → Job σ m Unit
  | [] => pure ()
  | x :: rest => do
      let there ← disk (ExceptT.lift (a.holds x.name))
      if there then demand a rest else throw (.missingArtifact (a.path x.name))

def workersFault? : Choice Int → Except Fault Unit
  | .unmade => .ok ()
  | .value n => if n < 1 then .error (.unusable .workers) else .ok ()
  | .void => .error .wrongKind

def archiveIn (directory : Option String) : Job σ m Archive :=
  match directory with
  | some path => pure ⟨path, ""⟩
  | none => throw (.fault .wrongKind)

def modeOf (mode : Option Mode) : Job σ m Mode :=
  match mode with
  | some mode => pure mode
  | none => throw (.fault (.unusable .mode))

end Job

def Verdict.entryText (entry : Codes × Int) : Codes :=
  entry.1 ++ Unicode.ofString (" = " ++ toString entry.2)

def Verdict.entriesText (v : Verdict) : Codes :=
  Unicode.ofString "\x7b" ++
    (Unicode.ofString ", ").intercalate (v.values.map Verdict.entryText) ++
    Unicode.ofString "\x7d"

def Verdict.lines (v : Verdict) (what : String) : List Codes :=
  if v.passed then
    [Unicode.ofString (what ++ " passed!"),
      Unicode.ofString "Public entries: " ++ v.entriesText]
  else [Unicode.ofString (what ++ " failed!")]

namespace Command

variable {σ : Type} {m : Type → Type} [Monad m] [Disk m] [Console m]

open Job

def printAll : List Codes → Job σ m Unit
  | [] => pure ()
  | line :: rest => do
      print line
      printAll rest

def saveArtifact (a : Archive) (x : Artifact) (what : String) (data : Bytes) : Job σ m Unit := do
  let path ← disk (a.save x.name data)
  say ("Saving " ++ what ++ " to: " ++ path)

def loadArtifact (a : Archive) (x : Artifact) : Job σ m Bytes :=
  disk (a.load x.name)

def saveInputs {P : Type} (a : Archive) (names : List String) (inputs : List (Datum P)) :
    Job σ m Unit := do
  let x ← ofExcept (Exchange.ofInputs (names.map Unicode.ofString) inputs)
  saveArtifact a .publicInputs "public inputs" x.toBytes

def loadInputs (a : Archive) : Job σ m (List Codes × List Int) := do
  say ("Loading public inputs from: " ++ a.path Artifact.publicInputs.name)
  let data ← loadArtifact a .publicInputs
  let x ← ofExcept (Json.ofBytes data)
  ofExcept (Exchange.inputs x)

section Groups

variable {G₁ G₂ Gₜ : Type} [CodedGroup G₁] [CodedGroup G₂]

def saveKey [ShapeCoding] (a : Archive) (key : Key G₁ G₂) (shape : Shape) : Job σ m Unit := do
  saveArtifact a .params "parameters" key.toBytes
  saveArtifact a .shape "constraint shape" (ShapeCoding.toBytes shape)
  saveArtifact a .verificationKey "verification key"
    (Exchange.ofVerifyingKey key.verifyingKey).toBytes

def loadKey (a : Archive) : Job σ m (Key G₁ G₂) := do
  say ("Loading parameters from: " ++ a.path Artifact.params.name)
  let data ← loadArtifact a .params
  let (key, _) ← ofExcept (Key.parse data)
  return key

def loadVerifyingKey (a : Archive) : Job σ m (VerifyingKey G₁ G₂) := do
  let data ← loadArtifact a .verificationKey
  let x ← ofExcept (Json.ofBytes data)
  ofExcept (Exchange.verifyingKey x)

def saveProof (a : Archive) (proof : Proof G₁ G₂) (names : List String)
    (inputs : List (Datum (Proof G₁ G₂))) : Job σ m Unit := do
  saveArtifact a .proof "proof" (Exchange.ofProof proof).toBytes
  saveInputs a names inputs

def loadProof (a : Archive) : Job σ m (Proof G₁ G₂ × List Codes × List Int) := do
  say ("Loading proof from: " ++ a.path Artifact.proof.name)
  let data ← loadArtifact a .proof
  let x ← ofExcept (Json.ofBytes data)
  let proof ← ofExcept (Exchange.proof x)
  let inputs ← loadInputs a
  return (proof, inputs)

end Groups

variable (G₁ G₂ : Type) {Gₜ : Type} [CodedGroup G₁] [CodedGroup G₂] [RandomSource σ]

def runSetup [ShapeCoding] (out : Option String) (workers : Choice Int) : Job σ m Unit := do
  let circuit : Circuit (Proof G₁ G₂) := factorization
  say "Setting up parameters for proving and verifying..."
  ofExcept (workersFault? workers)
  let key : Key G₁ G₂ ← random circuit.setup
  say ("Dimension of the witness vector: " ++ toString key.counts.wires)
  say ("Number of constraints: " ++ toString key.counts.gates)
  say ("Number of public entries: " ++ toString key.counts.entries)
  let system ← ofExcept (circuit.synthesize none)
  let a ← archiveIn out
  saveKey a key system.shape

def runProve (out : Option String) (workers : Choice Int) (pairs : List (String × Int)) :
    Job σ m Unit := do
  match Entries.get? "p" pairs, Entries.get? "q" pairs with
  | some p, some q =>
      let a ← archiveIn out
      demand a [.params]
      let n := ((Entries.get? "N" pairs).map Datum.number).getD .absent
      let w : Witness (Proof G₁ G₂) ← ofExcept (Factorization.assign (.number p) (.number q) n)
      let key : Key G₁ G₂ ← loadKey a
      say "Generating proof..."
      let system ← ofExcept (key.provingKey.prepare factorization (some w))
      ofExcept (workersFault? workers)
      let proof ← random (key.provingKey.blind system)
      saveProof a proof ["N"] [Witness.get (some w) "N"]
  | _, _ => throw (.fault (.unusable .witnessPair))

variable [Mul Gₜ] [DecidableEq Gₜ] [Pairing G₁ G₂ Gₜ]

def runVerify (out : Option String) (workers : Choice Int) : Job σ m Unit := do
  let a ← archiveIn out
  demand a [.verificationKey, .proof, .publicInputs]
  let vk : VerifyingKey G₁ G₂ ← loadVerifyingKey a
  let (proof, names, inputs) ← loadProof a
  say "Verifying proof..."
  let values ← ofExcept (vk.label inputs (some names))
  ofExcept (workersFault? workers)
  let verdict : Verdict := ⟨vk.accepts proof inputs, values⟩
  printAll (verdict.lines "Verification")

def runRecurse [ShapeCoding] (out : Option String) (workers : Choice Int) (mode : Option Mode) :
    Job σ m Unit := do
  let mode ← modeOf mode
  let a ← archiveIn out
  demand a [.verificationKey, .proof, .publicInputs]
  let innerKey : VerifyingKey G₁ G₂ ← loadVerifyingKey a
  let (inner, _, inputs) ← loadProof a
  let outerArchive := a.within "recursive_"
  let circuit := Attestation.circuit innerKey mode
  say ("Setting up parameters for the verifier circuit (" ++ mode.text ++ " mode)...")
  ofExcept (workersFault? workers)
  let key : Key G₁ G₂ ← random circuit.setup
  let system ← ofExcept (circuit.synthesize none)
  saveKey outerArchive key system.shape
  say "Generating recursive proof..."
  let subject := Datum.proof inner
  let inputData := Datum.list (inputs.map Datum.number)
  let w ← ofExcept (Attestation.assign subject inputData (.number 1))
  let proof ← random (key.provingKey.prove circuit (some w))
  let outer := inner.limbs ++ inputs ++ [1]
  saveProof outerArchive proof (Attestation.names innerKey) (outer.map Datum.number)
  say "Verifying recursive proof..."
  match mode with
  | .placeholder =>
      say "Warning: placeholder mode, the recursive proof asserts nothing about the inner proof."
      let verdict ← ofExcept
        (key.verifyingKey.verify proof outer
          (some ((Attestation.names innerKey).map Unicode.ofString)))
      printAll (verdict.lines "Recursive verification")
  | .checked =>
      let verdict ← ofExcept (Attestation.verifyDeferred key.verifyingKey innerKey (.proof proof)
        (.list (outer.map Datum.number)))
      printAll (verdict.lines "Recursive verification")

def onChain {α : Type} (c : Chain G₁ G₂ σ) (call : OnChain G₁ G₂ σ α) :
    Job σ m (α × Chain G₁ G₂ σ) :=
  match call.run c with
  | (.ok v, c) => pure (v, c)
  | (.error e, _) => throw (.fault e)

def runSteps (c : Chain G₁ G₂ σ) (i : Nat) : Nat → Job σ m (Chain G₁ G₂ σ)
  | 0 => pure c
  | n + 1 => do
      say ("Generating recursive step proof " ++ toString i ++ "...")
      let (_, c) ← onChain G₁ G₂ c Chain.advance
      runSteps c (i + 1) n

def chainLength (steps : Option Int) : Job σ m Nat :=
  match steps with
  | some n => if n < 1 then throw (.fault (.unusable .chainLength)) else pure n.toNat
  | none => throw (.fault .wrongKind)

def runChain [ShapeCoding] (out : Option String) (workers : Choice Int)
    (steps : Option Int) (mode : Option Mode) : Job σ m Unit := do
  let length ← chainLength steps
  let mode ← modeOf mode
  say "Computing the cyclic circuit shape and its parameters..."
  ofExcept (workersFault? workers)
  let (step, key) ← random (fixedPoint (Cyclic.stepCircuit .counter : StepFamily G₁ G₂) mode)
  let system ← ofExcept (step.circuit.synthesize none)
  let archive := (← archiveIn out).within "chain_"
  saveKey archive key system.shape
  say "Generating base case proof..."
  let (_, c) ← onChain G₁ G₂ (Chain.new step key (← get)) Chain.start
  let c ← runSteps G₁ G₂ c 1 (length - 1)
  let (proof, inputs) ← ofExcept c.lastProof
  saveProof archive proof (StepCircuit.names G₁ G₂) inputs
  say "Verifying last proof..."
  let (verdict, c) ← onChain G₁ G₂ c Chain.finish
  printAll (verdict.lines "Chain verification")
  let passed ← ofExcept c.audit
  say ("Chain audit: " ++ if passed then "passed" else "failed")

def run [ShapeCoding] (c : Command) (out : Option String) (workers : Choice Int) :
    Job σ m Unit :=
  match c with
  | .setup => runSetup G₁ G₂ out workers
  | .prove pairs => runProve G₁ G₂ out workers pairs
  | .verify => runVerify G₁ G₂ out workers
  | .recurse mode => runRecurse G₁ G₂ out workers mode
  | .chain steps mode => runChain G₁ G₂ out workers steps mode

def draws : Command → Nat
  | .setup => 5
  | .prove _ => 2
  | .verify => 0
  | .recurse _ => 7
  | .chain steps _ => 5 + 2 * (steps.getD 0).toNat

end Command

end RankOne
