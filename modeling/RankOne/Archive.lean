import RankOne.Disk

/-!
# Archives

What a circuit's setup and its proofs leave on a disk, each artifact under a name of its own in
one directory. A scope in front of the names lets several circuits share the directory. An
artifact is written to a temporary file and then renamed into place, so no reader sees part of
one.
-/

set_option autoImplicit false

namespace RankOne

inductive Artifact
  | params
  | shape
  | verificationKey
  | proof
  | publicInputs
deriving DecidableEq, Repr

def Artifact.name : Artifact → String
  | params => "params"
  | shape => "shape"
  | verificationKey => "verification_key"
  | proof => "proof"
  | publicInputs => "public"

def suffixOf (name : String) : String :=
  if name ∈ [Artifact.verificationKey.name, Artifact.proof.name, Artifact.publicInputs.name] then
    ".json"
  else ".bin"

structure Archive where
  root : String
  scope : String
deriving DecidableEq, Repr

namespace Archive

def path (a : Archive) (name : String) : String :=
  joinPath a.root (a.scope ++ name ++ suffixOf name)

def within (a : Archive) (inner : String) : Archive :=
  { a with scope := a.scope ++ inner }

variable {m : Type → Type} [Monad m] [Disk m]

def holds (a : Archive) (name : String) : m Bool :=
  Disk.present (a.path name)

def load (a : Archive) (name : String) : ExceptT Fault m Bytes :=
  ExceptT.mk (Disk.read (a.path name))

def place (a : Archive) (name temporary : String) (data : Bytes) : ExceptT Fault m Unit := do
  ExceptT.mk (Disk.write temporary data)
  ExceptT.mk (Disk.rename temporary (a.path name))

def save (a : Archive) (name : String) (data : Bytes) : ExceptT Fault m String := do
  ExceptT.mk (Disk.makeDirectories a.root)
  let temporary ← ExceptT.mk (Disk.createTemporary a.root)
  tryCatch (a.place name temporary data) fun fault => do
    ExceptT.mk (Disk.remove temporary)
    throw fault
  return a.path name

end Archive

end RankOne
