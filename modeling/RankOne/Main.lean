import RankOne.Bls.Ate
import RankOne.Command.Run
import RankOne.Twister

/-!
# The command line program

Runs one command on the disk of the machine. Without a seed, everything that a command may draw is
drawn in advance from the randomness of the system.
-/

set_option autoImplicit false

namespace RankOne.Main

def faultOf : IO.Error → Fault
  | .noFileOrDirectory .. => .refused .notFound
  | .alreadyExists .. => .refused .alreadyThere
  | .inappropriateType .. => .refused .notDirectory
  | _ => .refused .other

def attempt {α : Type} (action : IO α) : IO (Except Fault α) := do
  try
    return .ok (← action)
  catch e =>
    return .error (faultOf e)

def createTemporary (directory : String) : IO String := do
  let path := joinPath directory (".tmp-" ++ toString (← IO.rand 0 4611686018427387903))
  let _ ← IO.FS.Handle.mk path .writeNew
  return path

instance : Disk IO where
  present path := do
    return ← ((← IO.currentDir) / path).pathExists
  read path := attempt do
    return (← IO.FS.readBinFile path).toList
  makeDirectories path := attempt (IO.FS.createDirAll path)
  createTemporary directory := attempt (createTemporary directory)
  write path data := attempt (IO.FS.writeBinFile path ⟨data.toArray⟩)
  rename old new := attempt (IO.FS.rename old new)
  remove path := attempt (IO.FS.removeFile path)

instance : Console IO where
  say line := IO.println (Unicode.toText line)

def drawResidue : IO Int := do
  let bytes ← IO.getRandomBytes 64
  return 1 + (Bytes.toNat bytes.toList : Int) % (order - 1)

def drawAll : Nat → IO (List Int)
  | 0 => return []
  | n + 1 => do
      let v ← drawResidue
      return v :: (← drawAll n)

def sourceFor (i : Invocation) : IO (Script ⊕ Twister.Generator) := do
  match i.seed with
  | some seed => return .inr (Twister.ofSeed seed)
  | none => return .inl ⟨← drawAll i.command.draws⟩

def usage : String :=
  "usage: zkrec [-h] [-o OUT] [-j THREADS] [-s SEED] setup | prove -a [KEY=VALUE ...] | verify | " ++
    "recurse [-m MODE] | chain [-n STEPS] [-m MODE]"

def leave (code : UInt32) (lines : List String) : IO UInt32 := do
  for line in lines do
    IO.eprintln line
  return code

def refusalText : Refusal → String
  | .notFound => "there is no such file or directory"
  | .alreadyThere => "a file is in the way"
  | .isDirectory => "a directory is in the way"
  | .notDirectory => "part of a path is no directory"
  | .nameTooLong => "a name is too long"
  | .other => "the disk refused an operation"

def reason (e : Fault) : String :=
  match e.message?, e with
  | some text, _ => text
  | none, .unusable .workers => "there has to be at least one worker"
  | none, .unusable .mode => "there is no mode without a name"
  | none, .unusable .numeral => "a value has to be an integer"
  | none, .unusable .digitLimit => "a number has too many digits"
  | none, .wrongKind => "an option has no value"
  | none, .tooDeep => "the data are nested too deeply"
  | none, .refused cause => refusalText cause
  | none, _ => "the command cannot be carried out"

def faultLine (e : Fault) : String :=
  "zkrec: error: " ++ reason e

def execute (i : Invocation) : IO UInt32 := do
  let job : Job (Script ⊕ Twister.Generator) IO Unit :=
    i.command.run Bls.G1 Bls.G2 i.out i.workers
  match (← job.run.run (← sourceFor i)).1 with
  | .ok () => return 0
  | .error (.fault e) => leave 1 [faultLine e]
  | .error (.missingArtifact path) => leave 2 [usage, Halt.missingText path]

end RankOne.Main

open RankOne in
def main (words : List String) : IO UInt32 := do
  match Invocation.ofWords words with
  | .ok i => Main.execute i
  | .error .help => do
      IO.println Main.usage
      return 0
  | .error .misuse => Main.leave 2 [Main.usage]
  | .error (.fault e) => Main.leave 1 [Main.faultLine e]
