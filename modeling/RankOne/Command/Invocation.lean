import RankOne.Command.Options
import RankOne.Entries
import RankOne.Recursion.Attestation

/-!
# Invocations

The five commands with what a user chooses for each, and how a command line is read as one. The
options that hold for every command stand before the command, its own ones after it. A pair with a
bad number is a fault of its own; everything else that cannot be read is misuse. An option that is
chosen without a value is no misuse: it fails where the value is needed.
-/

set_option autoImplicit false

namespace RankOne

inductive Choice (α : Type)
  | unmade
  | value (v : α)
  | void
deriving DecidableEq, Repr

def Choice.valueOr {α : Type} (d : α) : Choice α → Option α
  | .unmade => some d
  | .value v => some v
  | .void => none

inductive Command
  | setup
  | prove (pairs : List (String × Int))
  | verify
  | recurse (mode : Option Mode)
  | chain (steps : Option Int) (mode : Option Mode)
deriving DecidableEq, Repr

structure Invocation where
  out : Option String
  workers : Choice Int
  seed : Option Int
  command : Command
deriving DecidableEq, Repr

inductive Rejection
  | misuse
  | help
  | fault (e : Fault)
deriving DecidableEq, Repr

inductive Setting
  | help
  | out
  | workers
  | seed
  | pairs
  | mode
  | steps
deriving DecidableEq, Repr

structure Choices where
  out : Choice String
  workers : Choice Int
  seed : Choice Int
  pairs : List (String × Int)
  mode : Choice Mode
  steps : Choice Int
deriving DecidableEq, Repr

def globalOptions : List (CommandOption Setting) :=
  [⟨.help, 'h', "help", .none⟩, ⟨.out, 'o', "out", .one⟩, ⟨.workers, 'j', "threads", .one⟩,
    ⟨.seed, 's', "seed", .one⟩]

def optionsOf? (command : String) : Option (List (CommandOption Setting)) :=
  let help : CommandOption Setting := ⟨.help, 'h', "help", .none⟩
  let mode : CommandOption Setting := ⟨.mode, 'm', "mode", .one⟩
  match command with
  | "setup" => some [help]
  | "prove" => some [help, ⟨.pairs, 'a', "args", .any⟩]
  | "verify" => some [help]
  | "recurse" => some [help, mode]
  | "chain" => some [help, ⟨.steps, 'n', "steps", .one⟩, mode]
  | _ => none

def splitPair (pair : String) : String × List Char :=
  let cs := pair.toList
  let value := (cs.reverse.takeWhile fun c => c ≠ '=').reverse
  (String.ofList (cs.take (cs.length - value.length - 1)), value)

namespace Choices

def start : Choices :=
  ⟨.unmade, .unmade, .unmade, [], .unmade, .unmade⟩

def addPairs (c : Choices) : List String → Except Rejection Choices
  | [] => .ok c
  | pair :: rest =>
      let (key, value) := splitPair pair
      match Text.literal? value with
      | some v => addPairs { c with pairs := Entries.put key (reduce v) c.pairs } rest
      | none => .error (.fault (.unusable .numeral))

def decimal (text : String) : Except Rejection Int :=
  match Text.decimal? text.toList with
  | some v => .ok v
  | none => .error .misuse

def modeNamed (text : String) : Except Rejection Mode :=
  match Mode.ofText? text with
  | some v => .ok v
  | none => .error .misuse

def single {α : Type} (read : String → Except Rejection α) :
    List String → Except Rejection (Choice α)
  | [] => .ok .void
  | text :: _ => (read text).map .value

def choose (c : Choices) : Setting → List String → Except Rejection Choices
  | .help, _ => .error .help
  | .out, values => (single .ok values).map fun v => { c with out := v }
  | .workers, values => (single decimal values).map fun v => { c with workers := v }
  | .seed, values => (single decimal values).map fun v => { c with seed := v }
  | .pairs, values => c.addPairs values
  | .mode, values => (single modeNamed values).map fun v => { c with mode := v }
  | .steps, values => (single decimal values).map fun v => { c with steps := v }

def command? (c : Choices) : String → Option Command
  | "setup" => some .setup
  | "prove" => some (.prove c.pairs)
  | "verify" => some .verify
  | "recurse" => some (.recurse (c.mode.valueOr .placeholder))
  | "chain" => some (.chain (c.steps.valueOr 3) (c.mode.valueOr .checked))
  | _ => none

def seed? (c : Choices) : Except Rejection (Option Int) :=
  match c.seed with
  | .unmade => .ok none
  | .value v => .ok (some v)
  | .void => .error (.fault .wrongKind)

structure Reading where
  choices : Choices
  stray : Bool
  command : Option (String × List String)

def read (c : Choices) (stray : Bool) :
    List (CommandOption.Event Setting) → Except Rejection Reading
  | [] => .ok ⟨c, stray, none⟩
  | .chosen key values :: rest =>
      match c.choose key values with
      | .ok c => c.read stray rest
      | .error e => .error e
  | .stray :: rest => c.read true rest
  | .command name words :: _ => .ok ⟨c, stray, some (name, words)⟩
  | .misuse :: _ => .error .misuse

end Choices

namespace Invocation

def ofWords (line : List String) : Except Rejection Invocation := do
  let outer ← Choices.start.read false (CommandOption.events globalOptions true line)
  match outer.command with
  | none => throw .misuse
  | some (name, words) =>
      match optionsOf? name with
      | none => throw .misuse
      | some options =>
          let inner ← outer.choices.read outer.stray (CommandOption.events options false words)
          match inner.stray, inner.choices.command? name with
          | false, some command =>
              let seed ← inner.choices.seed?
              return ⟨inner.choices.out.valueOr ".", inner.choices.workers, seed, command⟩
          | _, _ => throw .misuse

end Invocation

end RankOne
