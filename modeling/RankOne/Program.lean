import RankOne.Circuit
import RankOne.Query

/-!
# Straight-line programs

A program is a list of builder operations and questions whose results go into named registers. It
reads the values of its parameters from a table that a witness fills. Programs describe circuits
as data, so that the same list of operations can be run with values and without.
-/

set_option autoImplicit false

namespace RankOne

inductive Operand
  | constant (value : Int)
  | register (name : String)
  | raw (x : Combination)
  | list (items : List Operand)
  | tuple (items : List Operand)
  | nothing
deriving Repr, Inhabited

inductive Formula
  | leaf (x : Operand)
  | sum (terms : List Formula)
  | product (factors : List Formula)
  | negative (x : Formula)
  | apply (function : List Int → Int) (arguments : List Formula)
deriving Inhabited

inductive Instruction
  | publicInput (name : String) (value : Operand)
  | privateInput (name : String) (value : Operand)
  | parameter (name : String) (isPublic : Bool) (given : Option (List (String × Operand)))
  | wire (formula : Formula) (name : Option String)
  | add (x y : Operand)
  | sub (x y : Operand)
  | mul (x y : Operand) (message : Option String)
  | div (x y : Operand) (message : Option String)
  | not (x : Operand)
  | and (x y : Operand)
  | sum (xs : List Operand) (start : Operand)
  | select (b t f : Operand)
  | gate (x y z : Operand) (message : Option String)
  | assertZero (x : Operand) (message : Option String)
  | assertBit (x : Operand) (message : Option String)
  | connect (x y : Operand) (message : Option String)
  | read (x : Operand)
  | ask (query : Query)
  | freeze

structure Step where
  instruction : Instruction
  target : Option String

abbrev Registers := List (String × Item)

structure Surroundings where
  parameters : String → Except Fault Int
  shapes : R1CS → List Shape

def fail {α : Type} (e : Fault) : Build α :=
  ExceptT.mk fun s => (.error e, s)

namespace Operand

mutual

def reads : Operand → List String
  | .register name => [name]
  | .list items => readsAll items
  | .tuple items => readsAll items
  | _ => []

def readsAll : List Operand → List String
  | [] => []
  | x :: rest => reads x ++ readsAll rest

end

mutual

def resolve (registers : Registers) : Operand → Except Fault Item
  | .constant value => .ok (.scalar (.constant value))
  | .register name =>
      match Entries.get? name registers with
      | some item => .ok item
      | none => .error (.unset name)
  | .raw x => .ok (.scalar (.combination x))
  | .list items =>
      match resolveAll registers items with
      | .ok xs => .ok (.list xs)
      | .error e => .error e
  | .tuple items =>
      match resolveAll registers items with
      | .ok xs => .ok (.tuple xs)
      | .error e => .error e
  | .nothing => .ok .nothing

def resolveAll (registers : Registers) : List Operand → Except Fault (List Item)
  | [] => .ok []
  | x :: rest =>
      match resolve registers x with
      | .error e => .error e
      | .ok item =>
          match resolveAll registers rest with
          | .ok items => .ok (item :: items)
          | .error e => .error e

end

def item (registers : Registers) (x : Operand) : Build Item :=
  match x.resolve registers with
  | .ok item => pure item
  | .error e => fail e

def linear (registers : Registers) (x : Operand) : Build Linear := do
  let item ← x.item registers
  Build.expression item

def value (registers : Registers) (x : Operand) : Except Fault (Option Int) :=
  match x.resolve registers with
  | .error e => .error e
  | .ok .nothing => .ok none
  | .ok item =>
      match item.linear? with
      | some (.constant v) => .ok (some v)
      | _ => .error .wrongKind

end Operand

namespace Formula

mutual

def reads : Formula → List String
  | .leaf x => x.reads
  | .sum terms => readsAll terms
  | .product factors => readsAll factors
  | .negative x => reads x
  | .apply _ arguments => readsAll arguments

def readsAll : List Formula → List String
  | [] => []
  | x :: rest => reads x ++ readsAll rest

end

mutual

def eval (registers : Registers) (read : Reader) : Formula → Except Fault Int
  | .leaf x =>
      match x.resolve registers with
      | .error e => .error e
      | .ok item =>
          match item.linear? with
          | some (.constant v) => .ok v
          | some (.combination c) => read (.combination c)
          | none => .error .unsupported
  | .sum terms => (evalAll registers read terms).map (List.foldr (· + ·) 0)
  | .product factors => (evalAll registers read factors).map (List.foldr (· * ·) 1)
  | .negative x => (eval registers read x).map (- ·)
  | .apply function arguments => (evalAll registers read arguments).map function

def evalAll (registers : Registers) (read : Reader) : List Formula → Except Fault (List Int)
  | [] => .ok []
  | x :: rest =>
      match eval registers read x with
      | .error e => .error e
      | .ok v =>
          match evalAll registers read rest with
          | .ok vs => .ok (v :: vs)
          | .error e => .error e

end

end Formula

namespace Instruction

def reads : Instruction → List String
  | .publicInput _ value => value.reads
  | .privateInput _ value => value.reads
  | .parameter _ _ none => []
  | .parameter _ _ (some given) => Operand.readsAll (given.map Prod.snd)
  | .wire formula _ => formula.reads
  | .add x y => x.reads ++ y.reads
  | .sub x y => x.reads ++ y.reads
  | .mul x y _ => x.reads ++ y.reads
  | .div x y _ => x.reads ++ y.reads
  | .not x => x.reads
  | .and x y => x.reads ++ y.reads
  | .sum xs start => Operand.readsAll xs ++ start.reads
  | .select b t f => b.reads ++ t.reads ++ f.reads
  | .gate x y z _ => x.reads ++ y.reads ++ z.reads
  | .assertZero x _ => x.reads
  | .assertBit x _ => x.reads
  | .connect x y _ => x.reads ++ y.reads
  | .read x => x.reads
  | .ask _ => []
  | .freeze => []

def asItem (x : Build Linear) : Build Item :=
  Item.scalar <$> x

def asNothing (x : Build Unit) : Build Item := do
  x
  return .nothing

def supply (name : String) (isPublic : Bool) (value : Except Fault (Option Int)) : Build Linear :=
  Build.wire (fun _ => value.bind (Build.known name)) (if isPublic then some name else none)

def givenValue (registers : Registers) (given : List (String × Operand)) (name : String) :
    Except Fault (Option Int) :=
  match Entries.get? name given with
  | some x => x.value registers
  | none => .ok none

def run (around : Surroundings) (registers : Registers) : Instruction → Build Item
  | .publicInput name value => asItem (supply name true (value.value registers))
  | .privateInput name value => asItem (supply name false (value.value registers))
  | .parameter name isPublic none =>
      asItem (supply name isPublic ((around.parameters name).map some))
  | .parameter name isPublic (some given) =>
      asItem (supply name isPublic (givenValue registers given name))
  | .wire formula name =>
      asItem (Build.wire (fun read => formula.eval registers read) name)
  | .add x y => do asItem (Build.add (← x.linear registers) (← y.linear registers))
  | .sub x y => do
      let b ← y.linear registers
      let a ← x.linear registers
      asItem (Build.sub a b)
  | .mul x y message => do
      asItem (Build.mul (← x.linear registers) (← y.linear registers)
        (message.getD "multiplication error"))
  | .div x y message => do
      let dividend ← x.item registers
      asItem (Build.div (← Build.expression dividend) (← y.linear registers)
        (message.getD "division error") dividend.isFlag)
  | .not x => do asItem (Build.not (← x.linear registers))
  | .and x y => do asItem (Build.and (← x.linear registers) (← y.linear registers))
  | .sum xs start => do
      let first ← start.linear registers
      let rest ← xs.mapM fun x => x.linear registers
      asItem (Build.sum rest first)
  | .select b t f => do
      Build.select (← b.item registers) (← t.item registers) (← f.item registers)
  | .gate x y z message => do
      let output ← z.item registers
      asNothing (Build.gate (← x.linear registers) (← y.linear registers)
        (← Build.expression output) (message.getD "assertion error") output.isFlag)
  | .assertZero x message => do
      asNothing (Build.assertZero (← x.linear registers)
        (message.getD "EQZ assertion failed"))
  | .assertBit x message => do
      asNothing (Build.assertBit (← x.linear registers)
        (message.getD "IS_BOOL assertion failed"))
  | .connect x y message => do
      let b ← y.linear registers
      let a ← x.linear registers
      asNothing (Build.connect a b (message.getD "CONNECT assertion failed"))
  | .read x => do
      let item ← x.item registers
      let s ← get
      match item.linear? with
      | some y =>
          match s.read y with
          | .ok v => return Item.integer v
          | .error e => fail e
      | none => fail .unsupported
  | .ask query => do
      let s ← get
      match query.answer (around.shapes s) s with
      | .ok item => return item
      | .error e => fail e
  | .freeze => asNothing Build.freeze

end Instruction

namespace Step

def store (registers : Registers) (target : Option String) (item : Item) : Registers :=
  match target with
  | some name => Entries.put name item registers
  | none => registers

def run (around : Surroundings) (registers : Registers) (step : Step) : Build Item :=
  match step.instruction.reads.find? fun name => (Entries.get? name registers).isNone with
  | some name => fail (.unset name)
  | none => step.instruction.run around registers

def runAll (around : Surroundings) : List Step → Registers → Build Registers
  | [], registers => pure registers
  | step :: rest, registers => do
      let item ← step.run around registers
      runAll around rest (store registers step.target item)

end Step

def Surroundings.ofWitness {P : Type} (w : Option (Witness P)) : Surroundings where
  parameters name := (Witness.get w name).wireValue name
  shapes s := [s.shape]

def Circuit.ofSteps {P : Type} (name one : String) (steps : List Step) : Circuit P where
  name := name
  body w := do
    let s ← get
    let _ ← Step.runAll (Surroundings.ofWitness w) steps [(one, .scalar (s.wireAt 0))]
    return ()

end RankOne
