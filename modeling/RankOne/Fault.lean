/-!
# What can go wrong

Every failure of the library is a cause, sorted by what the caller did: a value that was never
supplied, a constraint over wires of another system, a file that is no proof, and so on. The
wording that a user reads is one function of the cause.
-/

set_option autoImplicit false

namespace RankOne

inductive Missing
  | named (name : String)
  | wire (index : Int)
deriving DecidableEq, Repr

inductive Mismatch
  | foreignVariable
  | provingKey (circuit : String)
  | noInnerKey
  | innerInputs (expected : Int) (got : Nat)
  | movingShape
deriving DecidableEq, Repr

inductive Malformed
  | shortData
  | longData
  | firstGroup
  | secondGroup
  | proofSize (expected got : Nat)
  | keysDisagree
  | notProof (kind : String)
  | inputCount (expected : Int) (got : Nat)
  | inputRange
  | nameCount (expected got : Nat)
  | limbCount (expected got : Nat)
  | limbRange
  | outerCount (expected : Int) (got : Nat)
  | notPoint
  | notDecimal
  | fieldRange
  | noField (name : String)
  | emptyInputKey
  | notMapping
  | notJson
deriving DecidableEq, Repr

inductive Phase
  | baseCase
  | recursiveStep
  | done
deriving DecidableEq, Repr

def Phase.text : Phase → String
  | .baseCase => "base case"
  | .recursiveStep => "recursive step"
  | .done => "done"

inductive Unusable
  | noInverse
  | unequalLengths
  | tooFewValues
  | digitLimit
  | numeral
  | workers
  | mode
  | witnessPair
  | chainLength
  | embeddedNul
deriving DecidableEq, Repr

inductive Refusal
  | notFound
  | alreadyThere
  | isDirectory
  | notDirectory
  | nameTooLong
  | other
deriving DecidableEq, Repr

inductive Fault
  | missing (cause : Missing)
  | mismatch (cause : Mismatch)
  | frozen
  | noConstraints (circuit : String)
  | unsatisfied (message : String)
  | malformed (cause : Malformed)
  | wrongPhase (found expected : Phase)
  | unusable (cause : Unusable)
  | wrongKind
  | unsupported
  | notScalar
  | outOfRange
  | absent (name : String)
  | unset (register : String)
  | rootOrder
  | emptySearch
  | zeroModulus
  | countRange
  | abstractCircuit
  | tooDeep
  | refused (cause : Refusal)
deriving DecidableEq, Repr

def Missing.message : Missing → String
  | .named name => "no value assigned to " ++ name
  | .wire index => "wire " ++ toString index ++ " has no value"

def Mismatch.message : Mismatch → String
  | .foreignVariable => "variable is not owned by this constraint system"
  | .provingKey circuit => "circuit " ++ circuit ++ " does not match the proving key"
  | .noInnerKey => "the inner verifying key is required to check a proof"
  | .innerInputs expected got =>
      "expected " ++ toString expected ++ " inner inputs, got " ++ toString got
  | .movingShape => "the cyclic circuit changes shape when given its own key"

def Malformed.message : Malformed → String
  | .shortData => "unexpected end of data"
  | .longData => "trailing data"
  | .firstGroup => "invalid G1 element"
  | .secondGroup => "invalid G2 element"
  | .proofSize expected got =>
      "a proof has " ++ toString expected ++ " bytes, got " ++ toString got
  | .keysDisagree => "proving and verifying keys disagree"
  | .notProof kind => "expected a proof, got " ++ kind
  | .inputCount expected got =>
      "expected " ++ toString expected ++ " public inputs, got " ++ toString got
  | .inputRange => "public inputs have to be field elements"
  | .nameCount expected got =>
      "expected " ++ toString expected ++ " public input names, got " ++ toString got
  | .limbCount expected got => "expected " ++ toString expected ++ " limbs, got " ++ toString got
  | .limbRange => "limb out of range"
  | .outerCount expected got =>
      "expected " ++ toString expected ++ " outer inputs, got " ++ toString got
  | .notPoint => "a group element is a list of decimal strings"
  | .notDecimal => "a field element is a decimal string"
  | .fieldRange => "field element out of range"
  | .noField name => "missing field " ++ name
  | .emptyInputKey => "gamma_abc has to be a non-empty list"
  | .notMapping => "public inputs have to be a mapping"
  | .notJson => "invalid JSON"

def Fault.message? : Fault → Option String
  | .missing cause => some cause.message
  | .mismatch cause => some cause.message
  | .frozen => some "constraint system is frozen"
  | .noConstraints circuit => some ("circuit " ++ circuit ++ " emits no constraints")
  | .unsatisfied message => some message
  | .malformed cause => some cause.message
  | .wrongPhase found expected =>
      some ("chain is in state " ++ found.text ++ ", expected " ++ expected.text)
  | .unusable .witnessPair => some "p and q must be provided as -a p=... q=..."
  | .unusable .chainLength => some "a chain has at least one proof"
  | _ => none

end RankOne
