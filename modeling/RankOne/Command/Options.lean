import RankOne.Text.Numeral

/-!
# Words of a command line

A word is a value or an option. An option is spelled by a letter after one dash or by a name after
two; a name may be cut short as long as one option alone begins with it. A value may be attached
to its option, by an equals sign or, after a letter, by nothing at all. After the word of two
dashes every word is a value; attached to an option that word leaves it without one.
-/

set_option autoImplicit false

namespace RankOne

inductive Arity
  | none
  | one
  | any
deriving DecidableEq, Repr

structure CommandOption (κ : Type) where
  key : κ
  letter : Char
  name : String
  arity : Arity
deriving Repr

namespace CommandOption

variable {κ : Type}

inductive Word (κ : Type)
  | value
  | spelled (x : CommandOption κ) (attached : Option String)
  | unknown
  | ambiguous
  | marker

def isNegativeNumber (afterDash : List Char) : Bool :=
  let cs := if afterDash.getLast? = some '\n' then afterDash.dropLast else afterDash
  let isDigit := fun c => (Text.decimalValue? c).isSome
  match cs.dropWhile isDigit with
  | [] => !cs.isEmpty
  | '.' :: rest => !rest.isEmpty && rest.all isDigit
  | _ => false

def otherWord (afterDash : List Char) : Word κ :=
  if isNegativeNumber afterDash || ' ' ∈ afterDash then .value else .unknown

def splitAttached : List Char → List Char × Option (List Char)
  | [] => ([], none)
  | c :: rest =>
      if c = '=' then ([], some rest)
      else (c :: (splitAttached rest).1, (splitAttached rest).2)

def longWord (options : List (CommandOption κ)) (afterDashes : List Char) : Word κ :=
  let (stem, attached) := splitAttached afterDashes
  let attached := attached.map String.ofList
  match options.find? fun x => x.name.toList = stem with
  | some x => .spelled x attached
  | none =>
      match options.filter fun x => stem.isPrefixOf x.name.toList with
      | [] => otherWord ('-' :: afterDashes)
      | [x] => .spelled x attached
      | _ => .ambiguous

def shortWord (options : List (CommandOption κ)) (letter : Char) (rest : List Char) : Word κ :=
  match options.find? fun x => x.letter = letter with
  | none => otherWord (letter :: rest)
  | some x =>
      match rest with
      | [] => .spelled x none
      | '=' :: value => .spelled x (some (String.ofList value))
      | value => .spelled x (some (String.ofList value))

def word (options : List (CommandOption κ)) (text : String) : Word κ :=
  match text.toList with
  | '-' :: '-' :: rest => longWord options rest
  | '-' :: letter :: rest => shortWord options letter rest
  | _ => .value

def words (options : List (CommandOption κ)) : List String → List (String × Word κ)
  | [] => []
  | text :: rest =>
      if text = "--" then (text, .marker) :: rest.map fun value => (value, .value)
      else (text, word options text) :: words options rest

inductive Event (κ : Type)
  | chosen (key : κ) (values : List String)
  | stray
  | command (name : String) (rest : List String)
  | misuse

def leadingValues : List (String × Word κ) → List String
  | (text, .value) :: rest => text :: leadingValues rest
  | _ => []

def attachedValues (text : String) : List String :=
  if text = "--" then [] else [text]

def eventsFrom (commands : Bool) : Nat → List (String × Word κ) → List (Event κ)
  | _, [] => []
  | used + 1, _ :: rest => eventsFrom commands used rest
  | 0, (text, kind) :: rest =>
      match kind with
      | .value =>
          if commands then [.command text (rest.map Prod.fst)]
          else .stray :: eventsFrom commands 0 rest
      | .unknown => .stray :: eventsFrom commands 0 rest
      | .marker => if commands then [.misuse] else .stray :: eventsFrom commands 0 rest
      | .ambiguous => [.misuse]
      | .spelled x (some value) =>
          match x.arity with
          | .none => [.misuse]
          | _ => .chosen x.key (attachedValues value) :: eventsFrom commands 0 rest
      | .spelled x none =>
          match x.arity with
          | .none => .chosen x.key [] :: eventsFrom commands 0 rest
          | .one =>
              match leadingValues rest with
              | [] => [.misuse]
              | value :: _ => .chosen x.key [value] :: eventsFrom commands 1 rest
          | .any =>
              let values := leadingValues rest
              .chosen x.key values :: eventsFrom commands values.length rest

def isAmbiguous : Word κ → Bool
  | .ambiguous => true
  | _ => false

def events (options : List (CommandOption κ)) (commands : Bool) (line : List String) :
    List (Event κ) :=
  let ws := words options line
  if ws.any fun w => isAmbiguous w.2 then [.misuse] else eventsFrom commands 0 ws

end CommandOption

end RankOne
