import RankOne.Json.Token

/-!
# Reading JSON

A reader of tokens that keeps the containers it is inside of on a stack. Each token changes the
state once, so the whole is a walk along the list of tokens.
-/

set_option autoImplicit false

namespace RankOne.Json

open Unicode (Codes)

inductive Frame
  | list (before : List Json)
  | object (before : List (Codes × Json)) (name : Codes)
deriving Repr

inductive State
  | wantValue (stack : List Frame)
  | firstItem (stack : List Frame)
  | firstField (stack : List Frame)
  | wantName (before : List (Codes × Json)) (stack : List Frame)
  | wantColon (before : List (Codes × Json)) (name : Codes) (stack : List Frame)
  | complete (value : Json) (stack : List Frame)
deriving Repr

def nestingLimit : Nat := 990

def notJson {α : Type} : Except Fault α :=
  .error (.malformed .notJson)

def enter (stack : List Frame) (next : State) : Except Fault State :=
  if stack.length ≥ nestingLimit then .error .tooDeep else .ok next

def beginValue (stack : List Frame) : Token → Except Fault State
  | .openList => enter stack (.firstItem stack)
  | .openObject => enter stack (.firstField stack)
  | .scalar value => .ok (.complete value stack)
  | .overlong => .error (.unusable .digitLimit)
  | _ => notJson

def beginName (before : List (Codes × Json)) (stack : List Frame) : Token → Except Fault State
  | .scalar (.text name) => .ok (.wantColon before name stack)
  | _ => notJson

def afterValue (value : Json) : List Frame → Token → Except Fault State
  | .list before :: stack, .comma => .ok (.wantValue (.list (value :: before) :: stack))
  | .list before :: stack, .closeList => .ok (.complete (.list (value :: before).reverse) stack)
  | .object before name :: stack, .comma => .ok (.wantName (Entries.put name value before) stack)
  | .object before name :: stack, .closeObject =>
      .ok (.complete (.object (Entries.put name value before)) stack)
  | _, _ => notJson

def State.next : State → Token → Except Fault State
  | .wantValue stack, token => beginValue stack token
  | .firstItem stack, .closeList => .ok (.complete (.list []) stack)
  | .firstItem stack, token => beginValue (.list [] :: stack) token
  | .firstField stack, .closeObject => .ok (.complete (.object []) stack)
  | .firstField stack, token => beginName [] stack token
  | .wantName before stack, token => beginName before stack token
  | .wantColon before field stack, .colon => .ok (.wantValue (.object before field :: stack))
  | .wantColon _ _ _, _ => notJson
  | .complete value stack, token => afterValue value stack token

def State.run : State → List Token → Except Fault State
  | s, [] => .ok s
  | s, token :: rest =>
      match s.next token with
      | .ok s => s.run rest
      | .error e => .error e

def parse (cs : Codes) : Except Fault Json :=
  match (State.wantValue []).run (tokens cs) with
  | .ok (.complete value []) => .ok value
  | .ok _ => notJson
  | .error e => .error e

def ofBytes (data : Bytes) : Except Fault Json :=
  match Unicode.decode? data with
  | some codes => parse codes
  | none => notJson

end RankOne.Json
