import RankOne.Argument.Key
import RankOne.Circuit
import RankOne.Json.Parser
import RankOne.Json.Printer
import RankOne.Scalar

/-!
# Keys, proofs and inputs for other tools

The exchange forms as JSON values. Coordinates and field elements are decimal texts, so that no
reader passes them through a number type and loses digits.
-/

set_option autoImplicit false

namespace RankOne.Exchange

open Unicode (Codes)

variable {G₁ G₂ : Type} [CodedGroup G₁] [CodedGroup G₂]

def ofPoint {G : Type} [CodedGroup G] (x : G) : Json :=
  .list ((CodedGroup.parts x).map Json.ofString)

def texts? : List Json → Option (List Codes)
  | [] => some []
  | .text t :: rest => (texts? rest).map (t :: ·)
  | _ => none

def point (G : Type) [CodedGroup G] (invalid : Malformed) : Json → Except Fault G
  | .list items =>
      match texts? items with
      | none => .error (.malformed .notPoint)
      | some ts =>
          match (Unicode.chars? (List.intercalate [32] ts)).bind CodedGroup.ofText? with
          | some x => .ok x
          | none => .error (.malformed invalid)
  | _ => .error (.malformed .notPoint)

def first (G : Type) [CodedGroup G] : Json → Except Fault G :=
  point G .firstGroup

def second (G : Type) [CodedGroup G] : Json → Except Fault G :=
  point G .secondGroup

def scalar : Json → Except Fault Int
  | .text t =>
      if t.isEmpty ∨ !t.all Json.isDigit then .error (.malformed .notDecimal)
      else if t.length > Json.digitLimit then .error (.unusable .digitLimit)
      else
        let u : Int := Json.digitsValue t
        if u ≥ order then .error (.malformed .fieldRange) else .ok u
  | _ => .error (.malformed .notDecimal)

def field (x : Json) (name : String) : Except Fault Json :=
  match x with
  | .object fields =>
      match Entries.get? (Unicode.ofString name) fields with
      | some v => .ok v
      | none => .error (.malformed (.noField name))
  | _ => .error (.malformed (.noField name))

def ofVerifyingKey (vk : VerifyingKey G₁ G₂) : Json :=
  Json.ofFields
    [("alpha", ofPoint vk.alpha₁), ("beta", ofPoint vk.beta₂), ("gamma", ofPoint vk.gamma₂),
      ("delta", ofPoint vk.delta₂), ("gamma_abc", .list (vk.publicColumns.map ofPoint))]

def verifyingKey (x : Json) : Except Fault (VerifyingKey G₁ G₂) := do
  match ← field x "gamma_abc" with
  | .list (column :: columns) => do
      let alpha₁ ← first G₁ (← field x "alpha")
      let beta₂ ← second G₂ (← field x "beta")
      let gamma₂ ← second G₂ (← field x "gamma")
      let delta₂ ← second G₂ (← field x "delta")
      let publicColumns ← (column :: columns).mapM (first G₁)
      return ⟨columns.length + 1, alpha₁, beta₂, gamma₂, delta₂, publicColumns⟩
  | _ => throw (.malformed .emptyInputKey)

def ofProof (p : Proof G₁ G₂) : Json :=
  Json.ofFields [("a", ofPoint p.a), ("b", ofPoint p.b), ("c", ofPoint p.c)]

def proof (x : Json) : Except Fault (Proof G₁ G₂) := do
  let a ← first G₁ (← field x "a")
  let b ← second G₂ (← field x "b")
  let c ← first G₁ (← field x "c")
  return ⟨a, b, c⟩

mutual

def innerText {P : Type} : Datum P → List Char
  | .absent => "None".toList
  | .other kind => kind.toList
  | .flag true => "True".toList
  | .flag false => "False".toList
  | .number value => (toString value).toList
  | .text value => Text.quoted (Unicode.toText value).toList
  | .bytes value => 'b' :: Text.quotedBytes value
  | .proof _ => "Proof".toList
  | .list items => '[' :: (", ".toList.intercalate (innerTexts items) ++ [']'])
  | .tuple [item] => '(' :: (innerText item ++ [',', ')'])
  | .tuple items => '(' :: (", ".toList.intercalate (innerTexts items) ++ [')'])

def innerTexts {P : Type} : List (Datum P) → List (List Char)
  | [] => []
  | d :: ds => innerText d :: innerTexts ds

end

def inputText {P : Type} : Datum P → Codes
  | .text value => value
  | d => (innerText d).map Char.toNat

def ofInputs {P : Type} (names : List Codes) (inputs : List (Datum P)) : Except Fault Json :=
  if names.length = inputs.length then
    .ok (.object (Entries.ofPairs (names.zip (inputs.map fun u => .text (inputText u)))))
  else .error (.unusable .unequalLengths)

def inputs : Json → Except Fault (List Codes × List Int)
  | .object fields =>
      match fields.mapM fun field => scalar field.2 with
      | .ok values => .ok (fields.map Prod.fst, values)
      | .error e => .error e
  | _ => .error (.malformed .notMapping)

end RankOne.Exchange
