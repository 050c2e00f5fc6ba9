import RankOne.Json.Value

/-!
# Tokens of JSON

The lexical level: white space is skipped, and the rest is cut into brackets, separators and
scalars. What is no token ends the list, and so does an integer with too many digits: it is a
fault of its own, but only where a value may stand.
-/

set_option autoImplicit false

namespace RankOne.Json

inductive Token
  | openList
  | closeList
  | openObject
  | closeObject
  | comma
  | colon
  | scalar (value : Json)
  | overlong
  | bad
deriving Repr

open Unicode (Codes)

def isBlank (c : Nat) : Bool :=
  c = 32 || c = 9 || c = 10 || c = 13

def isDigit (c : Nat) : Bool :=
  48 ≤ c && c < 58

def hexValue? (c : Nat) : Option Nat :=
  if isDigit c then some (c - 48)
  else if 97 ≤ c ∧ c < 103 then some (c - 87)
  else if 65 ≤ c ∧ c < 71 then some (c - 55)
  else none

def hexUnit? (a b c d : Nat) : Option Nat :=
  match hexValue? a, hexValue? b, hexValue? c, hexValue? d with
  | some a, some b, some c, some d => some (((a * 16 + b) * 16 + c) * 16 + d)
  | _, _, _, _ => none

def shortEscape? (c : Nat) : Option Nat :=
  if c = 34 ∨ c = 92 ∨ c = 47 then some c
  else if c = 98 then some 8
  else if c = 102 then some 12
  else if c = 110 then some 10
  else if c = 114 then some 13
  else if c = 116 then some 9
  else none

def fourDigits? : Codes → Option (Nat × Codes)
  | a :: b :: c :: d :: rest => (hexUnit? a b c d).map fun u => (u, rest)
  | _ => none

def joinNext (u : Nat) (rest : Codes) : Nat × Codes :=
  match rest with
  | a :: b :: more =>
      if a = 92 ∧ b = 117 then
        match fourDigits? more with
        | some (v, tail) =>
            if Unicode.isHighSurrogate u && Unicode.isLowSurrogate v then
              (Unicode.joinPair u v, tail)
            else (u, rest)
        | none => (u, rest)
      else (u, rest)
  | _ => (u, rest)

def escape? : Codes → Option (Nat × Codes)
  | [] => none
  | c :: rest =>
      if c = 117 then (fourDigits? rest).map fun r => joinNext r.1 r.2
      else (shortEscape? c).map fun v => (v, rest)

theorem length_fourDigits? {cs rest : Codes} {u : Nat} (h : fourDigits? cs = some (u, rest)) :
    rest.length ≤ cs.length := by
  unfold fourDigits? at h
  split at h
  · simp only [Option.map_eq_some_iff, Prod.mk.injEq] at h
    obtain ⟨v, -, -, rfl⟩ := h
    simp only [List.length_cons]; omega
  · cases h

theorem length_joinNext (u : Nat) (rest : Codes) : (joinNext u rest).2.length ≤ rest.length := by
  unfold joinNext
  split
  · rename_i a b more
    split
    · split
      · rename_i v tail hv
        have := length_fourDigits? hv
        split <;> simp only [List.length_cons] <;> omega
      · exact Nat.le_refl _
    · exact Nat.le_refl _
  · exact Nat.le_refl _

theorem length_escape? {cs rest : Codes} {c : Nat} (h : escape? cs = some (c, rest)) :
    rest.length < cs.length := by
  unfold escape? at h
  split at h
  · cases h
  · split at h
    · simp only [Option.map_eq_some_iff] at h
      obtain ⟨⟨u, tail⟩, hu, hr⟩ := h
      have h₁ := length_fourDigits? hu
      have h₂ := length_joinNext u tail
      simp only [hr] at h₂
      simp only [List.length_cons]; omega
    · simp only [Option.map_eq_some_iff, Prod.mk.injEq] at h
      obtain ⟨v, -, -, rfl⟩ := h
      simp

def scanText (cs : Codes) : Option (Codes × Codes) :=
  match cs with
  | [] => none
  | c :: rest =>
      if c = 34 then some ([], rest)
      else if c = 92 then
        match h : escape? rest with
        | none => none
        | some (v, tail) =>
            have := length_escape? h
            (scanText tail).map fun r => (v :: r.1, r.2)
      else if c < 32 then none
      else (scanText rest).map fun r => (c :: r.1, r.2)
termination_by cs.length
decreasing_by all_goals simp only [List.length_cons]; omega

def digitsValue (cs : Codes) : Nat :=
  cs.foldl (fun n c => 10 * n + (c - 48)) 0

def integerPart : Codes → Codes × Codes
  | 48 :: rest => ([48], rest)
  | cs => cs.span isDigit

def fractionPart : Codes → Codes × Codes
  | 46 :: rest =>
      match rest.span isDigit with
      | ([], _) => ([], 46 :: rest)
      | (ds, tail) => (ds, tail)
  | cs => ([], cs)

def signedDigits : Codes → Bool × Codes × Codes
  | 45 :: rest => let r := rest.span isDigit; (true, r.1, r.2)
  | 43 :: rest => let r := rest.span isDigit; (false, r.1, r.2)
  | cs => let r := cs.span isDigit; (false, r.1, r.2)

def exponentPart : Codes → Option Int × Codes
  | c :: rest =>
      if c = 101 ∨ c = 69 then
        match signedDigits rest with
        | (_, [], _) => (none, c :: rest)
        | (true, ds, tail) => (some (-(digitsValue ds : Int)), tail)
        | (false, ds, tail) => (some (digitsValue ds : Int), tail)
      else (none, c :: rest)
  | [] => (none, [])

def digitLimit : Nat := 4300

def integerToken (negative : Bool) (digits : Codes) : Token :=
  if digits.length > digitLimit then .overlong
  else
    let n : Int := digitsValue digits
    .scalar (.int (if negative then -n else n))

def numberToken (negative : Bool) (cs : Codes) : Token × Codes :=
  match integerPart cs with
  | ([], rest) => (.bad, rest)
  | (whole, rest) =>
      match fractionPart rest with
      | (fraction, rest) =>
          match exponentPart rest with
          | (power, tail) =>
              if fraction.isEmpty ∧ power.isNone then (integerToken negative whole, tail)
              else
                (.scalar (.real (Binary64.ofDecimal negative (digitsValue (whole ++ fraction))
                  (power.getD 0 - fraction.length))), tail)

def literals : List (Codes × Json) :=
  [(Unicode.ofString "null", .null), (Unicode.ofString "true", .bool true),
    (Unicode.ofString "false", .bool false), (Unicode.ofString "NaN", .real .nan),
    (Unicode.ofString "Infinity", .real (.infinite false)),
    (Unicode.ofString "-Infinity", .real (.infinite true))]

def literal? (cs : Codes) : Option (Json × Codes) :=
  literals.findSome? fun entry =>
    if entry.1.isPrefixOf cs then some (entry.2, cs.drop entry.1.length) else none

def nextToken (c : Nat) (rest : Codes) : Token × Codes :=
  if c = 91 then (.openList, rest)
  else if c = 93 then (.closeList, rest)
  else if c = 123 then (.openObject, rest)
  else if c = 125 then (.closeObject, rest)
  else if c = 44 then (.comma, rest)
  else if c = 58 then (.colon, rest)
  else if c = 34 then
    match scanText rest with
    | some (t, tail) => (.scalar (.text t), tail)
    | none => (.bad, rest)
  else
    match literal? (c :: rest) with
    | some (value, tail) => (.scalar value, tail)
    | none => if c = 45 then numberToken true rest else numberToken false (c :: rest)

def tokensFrom : Nat → Codes → List Token
  | 0, _ => []
  | _, [] => []
  | fuel + 1, c :: rest =>
      if isBlank c then tokensFrom fuel rest
      else
        match nextToken c rest with
        | (.bad, _) => [.bad]
        | (.overlong, _) => [.overlong]
        | (token, tail) => token :: tokensFrom fuel tail

def tokens (cs : Codes) : List Token :=
  tokensFrom cs.length cs

end RankOne.Json
