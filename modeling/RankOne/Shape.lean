import RankOne.R1CS
import RankOne.Sha256
import RankOne.Text.Quoted

/-!
# Shapes

The part of a system that no witness can change: how many wires there are, which of them are
public and under what name, and the gates. Keys are derived from a shape, and a key remembers it
by a digest. The digest covers the relation and the public names; messages and owners do not
count, and constants count modulo the order. Numbers are printed however long they are, although
a runtime that prints no number of more than 4300 digits has no digest of a shape with a longer
one. Names are texts, and so without lone surrogates.
-/

set_option autoImplicit false

namespace RankOne

structure Shape where
  wireCount : Nat
  entries : List (Nat × String)
  gates : List Gate
deriving DecidableEq, Repr

structure Counts where
  wires : Nat
  gates : Nat
  entries : Nat
deriving DecidableEq, Repr

def R1CS.shape (s : R1CS) : Shape :=
  ⟨s.wireCount, s.entries, s.gates⟩

namespace Shape

def counts (s : Shape) : Counts :=
  ⟨s.wireCount, s.gates.length, s.entries.length⟩

def names (s : Shape) : List String :=
  (s.entries.filter fun entry => entry.1 ≠ 0).map Prod.snd

inductive Part
  | constant (value : Int)
  | terms (terms : List (Int × Int))
  | label (message : String)
deriving DecidableEq, Repr

def Part.of : Linear → Part
  | .constant value => .constant value
  | .combination x => .terms x.sortedTerms

def gateSides (g : Gate) : List Part :=
  [Part.of g.left, Part.of g.right, Part.of g.output]

def layout (s : Shape) : List Part :=
  s.gates.flatMap fun g => gateSides g ++ [.label g.message]

def sides (s : Shape) : List Part :=
  s.gates.flatMap gateSides

def entryLe (x y : Nat × String) : Bool :=
  x.1 < y.1 || (x.1 == y.1 && decide (x.2 ≤ y.2))

def sortedEntries (s : Shape) : List (Nat × String) :=
  s.entries.mergeSort entryLe

def same (s t : Shape) : Bool :=
  s.wireCount == t.wireCount && s.sortedEntries == t.sortedEntries && s.layout == t.layout

def listText (l r : String) (xs : List String) : String :=
  l ++ String.intercalate ", " xs ++ r

def tupleText : List String → String
  | [x] => "(" ++ x ++ ",)"
  | xs => listText "(" ")" xs

def nameText (name : String) : String :=
  String.ofList (Text.quoted name.toList)

def entryText (entry : Nat × String) : String :=
  tupleText [toString entry.1, nameText entry.2]

def termText (term : Int × Int) : String :=
  tupleText [toString term.1, toString term.2]

def partText : Part → String
  | .constant value => toString (reduce value)
  | .terms terms => tupleText (terms.map termText)
  | .label message => nameText message

def text (s : Shape) : String :=
  tupleText
    [toString s.wireCount,
      listText "[" "]" (s.sortedEntries.map entryText),
      listText "[" "]" (s.sides.map partText)]

def digest (s : Shape) : List UInt8 :=
  Sha256.digest s.text.toUTF8.toList

end Shape

end RankOne
