import RankOne.Binary64
import RankOne.Entries
import RankOne.Text.Unicode

/-!
# Values of the exchange format

JSON values. Integers are exact and kept apart from numbers with a fraction or an exponent. An
object keeps its fields in order of arrival.
-/

set_option autoImplicit false

namespace RankOne

inductive Json
  | null
  | bool (value : Bool)
  | int (value : Int)
  | real (value : Binary64)
  | text (value : Unicode.Codes)
  | list (items : List Json)
  | object (fields : List (Unicode.Codes × Json))
deriving Repr, Inhabited

namespace Json

def ofString (s : String) : Json :=
  .text (Unicode.ofString s)

def ofFields (fields : List (String × Json)) : Json :=
  .object (Entries.ofPairs (fields.map fun field => (Unicode.ofString field.1, field.2)))

end Json

end RankOne
