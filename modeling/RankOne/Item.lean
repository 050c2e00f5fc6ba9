import RankOne.Arithmetic

/-!
# Items

What can stand where a builder asks for an operand: linear expressions, lists and tuples of items,
and what a system answers about itself. Only an expression can be computed with, and a truth value
as the constant that it counts for. A selection goes down to the places where neither branch can
be taken apart, so that between lists without entries nothing is computed at all.
-/

set_option autoImplicit false

namespace RankOne

inductive Item
  | scalar (x : Linear)
  | list (items : List Item)
  | tuple (items : List Item)
  | nothing
  | flag (value : Bool)
  | text (value : String)
  | bytes (value : List UInt8)
deriving Repr, Inhabited

def Linear.bit? : Linear → Option Bool
  | .constant k => if k = 0 then some false else if k = 1 then some true else none
  | .combination _ => none

namespace Item

def integer (n : Int) : Item :=
  .scalar (.constant n)

def linear? : Item → Option Linear
  | .scalar x => some x
  | .flag b => some (.constant (if b then 1 else 0))
  | _ => none

def entries? : Item → Option (List Item)
  | .list items => some items
  | .tuple items => some items
  | .text value => some (value.toList.map fun c => .text c.toString)
  | .bytes value => some (value.map fun b => integer b.toNat)
  | _ => none

def bit? (x : Item) : Option Bool :=
  x.linear?.bind Linear.bit?

def isFlag : Item → Bool
  | .flag _ => true
  | _ => false

end Item

namespace Build

def expression (x : Item) : Build Linear :=
  match x.linear? with
  | some y => do
      own [y]
      return y
  | none => do
      own []
      throw .unsupported

def selectBetween (b t f : Item) : Build Item := do
  let y ← expression f
  let x ← expression t
  let bit ← expression b
  .scalar <$> selectScalar bit x y

mutual

/-- The item `t` if `b` is 1 and `f` if `b` is 0. A list is selected from entry by entry, and the
answer is a list or a tuple as `t` is. -/
def select (b : Item) : Item → Item → Build Item
  | t, f =>
    match b.bit? with
    | some true => pure t
    | some false => pure f
    | none =>
      match t with
      | .list ts =>
          match f.entries? with
          | some fs => .list <$> selectAll b ts fs
          | none => throw .wrongKind
      | .tuple ts =>
          match f.entries? with
          | some fs => .tuple <$> selectAll b ts fs
          | none => throw .wrongKind
      | t => selectBetween b t f

def selectAll (b : Item) : List Item → List Item → Build (List Item)
  | [], [] => pure []
  | t :: ts, f :: fs => do
      let x ← select b t f
      let xs ← selectAll b ts fs
      return x :: xs
  | _, _ => throw (.unusable .unequalLengths)

end

end Build

end RankOne
