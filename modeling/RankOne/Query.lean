import RankOne.Item
import RankOne.Shape.Encoding

/-!
# Questions to a system

What a system tells about itself and about its shape, as items, so that a program can go on with
the answer. The layout has lost the owners of its combinations, and no system takes them for its
own again.
-/

set_option autoImplicit false

namespace RankOne

inductive Query
  | inputs
  | check
  | values
  | entries
  | gates
  | counts
  | names
  | layout
  | digest
  | roundTrip [ShapeCoding]
  | same (other : Int)

namespace Item

def ofValue : Option Int → Item
  | some v => integer v
  | none => .nothing

def ofMessage : Option String → Item
  | some message => .text message
  | none => .nothing

def ofEntry (entry : Nat × String) : Item :=
  .tuple [integer entry.1, .text entry.2]

def ofFlag? : Linear → Bool → Option Item
  | .constant value, true => some (.flag (value ≠ 0))
  | _, _ => none

def ofGate (g : Gate) : Item :=
  let output := (ofFlag? g.output g.outputIsFlag).getD (.scalar g.output)
  .tuple [.scalar g.left, .scalar g.right, output, .text g.message]

def ofCounts (c : Counts) : Item :=
  .tuple [integer c.wires, integer c.gates, integer c.entries]

def ofPart : Shape.Part → Item
  | .constant value => integer value
  | .terms terms => .scalar (.combination ⟨terms, none⟩)
  | .label message => .text message

def partsOf (g : Gate) : List Item :=
  let output := (ofFlag? g.output g.outputIsFlag).getD (ofPart (Shape.Part.of g.output))
  [ofPart (Shape.Part.of g.left), ofPart (Shape.Part.of g.right), output, .text g.message]

def ofCopy (s copy : Shape) : Item :=
  .list [.flag (copy.same s), ofCounts copy.counts, .bytes copy.digest]

end Item

def Query.answer (shapes : List Shape) (s : R1CS) : Query → Except Fault Item
  | .inputs =>
      match s.inputs with
      | .ok numbers => .ok (.list (numbers.map Item.integer))
      | .error e => .error e
  | .check =>
      match s.check with
      | .ok message => .ok (Item.ofMessage message)
      | .error e => .error e
  | .values => .ok (.list (s.values.map Item.ofValue))
  | .entries => .ok (.list (s.shape.sortedEntries.map Item.ofEntry))
  | .gates => .ok (.list (s.gates.map Item.ofGate))
  | .counts => .ok (Item.ofCounts s.shape.counts)
  | .names => .ok (.list (s.shape.names.map Item.text))
  | .layout => .ok (.list (s.shape.gates.flatMap Item.partsOf))
  | .digest => .ok (.bytes s.shape.digest)
  | @roundTrip coding =>
      match coding.parse (coding.toBytes s.shape) with
      | .ok copy => .ok (Item.ofCopy s.shape copy)
      | .error e => .error e
  | .same other =>
      match (placeAmong shapes.length other).bind fun i => shapes[i]? with
      | some t => .ok (.flag (s.shape.same t))
      | none => .error .outOfRange

end RankOne
