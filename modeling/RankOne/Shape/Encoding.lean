import RankOne.Bytes
import RankOne.Shape

/-!
# The stored form of a shape

A shape is stored for whoever wants to derive a key again without the circuit. How it is stored is
left open: whatever saves a shape or reads one takes the form as given, and all that it can count
on is that what was stored is read back. One such form is built here from codings of the parts,
each of which reads back what it wrote whatever comes after it.
-/

set_option autoImplicit false

namespace RankOne

class ShapeCoding where
  toBytes : Shape → Bytes
  parse : Bytes → Except Fault Shape
  parse_toBytes (s : Shape) : parse (toBytes s) = .ok s

structure Coding (α : Type) where
  toBytes : α → Bytes
  parse : Parse α
  parse_append (x : α) (rest : Bytes) : parse (toBytes x ++ rest) = .ok (x, rest)

namespace Bytes

-- seven bits to a byte, the lowest first, and a byte of 128 or more has another after it
def ofNatural (n : Nat) : Bytes :=
  if n < 128 then [n.toUInt8] else (n % 128 + 128).toUInt8 :: ofNatural (n / 128)

def natural : Parse Nat
  | [] => .error (.malformed .shortData)
  | b :: rest =>
      if b.toNat < 128 then .ok (b.toNat, rest)
      else
        match natural rest with
        | .ok (n, rest) => .ok (b.toNat - 128 + 128 * n, rest)
        | .error e => .error e

theorem toNat_toUInt8 {n : Nat} (h : n < 256) : n.toUInt8.toNat = n := by
  simp [Nat.mod_eq_of_lt h]

theorem natural_ofNatural (n : Nat) (rest : Bytes) :
    natural (ofNatural n ++ rest) = .ok (n, rest) := by
  induction n using Nat.strongRecOn with
  | ind n ih =>
    rw [ofNatural]
    split
    · simp [natural, toNat_toUInt8 (by omega : n < 256), *]
    · have hbig : ¬n % 128 + 128 < 128 := by omega
      have hn : n % 128 + 128 - 128 + 128 * (n / 128) = n := by omega
      simp only [List.cons_append, natural, toNat_toUInt8 (by omega : n % 128 + 128 < 256), hbig,
        if_false, ih (n / 128) (by omega), hn]

end Bytes

namespace Coding

variable {α β : Type}

def natural : Coding Nat where
  toBytes := Bytes.ofNatural
  parse := Bytes.natural
  parse_append := Bytes.natural_ofNatural

def pair (f : Coding α) (g : Coding β) : Coding (α × β) where
  toBytes x := f.toBytes x.1 ++ g.toBytes x.2
  parse data := do
    let (a, data) ← f.parse data
    let (b, data) ← g.parse data
    return ((a, b), data)
  parse_append x rest := by
    simp [f.parse_append, g.parse_append, bind, Except.bind, pure, Except.pure]

def either (f : Coding α) (g : Coding β) : Coding (α ⊕ β) where
  toBytes
    | .inl a => 0 :: f.toBytes a
    | .inr b => 1 :: g.toBytes b
  parse
    | [] => .error (.malformed .shortData)
    | mark :: data =>
        if mark = 0 then (f.parse data).map fun (a, data) => (.inl a, data)
        else (g.parse data).map fun (b, data) => (.inr b, data)
  parse_append x rest := by
    cases x <;> simp [f.parse_append, g.parse_append, Except.map]

def list (f : Coding α) : Coding (List α) where
  toBytes xs := Bytes.ofNatural xs.length ++ xs.flatMap f.toBytes
  parse data := do
    let (n, data) ← Bytes.natural data
    Bytes.many f.parse n data
  parse_append xs rest := by
    have hmany : Bytes.many f.parse xs.length (xs.flatMap f.toBytes ++ rest) = .ok (xs, rest) := by
      induction xs with
      | nil => rfl
      | cons x xs ih => simp [Bytes.many, f.parse_append, ih]
    simp [Bytes.natural_ofNatural, hmany, bind, Except.bind]

/-- Codes a value as another from which it can be told. -/
def via (f : Coding β) (code : α → β) (value : β → α) (h : ∀ x, value (code x) = x) :
    Coding α where
  toBytes x := f.toBytes (code x)
  parse data := (f.parse data).map fun (b, data) => (value b, data)
  parse_append x rest := by simp [f.parse_append, Except.map, h]

def integer : Coding Int :=
  (natural.either natural).via
    (fun | .ofNat n => .inl n | .negSucc n => .inr n)
    (fun | .inl n => .ofNat n | .inr n => .negSucc n)
    (by rintro (n | n) <;> rfl)

def text : Coding String :=
  natural.list.via (fun s => s.toList.map Char.toNat) (fun ns => String.ofList (ns.map Char.ofNat))
    (by simp [Function.comp_def])

def owner : Coding (Option Nat) :=
  natural.list.via Option.toList List.head? (by rintro (_ | n) <;> rfl)

def linear : Coding Linear :=
  (integer.either ((integer.pair integer).list.pair owner)).via
    (fun | .constant value => .inl value | .combination x => .inr (x.terms, x.owner))
    (fun | .inl value => .constant value | .inr x => .combination ⟨x.1, x.2⟩)
    (by rintro (n | x) <;> rfl)

def gate : Coding Gate :=
  (linear.pair (linear.pair (linear.pair (text.pair natural)))).via
    (fun g => (g.left, g.right, g.output, g.message, g.outputIsFlag.toNat))
    (fun x => ⟨x.1, x.2.1, x.2.2.1, x.2.2.2.1, x.2.2.2.2 ≠ 0⟩)
    (by rintro ⟨x, y, z, message, _ | _⟩ <;> rfl)

def shape : Coding Shape :=
  (natural.pair ((natural.pair text).list.pair gate.list)).via
    (fun s => (s.wireCount, s.entries, s.gates)) (fun x => ⟨x.1, x.2.1, x.2.2⟩) fun _ => rfl

end Coding

instance : ShapeCoding where
  toBytes := Coding.shape.toBytes
  parse data := (Coding.shape.parse data).map Prod.fst
  parse_toBytes s := by
    have h := Coding.shape.parse_append s []
    rw [List.append_nil] at h
    rw [h]
    rfl

end RankOne
