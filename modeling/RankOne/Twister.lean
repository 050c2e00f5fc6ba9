import RankOne.Randomness

/-!
# A seeded generator

The generator MT19937, seeded by the words of a number, and the residues drawn from it. A residue
takes 255 bits and is drawn again as long as it is too large, so that each one is equally likely.
-/

set_option autoImplicit false

namespace RankOne.Twister

def size : Nat := 624

structure Generator where
  words : Array UInt32
  next : Nat

def at? (words : Array UInt32) (i : Nat) : UInt32 :=
  words.getD (i % size) 0

def spread (seed : UInt32) : Array UInt32 :=
  (List.range (size - 1)).foldl
    (fun words i =>
      let w := at? words i
      words.push ((1812433253 : UInt32) * (w ^^^ (w >>> 30)) + UInt32.ofNat (i + 1)))
    #[seed]

def wordsOf (n : Nat) : List UInt32 :=
  if n < 4294967296 then [UInt32.ofNat n]
  else UInt32.ofNat n :: wordsOf (n / 4294967296)
termination_by n

def wrap (words : Array UInt32) (i : Nat) : Array UInt32 × Nat :=
  if i + 1 ≥ size then (words.set! 0 (at? words (size - 1)), 1) else (words, i + 1)

def mixed (words : Array UInt32) (i : Nat) (factor : UInt32) : UInt32 :=
  let w := at? words (i - 1)
  at? words i ^^^ ((w ^^^ (w >>> 30)) * factor)

def mixSeed (seed : Array UInt32) : Nat → Array UInt32 → Nat → Nat → Array UInt32 × Nat
  | 0, words, i, _ => (words, i)
  | n + 1, words, i, j =>
      let w := mixed words i 1664525 + seed.getD j 0 + UInt32.ofNat j
      let r := wrap (words.set! i w) i
      mixSeed seed n r.1 r.2 (if j + 1 ≥ seed.size then 0 else j + 1)

def mixIndex : Nat → Array UInt32 → Nat → Array UInt32
  | 0, words, _ => words
  | n + 1, words, i =>
      let w := mixed words i 1566083941 - UInt32.ofNat i
      let r := wrap (words.set! i w) i
      mixIndex n r.1 r.2

def ofSeed (seed : Int) : Generator :=
  let key := (wordsOf seed.natAbs).toArray
  let r := mixSeed key (max size key.size) (spread 19650218) 1 0
  let words := mixIndex (size - 1) r.1 r.2
  ⟨words.set! 0 0x80000000, size⟩

def twist (words : Array UInt32) (i : Nat) : UInt32 :=
  let y := (at? words i &&& 0x80000000) ||| (at? words (i + 1) &&& 0x7fffffff)
  at? words (i + 397) ^^^ (y >>> 1) ^^^ (if y &&& 1 = 0 then 0 else 0x9908b0df)

def refill (words : Array UInt32) : Array UInt32 :=
  (List.range size).foldl (fun words i => words.set! i (twist words i)) words

def temper (y : UInt32) : UInt32 :=
  let y := y ^^^ (y >>> 11)
  let y := y ^^^ ((y <<< 7) &&& 0x9d2c5680)
  let y := y ^^^ ((y <<< 15) &&& 0xefc60000)
  y ^^^ (y >>> 18)

def output (g : Generator) : UInt32 × Generator :=
  if g.next < size then (temper (at? g.words g.next), { g with next := g.next + 1 })
  else
    let words := refill g.words
    (temper (at? words 0), ⟨words, 1⟩)

def bits (g : Generator) : Nat → Nat → Nat × Generator
  | 0, shift =>
      let r := output g
      ((r.1 >>> 1).toNat <<< shift, r.2)
  | n + 1, shift =>
      let r := output g
      let rest := bits r.2 n (shift + 32)
      (r.1.toNat <<< shift + rest.1, rest.2)

def residue (g : Generator) : Nat → Int × Generator
  | 0 => (1, g)
  | fuel + 1 =>
      let r := bits g 7 0
      if (r.1 : Int) < order - 1 then (1 + r.1, r.2) else residue r.2 fuel

def attempts : Nat := 4096

instance : RandomSource Generator where
  draw g := residue g attempts

end RankOne.Twister
