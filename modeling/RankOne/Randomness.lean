import RankOne.Fault
import RankOne.Scalar

/-!
# Sources of randomness

A source yields nonzero residues of the scalar field, one at a time. Whatever consumes randomness
runs in a state that keeps the source also when it fails, so that it shows how much was drawn.
-/

set_option autoImplicit false

namespace RankOne

class RandomSource (σ : Type) where
  draw : σ → Int × σ

structure Script where
  values : List Int
deriving DecidableEq, Repr

instance : RandomSource Script where
  draw
    | ⟨[]⟩ => (1, ⟨[]⟩)
    | ⟨v :: rest⟩ => (v, ⟨rest⟩)

instance {σ τ : Type} [RandomSource σ] [RandomSource τ] : RandomSource (σ ⊕ τ) where
  draw
    | .inl source => ((RandomSource.draw source).1, .inl (RandomSource.draw source).2)
    | .inr source => ((RandomSource.draw source).1, .inr (RandomSource.draw source).2)

abbrev Random (σ : Type) := ExceptT Fault (StateM σ)

namespace Random

variable {σ α : Type}

def draw [RandomSource σ] : Random σ Int :=
  ExceptT.mk fun source =>
    let r := RandomSource.draw source
    (.ok r.1, r.2)

def ofExcept (r : Except Fault α) : Random σ α :=
  ExceptT.mk fun source => (r, source)

end Random

end RankOne
