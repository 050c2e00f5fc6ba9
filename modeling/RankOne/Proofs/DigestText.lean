import Mathlib.Data.List.Forall2
import Mathlib.Data.Prod.Lex
import Mathlib.Data.String.Basic
import RankOne.Proofs.PrintedForm

/-!
# What the text of a shape identifies

Two shapes have one text exactly if they state one relation under the same public names: as many
wires, the same entries, as many gates, and in each gate the same three sides. The order in which a
map lists its entries does not count, nor do messages and owners, and constants count modulo the
order of the field.
-/

set_option autoImplicit false

namespace RankOne

section Sorting
variable {α κ : Type} [LinearOrder κ] {le : α → α → Bool} {key : α → κ}

/-- Sorting by a key that tells all values apart leaves nothing of the order before. -/
theorem mergeSort_eq_iff_perm (hkey : Function.Injective key)
    (hle : ∀ x y, le x y = true ↔ key x ≤ key y) {xs ys : List α} :
    xs.mergeSort le = ys.mergeSort le ↔ xs.Perm ys := by
  have htrans : ∀ x y z, le x y = true → le y z = true → le x z = true := by
    intro x y z hxy hyz
    rw [hle] at hxy hyz ⊢
    exact hxy.trans hyz
  have htotal : ∀ x y, (le x y || le y x) = true := by
    intro x y
    rw [Bool.or_eq_true, hle, hle]
    exact le_total _ _
  constructor
  · intro h
    exact (List.mergeSort_perm xs le).symm.trans (h ▸ List.mergeSort_perm ys le)
  · intro h
    apply List.Perm.eq_of_pairwise _ (List.pairwise_mergeSort htrans htotal xs)
      (List.pairwise_mergeSort htrans htotal ys)
    · exact (List.mergeSort_perm xs le).trans (h.trans (List.mergeSort_perm ys le).symm)
    · intro x y _ _ hxy hyx
      rw [hle] at hxy hyx
      exact hkey (le_antisymm hxy hyx)

end Sorting

theorem Combination.sortedTerms_eq_iff {x y : Combination} :
    x.sortedTerms = y.sortedTerms ↔ x.terms.Perm y.terms := by
  apply mergeSort_eq_iff_perm toLex.injective
  intro x y
  simp [termLe, Prod.Lex.le_iff]

/-- Entries that are listed once each are in the same lists exactly if the maps are the same. -/
theorem Entries.perm_iff_get? {κ α : Type} [DecidableEq κ] {xs ys : List (κ × α)}
    (hx : (xs.map Prod.fst).Nodup) (hy : (ys.map Prod.fst).Nodup) :
    xs.Perm ys ↔ ∀ k, get? k xs = get? k ys := by
  have hmem : ∀ {zs : List (κ × α)}, (zs.map Prod.fst).Nodup → ∀ k v,
      (k, v) ∈ zs ↔ get? k zs = some v := fun hz k v =>
    ⟨get?_of_mem hz, mem_of_get?⟩
  rw [List.perm_ext_iff_of_nodup hx.of_map hy.of_map]
  constructor
  · intro h k
    apply Option.ext
    intro v
    rw [← hmem hx, ← hmem hy]
    exact h (k, v)
  · intro h entry
    rw [hmem hx, hmem hy, h]

/-- Whether two sides are the same but for owners and the order of terms, constants being taken
modulo the order. -/
def Linear.Agrees : Linear → Linear → Prop
  | .constant a, .constant b => reduce a = reduce b
  | .combination x, .combination y => x.terms.Perm y.terms
  | _, _ => False

structure Gate.Agrees (g h : Gate) : Prop where
  left : g.left.Agrees h.left
  right : g.right.Agrees h.right
  output : g.output.Agrees h.output

namespace Shape

def shown : Linear → Int ⊕ List (Int × Int)
  | .constant value => .inl (reduce value)
  | .combination x => .inr x.sortedTerms

theorem shown_eq_iff {x y : Linear} : shown x = shown y ↔ x.Agrees y := by
  cases x with
  | constant a =>
    cases y with
    | constant b => rw [shown, shown, Sum.inl.injEq, Linear.Agrees]
    | combination d => exact iff_of_false Sum.inl_ne_inr id
  | combination c =>
    cases y with
    | constant b => exact iff_of_false Sum.inr_ne_inl id
    | combination d =>
      rw [shown, shown, Sum.inr.injEq, Combination.sortedTerms_eq_iff, Linear.Agrees]

def shownSides (g : Gate) : List (Int ⊕ List (Int × Int)) :=
  [shown g.left, shown g.right, shown g.output]

theorem shownSides_eq_iff {g h : Gate} : shownSides g = shownSides h ↔ g.Agrees h := by
  simp only [shownSides, List.cons.injEq, and_true, shown_eq_iff]
  constructor
  · intro hsides
    exact ⟨hsides.1, hsides.2.1, hsides.2.2⟩
  · intro hsides
    exact ⟨hsides.left, hsides.right, hsides.output⟩

/-- Rows of one length can be put one after the other without a mark between them. -/
theorem flatMap_eq_iff_of_length {α β : Type} {f : α → List β} {n : ℕ}
    (hlen : ∀ x, (f x).length = n + 1) {xs ys : List α} :
    xs.flatMap f = ys.flatMap f ↔ List.Forall₂ (fun x y => f x = f y) xs ys := by
  induction xs generalizing ys with
  | nil =>
    cases ys with
    | nil => exact iff_of_true rfl List.Forall₂.nil
    | cons y ys =>
      apply iff_of_false
      · intro h
        have hlength := congrArg List.length h
        rw [List.flatMap_cons, List.length_append, hlen y] at hlength
        exact absurd hlength.symm (by simp)
      · exact fun h => nomatch h
  | cons x xs ih =>
    cases ys with
    | nil =>
      apply iff_of_false
      · intro h
        have hlength := congrArg List.length h
        rw [List.flatMap_cons, List.length_append, hlen x] at hlength
        exact absurd hlength (by simp)
      · exact fun h => nomatch h
    | cons y ys =>
      rw [List.flatMap_cons, List.flatMap_cons, List.forall₂_cons, ← ih]
      constructor
      · exact fun h => List.append_inj h (by rw [hlen, hlen])
      · exact fun h => by rw [h.1, h.2]

variable {s t : Shape}

def allShown (s : Shape) : List (Int ⊕ List (Int × Int)) :=
  s.gates.flatMap shownSides

theorem allShown_eq_iff :
    s.allShown = t.allShown ↔ List.Forall₂ Gate.Agrees s.gates t.gates := by
  rw [allShown, allShown, flatMap_eq_iff_of_length (n := 2) fun _ => rfl]
  simp only [shownSides_eq_iff]

def shownText : Int ⊕ List (Int × Int) → String :=
  Sum.elim (fun value => toString value) fun terms => tupleText (terms.map termText)

theorem delimited_shownText : Delimited shownText := by
  apply delimited_int.sum delimited_termText.tuple
  intro value terms h
  rw [toList_tupleText_map, List.head?_cons] at h
  have hnumeral := isNumeral_of_mem_toString value (List.mem_of_head? h)
  revert hnumeral
  decide

theorem partText_of (x : Linear) : partText (Part.of x) = shownText (shown x) := by
  cases x with
  | constant value => rfl
  | combination x => rfl

theorem sides_map_partText (s : Shape) : s.sides.map partText = s.allShown.map shownText := by
  rw [sides, allShown, List.map_flatMap, List.map_flatMap]
  congr 1
  funext g
  simp only [gateSides, shownSides, List.map_cons, List.map_nil, partText_of]

theorem text_eq (s : Shape) : s.text =
    tupleText [toString s.wireCount, listText "[" "]" (s.sortedEntries.map entryText),
      listText "[" "]" (s.allShown.map shownText)] := by
  rw [text, sides_map_partText]

theorem sortedEntries_eq_iff : s.sortedEntries = t.sortedEntries ↔ s.entries.Perm t.entries := by
  apply mergeSort_eq_iff_perm toLex.injective
  intro x y
  simp [entryLe, Prod.Lex.le_iff]

theorem text_eq_iff_shown : s.text = t.text ↔
    s.wireCount = t.wireCount ∧ s.sortedEntries = t.sortedEntries ∧ s.allShown = t.allShown := by
  rw [text_eq, text_eq]
  constructor
  · exact tupleText_triple_inj delimited_nat delimited_entryText.list delimited_shownText.list
  · intro h
    rw [h.1, h.2.1, h.2.2]

theorem agrees_of_parts {x y : Linear} (h : Part.of x = Part.of y) : x.Agrees y := by
  rw [← shown_eq_iff]
  cases x with
  | constant a =>
    cases y with
    | constant b => cases h; rfl
    | combination d => cases h
  | combination c =>
    cases y with
    | constant b => cases h
    | combination d => exact congrArg Sum.inr (Part.terms.inj h)

/-- Shapes that are compared side by side, messages included, agree in their sides. -/
theorem agrees_of_layout (h : s.layout = t.layout) : List.Forall₂ Gate.Agrees s.gates t.gates := by
  rw [layout, layout, flatMap_eq_iff_of_length (n := 3) fun _ => rfl] at h
  apply h.imp
  intro g g' hparts
  simp only [gateSides, List.cons_append, List.nil_append, List.cons.injEq] at hparts
  exact ⟨agrees_of_parts hparts.1, agrees_of_parts hparts.2.1, agrees_of_parts hparts.2.2.1⟩

/-- Shapes that are compared side by side are told apart neither by their counts nor by their
digests, messages or not. -/
theorem counts_and_digest_of_same (h : s.same t = true) :
    s.counts = t.counts ∧ s.digest = t.digest := by
  simp only [same, Bool.and_eq_true, beq_iff_eq] at h
  obtain ⟨⟨hwires, hentries⟩, hlayout⟩ := h
  have hagrees := agrees_of_layout hlayout
  constructor
  · rw [counts, counts, hwires, hagrees.length_eq, (sortedEntries_eq_iff.mp hentries).length_eq]
  · rw [digest, digest, text_eq_iff_shown.mpr ⟨hwires, hentries, allShown_eq_iff.mpr hagrees⟩]

/-- The text that the digest is taken of identifies the relation and the public names. Entries and
terms are maps, and maps that list the same pairs are the same, see `Entries.perm_iff_get?`. -/
theorem text_identifies_relation (s t : Shape) :
    (s.text = t.text ↔ s.wireCount = t.wireCount ∧ s.entries.Perm t.entries ∧
      List.Forall₂ Gate.Agrees s.gates t.gates) ∧
    (s.same t = true → s.digest = t.digest) := by
  have htext : s.text = t.text ↔ s.wireCount = t.wireCount ∧ s.entries.Perm t.entries ∧
      List.Forall₂ Gate.Agrees s.gates t.gates := by
    rw [text_eq_iff_shown, sortedEntries_eq_iff, allShown_eq_iff]
  constructor
  · exact htext
  · intro hsame
    simp only [same, Bool.and_eq_true, beq_iff_eq] at hsame
    have hequal : s.text = t.text :=
      htext.mpr ⟨hsame.1.1, sortedEntries_eq_iff.mp hsame.1.2, agrees_of_layout hsame.2⟩
    rw [digest, digest, hequal]

def squareShape (tag : Nat) : Shape where
  wireCount := 3
  entries := [(0, "ONE"), (1, "it's"), (2, "\"y\" \\ it's\n")]
  gates := [⟨.combination ⟨[(1, 1)], some tag⟩, .combination ⟨[(1, 1)], some tag⟩,
    .combination ⟨[(2, 1)], some tag⟩, "square", false⟩]

theorem text_identifies_relation_square :
    (squareShape 0).same (squareShape 1) = true ∧
      (squareShape 0).digest = (squareShape 1).digest := by
  have hsame : (squareShape 0).same (squareShape 1) = true := by
    simp [same, squareShape, sortedEntries, layout, gateSides, Part.of, Combination.sortedTerms]
  exact ⟨hsame, (text_identifies_relation (squareShape 0) (squareShape 1)).2 hsame⟩

end Shape

end RankOne
