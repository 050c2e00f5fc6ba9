import RankOne.Proofs.ScalarField
import Mathlib.Algebra.BigOperators.Group.List.Basic
import Mathlib.Tactic.LinearCombination

/-!
# Expressions as functions of the wires

A valuation gives every wire an element of the field, whether or not any program would compute it.
The arithmetic on expressions is arithmetic on their values under each valuation that gives wire 0
the value 1. A system with values has one valuation of its own; reading and checking agree with it.
-/

set_option autoImplicit false

namespace RankOne

def termsValue (v : Int → Scalar) : List (Int × Int) → Scalar
  | [] => 0
  | (m, a) :: rest => a * v m + termsValue v rest

def Linear.value (v : Int → Scalar) : Linear → Scalar
  | .constant k => k
  | .combination x => termsValue v x.terms

def Gate.Holds (v : Int → Scalar) (g : Gate) : Prop :=
  g.left.value v * g.right.value v = g.output.value v

section Terms
variable (v : Int → Scalar)
open Combination

theorem termsValue_addTerm (m a : Int) (terms : List (Int × Int)) :
    termsValue v (addTerm m a terms) = a * v m + termsValue v terms := by
  induction terms with
  | nil => simp [addTerm, termsValue]
  | cons term rest ih =>
    obtain ⟨m', a'⟩ := term
    simp only [addTerm]
    split
    · rename_i h
      subst h
      simp only [termsValue, Int.cast_add]
      ring
    · simp only [termsValue, ih]
      ring

theorem termsValue_addTerms (terms sum : List (Int × Int)) :
    termsValue v (addTerms terms sum) = termsValue v terms + termsValue v sum := by
  induction terms generalizing sum with
  | nil => simp [addTerms, termsValue]
  | cons term rest ih =>
    have hstep : addTerms (term :: rest) sum = addTerms rest (addTerm term.1 term.2 sum) := rfl
    rw [hstep, ih, termsValue_addTerm]
    simp only [termsValue]
    ring

theorem termsValue_normalTerms (terms : List (Int × Int)) :
    termsValue v (normalTerms terms) = termsValue v terms := by
  induction terms with
  | nil => rfl
  | cons term rest ih =>
    obtain ⟨m, a⟩ := term
    simp only [normalTerms]
    split
    · rename_i h
      rw [ih, termsValue, reduce_eq_zero_iff.mp h, zero_mul, zero_add]
    · simp only [termsValue, ih, cast_reduce]

theorem termsValue_map_mul (k : Int) (terms : List (Int × Int)) :
    termsValue v (terms.map fun term => (term.1, reduce (term.2 * k))) =
      k * termsValue v terms := by
  induction terms with
  | nil => simp [termsValue]
  | cons term rest ih =>
    simp only [List.map_cons, termsValue, ih, cast_reduce, Int.cast_mul]
    ring

theorem keys_addTerm (m a : Int) (terms : List (Int × Int)) :
    (addTerm m a terms).map Prod.fst =
      if m ∈ terms.map Prod.fst then terms.map Prod.fst else terms.map Prod.fst ++ [m] := by
  induction terms with
  | nil => simp [addTerm]
  | cons term rest ih =>
    obtain ⟨m', a'⟩ := term
    simp only [addTerm, List.map_cons, List.mem_cons]
    split
    · rename_i h
      simp [h]
    · rename_i h
      have hne : m ≠ m' := fun heq => h heq.symm
      simp only [List.map_cons, ih, hne, false_or]
      split <;> rfl

theorem nodup_keys_addTerm (m a : Int) {terms : List (Int × Int)}
    (h : (terms.map Prod.fst).Nodup) : ((addTerm m a terms).map Prod.fst).Nodup := by
  rw [keys_addTerm]
  split
  · exact h
  · rename_i hm
    simpa [List.nodup_append] using ⟨h, fun a b hab => fun heq => hm (by
      rw [← heq]
      exact List.mem_map_of_mem hab)⟩

theorem nodup_keys_addTerms (terms : List (Int × Int)) {sum : List (Int × Int)}
    (h : (sum.map Prod.fst).Nodup) : ((addTerms terms sum).map Prod.fst).Nodup := by
  induction terms generalizing sum with
  | nil => exact h
  | cons term rest ih => exact ih (nodup_keys_addTerm term.1 term.2 h)

theorem keys_normalTerms_sublist (terms : List (Int × Int)) :
    ((normalTerms terms).map Prod.fst).Sublist (terms.map Prod.fst) := by
  induction terms with
  | nil => exact List.Sublist.refl _
  | cons term rest ih =>
    obtain ⟨m, a⟩ := term
    simp only [normalTerms]
    split
    · exact ih.cons _
    · exact ih.cons_cons _

theorem isDraw_of_mem_normalTerms {terms : List (Int × Int)} {term : Int × Int}
    (h : term ∈ normalTerms terms) : IsDraw term.2 := by
  induction terms with
  | nil => simp [normalTerms] at h
  | cons head rest ih =>
    obtain ⟨m, a⟩ := head
    simp only [normalTerms] at h
    split at h
    · exact ih h
    · rename_i ha
      rcases List.mem_cons.mp h with rfl | h
      · exact ⟨lt_of_le_of_ne (reduce_nonneg a) (Ne.symm ha), reduce_lt a⟩
      · exact ih h

end Terms

namespace Linear
variable {v : Int → Scalar}

theorem nodup_keys_collect (xs : List Linear) : ((collect xs).map Prod.fst).Nodup := by
  have hfold : ∀ (xs : List Linear) (sum : List (Int × Int)), (sum.map Prod.fst).Nodup →
      ((xs.foldl (fun terms x => Combination.addTerms x.terms terms) sum).map Prod.fst).Nodup := by
    intro xs
    induction xs with
    | nil => exact fun _ h => h
    | cons x rest ih => exact fun sum h => ih _ (nodup_keys_addTerms x.terms h)
  exact hfold xs [] List.nodup_nil

theorem mem_keys_addTerms {k : Int} (terms : List (Int × Int)) {sum : List (Int × Int)}
    (h : k ∈ (Combination.addTerms terms sum).map Prod.fst) :
    k ∈ terms.map Prod.fst ∨ k ∈ sum.map Prod.fst := by
  induction terms generalizing sum with
  | nil => exact .inr h
  | cons term rest ih =>
    rcases ih h with hk | hk
    · exact .inl (List.mem_cons_of_mem _ hk)
    · rw [keys_addTerm] at hk
      split at hk
      · exact .inr hk
      · rcases List.mem_append.mp hk with hk | hk
        · exact .inr hk
        · obtain rfl := List.mem_singleton.mp hk
          exact .inl (List.mem_cons_self ..)

theorem mem_keys_collect {k : Int} {xs : List Linear} (h : k ∈ (collect xs).map Prod.fst) :
    ∃ x ∈ xs, k ∈ x.terms.map Prod.fst := by
  have hfold : ∀ (xs : List Linear) (sum : List (Int × Int)),
      k ∈ (xs.foldl (fun terms x => Combination.addTerms x.terms terms) sum).map Prod.fst →
        k ∈ sum.map Prod.fst ∨ ∃ x ∈ xs, k ∈ x.terms.map Prod.fst := by
    intro xs
    induction xs with
    | nil => exact fun sum hk => .inl hk
    | cons x rest ih =>
      intro sum hk
      rcases ih _ hk with hk | ⟨y, hy, hk⟩
      · rcases mem_keys_addTerms x.terms hk with hk | hk
        · exact .inr ⟨x, List.mem_cons_self .., hk⟩
        · exact .inl hk
      · exact .inr ⟨y, List.mem_cons_of_mem _ hy, hk⟩
  rcases hfold xs [] h with hk | hx
  · simp at hk
  · exact hx

/-- If only wire 0 is left, the terms are worth the constant that stands for them. -/
theorem value_ofTerms (hone : v 0 = 1) (tag : Nat) {terms : List (Int × Int)}
    (hnodup : (terms.map Prod.fst).Nodup) :
    (ofTerms tag terms).value v = termsValue v terms := by
  rw [← termsValue_normalTerms]
  have hkept := hnodup.sublist (keys_normalTerms_sublist terms)
  simp only [ofTerms]
  split
  · rename_i hall
    cases hterms : Combination.normalTerms terms with
    | nil => simp [value, termsValue, Entries.get?]
    | cons term rest =>
      obtain ⟨m, a⟩ := term
      rw [hterms] at hall hkept
      cases rest with
      | nil =>
        obtain rfl : m = 0 := by simpa using hall
        simp [value, termsValue, Entries.get?, hone]
      | cons term' rest =>
        obtain ⟨m', a'⟩ := term'
        obtain ⟨rfl, rfl, -⟩ : m = 0 ∧ m' = 0 ∧ _ := by simpa using hall
        simp at hkept
  · rfl

theorem range_of_ofTerms {tag : Nat} {terms : List (Int × Int)} {k : Int}
    (h : ofTerms tag terms = .constant k) : 0 ≤ k ∧ k < order := by
  simp only [ofTerms] at h
  split at h
  · obtain rfl := Linear.constant.inj h
    cases hget : Entries.get? 0 (Combination.normalTerms terms) with
    | none => exact ⟨le_refl _, order_pos⟩
    | some a =>
      obtain ⟨hpos, hlt⟩ := isDraw_of_mem_normalTerms (Entries.mem_of_get? hget)
      exact ⟨hpos.le, hlt⟩
  · simp at h

theorem termsValue_terms (hone : v 0 = 1) (x : Linear) : termsValue v x.terms = x.value v := by
  cases x with
  | constant k => simp [terms, termsValue, value, hone]
  | combination x => rfl

theorem value_collect (hone : v 0 = 1) (xs : List Linear) :
    termsValue v (collect xs) = (xs.map (value v)).sum := by
  have hfold : ∀ (xs : List Linear) (sum : List (Int × Int)),
      termsValue v (xs.foldl (fun terms x => Combination.addTerms x.terms terms) sum) =
        (xs.map (value v)).sum + termsValue v sum := by
    intro xs
    induction xs with
    | nil => simp
    | cons x rest ih =>
      intro sum
      rw [List.foldl_cons, ih, termsValue_addTerms, termsValue_terms hone, List.map_cons,
        List.sum_cons]
      ring
  rw [collect, hfold, termsValue, add_zero]

theorem value_sum (hone : v 0 = 1) (tag : Nat) (xs : List Linear) :
    (sum tag xs).value v = (xs.map (value v)).sum := by
  rw [sum, value_ofTerms hone tag (nodup_keys_collect xs), value_collect hone]

theorem value_multiple (tag : Nat) (x : Combination) (k : Int) :
    (multiple tag x k).value v = k * termsValue v x.terms := by
  simp only [multiple]
  split
  · rename_i h
    rw [reduce_eq_zero_iff.mp h, zero_mul]
    simp [value]
  · exact termsValue_map_mul v k x.terms

theorem value_times (tag : Nat) (k : Int) (x : Linear) :
    (times tag k x).value v = k * x.value v := by
  cases x with
  | constant a =>
    simp only [times, value, cast_reduce, Int.cast_mul]
    ring
  | combination x => exact value_multiple tag x k

theorem value_product? {tag : Nat} {x y p : Linear} (h : product? tag x y = some p) :
    p.value v = x.value v * y.value v := by
  cases x with
  | constant a =>
    cases y with
    | constant b =>
      obtain rfl := Option.some.inj h
      simp [value]
    | combination y =>
      obtain rfl := Option.some.inj h
      exact value_multiple tag y a
  | combination x =>
    cases y with
    | constant b =>
      obtain rfl := Option.some.inj h
      rw [value_multiple, mul_comm]
      rfl
    | combination y => simp [product?] at h

theorem value_difference (hone : v 0 = 1) (tag : Nat) (x y : Linear) :
    (difference tag x y).value v = x.value v - y.value v := by
  have horder : ((order - 1 : Int) : Scalar) = -1 := by
    push_cast
    rw [cast_order, zero_sub]
  have hzero : (constant 0).value v = 0 := Int.cast_zero
  rw [difference, value_sum hone]
  simp only [List.map_cons, List.map_nil, List.sum_cons, List.sum_nil, value_times, horder, hzero]
  ring

end Linear

namespace R1CS

def valuation (s : R1CS) (wire : Int) : Scalar :=
  match s.slot? wire with
  | some (some w) => w
  | _ => 0

def assign (s : R1CS) (w : List Int) : R1CS :=
  { s with witnessed := true, values := w.map some }

theorem valuation_assign_zero {s : R1CS} {w : List Int} (h : w.head? = some 1) :
    (s.assign w).valuation 0 = 1 := by
  cases w with
  | nil => simp at h
  | cons k rest =>
    obtain rfl := Option.some.inj h
    simp [valuation, slot?, assign, placeAmong]

def Reads (s : R1CS) : Linear → Prop
  | .constant _ => True
  | .combination x => ∀ term ∈ x.terms, ∃ w, s.slot? term.1 = some (some w)

theorem total_eq_ok {s : R1CS} {terms : List (Int × Int)}
    (h : ∀ term ∈ terms, ∃ w, s.slot? term.1 = some (some w)) :
    ∃ t, s.total terms = .ok t ∧ (t : Scalar) = termsValue s.valuation terms := by
  induction terms with
  | nil => exact ⟨0, rfl, by simp [termsValue]⟩
  | cons term rest ih =>
    obtain ⟨m, a⟩ := term
    obtain ⟨w, hw⟩ := h (m, a) (List.mem_cons_self ..)
    obtain ⟨t, ht, hval⟩ := ih fun term hterm => h term (List.mem_cons_of_mem _ hterm)
    refine ⟨w * a + t, by simp only [total, hw, ht], ?_⟩
    simp only [termsValue, valuation, hw, hval, Int.cast_add, Int.cast_mul]
    ring

theorem total_eq_of_values {s u : R1CS} (h : s.values = u.values) (terms : List (Int × Int)) :
    s.total terms = u.total terms := by
  induction terms with
  | nil => rfl
  | cons term rest ih => simp only [total, slot?, h, ih]

theorem read_eq_of_values {s u : R1CS} (h : s.values = u.values) : s.read = u.read := by
  funext x
  cases x with
  | constant k => rfl
  | combination x => simp only [read, total_eq_of_values h]

theorem checkGates_eq_of_values {s u : R1CS} (h : s.values = u.values) (gates : List Gate) :
    s.checkGates gates = u.checkGates gates := by
  induction gates with
  | nil => rfl
  | cons gate rest ih => simp only [checkGates, read_eq_of_values h, ih]

theorem reads_of_total {s : R1CS} {terms : List (Int × Int)} {t : Int}
    (h : s.total terms = .ok t) : ∀ term ∈ terms, ∃ w, s.slot? term.1 = some (some w) := by
  induction terms generalizing t with
  | nil => simp
  | cons term rest ih =>
    obtain ⟨m, a⟩ := term
    rw [total] at h
    split at h
    · simp at h
    · simp at h
    · rename_i w hw
      split at h
      · rename_i u hu
        intro term hterm
        rcases List.mem_cons.mp hterm with rfl | hterm
        · exact ⟨w, hw⟩
        · exact ih hu term hterm
      · simp at h

/-- An expression is read exactly where its wires have values, and read as its value. -/
theorem read_eq_ok {s : R1CS} {x : Linear} (h : s.Reads x) :
    ∃ r, s.read x = .ok r ∧ (r : Scalar) = x.value s.valuation ∧ 0 ≤ r ∧ r < order := by
  cases x with
  | constant k => exact ⟨reduce k, rfl, cast_reduce k, reduce_nonneg k, reduce_lt k⟩
  | combination x =>
    obtain ⟨t, ht, hval⟩ := total_eq_ok h
    refine ⟨reduce t, by simp only [read, ht], ?_, reduce_nonneg t, reduce_lt t⟩
    rw [cast_reduce, hval]
    rfl

theorem reads_of_read {s : R1CS} {x : Linear} {r : Int} (h : s.read x = .ok r) : s.Reads x := by
  cases x with
  | constant k => trivial
  | combination x =>
    rw [read] at h
    split at h
    · rename_i t ht
      exact reads_of_total ht
    · simp at h

def ReadsGate (s : R1CS) (g : Gate) : Prop :=
  s.Reads g.left ∧ s.Reads g.right ∧ s.Reads g.output

theorem checkGates_cons {s : R1CS} {g : Gate} (rest : List Gate) (h : s.ReadsGate g) :
    s.checkGates (g :: rest) =
      open Classical in
      if g.Holds s.valuation then s.checkGates rest else .ok (some g.message) := by
  obtain ⟨x, hx, hxv, -⟩ := read_eq_ok h.1
  obtain ⟨y, hy, hyv, -⟩ := read_eq_ok h.2.1
  obtain ⟨z, hz, hzv, hz₀, hzlt⟩ := read_eq_ok h.2.2
  have hiff : reduce (x * y) = z ↔ g.Holds s.valuation := by
    rw [Gate.Holds, ← hxv, ← hyv, ← hzv, ← Int.cast_mul, cast_eq_cast_iff, reduce_eq_self hz₀ hzlt]
  simp only [checkGates, hx, hy, hz, bind, Except.bind]
  by_cases hholds : g.Holds s.valuation
  · rw [if_pos (hiff.mpr hholds), if_pos hholds]
  · rw [if_neg fun heq => hholds (hiff.mp heq), if_neg hholds]

theorem checkGates_eq_none_iff {s : R1CS} {gates : List Gate} (h : ∀ g ∈ gates, s.ReadsGate g) :
    s.checkGates gates = .ok none ↔ ∀ g ∈ gates, g.Holds s.valuation := by
  induction gates with
  | nil => simp [checkGates]
  | cons g rest ih =>
    rw [checkGates_cons rest (h g (List.mem_cons_self ..)), List.forall_mem_cons]
    have hrest := ih fun g hg => h g (List.mem_cons_of_mem _ hg)
    by_cases hholds : g.Holds s.valuation
    · rw [if_pos hholds, hrest, and_iff_right hholds]
    · simp [hholds]

theorem check_eq_none_iff {s : R1CS} (h : ∀ g ∈ s.gates, s.ReadsGate g) :
    s.check = .ok none ↔ ∀ g ∈ s.gates, g.Holds s.valuation :=
  checkGates_eq_none_iff h

theorem readsGate_of_checkGates {s : R1CS} {gates : List Gate}
    (h : s.checkGates gates = .ok none) : ∀ g ∈ gates, s.ReadsGate g := by
  induction gates with
  | nil => simp
  | cons g rest ih =>
    simp only [checkGates, bind, Except.bind] at h
    split at h
    · simp at h
    · rename_i x hx
      split at h
      · simp at h
      · rename_i y hy
        split at h
        · simp at h
        · rename_i z hz
          split at h
          · intro g' hg'
            rcases List.mem_cons.mp hg' with rfl | hg'
            · exact ⟨reads_of_read hx, reads_of_read hy, reads_of_read hz⟩
            · exact ih h g' hg'
          · simp at h

theorem readsGate_of_check {s : R1CS} (h : s.check = .ok none) :
    ∀ g ∈ s.gates, s.ReadsGate g :=
  readsGate_of_checkGates h

end R1CS

end RankOne
