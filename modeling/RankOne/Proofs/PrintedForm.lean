import Mathlib.Algebra.Group.Nat.Defs
import RankOne.Shape
import RankOne.Proofs.Wording

/-!
# Printed forms and where they end

Numbers, quoted names, pairs, lists and tuples, as the text of a shape prints them. No two values of
one kind are printed alike, and a printed value shows where it ends: what follows it in a longer text
starts with a mark, and neither digits nor the characters between two quotes can be taken for that
mark.
-/

set_option autoImplicit false

namespace RankOne

namespace Text

def IsQuote (q : Char) : Prop :=
  q = '\'' ∨ q = '"'

theorem isQuote_quoteFor (s : List Char) : IsQuote (quoteFor s) := by
  rw [quoteFor]
  split
  · exact Or.inr rfl
  · exact Or.inl rfl

theorem length_hex (width n : ℕ) : (hex width n).length = width := by
  induction width generalizing n with
  | zero => rfl
  | succ width ih => rw [hex, List.length_append, ih, List.length_singleton]

def ofHex (digits : List Char) : ℕ :=
  digits.foldl (fun n c => 16 * n + (Json.hexValue? c.toNat).getD 0) 0

theorem ofHex_append_hexDigit (digits : List Char) {n : ℕ} (h : n < 16) :
    ofHex (digits ++ [hexDigit n]) = 16 * ofHex digits + n := by
  simp [ofHex, Json.hexValue?_hexDigit h]

theorem ofHex_hex {width n : ℕ} (h : n < 16 ^ width) : ofHex (hex width n) = n := by
  induction width generalizing n with
  | zero =>
    have hzero : n = 0 := by omega
    rw [hzero]
    rfl
  | succ width ih =>
    have hdiv : n / 16 < 16 ^ width := Nat.div_lt_of_lt_mul (by rwa [Nat.pow_succ'] at h)
    rw [hex, ofHex_append_hexDigit _ (Nat.mod_lt _ (by decide)), ih hdiv]
    omega

def unhex? (width : ℕ) (cs : List Char) : Option (Char × List Char) :=
  some (Char.ofNat (ofHex (cs.take width)), cs.drop width)

theorem unhex?_hex {width : ℕ} {c : Char} (h : c.toNat < 16 ^ width) (rest : List Char) :
    unhex? width (hex width c.toNat ++ rest) = some (c, rest) := by
  have hlen := length_hex width c.toNat
  rw [unhex?, List.take_left' hlen, List.drop_left' hlen, ofHex_hex h, Char.ofNat_toNat]

def unescape? : List Char → Option (Char × List Char)
  | [] => none
  | c :: rest =>
    if c ≠ '\\' then some (c, rest)
    else match rest with
      | [] => none
      | mark :: rest =>
        if mark = 'n' then some ('\n', rest)
        else if mark = 'r' then some ('\r', rest)
        else if mark = 't' then some ('\t', rest)
        else if mark = 'x' then unhex? 2 rest
        else if mark = 'u' then unhex? 4 rest
        else if mark = 'U' then unhex? 8 rest
        else some (mark, rest)

theorem unescape?_escapeHidden (c : Char) (rest : List Char) :
    unescape? (escapeHidden c ++ rest) = some (c, rest) := by
  rw [escapeHidden]
  split
  · rename_i h
    exact unhex?_hex h rest
  · split
    · rename_i h
      exact unhex?_hex h rest
    · have h := Unicode.toNat_lt c
      exact unhex?_hex (by omega) rest

section Escape
variable {q : Char} (hq : IsQuote q)
include hq

theorem unescape?_escape (c : Char) (rest : List Char) :
    unescape? (escape q c ++ rest) = some (c, rest) := by
  rw [escape]
  split
  · rename_i h
    rcases h with rfl | rfl
    · rcases hq with rfl | rfl <;> rfl
    · rfl
  rename_i hplain
  split
  · rename_i h
    rw [h]
    rfl
  split
  · rename_i h
    rw [h]
    rfl
  split
  · rename_i h
    rw [h]
    rfl
  split
  · exact if_pos fun h => hplain (Or.inr h)
  · exact unescape?_escapeHidden c rest

/-- Between quotes the quote itself shows up behind a backslash only. -/
theorem head?_escape (c : Char) : ∃ e ∈ (escape q c).head?, e ≠ q := by
  have hback : '\\' ≠ q := by rcases hq with rfl | rfl <;> decide
  rw [escape]
  split
  · exact ⟨_, rfl, hback⟩
  rename_i hplain
  split
  · exact ⟨_, rfl, hback⟩
  split
  · exact ⟨_, rfl, hback⟩
  split
  · exact ⟨_, rfl, hback⟩
  split
  · exact ⟨c, rfl, fun h => hplain (Or.inl h)⟩
  · refine ⟨'\\', ?_, hback⟩
    rw [escapeHidden]
    split
    · rfl
    · split <;> rfl

theorem escape_append_ne (c : Char) (rest rest' : List Char) : escape q c ++ rest ≠ q :: rest' := by
  intro h
  obtain ⟨e, he, hne⟩ := head?_escape hq c
  obtain ⟨tail, htail⟩ := List.head?_eq_some_iff.mp he
  rw [htail] at h
  exact hne (List.cons.inj h).1

theorem flatMap_escape_inj {s t rest rest' : List Char}
    (h : s.flatMap (escape q) ++ q :: rest = t.flatMap (escape q) ++ q :: rest') :
    s = t ∧ rest = rest' := by
  induction s generalizing t with
  | nil =>
    cases t with
    | nil => exact ⟨rfl, (List.cons.inj h).2⟩
    | cons d t =>
      rw [List.flatMap_cons, List.append_assoc] at h
      exact absurd h.symm (escape_append_ne hq d _ _)
  | cons c s ih =>
    rw [List.flatMap_cons, List.append_assoc] at h
    cases t with
    | nil => exact absurd h (escape_append_ne hq c _ _)
    | cons d t =>
      rw [List.flatMap_cons, List.append_assoc] at h
      have hread := congrArg unescape? h
      rw [unescape?_escape hq, unescape?_escape hq] at hread
      have hpair := Prod.mk.inj (Option.some.inj hread)
      have hrest := ih hpair.2
      exact ⟨by rw [hpair.1, hrest.1], hrest.2⟩

end Escape

theorem quoted_append_inj {s t rest rest' : List Char}
    (h : quoted s ++ rest = quoted t ++ rest') : s = t ∧ rest = rest' := by
  simp only [quoted, List.cons_append, List.append_assoc, List.nil_append] at h
  have hquote := (List.cons.inj h).1
  have hinner := (List.cons.inj h).2
  rw [hquote] at hinner
  exact flatMap_escape_inj (isQuote_quoteFor t) hinner

end Text

namespace Shape

def Ends (rest : List Char) : Prop :=
  ∀ c ∈ rest.head?, c = ',' ∨ c = ')' ∨ c = ']'

theorem ends_nil : Ends [] :=
  fun c h => by cases h

theorem ends_cons {c : Char} {rest : List Char} :
    Ends (c :: rest) ↔ c = ',' ∨ c = ')' ∨ c = ']' := by
  simp [Ends]

structure Delimited {α : Type} (form : α → String) : Prop where
  start (x : α) : ¬Ends (form x).toList
  split {x y : α} {rest rest' : List Char} : Ends rest → Ends rest' →
    (form x).toList ++ rest = (form y).toList ++ rest' → x = y ∧ rest = rest'

namespace Delimited
variable {α β : Type} {form : α → String} {f : α → String} {g : β → String}

theorem comp (h : Delimited g) {k : α → β} (hk : Function.Injective k) :
    Delimited fun x => g (k x) where
  start x := h.start (k x)
  split hrest hrest' heq := by
    have hsplit := h.split hrest hrest' heq
    exact ⟨hk hsplit.1, hsplit.2⟩

/-- Forms in characters that are no marks end at the first mark. -/
theorem of_word (p : Char → Bool) (hp : ∀ x, ∀ c ∈ (form x).toList, p c = true)
    (hends : ∀ c, c = ',' ∨ c = ')' ∨ c = ']' → p c = false) (hne : ∀ x, (form x).toList ≠ [])
    (hinj : Function.Injective form) : Delimited form := by
  have htake : ∀ x rest, Ends rest → ((form x).toList ++ rest).takeWhile p = (form x).toList := by
    intro x rest hrest
    rw [List.takeWhile_append_of_pos (hp x)]
    cases rest with
    | nil => rw [List.takeWhile_nil, List.append_nil]
    | cons c rest =>
      rw [List.takeWhile_cons_of_neg, List.append_nil]
      rw [hends c (ends_cons.mp hrest)]
      decide
  constructor
  · intro x h
    cases hx : (form x).toList with
    | nil => exact hne x hx
    | cons c cs =>
      rw [hx] at h
      have hc := hp x c (by rw [hx]; exact List.mem_cons_self ..)
      rw [hends c (ends_cons.mp h)] at hc
      cases hc
  · intro x y rest rest' hrest hrest' heq
    have hword : (form x).toList = (form y).toList := by
      rw [← htake x rest hrest, heq, htake y rest' hrest']
    rw [hword] at heq
    exact ⟨hinj (String.toList_injective hword), List.append_cancel_left heq⟩

section Reading
variable (h : Delimited form)
include h

theorem ne_nil (x : α) : (form x).toList ≠ [] := by
  intro hnil
  apply h.start x
  rw [hnil]
  exact ends_nil

theorem head?_append (x : α) (rest : List Char) :
    ((form x).toList ++ rest).head? = (form x).toList.head? :=
  List.head?_append_of_ne_nil _ (h.ne_nil x)

theorem not_ends (x : α) (rest : List Char) : ¬Ends ((form x).toList ++ rest) := by
  rw [Ends, h.head?_append x rest]
  exact h.start x

end Reading

theorem sum (hf : Delimited f) (hg : Delimited g)
    (hne : ∀ x y, (f x).toList.head? ≠ (g y).toList.head?) : Delimited (Sum.elim f g) where
  start
    | .inl x => hf.start x
    | .inr y => hg.start y
  split {x y rest rest'} hrest hrest' heq := by
    have hnever : ∀ x y r r', (f x).toList ++ r ≠ (g y).toList ++ r' := by
      intro x y r r' happend
      apply hne x y
      rw [← hf.head?_append x r, happend, hg.head?_append y r']
    cases x with
    | inl x =>
      cases y with
      | inl y =>
        have hsplit := hf.split hrest hrest' heq
        exact ⟨congrArg Sum.inl hsplit.1, hsplit.2⟩
      | inr y => exact absurd heq (hnever x y rest rest')
    | inr x =>
      cases y with
      | inl y => exact absurd heq.symm (hnever y x rest' rest)
      | inr y =>
        have hsplit := hg.split hrest hrest' heq
        exact ⟨congrArg Sum.inr hsplit.1, hsplit.2⟩

end Delimited

section Rows
variable {α β : Type} {form : α → String} {f : α → String} {g : β → String}

def following (form : α → String) (xs : List α) : List Char :=
  xs.flatMap fun x => ',' :: ' ' :: (form x).toList

theorem toList_intercalate_cons (x : α) (xs : List α) :
    (String.intercalate ", " ((x :: xs).map form)).toList = (form x).toList ++ following form xs := by
  rw [String.toList_intercalate]
  induction xs generalizing x with
  | nil => simp [following]
  | cons y ys ih =>
    rw [List.map_cons, List.map_cons, List.intercalate_cons_of_ne_nil (by simp)]
    rw [ih y]
    simp [following]

theorem toList_listText (l r : String) (xs : List String) :
    (listText l r xs).toList = l.toList ++ ((String.intercalate ", " xs).toList ++ r.toList) := by
  simp only [listText, String.toList_append, List.append_assoc]

section Closing
variable {close : Char} (hclose : close = ')' ∨ close = ']')
include hclose

theorem ends_close (rest : List Char) : Ends (close :: rest) := by
  rw [ends_cons]
  exact Or.inr hclose

theorem ends_following (xs : List α) (rest : List Char) :
    Ends (following form xs ++ close :: rest) := by
  cases xs with
  | nil => exact ends_close hclose rest
  | cons x xs => exact ends_cons.mpr (Or.inl rfl)

theorem following_inj (h : Delimited form) {xs ys : List α} {rest rest' : List Char}
    (heq : following form xs ++ close :: rest = following form ys ++ close :: rest') :
    xs = ys ∧ rest = rest' := by
  have hcomma : close ≠ ',' := by rcases hclose with rfl | rfl <;> decide
  induction xs generalizing ys with
  | nil =>
    cases ys with
    | nil => exact ⟨rfl, (List.cons.inj heq).2⟩
    | cons y ys => exact absurd (List.cons.inj heq).1 hcomma
  | cons x xs ih =>
    cases ys with
    | nil => exact absurd (List.cons.inj heq).1.symm hcomma
    | cons y ys =>
      simp only [following, List.flatMap_cons, List.cons_append, List.append_assoc] at heq
      have hvalues := (List.cons.inj (List.cons.inj heq).2).2
      have hsplit := h.split (ends_following hclose xs rest) (ends_following hclose ys rest') hvalues
      have hrest := ih hsplit.2
      exact ⟨by rw [hsplit.1, hrest.1], hrest.2⟩

theorem Delimited.close_inj (h : Delimited form) {x y : α} {rest rest' : List Char}
    (heq : (form x).toList ++ close :: rest = (form y).toList ++ close :: rest') :
    x = y ∧ rest = rest' := by
  have hsplit := h.split (ends_close hclose rest) (ends_close hclose rest') heq
  exact ⟨hsplit.1, (List.cons.inj hsplit.2).2⟩

end Closing

theorem Delimited.comma_inj (h : Delimited form) {x y : α} {rest rest' : List Char}
    (heq : (form x).toList ++ ',' :: ' ' :: rest = (form y).toList ++ ',' :: ' ' :: rest') :
    x = y ∧ rest = rest' := by
  have hsplit := h.split (ends_cons.mpr (Or.inl rfl)) (ends_cons.mpr (Or.inl rfl)) heq
  exact ⟨hsplit.1, (List.cons.inj (List.cons.inj hsplit.2).2).2⟩

theorem Delimited.pair (hf : Delimited f) (hg : Delimited g) :
    Delimited fun entry : α × β => tupleText [f entry.1, g entry.2] := by
  have hform : ∀ entry : α × β, (tupleText [f entry.1, g entry.2]).toList =
      '(' :: ((f entry.1).toList ++ ',' :: ' ' :: ((g entry.2).toList ++ [')'])) := by
    intro entry
    simp [tupleText, toList_listText]
  constructor
  · intro entry
    rw [hform, ends_cons]
    decide
  · intro x y rest rest' _ _ heq
    simp only [hform, List.cons_append, List.append_assoc, List.nil_append] at heq
    have hfirst := hf.comma_inj (List.cons.inj heq).2
    have hsecond := hg.close_inj (Or.inl rfl) hfirst.2
    exact ⟨Prod.ext hfirst.1 hsecond.1, hsecond.2⟩

theorem tupleText_triple_inj {γ : Type} {k : γ → String} (hf : Delimited f) (hg : Delimited g)
    (hk : Delimited k) {x x' : α} {y y' : β} {z z' : γ}
    (h : tupleText [f x, g y, k z] = tupleText [f x', g y', k z']) : x = x' ∧ y = y' ∧ z = z' := by
  have hform : ∀ x y z, (tupleText [f x, g y, k z]).toList = '(' :: ((f x).toList ++
      ',' :: ' ' :: ((g y).toList ++ ',' :: ' ' :: ((k z).toList ++ [')']))) := by
    intro x y z
    simp [tupleText, toList_listText]
  have heq := congrArg String.toList h
  rw [hform, hform] at heq
  have hfirst := hf.comma_inj (List.cons.inj heq).2
  have hsecond := hg.comma_inj hfirst.2
  have hthird := hk.close_inj (Or.inl rfl) hsecond.2
  exact ⟨hfirst.1, hsecond.1, hthird.1⟩

def rowEnd (form : α → String) (close : Char) (single : List Char) : List α → List Char
  | [] => single ++ [close]
  | x :: xs => following form (x :: xs) ++ [close]

def row (form : α → String) (close : Char) (single : List Char) : List α → List Char
  | [] => [close]
  | x :: xs => (form x).toList ++ rowEnd form close single xs

section Ending
variable {close : Char} {single : List Char} (hclose : close = ')' ∨ close = ']')
  (hsingle : single = [] ∨ single = [','])
include hclose hsingle

theorem ends_rowEnd (xs : List α) (rest : List Char) :
    Ends (rowEnd form close single xs ++ rest) := by
  cases xs with
  | nil =>
    rcases hsingle with rfl | rfl
    · exact ends_close hclose rest
    · exact ends_cons.mpr (Or.inl rfl)
  | cons x xs => exact ends_cons.mpr (Or.inl rfl)

/-- A closing mark, with or without a comma before it, is no further value. -/
theorem single_ne_following (x : α) (xs : List α) (rest rest' : List Char) :
    single ++ [close] ++ rest ≠ following form (x :: xs) ++ rest' := by
  rcases hclose with rfl | rfl <;> rcases hsingle with rfl | rfl <;> simp [following]

theorem rowEnd_inj (h : Delimited form) {xs ys : List α} {rest rest' : List Char}
    (heq : rowEnd form close single xs ++ rest = rowEnd form close single ys ++ rest') :
    xs = ys ∧ rest = rest' := by
  cases xs with
  | nil =>
    cases ys with
    | nil => exact ⟨rfl, List.append_cancel_left heq⟩
    | cons y ys =>
      rw [rowEnd, rowEnd, List.append_assoc (following form _)] at heq
      exact absurd heq (single_ne_following hclose hsingle y ys rest _)
  | cons x xs =>
    cases ys with
    | nil =>
      rw [rowEnd, rowEnd, List.append_assoc (following form _)] at heq
      exact absurd heq.symm (single_ne_following hclose hsingle x xs rest' _)
    | cons y ys =>
      rw [rowEnd, rowEnd, List.append_assoc, List.append_assoc] at heq
      exact following_inj hclose h heq

theorem row_inj (h : Delimited form) {xs ys : List α} {rest rest' : List Char}
    (heq : row form close single xs ++ rest = row form close single ys ++ rest') :
    xs = ys ∧ rest = rest' := by
  cases xs with
  | nil =>
    cases ys with
    | nil => exact ⟨rfl, (List.cons.inj heq).2⟩
    | cons y ys =>
      -- The row that is empty ends where the other one has a value, which looks like no end.
      have hends : Ends ([close] ++ rest) := ends_close hclose rest
      rw [row, row, List.append_assoc] at heq
      rw [heq] at hends
      exact absurd hends (h.not_ends y _)
  | cons x xs =>
    cases ys with
    | nil =>
      have hends : Ends ([close] ++ rest') := ends_close hclose rest'
      rw [row, row, List.append_assoc] at heq
      rw [← heq] at hends
      exact absurd hends (h.not_ends x _)
    | cons y ys =>
      rw [row, row, List.append_assoc, List.append_assoc] at heq
      have hsplit := h.split (ends_rowEnd hclose hsingle xs rest)
        (ends_rowEnd hclose hsingle ys rest') heq
      have hrest := rowEnd_inj hclose hsingle h hsplit.2
      exact ⟨by rw [hsplit.1, hrest.1], hrest.2⟩

end Ending

theorem toList_listText_map (xs : List α) :
    (listText "[" "]" (xs.map form)).toList = '[' :: row form ']' [] xs := by
  rw [toList_listText]
  cases xs with
  | nil => rw [List.map_nil]; rfl
  | cons x xs =>
    rw [toList_intercalate_cons, row, List.append_assoc]
    cases xs with
    | nil => rfl
    | cons y ys => rfl

theorem toList_tupleText_map (xs : List α) :
    (tupleText (xs.map form)).toList = '(' :: row form ')' [','] xs := by
  match xs with
  | [] => rw [List.map_nil]; rfl
  | [x] => simp [tupleText, row, rowEnd]
  | x :: y :: ys =>
    rw [List.map_cons, List.map_cons, tupleText, ← List.map_cons, ← List.map_cons, toList_listText,
      toList_intercalate_cons, row, List.append_assoc]
    · rfl
    · simp

theorem Delimited.list (h : Delimited form) :
    Delimited fun xs : List α => listText "[" "]" (xs.map form) where
  start xs := by
    rw [toList_listText_map, ends_cons]
    decide
  split _ _ heq := by
    rw [toList_listText_map, toList_listText_map] at heq
    exact row_inj (Or.inr rfl) (Or.inl rfl) h (List.cons.inj heq).2

theorem Delimited.tuple (h : Delimited form) :
    Delimited fun xs : List α => tupleText (xs.map form) where
  start xs := by
    rw [toList_tupleText_map, ends_cons]
    decide
  split _ _ heq := by
    rw [toList_tupleText_map, toList_tupleText_map] at heq
    exact row_inj (Or.inl rfl) (Or.inr rfl) h (List.cons.inj heq).2

end Rows

theorem toList_toString_negSucc (n : ℕ) :
    (toString (Int.negSucc n)).toList = '-' :: (n + 1).repr.toList := by
  change ("-" ++ (n + 1).repr).toList = _
  rw [String.toList_append]
  rfl

theorem isDigit_of_mem_repr {n : ℕ} {c : Char} (h : c ∈ n.repr.toList) : c.isDigit = true := by
  rw [Nat.toList_repr] at h
  exact Nat.isDigit_of_mem_toDigits (by decide) (by decide) h

theorem repr_injective : Function.Injective Nat.repr := by
  intro m n h
  have hdigits : Nat.toDigits 10 m = Nat.toDigits 10 n := by
    rw [← Nat.toList_repr, ← Nat.toList_repr, h]
  rw [← Nat.ofDigitChars_ten_toDigits (n := m), hdigits, Nat.ofDigitChars_ten_toDigits]

theorem sign_notMem_repr (n : ℕ) : '-' ∉ n.repr.toList := by
  intro h
  have hdigit := isDigit_of_mem_repr h
  revert hdigit
  decide

theorem toString_injective : Function.Injective fun x : Int => toString x := by
  intro x y h
  have hlist : (toString x).toList = (toString y).toList := congrArg String.toList h
  cases x with
  | ofNat m =>
    cases y with
    | ofNat n => exact congrArg Int.ofNat (repr_injective h)
    | negSucc n =>
      rw [toList_toString_negSucc] at hlist
      exact absurd (hlist ▸ List.mem_cons_self ..) (sign_notMem_repr m)
  | negSucc m =>
    rw [toList_toString_negSucc] at hlist
    cases y with
    | ofNat n => exact absurd (hlist ▸ List.mem_cons_self ..) (sign_notMem_repr n)
    | negSucc n =>
      rw [toList_toString_negSucc] at hlist
      have hsucc := repr_injective (String.toList_injective (List.cons.inj hlist).2)
      exact congrArg Int.negSucc (Nat.succ.inj hsucc)

def isNumeral (c : Char) : Bool :=
  c.isDigit || c == '-'

theorem isNumeral_of_mem_repr {n : ℕ} {c : Char} (h : c ∈ n.repr.toList) : isNumeral c = true := by
  rw [isNumeral, isDigit_of_mem_repr h, Bool.true_or]

theorem isNumeral_of_mem_toString (x : Int) {c : Char} (h : c ∈ (toString x).toList) :
    isNumeral c = true := by
  cases x with
  | ofNat n => exact isNumeral_of_mem_repr h
  | negSucc n =>
    rw [toList_toString_negSucc, List.mem_cons] at h
    rcases h with rfl | h
    · rfl
    · exact isNumeral_of_mem_repr h

theorem toList_toString_ne_nil (x : Int) : (toString x).toList ≠ [] := by
  cases x with
  | ofNat n =>
    change n.repr.toList ≠ []
    rw [Nat.toList_repr]
    exact Nat.toDigits_ne_nil
  | negSucc n =>
    rw [toList_toString_negSucc]
    exact List.cons_ne_nil _ _

theorem delimited_int : Delimited fun x : Int => toString x := by
  apply Delimited.of_word isNumeral
  · intro x c hc
    exact isNumeral_of_mem_toString x hc
  · intro c hc
    rcases hc with rfl | rfl | rfl <;> decide
  · exact toList_toString_ne_nil
  · exact toString_injective

theorem delimited_nat : Delimited fun n : ℕ => toString n :=
  delimited_int.comp fun _ _ h => Int.ofNat.inj h

theorem delimited_nameText : Delimited nameText where
  start name := by
    have hstart : (nameText name).toList.head? = some (Text.quoteFor name.toList) := by
      rw [nameText, String.toList_ofList]
      rfl
    intro h
    have hmark := h _ hstart
    rcases Text.isQuote_quoteFor name.toList with hquote | hquote
    · rw [hquote] at hmark
      revert hmark
      decide
    · rw [hquote] at hmark
      revert hmark
      decide
  split _ _ heq := by
    simp only [nameText, String.toList_ofList] at heq
    have hname := Text.quoted_append_inj heq
    exact ⟨String.toList_injective hname.1, hname.2⟩

theorem delimited_entryText : Delimited entryText :=
  delimited_nat.pair delimited_nameText

theorem delimited_termText : Delimited termText :=
  delimited_int.pair delimited_int

end Shape

end RankOne
