import Mathlib.Data.List.Chain
import Mathlib.Data.List.Nodup
import RankOne.Exchange

/-!
# Texts as they are written

The exchange forms consist of texts in lists and objects. Whatever is written of that kind is read
back as it was: first the encoding, then the tokens, then the value that they spell. Only a text in
which one escape would join with the next comes back as another one.
-/

set_option autoImplicit false

namespace RankOne

namespace Unicode

def ofChars (cs : List Char) : Codes :=
  cs.map Char.toNat

@[simp] theorem ofChars_nil : ofChars [] = [] := rfl

@[simp] theorem ofChars_cons (c : Char) (cs : List Char) :
    ofChars (c :: cs) = c.toNat :: ofChars cs := rfl

@[simp] theorem ofChars_append (cs ds : List Char) :
    ofChars (cs ++ ds) = ofChars cs ++ ofChars ds :=
  List.map_append

def IsAscii (c : Char) : Prop :=
  0 < c.toNat ∧ c.toNat < 128

instance (c : Char) : Decidable (IsAscii c) :=
  inferInstanceAs (Decidable (_ ∧ _))

def asciiByte (c : Char) : UInt8 :=
  UInt8.ofNat c.toNat

theorem toNat_asciiByte {c : Char} (h : IsAscii c) : (asciiByte c).toNat = c.toNat := by
  have := h.2
  rw [asciiByte, UInt8.toNat_ofNat']
  omega

theorem asciiByte_lt {c : Char} (h : IsAscii c) : asciiByte c < 0x80 := by
  rw [UInt8.lt_iff_toNat_lt, toNat_asciiByte h]
  exact h.2

theorem asciiByte_ne_zero {c : Char} (h : IsAscii c) : asciiByte c ≠ 0 := by
  intro h0
  have hc := toNat_asciiByte h
  rw [h0] at hc
  exact absurd hc.symm (Nat.ne_of_gt h.1)

theorem ofUtf8?_ascii {cs : List Char} (h : ∀ c ∈ cs, IsAscii c) :
    ofUtf8? (cs.map asciiByte) = some (ofChars cs) := by
  induction cs with
  | nil => rfl
  | cons c cs ih =>
    rw [List.forall_mem_cons] at h
    rw [List.map_cons, ofUtf8?.eq_def]
    simp only [if_pos (asciiByte_lt h.1), ih h.2, toNat_asciiByte h.1, Option.map_some,
      ofChars_cons]

theorem decodeUnmarked?_cons {a : UInt8} {rest : Bytes} (ha : a ≠ 0)
    (hrest : ∀ b ∈ rest.head?, b ≠ 0) : decodeUnmarked? (a :: rest) = ofUtf8? (a :: rest) := by
  match rest, hrest with
  | [], _ => rfl
  | [b], hrest => rw [decodeUnmarked?, if_neg ha, if_neg (hrest b rfl)]
  | [_, _], _ => rfl
  | b :: _ :: _ :: _, hrest => rw [decodeUnmarked?, if_neg ha, if_neg (hrest b rfl)]

theorem find?_marks_cons {a : UInt8} {rest : Bytes} (ha : a ≠ 0) (hfe : a ≠ 0xfe)
    (hff : a ≠ 0xff) (hef : a ≠ 0xef) :
    (marks.find? fun mark => mark.1.isPrefixOf (a :: rest)) = none := by
  have hother : ∀ {b : UInt8}, a ≠ b → (b == a) = false := fun h => beq_false_of_ne h.symm
  simp [marks, List.isPrefixOf, hother ha, hother hfe, hother hff, hother hef]

/-- No mark stands in front, and no zero among the first two bytes. -/
theorem decode?_cons {a : UInt8} {rest : Bytes} (ha : a ≠ 0) (hfe : a ≠ 0xfe) (hff : a ≠ 0xff)
    (hef : a ≠ 0xef) (hrest : ∀ b ∈ rest.head?, b ≠ 0) :
    decode? (a :: rest) = ofUtf8? (a :: rest) := by
  rw [decode?, find?_marks_cons ha hfe hff hef]
  exact decodeUnmarked?_cons ha hrest

theorem decode?_ascii {cs : List Char} (h : ∀ c ∈ cs, IsAscii c) :
    decode? (cs.map asciiByte) = some (ofChars cs) := by
  rw [← ofUtf8?_ascii h]
  cases cs with
  | nil => rfl
  | cons a cs =>
    rw [List.forall_mem_cons] at h
    have hsmall : ∀ {b : UInt8}, ¬b < 0x80 → asciiByte a ≠ b := by
      rintro b hb rfl
      exact hb (asciiByte_lt h.1)
    rw [List.map_cons]
    apply decode?_cons (asciiByte_ne_zero h.1) (hsmall (by decide)) (hsmall (by decide))
      (hsmall (by decide))
    intro b hb
    rw [List.head?_map] at hb
    obtain ⟨c, hc, rfl⟩ := Option.map_eq_some_iff.mp hb
    exact asciiByte_ne_zero (h.2 c (List.mem_of_mem_head? hc))

theorem toNat_ofNat_of_lt {c : ℕ} (h : c < 0xd800) : (Char.ofNat c).toNat = c := by
  rw [Char.ofNat, dif_pos (.inl h)]
  rfl

structure IsSound (s : Codes) : Prop where
  inRange : ∀ c ∈ s, c < 0x110000
  isChain : s.IsChain fun c d => ¬(isHighSurrogate c = true ∧ isLowSurrogate d = true)

theorem toNat_lt (c : Char) : c.toNat < 0x110000 := by
  have := c.valid
  simp only [UInt32.isValidChar, Nat.isValidChar] at this
  simp only [Char.toNat]
  omega

theorem not_isHighSurrogate (c : Char) : ¬isHighSurrogate c.toNat = true := by
  have := c.valid
  simp only [UInt32.isValidChar, Nat.isValidChar] at this
  simp only [isHighSurrogate, Char.toNat, Bool.and_eq_true, decide_eq_true_eq]
  omega

theorem isSound_ofChars (cs : List Char) : IsSound (ofChars cs) where
  inRange := by
    intro c hc
    obtain ⟨d, -, rfl⟩ := List.mem_map.mp hc
    exact toNat_lt d
  isChain := by
    refine (List.pairwise_map.mpr ?_).isChain
    exact List.pairwise_of_forall fun c _ h => not_isHighSurrogate c h.1

end Unicode

namespace Json

open Unicode

theorem isDigit_iff {c : ℕ} : isDigit c = true ↔ 48 ≤ c ∧ c < 58 := by
  simp [isDigit]

theorem hexValue?_hexDigit {n : ℕ} (h : n < 16) : hexValue? (Text.hexDigit n).toNat = some n := by
  decide +revert

theorem fourDigits?_hex {u : ℕ} (h : u < 0x10000) (rest : Codes) :
    fourDigits? (ofChars (Text.hex 4 u) ++ rest) = some (u, rest) := by
  simp only [Text.hex, List.nil_append, List.cons_append, ofChars_cons, ofChars_nil, fourDigits?,
    hexUnit?, hexValue?_hexDigit (Nat.mod_lt _ (by decide : 0 < 16)), Option.map_some]
  congr 2
  omega

def IsApart (rest : Codes) : Prop :=
  ∀ more v tail, rest = 92 :: 117 :: more → fourDigits? more = some (v, tail) →
    isLowSurrogate v = false

theorem joinNext_of_isApart (u : ℕ) {rest : Codes} (h : IsApart rest) :
    joinNext u rest = (u, rest) := by
  rw [joinNext.eq_def]
  split
  · rename_i a b more
    split
    · rename_i hab
      obtain ⟨rfl, rfl⟩ := hab
      split
      · rename_i v tail hv
        simp [h more v tail rfl hv]
      · rfl
    · rfl
  · rfl

theorem joinNext_of_not_high {u : ℕ} (h : ¬isHighSurrogate u = true) (rest : Codes) :
    joinNext u rest = (u, rest) := by
  rw [joinNext.eq_def]
  split
  · split
    · split
      · simp [h]
      · rfl
    · rfl
  · rfl

theorem joinNext_escapeUnit {u v : ℕ} (hu : isHighSurrogate u = true)
    (hv : isLowSurrogate v = true) (hrange : v < 0x10000) (rest : Codes) :
    joinNext u (ofChars (escapeUnit v) ++ rest) = (joinPair u v, rest) := by
  change joinNext u (92 :: 117 :: (ofChars (Text.hex 4 v) ++ rest)) = _
  rw [joinNext]
  simp [fourDigits?_hex hrange, hu, hv]

theorem isApart_of_ne {c : ℕ} (h : c ≠ 92) (rest : Codes) : IsApart (c :: rest) := by
  rintro more v tail heq -
  exact absurd (List.cons.inj heq).1 h

theorem isApart_of_short {c : ℕ} (h : c ≠ 117) (rest : Codes) : IsApart (92 :: c :: rest) := by
  rintro more v tail heq -
  exact absurd (List.cons.inj (List.cons.inj heq).2).1 h

theorem isApart_escapeUnit {u : ℕ} (h : ¬isLowSurrogate u = true) (hrange : u < 0x10000)
    (rest : Codes) : IsApart (ofChars (escapeUnit u) ++ rest) := by
  intro more v tail heq hv
  obtain rfl : ofChars (Text.hex 4 u) ++ rest = more := (List.cons.inj (List.cons.inj heq).2).2
  rw [fourDigits?_hex hrange] at hv
  obtain ⟨rfl, -⟩ := Prod.mk.inj (Option.some.inj hv)
  simpa using h

theorem isApart_escapeCode {c : ℕ} (h : ¬isLowSurrogate c = true) (hrange : c < 0x110000)
    (rest : Codes) : IsApart (ofChars (escapeCode c) ++ rest) := by
  rw [escapeCode]
  split_ifs with h34 h92 h10 h13 h9 h8 h12 hplain hunit
  iterate 7 exact isApart_of_short (by decide) rest
  · refine isApart_of_ne ?_ rest
    rw [toNat_ofNat_of_lt (by omega)]
    exact h92
  · exact isApart_escapeUnit h hunit rest
  · rw [ofChars_append, List.append_assoc]
    refine isApart_escapeUnit ?_ (by omega) _
    simp only [isLowSurrogate, Bool.and_eq_true, decide_eq_true_eq]
    omega

theorem scanText_escape {rest tail : Codes} {v : ℕ} (h : escape? rest = some (v, tail)) :
    scanText (92 :: rest) = (scanText tail).map fun r => (v :: r.1, r.2) := by
  rw [scanText, if_neg (by decide), if_pos rfl]
  split
  · simp_all
  · rename_i h'
    obtain ⟨rfl, rfl⟩ := Prod.mk.inj (Option.some.inj (h'.symm.trans h))
    rfl

theorem scanText_short {c v : ℕ} (hc : c ≠ 117) (h : shortEscape? c = some v) (rest : Codes) :
    scanText (92 :: c :: rest) = (scanText rest).map fun r => (v :: r.1, r.2) := by
  refine scanText_escape ?_
  rw [escape?, if_neg hc, h]
  rfl

theorem scanText_unit {u : ℕ} (h : u < 0x10000) (rest : Codes) :
    scanText (ofChars (escapeUnit u) ++ rest) =
      (scanText (joinNext u rest).2).map fun r => ((joinNext u rest).1 :: r.1, r.2) := by
  refine scanText_escape ?_
  change escape? (117 :: (ofChars (Text.hex 4 u) ++ rest)) = _
  rw [escape?, if_pos rfl, fourDigits?_hex h]
  rfl

theorem joinPair_split {c : ℕ} (h : 0x10000 ≤ c) :
    joinPair (0xd800 + (c - 0x10000) / 0x400) (0xdc00 + (c - 0x10000) % 0x400) = c := by
  unfold joinPair
  omega

/-- An escaped code point is scanned as it was, unless it may join with what follows. -/
theorem scanText_escapeCode {c : ℕ} (hrange : c < 0x110000) {rest : Codes}
    (h : isHighSurrogate c = true → IsApart rest) :
    scanText (ofChars (escapeCode c) ++ rest) =
      (scanText rest).map fun r => (c :: r.1, r.2) := by
  rw [escapeCode]
  split_ifs with h34 h92 h10 h13 h9 h8 h12 hplain hunit
  iterate 7 subst c; exact scanText_short (by decide) (by decide) rest
  · rw [ofChars_cons, ofChars_nil, List.singleton_append, toNat_ofNat_of_lt (by omega), scanText,
      if_neg h34, if_neg h92, if_neg (by omega)]
  · have hjoin : joinNext c rest = (c, rest) := by
      by_cases hhigh : isHighSurrogate c = true
      · exact joinNext_of_isApart c (h hhigh)
      · exact joinNext_of_not_high hhigh rest
    rw [scanText_unit hunit, hjoin]
  · rw [ofChars_append, List.append_assoc, scanText_unit (by omega), joinNext_escapeUnit]
    · rw [joinPair_split (by omega)]
    · simp only [isHighSurrogate, Bool.and_eq_true, decide_eq_true_eq]
      omega
    · simp only [isLowSurrogate, Bool.and_eq_true, decide_eq_true_eq]
      omega
    · omega

theorem scanText_flatMap {s : Codes} (h : IsSound s) (rest : Codes) :
    scanText (ofChars (s.flatMap escapeCode) ++ 34 :: rest) = some (s, rest) := by
  obtain ⟨hrange, hchain⟩ := h
  induction s with
  | nil => rw [List.flatMap_nil, ofChars_nil, List.nil_append, scanText, if_pos rfl]
  | cons c s ih =>
    rw [List.forall_mem_cons] at hrange
    rw [List.flatMap_cons, ofChars_append, List.append_assoc, scanText_escapeCode hrange.1,
      ih hrange.2 hchain.tail]
    · rfl
    · intro hhigh
      cases s with
      | nil => exact isApart_of_ne (by decide) rest
      | cons d s =>
        rw [List.isChain_cons_cons] at hchain
        rw [List.flatMap_cons, ofChars_append, List.append_assoc]
        exact isApart_escapeCode (fun hlow => hchain.1 ⟨hhigh, hlow⟩) (hrange.2 d (by simp)) _

theorem isAscii_hex (width n : ℕ) : ∀ c ∈ Text.hex width n, IsAscii c := by
  have hdigit : ∀ d < 16, IsAscii (Text.hexDigit d) := by decide
  induction width generalizing n with
  | zero => nofun
  | succ width ih =>
    rw [Text.hex, List.forall_mem_append, List.forall_mem_singleton]
    exact ⟨ih (n / 16), hdigit _ (Nat.mod_lt n (by decide))⟩

theorem isAscii_escapeUnit (u : ℕ) : ∀ c ∈ escapeUnit u, IsAscii c := by
  rw [escapeUnit, List.forall_mem_cons, List.forall_mem_cons]
  exact ⟨by decide, by decide, isAscii_hex 4 u⟩

theorem isAscii_escapeCode (c : ℕ) : ∀ d ∈ escapeCode c, IsAscii d := by
  rw [escapeCode]
  split_ifs with h34 h92 h10 h13 h9 h8 h12 hplain hunit
  iterate 7 exact List.forall_mem_cons.mpr ⟨by decide, List.forall_mem_singleton.mpr (by decide)⟩
  · rw [List.forall_mem_singleton, IsAscii, toNat_ofNat_of_lt (by omega)]
    omega
  · exact isAscii_escapeUnit c
  · rw [List.forall_mem_append]
    exact ⟨isAscii_escapeUnit _, isAscii_escapeUnit _⟩

theorem isAscii_renderText (s : Codes) : ∀ c ∈ renderText s, IsAscii c := by
  rw [renderText, List.cons_append, List.forall_mem_cons, List.forall_mem_append,
    List.forall_mem_singleton]
  refine ⟨by decide, fun d hd => ?_, by decide⟩
  obtain ⟨c, -, hc⟩ := List.mem_flatMap.mp hd
  exact isAscii_escapeCode c d hc

structure Lexes (cs : List Char) (ts : List Token) : Prop where
  isAscii : ∀ c ∈ cs, IsAscii c
  tokens : ∀ fuel rest, cs.length + rest.length ≤ fuel →
    ∃ fuel', rest.length ≤ fuel' ∧
      tokensFrom fuel (ofChars cs ++ rest) = ts ++ tokensFrom fuel' rest

theorem lexes_nil : Lexes [] [] :=
  ⟨nofun, fun fuel _ h => ⟨fuel, by simpa using h, rfl⟩⟩

theorem Lexes.append {cs ds : List Char} {ts us : List Token} (h : Lexes cs ts)
    (h' : Lexes ds us) : Lexes (cs ++ ds) (ts ++ us) := by
  refine ⟨List.forall_mem_append.mpr ⟨h.isAscii, h'.isAscii⟩, fun fuel rest hfuel => ?_⟩
  rw [List.length_append] at hfuel
  obtain ⟨fuel₁, hfuel₁, h₁⟩ := h.tokens fuel (ofChars ds ++ rest)
    (by simp only [ofChars, List.length_append, List.length_map]; omega)
  obtain ⟨fuel₂, hfuel₂, h₂⟩ := h'.tokens fuel₁ rest
    (by simpa only [ofChars, List.length_append, List.length_map] using hfuel₁)
  refine ⟨fuel₂, hfuel₂, ?_⟩
  rw [ofChars_append, List.append_assoc, h₁, h₂, List.append_assoc]

theorem lexes_blank {c : Char} (hascii : IsAscii c) (h : isBlank c.toNat = true) :
    Lexes [c] [] := by
  refine ⟨List.forall_mem_singleton.mpr hascii, fun fuel rest hfuel => ?_⟩
  obtain _ | fuel := fuel
  · simp at hfuel
  · refine ⟨fuel, by simp at hfuel; omega, ?_⟩
    rw [ofChars_cons, ofChars_nil, List.singleton_append, tokensFrom, if_pos h, List.nil_append]

theorem lexes_space : Lexes [' '] [] :=
  lexes_blank (by decide) (by decide)

theorem lexes_token {c : Char} {cs : List Char} {t : Token}
    (hascii : ∀ d ∈ c :: cs, IsAscii d) (hblank : ¬isBlank c.toNat = true)
    (hbad : t ≠ .bad) (hoverlong : t ≠ .overlong)
    (h : ∀ rest, nextToken c.toNat (ofChars cs ++ rest) = (t, rest)) : Lexes (c :: cs) [t] := by
  refine ⟨hascii, fun fuel rest hfuel => ?_⟩
  obtain _ | fuel := fuel
  · simp at hfuel
  · refine ⟨fuel, by simp at hfuel; omega, ?_⟩
    rw [ofChars_cons, List.cons_append, tokensFrom, if_neg hblank]
    split
    · rename_i heq
      exact absurd (congrArg Prod.fst ((h rest).symm.trans heq)) hbad
    · rename_i heq
      exact absurd (congrArg Prod.fst ((h rest).symm.trans heq)) hoverlong
    · rename_i heq
      obtain ⟨rfl, rfl⟩ := Prod.mk.inj ((h rest).symm.trans heq)
      rfl

theorem lexes_mark {c : Char} {t : Token} (hascii : IsAscii c) (hblank : ¬isBlank c.toNat = true)
    (hbad : t ≠ .bad) (hoverlong : t ≠ .overlong)
    (h : ∀ rest, nextToken c.toNat rest = (t, rest)) : Lexes [c] [t] :=
  lexes_token (List.forall_mem_singleton.mpr hascii) hblank hbad hoverlong h

theorem lexes_openList : Lexes ['['] [.openList] :=
  lexes_mark (by decide) (by decide) nofun nofun fun _ => rfl

theorem lexes_closeList : Lexes [']'] [.closeList] :=
  lexes_mark (by decide) (by decide) nofun nofun fun _ => rfl

theorem lexes_openObject : Lexes ['\x7b'] [.openObject] :=
  lexes_mark (by decide) (by decide) nofun nofun fun _ => rfl

theorem lexes_closeObject : Lexes ['\x7d'] [.closeObject] :=
  lexes_mark (by decide) (by decide) nofun nofun fun _ => rfl

theorem lexes_comma : Lexes [','] [.comma] :=
  lexes_mark (by decide) (by decide) nofun nofun fun _ => rfl

theorem lexes_colon : Lexes [':'] [.colon] :=
  lexes_mark (by decide) (by decide) nofun nofun fun _ => rfl

theorem lexes_newLine (indent : ℕ) : Lexes (newLine indent) [] := by
  have hspaces : Lexes (List.replicate indent ' ') [] := by
    induction indent with
    | zero => exact lexes_nil
    | succ indent ih => exact lexes_space.append ih
  exact (lexes_blank (by decide) (by decide)).append hspaces

theorem lexes_renderText {s : Codes} (h : IsSound s) :
    Lexes (renderText s) [.scalar (.text s)] := by
  refine lexes_token (isAscii_renderText s) (by decide) nofun nofun fun rest => ?_
  have hscan := scanText_flatMap h rest
  change nextToken 34 (ofChars (s.flatMap escapeCode ++ ['"']) ++ rest) = _
  rw [ofChars_append, List.append_assoc]
  change nextToken 34 (ofChars (s.flatMap escapeCode) ++ 34 :: rest) = _
  simp [nextToken, hscan]

theorem State.run_cons {s s' : State} {t : Token} (h : s.next t = .ok s') (ts : List Token) :
    s.run (t :: ts) = s'.run ts := by
  rw [run, h]

inductive Written : ℕ → Json → Prop
  | text {height : ℕ} {s : Codes} (h : IsSound s) : Written height (.text s)
  | list {height : ℕ} {items : List Json} (h : ∀ x ∈ items, Written height x) :
      Written (height + 1) (.list items)
  | object {height : ℕ} {fields : List (Codes × Json)} (honce : Entries.ofPairs fields = fields)
      (hnames : ∀ f ∈ fields, IsSound f.1) (h : ∀ f ∈ fields, Written height f.2) :
      Written (height + 1) (.object fields)

structure Spells (height : ℕ) (x : Json) (ts : List Token) : Prop where
  opens : ∃ t us, ts = t :: us ∧ t ≠ .closeList
  run : ∀ stack rest, stack.length + height ≤ nestingLimit →
    (State.wantValue stack).run (ts ++ rest) = (State.complete x stack).run rest

theorem Spells.run_firstItem {height : ℕ} {x : Json} {ts : List Token} (h : Spells height x ts)
    {stack : List Frame} (hdepth : stack.length + height < nestingLimit) (rest : List Token) :
    (State.firstItem stack).run (ts ++ rest) =
      (State.complete x (.list [] :: stack)).run rest := by
  rw [← h.run (.list [] :: stack) rest (by rw [List.length_cons]; omega)]
  obtain ⟨t, us, rfl, hopens⟩ := h.opens
  have hnext : (State.firstItem stack).next t = (State.wantValue (.list [] :: stack)).next t := by
    rw [State.next.eq_def]
    split <;> simp_all [State.next]
  rw [List.cons_append, State.run, State.run, hnext]

def Legible (height : ℕ) (x : Json) : Prop :=
  ∃ ts, (∀ indent, Lexes (renderAt indent x) ts) ∧ Spells height x ts

theorem legible_text {height : ℕ} {s : Codes} (h : IsSound s) : Legible height (.text s) :=
  ⟨[.scalar (.text s)], fun indent => by rw [renderAt]; exact lexes_renderText h,
    ⟨_, [], rfl, nofun⟩, fun _ _ _ => State.run_cons rfl _⟩

theorem legible_items {height : ℕ} {xs : List Json} (h : ∀ x ∈ xs, Legible height x) :
    ∃ ts, (∀ indent, Lexes (renderItems indent xs) ts) ∧
      ∀ before value stack rest, stack.length + height < nestingLimit →
        (State.complete value (.list before :: stack)).run (ts ++ .closeList :: rest) =
          (State.complete (.list ((value :: before).reverse ++ xs)) stack).run rest := by
  induction xs with
  | nil =>
    refine ⟨[], fun indent => by rw [renderItems]; exact lexes_nil, fun _ _ _ rest _ => ?_⟩
    rw [List.append_nil]
    exact State.run_cons rfl rest
  | cons x xs ih =>
    rw [List.forall_mem_cons] at h
    obtain ⟨ts, hlex, hspells⟩ := h.1
    obtain ⟨us, hlexItems, hrun⟩ := ih h.2
    refine ⟨.comma :: (ts ++ us), fun indent => ?_, fun before value stack rest hdepth => ?_⟩
    · rw [renderItems]
      exact ((lexes_comma.append (lexes_newLine indent)).append (hlex indent)).append
        (hlexItems indent)
    · rw [List.cons_append, State.run_cons rfl, List.append_assoc,
        hspells.run _ _ (by rw [List.length_cons]; omega), hrun _ _ _ _ hdepth]
      simp

theorem legible_list {height : ℕ} {xs : List Json} (h : ∀ x ∈ xs, Legible height x) :
    Legible (height + 1) (.list xs) := by
  have henter : ∀ stack : List Frame, stack.length + (height + 1) ≤ nestingLimit →
      (State.wantValue stack).next .openList = .ok (.firstItem stack) := by
    intro stack hdepth
    rw [State.next, beginValue, enter, if_neg (by omega)]
  cases xs with
  | nil =>
    refine ⟨[.openList, .closeList], fun indent => ?_, ⟨_, _, rfl, nofun⟩,
      fun stack rest hdepth => ?_⟩
    · rw [renderAt]
      exact lexes_openList.append lexes_closeList
    · exact (State.run_cons (henter stack hdepth) _).trans (State.run_cons rfl rest)
  | cons x xs =>
    rw [List.forall_mem_cons] at h
    obtain ⟨ts, hlex, hspells⟩ := h.1
    obtain ⟨us, hlexItems, hrun⟩ := legible_items h.2
    refine ⟨.openList :: (ts ++ us ++ [.closeList]), fun indent => ?_, ⟨_, _, rfl, nofun⟩,
      fun stack rest hdepth => ?_⟩
    · rw [renderAt]
      have hfirst := (lexes_openList.append (lexes_newLine (indent + 2))).append (hlex (indent + 2))
      have hlast := (lexes_newLine indent).append lexes_closeList
      simpa using (hfirst.append (hlexItems (indent + 2))).append hlast
    · rw [List.cons_append, State.run_cons (henter stack hdepth), List.append_assoc,
        List.append_assoc, hspells.run_firstItem (by omega), List.singleton_append,
        hrun _ _ _ _ (by omega)]
      rfl

theorem legible_fields {height : ℕ} {fields : List (Codes × Json)}
    (hnames : ∀ f ∈ fields, IsSound f.1) (h : ∀ f ∈ fields, Legible height f.2) :
    ∃ ts, (∀ indent, Lexes (renderFields indent fields) ts) ∧
      ∀ before name value stack rest, stack.length + height < nestingLimit →
        (State.complete value (.object before name :: stack)).run (ts ++ .closeObject :: rest) =
          (State.complete (.object (fields.foldl (fun entries f => Entries.put f.1 f.2 entries)
            (Entries.put name value before))) stack).run rest := by
  induction fields with
  | nil =>
    refine ⟨[], fun indent => by rw [renderFields]; exact lexes_nil, fun _ _ _ _ rest _ => ?_⟩
    exact State.run_cons rfl rest
  | cons f fields ih =>
    obtain ⟨k, x⟩ := f
    rw [List.forall_mem_cons] at h hnames
    obtain ⟨ts, hlex, hspells⟩ := h.1
    obtain ⟨us, hlexFields, hrun⟩ := ih hnames.2 h.2
    refine ⟨.comma :: .scalar (.text k) :: .colon :: (ts ++ us), fun indent => ?_,
      fun before name value stack rest hdepth => ?_⟩
    · rw [renderFields]
      have hname := (lexes_comma.append (lexes_newLine indent)).append (lexes_renderText hnames.1)
      have hcolon := lexes_colon.append lexes_space
      simpa using ((hname.append hcolon).append (hlex indent)).append (hlexFields indent)
    · rw [List.cons_append, List.cons_append, List.cons_append, State.run_cons rfl,
        State.run_cons rfl, State.run_cons rfl, List.append_assoc,
        hspells.run _ _ (by rw [List.length_cons]; omega), hrun _ _ _ _ _ hdepth]
      rfl

theorem legible_object {height : ℕ} {fields : List (Codes × Json)}
    (honce : Entries.ofPairs fields = fields) (hnames : ∀ f ∈ fields, IsSound f.1)
    (h : ∀ f ∈ fields, Legible height f.2) : Legible (height + 1) (.object fields) := by
  have henter : ∀ stack : List Frame, stack.length + (height + 1) ≤ nestingLimit →
      (State.wantValue stack).next .openObject = .ok (.firstField stack) := by
    intro stack hdepth
    rw [State.next, beginValue, enter, if_neg (by omega)]
  cases fields with
  | nil =>
    refine ⟨[.openObject, .closeObject], fun indent => ?_, ⟨_, _, rfl, nofun⟩,
      fun stack rest hdepth => ?_⟩
    · rw [renderAt]
      exact lexes_openObject.append lexes_closeObject
    · exact (State.run_cons (henter stack hdepth) _).trans (State.run_cons rfl rest)
  | cons f fields =>
    obtain ⟨k, x⟩ := f
    rw [List.forall_mem_cons] at h hnames
    obtain ⟨ts, hlex, hspells⟩ := h.1
    obtain ⟨us, hlexFields, hrun⟩ := legible_fields hnames.2 h.2
    refine ⟨.openObject :: .scalar (.text k) :: .colon :: (ts ++ us ++ [.closeObject]),
      fun indent => ?_, ⟨_, _, rfl, nofun⟩, fun stack rest hdepth => ?_⟩
    · rw [renderAt]
      have hname := (lexes_openObject.append (lexes_newLine (indent + 2))).append
        (lexes_renderText hnames.1)
      have hcolon := lexes_colon.append lexes_space
      have hlast := (lexes_newLine indent).append lexes_closeObject
      simpa using (((hname.append hcolon).append (hlex (indent + 2))).append
        (hlexFields (indent + 2))).append hlast
    · rw [List.cons_append, State.run_cons (henter stack hdepth), List.cons_append,
        State.run_cons rfl, List.cons_append, State.run_cons rfl, List.append_assoc,
        List.append_assoc, hspells.run _ _ (by rw [List.length_cons]; omega),
        List.singleton_append, hrun _ _ _ _ _ (by omega)]
      exact congrArg (fun fields => (State.complete (.object fields) stack).run rest) honce

theorem Written.legible {height : ℕ} {x : Json} (h : Written height x) : Legible height x := by
  induction h with
  | text hs => exact legible_text hs
  | list _ ih => exact legible_list ih
  | object honce hnames _ ih => exact legible_object honce hnames ih

theorem ofBytes_toBytes {height : ℕ} {x : Json} (h : Written height x)
    (hheight : height ≤ nestingLimit) : ofBytes x.toBytes = .ok x := by
  obtain ⟨ts, hlex, hspells⟩ := h.legible
  obtain ⟨fuel, -, htokens⟩ := (hlex 0).tokens (ofChars x.render).length []
    (by simp [ofChars, render])
  have hall : tokens (ofChars x.render) = ts := by
    rw [render, List.append_nil] at htokens
    rw [tokens, render, htokens]
    cases fuel <;> simp [tokensFrom]
  have hrun := hspells.run [] [] (by rw [List.length_nil]; omega)
  rw [List.append_nil] at hrun
  have hdecode : decode? x.toBytes = some (ofChars x.render) := decode?_ascii (hlex 0).isAscii
  rw [ofBytes, hdecode]
  simp only [parse, hall, hrun, State.run]

end Json

end RankOne
