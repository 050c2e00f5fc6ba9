import RankOne.Proofs.Exponent
import RankOne.Proofs.Wording

/-!
# The exchange form of keys, proofs and inputs

Whatever is written in the exchange form is read back as it was: a verifying key with a column for
each of its public entries, a proof, and field elements under names that are all different. Of the
groups it takes that an element is read from the text that it is written as.
-/

set_option autoImplicit false

namespace RankOne

namespace Entries
variable {κ α : Type} [DecidableEq κ]

theorem put_of_notMem {k : κ} (v : α) {entries : List (κ × α)} (h : k ∉ entries.map Prod.fst) :
    put k v entries = entries ++ [(k, v)] := by
  induction entries with
  | nil => rfl
  | cons entry rest ih =>
    rw [List.map_cons, List.mem_cons, not_or] at h
    rw [put, if_neg (Ne.symm h.1), ih h.2, List.cons_append]

theorem foldl_put_of_nodup {pairs before : List (κ × α)}
    (h : ((before ++ pairs).map Prod.fst).Nodup) :
    pairs.foldl (fun entries pair => put pair.1 pair.2 entries) before = before ++ pairs := by
  induction pairs generalizing before with
  | nil => rw [List.foldl_nil, List.append_nil]
  | cons pair rest ih =>
    have hnew : pair.1 ∉ before.map Prod.fst := by
      rw [List.map_append, List.map_cons, List.nodup_append] at h
      exact fun hmem => h.2.2 _ hmem _ (List.mem_cons_self ..) rfl
    rw [List.foldl_cons, put_of_notMem _ hnew, ih (by simpa using h), List.append_assoc,
      List.singleton_append]

theorem ofPairs_of_nodup {pairs : List (κ × α)} (h : (pairs.map Prod.fst).Nodup) :
    ofPairs pairs = pairs :=
  foldl_put_of_nodup h

end Entries

namespace Text

theorem toList_toString (n : ℕ) : (toString (n : Int)).toList = Nat.toDigits 10 n :=
  Nat.toList_repr

theorem toNat_range_of_isDigit {c : Char} (h : c.isDigit = true) : 48 ≤ c.toNat ∧ c.toNat < 58 := by
  simp only [Char.isDigit, Bool.and_eq_true, decide_eq_true_eq, ge_iff_le,
    UInt32.le_iff_toNat_le] at h
  exact ⟨h.1, Nat.lt_succ_of_le h.2⟩

theorem isDigit_of_mem_toDigits {n : ℕ} {c : Char} (h : c ∈ Nat.toDigits 10 n) :
    c.isDigit = true :=
  Nat.isDigit_of_mem_toDigits (by decide) (by decide) h

/-- A field element has far fewer digits than a number may have. -/
theorem length_toDigits_le {n : ℕ} (h : n < orderNat) :
    (Nat.toDigits 10 n).length ≤ Json.digitLimit := by
  have hlen := (Nat.length_toDigits_le_iff (k := 77) (by decide) (by decide)).mpr
    (h.trans (by decide : orderNat < 10 ^ 77))
  exact hlen.trans (by decide)

theorem toAscii_of_digit {c : Char} (h : c.isDigit = true) : toAscii c = c := by
  have hrange := toNat_range_of_isDigit h
  have hvalue : decimalValue? c = some (c.toNat - 48) := by
    rw [decimalValue?, zeros, List.find?_cons_of_pos (by simpa using hrange)]
    rfl
  rw [toAscii, hvalue]
  dsimp only
  rw [Nat.add_sub_cancel' hrange.1, Char.ofNat_toNat]

theorem isBlank_of_digit {c : Char} (h : c.isDigit = true) : isBlank c = false := by
  have hrange := toNat_range_of_isDigit h
  simp only [isBlank, Bool.or_eq_false_iff, Bool.and_eq_false_iff, beq_eq_false_iff_ne,
    decide_eq_false_iff_not]
  omega

theorem digitValue?_of_digit {c : Char} (h : c.isDigit = true) :
    digitValue? 10 c = some (c.toNat - 48) := by
  have hrange := toNat_range_of_isDigit h
  have hle : '0' ≤ c ∧ c ≤ '9' := by
    rw [Char.le_def, Char.le_def, UInt32.le_iff_toNat_le, UInt32.le_iff_toNat_le]
    exact ⟨hrange.1, Nat.le_of_lt_succ hrange.2⟩
  rw [digitValue?, if_pos hle]
  exact if_pos (by omega)

section Digits
variable {cs : List Char} (h : ∀ c ∈ cs, c.isDigit = true)
include h

theorem dropWhile_isBlank_of_digits : cs.dropWhile isBlank = cs := by
  cases cs with
  | nil => rfl
  | cons c rest =>
    rw [List.dropWhile_cons_of_neg]
    rw [isBlank_of_digit (h c (List.mem_cons_self ..))]
    decide

theorem trimBlanks_of_digits : trimBlanks cs = cs := by
  have hreverse : ∀ c ∈ cs.reverse, c.isDigit = true := fun c hc =>
    h c (List.mem_reverse.mp hc)
  rw [trimBlanks, dropWhile_isBlank_of_digits h, dropWhile_isBlank_of_digits hreverse,
    List.reverse_reverse]

theorem digits?_of_digits (hne : cs ≠ []) :
    digits? 10 cs = some (cs.map fun c => c.toNat - 48) := by
  induction cs with
  | nil => exact absurd rfl hne
  | cons c rest ih =>
    rw [List.forall_mem_cons] at h
    cases rest with
    | nil => rw [digits?, digitValue?_of_digit h.1]; rfl
    | cons d rest =>
      have hunderscore : d ≠ '_' := by
        rintro rfl
        exact absurd (h.2 '_' (List.mem_cons_self ..)) (by decide)
      rw [digits?, digitValue?_of_digit h.1, ih h.2 (List.cons_ne_nil _ _)]
      · rfl
      · nofun
      · rintro rest' heq
        exact hunderscore (List.cons.inj heq).1

theorem decimal?_of_digits (hne : cs ≠ []) (hlen : cs.length ≤ Json.digitLimit) :
    decimal? cs = some ((ofDigits 10 (cs.map fun c => c.toNat - 48) : ℕ) : Int) := by
  have hascii : cs.map toAscii = cs :=
    (List.map_congr_left fun c hc => toAscii_of_digit (h c hc)).trans (List.map_id' cs)
  have hnumeral : decimalNumeral? cs = some (ofDigits 10 (cs.map fun c => c.toNat - 48)) := by
    rw [decimalNumeral?, digits?_of_digits h hne]
    dsimp only
    rw [List.length_map, if_neg (Nat.not_lt.mpr hlen)]
  have hsign : ∀ {c : Char} {rest : List Char}, c.toNat < 48 → cs ≠ c :: rest := by
    rintro c rest hc rfl
    exact absurd (toNat_range_of_isDigit (h c (List.mem_cons_self ..))).1 (Nat.not_le.mpr hc)
  rw [decimal?, signed?, hascii, trimBlanks_of_digits h]
  split
  · exact absurd rfl (hsign (by decide))
  · exact absurd rfl (hsign (by decide))
  · rw [hnumeral]
    rfl

end Digits

theorem decimal?_toDigits {n : ℕ} (hlen : (Nat.toDigits 10 n).length ≤ Json.digitLimit) :
    decimal? (Nat.toDigits 10 n) = some (n : Int) := by
  have hvalue : ofDigits 10 ((Nat.toDigits 10 n).map fun c => c.toNat - 48) = n := by
    rw [ofDigits, List.foldl_map]
    exact Nat.ofDigitChars_toDigits (by decide) (by decide)
  rw [decimal?_of_digits (fun _ => isDigit_of_mem_toDigits) Nat.toDigits_ne_nil hlen, hvalue]

end Text

namespace Unicode

theorem ofChars_injective : Function.Injective ofChars :=
  List.map_injective_iff.mpr fun _ _ => Char.toNat_inj.mp

theorem ofString_injective : Function.Injective ofString :=
  fun _ _ h => String.toList_injective (ofChars_injective h)

theorem chars?_ofChars (cs : List Char) : chars? (ofChars cs) = some cs := by
  induction cs with
  | nil => rfl
  | cons c cs ih =>
    have hvalid : c.toNat.isValidChar := c.valid
    have hcons : chars? (c.toNat :: ofChars cs) = (chars? (ofChars cs)).map (c :: ·) :=
      dif_pos hvalid
    rw [ofChars_cons, hcons, ih]
    rfl

theorem intercalate_ofString (ss : List String) :
    List.intercalate [32] (ss.map ofString) =
      ofChars (List.intercalate [' '] (ss.map String.toList)) := by
  induction ss with
  | nil => rfl
  | cons s rest ih =>
    cases rest with
    | nil =>
      rw [List.map_singleton, List.map_singleton, List.intercalate_singleton,
        List.intercalate_singleton]
      rfl
    | cons t rest =>
      rw [List.map_cons, List.map_cons, List.map_cons, List.map_cons, List.intercalate_cons_cons,
        List.intercalate_cons_cons, ofChars_append, ofChars_append, ← List.map_cons,
        ← List.map_cons, ih]
      rfl

end Unicode

class LawfulText (G : Type) [CodedGroup G] : Prop where
  ofText?_parts : ∀ x : G,
    CodedGroup.ofText? (List.intercalate [' '] ((CodedGroup.parts x).map String.toList)) = some x

instance : LawfulText Exponent where
  ofText?_parts x := by
    change (Text.decimal? (List.intercalate [' '] [x.value.val.repr.toList])).map
      (fun n => (⟨n⟩ : Exponent)) = some x
    rw [List.intercalate_singleton, Nat.toList_repr,
      Text.decimal?_toDigits (Text.length_toDigits_le (ZMod.val_lt x.value))]
    exact congrArg (fun v => some (⟨v⟩ : Exponent)) (cast_val x.value)

namespace Exchange
open Unicode (Codes ofString)

theorem texts?_map (ss : List String) : texts? (ss.map Json.ofString) = some (ss.map ofString) := by
  induction ss with
  | nil => rfl
  | cons s rest ih => rw [List.map_cons, Json.ofString, texts?, ih]; rfl

theorem point_ofPoint {G : Type} [CodedGroup G] [LawfulText G] (invalid : Malformed) (x : G) :
    point G invalid (ofPoint x) = .ok x := by
  simp only [ofPoint, point, texts?_map, Unicode.intercalate_ofString, Unicode.chars?_ofChars,
    Option.bind_some, LawfulText.ofText?_parts]

theorem inputText_number {P : Type} (u : Int) :
    inputText (.number u : Datum P) = ofString (toString u) :=
  rfl

theorem first_ofPoint {G : Type} [CodedGroup G] [LawfulText G] (x : G) :
    first G (ofPoint x) = .ok x :=
  point_ofPoint .firstGroup x

theorem second_ofPoint {G : Type} [CodedGroup G] [LawfulText G] (x : G) :
    second G (ofPoint x) = .ok x :=
  point_ofPoint .secondGroup x

theorem scalar_number {P : Type} {u : Int} (h₀ : 0 ≤ u) (h : u < order) :
    scalar (.text (inputText (.number u : Datum P))) = .ok u := by
  obtain ⟨n, rfl⟩ := Int.eq_ofNat_of_zero_le h₀
  have hdigits : ofString (toString (n : Int)) = Unicode.ofChars (Nat.toDigits 10 n) :=
    congrArg Unicode.ofChars (Text.toList_toString n)
  rw [inputText_number, hdigits]
  have hempty : ¬(Unicode.ofChars (Nat.toDigits 10 n)).isEmpty := by
    simp [Unicode.ofChars, Nat.toDigits_ne_nil]
  have hall : (Unicode.ofChars (Nat.toDigits 10 n)).all Json.isDigit = true := by
    rw [Unicode.ofChars, List.all_map, List.all_eq_true]
    exact fun c hc => Json.isDigit_iff.mpr
      (Text.toNat_range_of_isDigit (Text.isDigit_of_mem_toDigits hc))
  have hlen : (Unicode.ofChars (Nat.toDigits 10 n)).length ≤ Json.digitLimit := by
    rw [← natCast_orderNat] at h
    rw [Unicode.ofChars, List.length_map]
    exact Text.length_toDigits_le (Int.ofNat_lt.mp h)
  have hvalue : Json.digitsValue (Unicode.ofChars (Nat.toDigits 10 n)) = n := by
    rw [Json.digitsValue, Unicode.ofChars, List.foldl_map]
    exact Nat.ofDigitChars_toDigits (by decide) (by decide)
  rw [scalar, hall, if_neg (by simpa using hempty), if_neg (Nat.not_lt.mpr hlen), hvalue,
    if_neg (not_le.mpr h)]

variable {G₁ G₂ : Type} [CodedGroup G₁] [CodedGroup G₂]

theorem isSound_ofString (s : String) : Unicode.IsSound (ofString s) :=
  Unicode.isSound_ofChars s.toList

theorem written_ofPoint {G : Type} [CodedGroup G] (height : ℕ) (x : G) :
    Json.Written (height + 1) (ofPoint x) :=
  .list (List.forall_mem_map.mpr fun s _ => .text (isSound_ofString s))

section Fields
variable {fields : List (String × Json)} (hnodup : (fields.map Prod.fst).Nodup)
include hnodup

theorem nodup_names : ((fields.map fun f => (ofString f.1, f.2)).map Prod.fst).Nodup := by
  rw [List.map_map]
  have h := hnodup.map Unicode.ofString_injective
  rwa [List.map_map] at h

theorem ofFields_eq :
    Json.ofFields fields = .object (fields.map fun f => (ofString f.1, f.2)) := by
  rw [Json.ofFields, Entries.ofPairs_of_nodup (nodup_names hnodup)]

theorem written_ofFields {height : ℕ} (h : ∀ f ∈ fields, Json.Written height f.2) :
    Json.Written (height + 1) (Json.ofFields fields) := by
  rw [ofFields_eq hnodup]
  exact .object (Entries.ofPairs_of_nodup (nodup_names hnodup))
    (List.forall_mem_map.mpr fun f _ => isSound_ofString f.1) (List.forall_mem_map.mpr h)

theorem field_ofFields {name : String} {x : Json} (h : (name, x) ∈ fields) :
    field (Json.ofFields fields) name = .ok x := by
  have hmem : (ofString name, x) ∈ fields.map fun f => (ofString f.1, f.2) :=
    List.mem_map.mpr ⟨(name, x), h, rfl⟩
  rw [ofFields_eq hnodup, field, Entries.get?_of_mem (nodup_names hnodup) hmem]

end Fields

theorem written_ofProof (p : Proof G₁ G₂) : Json.Written 2 (ofProof p) := by
  rw [ofProof]
  refine written_ofFields ?_ ?_
  · exact (by decide : ["a", "b", "c"].Nodup)
  · simp only [List.forall_mem_cons]
    exact ⟨written_ofPoint 0 p.a, written_ofPoint 0 p.b, written_ofPoint 0 p.c, nofun⟩

theorem ofBytes_proof (p : Proof G₁ G₂) : Json.ofBytes (ofProof p).toBytes = .ok (ofProof p) :=
  Json.ofBytes_toBytes (written_ofProof p) (by decide)

/-- The public columns are a list of points inside of the object. -/
theorem written_ofVerifyingKey (vk : VerifyingKey G₁ G₂) : Json.Written 3 (ofVerifyingKey vk) := by
  rw [ofVerifyingKey]
  refine written_ofFields ?_ ?_
  · exact (by decide : ["alpha", "beta", "gamma", "delta", "gamma_abc"].Nodup)
  · simp only [List.forall_mem_cons]
    refine ⟨written_ofPoint 1 _, written_ofPoint 1 _, written_ofPoint 1 _, written_ofPoint 1 _,
      .list ?_, nofun⟩
    exact List.forall_mem_map.mpr fun x _ => written_ofPoint 0 x

theorem ofBytes_verifyingKey (vk : VerifyingKey G₁ G₂) :
    Json.ofBytes (ofVerifyingKey vk).toBytes = .ok (ofVerifyingKey vk) :=
  Json.ofBytes_toBytes (written_ofVerifyingKey vk) (by decide)

section Reading
variable [LawfulText G₁] [LawfulText G₂]

theorem proof_ofProof (p : Proof G₁ G₂) : proof (ofProof p) = .ok p := by
  have hnodup : ([("a", ofPoint p.a), ("b", ofPoint p.b), ("c", ofPoint p.c)].map Prod.fst).Nodup :=
    (by decide : ["a", "b", "c"].Nodup)
  have ha : field (ofProof p) "a" = .ok (ofPoint p.a) := field_ofFields hnodup (by simp)
  have hb : field (ofProof p) "b" = .ok (ofPoint p.b) := field_ofFields hnodup (by simp)
  have hc : field (ofProof p) "c" = .ok (ofPoint p.c) := field_ofFields hnodup (by simp)
  simp only [proof, ha, hb, hc, first_ofPoint, second_ofPoint, bind, Except.bind, pure, Except.pure]

theorem mapM_first (xs : List G₁) : (xs.map ofPoint).mapM (first G₁) = .ok xs := by
  induction xs with
  | nil => rfl
  | cons x rest ih =>
    rw [List.map_cons, List.mapM_cons, ih, first_ofPoint]
    rfl

theorem verifyingKey_ofVerifyingKey {vk : VerifyingKey G₁ G₂}
    (hcolumns : vk.publicColumns.length = vk.entryCount) (hentries : 0 < vk.entryCount) :
    verifyingKey (ofVerifyingKey vk) = .ok vk := by
  have hnodup : ([("alpha", ofPoint vk.alpha₁), ("beta", ofPoint vk.beta₂),
      ("gamma", ofPoint vk.gamma₂), ("delta", ofPoint vk.delta₂),
      ("gamma_abc", .list (vk.publicColumns.map ofPoint))].map Prod.fst).Nodup :=
    (by decide : ["alpha", "beta", "gamma", "delta", "gamma_abc"].Nodup)
  have halpha : field (ofVerifyingKey vk) "alpha" = .ok (ofPoint vk.alpha₁) :=
    field_ofFields hnodup (by simp)
  have hbeta : field (ofVerifyingKey vk) "beta" = .ok (ofPoint vk.beta₂) :=
    field_ofFields hnodup (by simp)
  have hgamma : field (ofVerifyingKey vk) "gamma" = .ok (ofPoint vk.gamma₂) :=
    field_ofFields hnodup (by simp)
  have hdelta : field (ofVerifyingKey vk) "delta" = .ok (ofPoint vk.delta₂) :=
    field_ofFields hnodup (by simp)
  have hlist : field (ofVerifyingKey vk) "gamma_abc" =
      .ok (.list (vk.publicColumns.map ofPoint)) := field_ofFields hnodup (by simp)
  have hread := mapM_first vk.publicColumns
  obtain ⟨entryCount, alpha₁, beta₂, gamma₂, delta₂, publicColumns⟩ := vk
  obtain ⟨x, xs, rfl⟩ := List.exists_cons_of_length_pos (hentries.trans_eq hcolumns.symm)
  obtain rfl : xs.length + 1 = entryCount := hcolumns
  simp only [List.map_cons] at hlist hread
  simp only [verifyingKey, hlist, halpha, hbeta, hgamma, hdelta, first_ofPoint, second_ofPoint,
    hread, bind, Except.bind, pure, Except.pure, List.length_map]

end Reading

theorem mapM_scalar {P : Type} {names : List Codes} {values : List Int}
    (hlen : names.length = values.length) (hrange : ∀ u ∈ values, 0 ≤ u ∧ u < order) :
    ((names.zip (values.map fun u => Json.text (inputText (.number u : Datum P)))).mapM
      fun f => scalar f.2) = .ok values := by
  induction values generalizing names with
  | nil =>
    obtain rfl := List.eq_nil_of_length_eq_zero hlen
    rfl
  | cons u values ih =>
    obtain ⟨name, names, rfl⟩ := List.exists_cons_of_length_eq_add_one hlen
    rw [List.forall_mem_cons] at hrange
    rw [List.map_cons, List.zip_cons_cons, List.mapM_cons, ih (by simpa using hlen) hrange.2,
      scalar_number hrange.1.1 hrange.1.2]
    rfl

/-- Field elements under names that are all different, in the order in which they were given. -/
theorem ofBytes_inputs {P : Type} {names : List Codes} {values : List Int} (hnodup : names.Nodup)
    (hsound : ∀ name ∈ names, Unicode.IsSound name) (hlen : names.length = values.length)
    (hrange : ∀ u ∈ values, 0 ≤ u ∧ u < order) :
    ∃ x, ofInputs names (values.map (Datum.number : Int → Datum P)) = .ok x ∧
      Json.ofBytes x.toBytes = .ok x ∧ inputs x = .ok (names, values) := by
  let texts := values.map fun u => Json.text (inputText (.number u : Datum P))
  have hfst : (names.zip texts).map Prod.fst = names :=
    List.map_fst_zip (by rw [List.length_map, hlen])
  have honce : Entries.ofPairs (names.zip texts) = names.zip texts :=
    Entries.ofPairs_of_nodup (by rwa [hfst])
  have htexts : ∀ f ∈ names.zip texts, Json.Written 0 f.2 := by
    intro f hf
    obtain ⟨u, -, hu⟩ := List.mem_map.mp (List.of_mem_zip (a := f.1) (b := f.2) hf).2
    rw [← hu, inputText_number]
    exact .text (isSound_ofString _)
  have hwritten : Json.Written 1 (.object (names.zip texts)) :=
    .object honce (fun f hf => hsound _ (List.of_mem_zip (a := f.1) (b := f.2) hf).1) htexts
  refine ⟨.object (names.zip texts), ?_, Json.ofBytes_toBytes hwritten (by decide), ?_⟩
  · rw [ofInputs, List.length_map, if_pos hlen, List.map_map]
    exact congrArg (fun fields => Except.ok (Json.object fields)) honce
  · rw [inputs, mapM_scalar hlen hrange, hfst]

end Exchange

end RankOne
