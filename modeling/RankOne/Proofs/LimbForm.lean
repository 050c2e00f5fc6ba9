import RankOne.Proofs.BinaryForm
import RankOne.Proofs.Misreading

/-!
# Limbs are a form of proofs

Pieces of known lengths are determined by what they are joined to, so numbers that are put together
to the bytes of a proof are its limbs. Writing cuts the bytes and reading computes the lengths from
their number: the two agree. A list that is not the limbs of a proof is refused, for how many
numbers it has, for a number beyond the bytes it stands for, or for an element that there is not.
-/

set_option autoImplicit false

namespace RankOne
open CodedGroup (encode width)

def Bytes.Holds (width : ℕ) (v : Int) : Prop :=
  0 ≤ v ∧ v < ((256 ^ width : ℕ) : Int)

namespace Proof

section Joining

theorem limbBytes?_eq_some {width : ℕ} {v : Int} {bytes : Bytes}
    (h : limbBytes? width v = some bytes) :
    bytes.length = width ∧ (Bytes.toNat bytes : Int) = v := by
  rw [limbBytes?] at h
  split at h
  · rename_i hrange
    obtain rfl := Option.some.inj h
    have hlt : v.toNat < 256 ^ width := by
      have hnat : v < ((256 ^ width : ℕ) : Int) := hrange.2
      omega
    exact ⟨Bytes.length_ofNat _ _, by rw [Bytes.toNat_ofNat hlt, Int.toNat_of_nonneg hrange.1]⟩
  · simp at h

theorem limbBytes?_eq_none_iff {width : ℕ} {v : Int} :
    limbBytes? width v = none ↔ ¬ Bytes.Holds width v := by
  rw [limbBytes?]
  split
  · rename_i hrange
    exact iff_of_false (by simp) (not_not.mpr hrange)
  · rename_i hrange
    exact iff_of_true rfl hrange

/-- Numbers are joined from pieces of the lengths that are asked for. -/
theorem exists_pieces_of_joinLimbs? {widths : List ℕ} {vs : List Int} {data : Bytes}
    (hlen : vs.length = widths.length) (h : joinLimbs? widths vs = some data) :
    ∃ ps : List Bytes, ps.map List.length = widths ∧
      (ps.map fun piece => (Bytes.toNat piece : Int)) = vs ∧ ps.flatten = data := by
  induction widths generalizing vs data with
  | nil =>
    obtain rfl := List.eq_nil_of_length_eq_zero hlen
    exact ⟨[], rfl, rfl, Option.some.inj h⟩
  | cons width widths ih =>
    obtain ⟨v, vs, rfl⟩ := List.exists_cons_of_length_eq_add_one hlen
    rw [joinLimbs?] at h
    split at h
    · rename_i bytes rest hbytes hrest
      obtain rfl := Option.some.inj h
      obtain ⟨ps, hlengths, hvalues, rfl⟩ := ih (by simpa using hlen) hrest
      obtain ⟨hwidth, hvalue⟩ := limbBytes?_eq_some hbytes
      exact ⟨bytes :: ps, by rw [List.map_cons, hwidth, hlengths],
        by rw [List.map_cons, hvalue, hvalues], List.flatten_cons⟩
    · simp at h

theorem joinLimbs?_eq_none_iff {widths : List ℕ} {vs : List Int}
    (hlen : vs.length = widths.length) :
    joinLimbs? widths vs = none ↔ ¬ List.Forall₂ Bytes.Holds widths vs := by
  induction widths generalizing vs with
  | nil =>
    obtain rfl := List.eq_nil_of_length_eq_zero hlen
    exact iff_of_false (by simp [joinLimbs?]) (not_not.mpr .nil)
  | cons width widths ih =>
    obtain ⟨v, vs, rfl⟩ := List.exists_cons_of_length_eq_add_one hlen
    rw [List.forall₂_cons, not_and_or, ← limbBytes?_eq_none_iff, ← ih (by simpa using hlen),
      joinLimbs?]
    cases limbBytes? width v <;> cases joinLimbs? widths vs <;> simp

theorem joinLimbData_map_number {G₁ G₂ : Type} (widths : List ℕ) (vs : List Int) :
    joinLimbData widths (vs.map (Datum.number (P := Proof G₁ G₂))) =
      match joinLimbs? widths vs with
      | some data => .ok data
      | none => .error (.malformed .limbRange) := by
  induction widths generalizing vs with
  | nil => cases vs <;> rfl
  | cons width widths ih =>
    cases vs with
    | nil => rfl
    | cons v vs =>
      rw [List.map_cons, joinLimbData, Datum.number?, Option.map_some, joinLimbs?, ih]
      cases limbBytes? width v <;> cases joinLimbs? widths vs <;> rfl

end Joining

variable {G₁ G₂ : Type} [CodedGroup G₁] [CodedGroup G₂]

theorem ofLimbData_map_number (vs : List Int) :
    ofLimbData (vs.map (Datum.number (P := Proof G₁ G₂))) = ofLimbs vs := by
  rw [ofLimbData, ofLimbs, List.length_map, joinLimbData_map_number]
  cases joinLimbs? (limbSizes G₁ G₂) vs <;> rfl

section Sizes

theorem map_length_pieces_eq_limbSizes {data : Bytes} (h : data.length = size G₁ G₂) :
    (pieces limbWidth data).map List.length = limbSizes G₁ G₂ := by
  rw [map_length_pieces (by decide), h]
  rfl

theorem length_limbSizes : (limbSizes G₁ G₂).length = limbCount G₁ G₂ := by
  rw [limbSizes, List.length_map, List.length_range]

theorem sum_limbSizes : (limbSizes G₁ G₂).sum = size G₁ G₂ := by
  have hlen : (List.replicate (size G₁ G₂) (0 : UInt8)).length = size G₁ G₂ := List.length_replicate
  rw [← map_length_pieces_eq_limbSizes hlen, ← List.length_flatten, flatten_pieces, hlen]

variable {ps : List Bytes} (h : ps.map List.length = limbSizes G₁ G₂)
include h

theorem length_flatten_of_limbSizes : ps.flatten.length = size G₁ G₂ := by
  rw [List.length_flatten, h, sum_limbSizes]

/-- Pieces of these lengths are cut out again of what they are joined to. -/
theorem pieces_flatten : pieces limbWidth ps.flatten = ps := by
  rw [List.eq_iff_flatten_eq]
  exact ⟨flatten_pieces _ _,
    (map_length_pieces_eq_limbSizes (length_flatten_of_limbSizes h)).trans h.symm⟩

end Sizes

section Refusals

theorem ofLimbs_of_length_ne {vs : List Int} (h : vs.length ≠ limbCount G₁ G₂) :
    (ofLimbs vs : Except Fault (Proof G₁ G₂)) =
      .error (.malformed (.limbCount (limbCount G₁ G₂) vs.length)) :=
  if_pos h

theorem ofLimbs_of_not_holds {vs : List Int} (hlen : vs.length = limbCount G₁ G₂)
    (h : ¬ List.Forall₂ Bytes.Holds (limbSizes G₁ G₂) vs) :
    (ofLimbs vs : Except Fault (Proof G₁ G₂)) = .error (.malformed .limbRange) := by
  have hnone := (joinLimbs?_eq_none_iff (hlen.trans length_limbSizes.symm)).mpr h
  rw [ofLimbs, if_neg (not_not.mpr hlen), hnone]

/-- Numbers in range are the numbers of the pieces of some bytes, and those are read. -/
theorem exists_ofLimbs_eq_ofBytes {vs : List Int}
    (h : List.Forall₂ Bytes.Holds (limbSizes G₁ G₂) vs) :
    ∃ data : Bytes, data.length = size G₁ G₂ ∧
      ((pieces limbWidth data).map fun piece => (Bytes.toNat piece : Int)) = vs ∧
      (ofLimbs vs : Except Fault (Proof G₁ G₂)) = ofBytes data := by
  have hlen : vs.length = (limbSizes G₁ G₂).length := h.length_eq.symm
  cases hjoin : joinLimbs? (limbSizes G₁ G₂) vs with
  | none => exact absurd h ((joinLimbs?_eq_none_iff hlen).mp hjoin)
  | some data =>
    obtain ⟨ps, hsizes, hvalues, rfl⟩ := exists_pieces_of_joinLimbs? hlen hjoin
    refine ⟨ps.flatten, length_flatten_of_limbSizes hsizes, by rw [pieces_flatten hsizes, hvalues],
      ?_⟩
    rw [ofLimbs, if_neg (not_not.mpr (hlen.trans length_limbSizes)), hjoin]

end Refusals

end Proof

namespace Bytes
variable {G : Type} [CodedGroup G] {invalid : Malformed} {data rest : Bytes}

theorem length_of_element {x : G} (h : element G invalid data = .ok (x, rest)) :
    data.length = width G + rest.length := by
  rw [element] at h
  cases hchunk : chunk (width G) data with
  | error e => simp [hchunk] at h
  | ok parts =>
    obtain ⟨bytes, tail⟩ := parts
    obtain ⟨_, ⟨hlen, rfl⟩, rfl⟩ := ((isReader_chunk _).eq_ok_iff data bytes tail).mp hchunk
    simp only [hchunk] at h
    split at h
    · obtain ⟨-, rfl⟩ := Prod.mk.inj (Except.ok.inj h)
      rw [List.length_append, hlen]
    · simp at h

/-- With bytes enough, only an element that there is not is refused. -/
theorem fails_element_of_le (h : width G ≤ data.length) :
    FailsWith (· = .malformed invalid) (element G invalid data) := by
  rw [element, chunk, if_neg (not_lt.mpr h)]
  dsimp only
  split
  · exact .ok _
  · exact .error rfl

end Bytes

namespace Proof
variable {G₁ G₂ : Type} [CodedGroup G₁] [CodedGroup G₂]

def NoElement (e : Fault) : Prop :=
  e = .malformed .firstGroup ∨ e = .malformed .secondGroup

theorem NoElement.isMalformed {e : Fault} (h : NoElement e) : e.IsMalformed := by
  rcases h with rfl | rfl
  · exact ⟨_, rfl⟩
  · exact ⟨_, rfl⟩

theorem fails_parse_of_le {data : Bytes} (h : size G₁ G₂ ≤ data.length) :
    FailsWith NoElement (parse data : Except Fault (Proof G₁ G₂ × Bytes)) := by
  rw [size] at h
  refine ((Bytes.fails_element_of_le (by omega)).mono fun _ => .inl).bind_of_ok ?_
  rintro ⟨a, data₁⟩ ha
  have hlen₁ := Bytes.length_of_element ha
  refine ((Bytes.fails_element_of_le (by omega)).mono fun _ => .inr).bind_of_ok ?_
  rintro ⟨b, data₂⟩ hb
  have hlen₂ := Bytes.length_of_element hb
  exact ((Bytes.fails_element_of_le (by omega)).mono fun _ => .inl).bind fun _ => .ok _

section Canonical
variable [CanonicalCoding G₁] [CanonicalCoding G₂]

theorem eq_toBytes_append {data rest : Bytes} {p : Proof G₁ G₂} (h : parse data = .ok (p, rest)) :
    data = p.toBytes ++ rest :=
  isReader_parse.eq_append (fun _ _ => id) h

theorem toBytes_of_ofBytes {data : Bytes} {p : Proof G₁ G₂} (h : ofBytes data = .ok p) :
    p.toBytes = data := by
  rw [ofBytes] at h
  split at h
  · simp at h
  · split at h
    · simp at h
    · rename_i hparse
      obtain rfl := Except.ok.inj h
      rw [eq_toBytes_append hparse, List.append_nil]
    · simp at h

theorem fails_ofBytes_of_length {data : Bytes} (h : data.length = size G₁ G₂) :
    FailsWith NoElement (ofBytes data : Except Fault (Proof G₁ G₂)) := by
  have hfails : FailsWith NoElement (parse data : Except Fault (Proof G₁ G₂ × Bytes)) :=
    fails_parse_of_le h.ge
  rw [ofBytes, if_neg (not_not.mpr h)]
  split
  · rename_i e hparse
    exact .error (hfails e hparse)
  · exact .ok _
  · rename_i p b rest hparse
    have hlen := congrArg List.length (eq_toBytes_append hparse)
    rw [List.length_append, length_toBytes, h, List.length_cons] at hlen
    omega

theorem fails_ofLimbs_of_holds {vs : List Int}
    (h : List.Forall₂ Bytes.Holds (limbSizes G₁ G₂) vs) :
    FailsWith NoElement (ofLimbs vs : Except Fault (Proof G₁ G₂)) := by
  obtain ⟨data, hlen, -, hread⟩ := exists_ofLimbs_eq_ofBytes h
  rw [hread]
  exact fails_ofBytes_of_length hlen

theorem fails_ofLimbs (vs : List Int) :
    FailsWith Fault.IsMalformed (ofLimbs vs : Except Fault (Proof G₁ G₂)) := by
  by_cases hlen : vs.length = limbCount G₁ G₂
  · by_cases hrange : List.Forall₂ Bytes.Holds (limbSizes G₁ G₂) vs
    · exact (fails_ofLimbs_of_holds hrange).mono fun _ => NoElement.isMalformed
    · rw [ofLimbs_of_not_holds hlen hrange]
      exact .malformed _
  · rw [ofLimbs_of_length_ne hlen]
    exact .malformed _

theorem ofLimbs_eq_ok_iff {vs : List Int} {p : Proof G₁ G₂} :
    ofLimbs vs = .ok p ↔ p.limbs = vs := by
  constructor
  · intro h
    by_cases hlen : vs.length = limbCount G₁ G₂
    · by_cases hrange : List.Forall₂ Bytes.Holds (limbSizes G₁ G₂) vs
      · obtain ⟨data, -, hvalues, hread⟩ := exists_ofLimbs_eq_ofBytes hrange
        rw [limbs, toBytes_of_ofBytes (hread.symm.trans h), hvalues]
      · simp [ofLimbs_of_not_holds hlen hrange] at h
    · simp [ofLimbs_of_length_ne hlen] at h
  · rintro rfl
    exact p.ofLimbs_limbs

theorem holds_limbs (p : Proof G₁ G₂) : List.Forall₂ Bytes.Holds (limbSizes G₁ G₂) p.limbs := by
  by_contra hrange
  have h := p.ofLimbs_limbs
  simp [ofLimbs_of_not_holds p.length_limbs hrange] at h

end Canonical

/-- The limbs of a proof are seven numbers below the order, the last one of six bytes and the
others of thirty-one. They tell it from all others, and of all lists of numbers only the limbs of
proofs are read, each as the proof that it is of. The other lists are malformed, by their length, by
a number out of range, or by bytes that no element is written as. -/
theorem limbs_canonical [CanonicalCoding G₁] [CanonicalCoding G₂] (h₁ : width G₁ = 48)
    (h₂ : width G₂ = 96) :
    limbCount G₁ G₂ = 7 ∧ limbSizes G₁ G₂ = [31, 31, 31, 31, 31, 31, 6] ∧
    (∀ p : Proof G₁ G₂, p.limbs.length = limbCount G₁ G₂ ∧
      (∀ v ∈ p.limbs, 0 ≤ v ∧ v < 2 ^ 248 ∧ v < order) ∧
      List.Forall₂ Bytes.Holds (limbSizes G₁ G₂) p.limbs ∧ ofLimbs p.limbs = .ok p) ∧
    Function.Injective (limbs : Proof G₁ G₂ → List Int) ∧
    ∀ vs : List Int,
      ofLimbData (vs.map .number) = (ofLimbs vs : Except Fault (Proof G₁ G₂)) ∧
      (∀ p : Proof G₁ G₂, ofLimbs vs = .ok p ↔ p.limbs = vs) ∧
      FailsWith Fault.IsMalformed (ofLimbs vs : Except Fault (Proof G₁ G₂)) ∧
      (vs.length ≠ 7 → (ofLimbs vs : Except Fault (Proof G₁ G₂)) =
        .error (.malformed (.limbCount 7 vs.length))) ∧
      (vs.length = 7 → ¬ List.Forall₂ Bytes.Holds (limbSizes G₁ G₂) vs →
        (ofLimbs vs : Except Fault (Proof G₁ G₂)) = .error (.malformed .limbRange)) ∧
      (List.Forall₂ Bytes.Holds (limbSizes G₁ G₂) vs →
        FailsWith NoElement (ofLimbs vs : Except Fault (Proof G₁ G₂))) := by
  have hcount : limbCount G₁ G₂ = 7 := by rw [limbCount, size, h₁, h₂]; rfl
  have hsizes : limbSizes G₁ G₂ = [31, 31, 31, 31, 31, 31, 6] := by
    rw [limbSizes, hcount, size, h₁, h₂]
    rfl
  refine ⟨hcount, hsizes, fun p => ⟨p.length_limbs, fun v hv => ?_, p.holds_limbs,
    p.ofLimbs_limbs⟩, limbs_injective, fun vs => ⟨ofLimbData_map_number vs,
    fun p => ofLimbs_eq_ok_iff, fails_ofLimbs vs, fun h => ?_, fun h => ?_, fails_ofLimbs_of_holds⟩⟩
  · exact ⟨(p.limbs_lt v hv).1, (p.limbs_lt v hv).2, (p.limbs_range v hv).2⟩
  · rw [← hcount] at h ⊢
    exact ofLimbs_of_length_ne h
  · rw [← hcount] at h
    exact ofLimbs_of_not_holds h

/-- Elements with leading zeros: seven numbers of which the last takes more than six bytes. -/
theorem limbs_canonical_padded :
    width (Padded 16) = 48 ∧ width (Padded 64) = 96 ∧
      (∀ p : Proof (Padded 16) (Padded 64), p.limbs.length = 7 ∧ ofLimbs p.limbs = .ok p) ∧
      (ofLimbs [0, 0, 0, 0, 0, 0, 2 ^ 48] : Except Fault (Proof (Padded 16) (Padded 64))) =
        .error (.malformed .limbRange) := by
  have h₁ : width (Padded 16) = 48 := rfl
  have h₂ : width (Padded 64) = 96 := rfl
  obtain ⟨hcount, hsizes, hlimbs, -, hlists⟩ := limbs_canonical h₁ h₂
  refine ⟨h₁, h₂, fun p => ⟨hcount ▸ (hlimbs p).1, (hlimbs p).2.2.2⟩, ?_⟩
  obtain ⟨-, -, -, -, hrange, -⟩ := hlists [0, 0, 0, 0, 0, 0, 2 ^ 48]
  apply hrange rfl
  rw [hsizes]
  simp [Bytes.Holds]

end Proof

end RankOne
