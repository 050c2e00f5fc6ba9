import RankOne.Proofs.Exponent
import RankOne.Recursion.Limbs

/-!
# Limbs tell proofs apart

If the elements of the groups are encoded in a fixed number of bytes and can be decoded again, a
proof is known by its limbs: there is always the same number of them, each is a field element, and
the proof can be made of them again.
-/

set_option autoImplicit false

namespace RankOne

namespace Bytes

theorem toNatFrom_append (n : ℕ) (xs ys : Bytes) :
    toNatFrom n (xs ++ ys) = toNatFrom (toNatFrom n xs) ys := by
  induction xs generalizing n with
  | nil => rfl
  | cons b rest ih => exact ih _

theorem length_ofNat (width n : ℕ) : (ofNat width n).length = width := by
  rw [ofNat]
  induction width generalizing n with
  | zero => rfl
  | succ width ih => rw [Sha256.bigEndian, List.length_append, ih, List.length_singleton]

theorem toNat_ofNat {width n : ℕ} (h : n < 256 ^ width) : toNat (ofNat width n) = n := by
  rw [ofNat, toNat]
  induction width generalizing n with
  | zero =>
    rw [pow_zero, Nat.lt_one_iff] at h
    subst h
    rfl
  | succ width ih =>
    rw [pow_succ] at h
    rw [Sha256.bigEndian, toNatFrom_append, ih (Nat.div_lt_of_lt_mul (by omega))]
    have hbyte : (UInt8.ofNat n).toNat = n % 256 := UInt8.toNat_ofNat
    rw [toNatFrom, toNatFrom, hbyte, Nat.div_add_mod]

theorem toNatFrom_eq (n : ℕ) (data : Bytes) :
    toNatFrom n data = 256 ^ data.length * n + toNat data := by
  induction data generalizing n with
  | nil => simp [toNatFrom, toNat]
  | cons b rest ih =>
    have hcons : toNat (b :: rest) = toNatFrom (256 * 0 + b.toNat) rest := rfl
    rw [toNatFrom, ih, hcons, ih, List.length_cons, pow_succ]
    ring

theorem toNat_cons (b : UInt8) (rest : Bytes) :
    toNat (b :: rest) = 256 ^ rest.length * b.toNat + toNat rest := by
  rw [toNat, toNatFrom, mul_zero, zero_add, toNatFrom_eq]

theorem toNat_lt (data : Bytes) : toNat data < 256 ^ data.length := by
  induction data with
  | nil => decide
  | cons b rest ih =>
    rw [toNat_cons, List.length_cons, pow_succ]
    have hbyte := b.toNat_lt
    have hmul : 256 ^ rest.length * b.toNat ≤ 256 ^ rest.length * 255 :=
      Nat.mul_le_mul_left _ (by omega)
    omega

theorem eq_of_toNat_eq {xs ys : Bytes} (hlen : xs.length = ys.length)
    (h : toNat xs = toNat ys) : xs = ys := by
  induction xs generalizing ys with
  | nil => exact (List.eq_nil_of_length_eq_zero hlen.symm).symm
  | cons x xs ih =>
    obtain ⟨y, ys, rfl⟩ := List.exists_cons_of_length_eq_add_one hlen.symm
    have hrest : xs.length = ys.length := by simpa using hlen
    rw [toNat_cons, toNat_cons, ← hrest] at h
    have hxs := toNat_lt xs
    have hys := toNat_lt ys
    rw [← hrest] at hys
    have hpos : 0 < 256 ^ xs.length := pow_pos (by decide) _
    have hhead : x.toNat = y.toNat := by
      have hdiv := congrArg (· / 256 ^ xs.length) h
      simpa only [Nat.mul_add_div hpos, Nat.div_eq_of_lt hxs, Nat.div_eq_of_lt hys,
        add_zero] using hdiv
    rw [hhead, Nat.add_left_cancel_iff] at h
    rw [UInt8.toNat_inj.mp hhead, ih hrest h]

theorem ofNat_toNat (data : Bytes) : ofNat data.length (toNat data) = data :=
  eq_of_toNat_eq (length_ofNat _ _) (toNat_ofNat (toNat_lt data))

theorem chunk_append {n : ℕ} {bytes : Bytes} (h : bytes.length = n) (rest : Bytes) :
    chunk n (bytes ++ rest) = .ok (bytes, rest) := by
  subst h
  rw [chunk, if_neg (by rw [List.length_append]; omega), List.take_left, List.drop_left]

end Bytes

class LawfulCoding (G : Type) [CodedGroup G] : Prop where
  length_encode : ∀ x : G, (CodedGroup.encode x).length = CodedGroup.width G
  decode?_encode : ∀ x : G, CodedGroup.decode? (CodedGroup.encode x) = some x

instance : LawfulCoding Exponent where
  length_encode x := Bytes.length_ofNat 32 _
  decode?_encode x := by
    have hval : x.value.val < orderNat := ZMod.val_lt x.value
    have hbytes : Bytes.toNat (Bytes.ofNat 32 x.value.val) = x.value.val :=
      Bytes.toNat_ofNat (hval.trans (by decide))
    change (if Bytes.toNat (Bytes.ofNat 32 x.value.val) < orderNat then
      some (⟨(Bytes.toNat (Bytes.ofNat 32 x.value.val) : Scalar)⟩ : Exponent) else none) = some x
    rw [hbytes, if_pos hval, ZMod.natCast_zmod_val]

theorem Bytes.element_append {G : Type} [CodedGroup G] [LawfulCoding G] (invalid : Malformed)
    (x : G) (rest : Bytes) : element G invalid (CodedGroup.encode x ++ rest) = .ok (x, rest) := by
  rw [element, chunk_append (LawfulCoding.length_encode x)]
  simp only [LawfulCoding.decode?_encode]

section Pieces
variable {width : ℕ} {data : Bytes}

theorem map_length_pieces (hwidth : 0 < width) (data : Bytes) :
    (pieces width data).map List.length =
      (List.range ((data.length + width - 1) / width)).map
        fun i => min width (data.length - width * i) := by
  fun_induction pieces width data with
  | case1 data h hempty =>
    obtain rfl := List.isEmpty_iff.mp hempty
    rw [List.length_nil, Nat.div_eq_of_lt (by omega)]
    rfl
  | case2 data h hempty =>
    have hpos : 0 < data.length := List.length_pos_iff.mpr (by simpa using hempty)
    have hle : data.length ≤ width := h.resolve_right hwidth.ne'
    have hone : (data.length + width - 1) / width = 1 := by
      rw [Nat.div_eq_of_lt_le] <;> omega
    rw [hone, List.map_singleton, List.range_one, List.map_singleton, mul_zero, Nat.sub_zero,
      min_eq_right hle]
  | case3 data h ih =>
    rw [not_or, not_le] at h
    have hsplit : data.length + width - 1 = (data.drop width).length + width - 1 + width := by
      rw [List.length_drop]
      omega
    rw [List.map_cons, ih, hsplit, Nat.add_div_right _ hwidth, List.range_succ_eq_map,
      List.map_cons, List.map_map, List.length_take]
    congr 1
    apply List.map_congr_left
    intro i _
    rw [List.length_drop, Function.comp_apply, Nat.mul_succ, Nat.sub_sub, Nat.add_comm width]

theorem length_pieces (hwidth : 0 < width) (data : Bytes) :
    (pieces width data).length = (data.length + width - 1) / width := by
  rw [← List.length_map List.length, map_length_pieces hwidth, List.length_map, List.length_range]

theorem length_le_of_mem_pieces (hwidth : 0 < width) {piece : Bytes}
    (h : piece ∈ pieces width data) : piece.length ≤ width := by
  fun_induction pieces width data with
  | case1 => simp at h
  | case2 data hle =>
    obtain rfl := List.mem_singleton.mp h
    exact hle.resolve_right hwidth.ne'
  | case3 data hle ih =>
    rcases List.mem_cons.mp h with rfl | h
    · exact List.length_take_le _ _
    · exact ih h

theorem flatten_pieces (width : ℕ) (data : Bytes) : (pieces width data).flatten = data := by
  fun_induction pieces width data with
  | case1 data h hempty => exact (List.isEmpty_iff.mp hempty).symm
  | case2 data h hempty => exact List.flatten_singleton
  | case3 data h ih => rw [List.flatten_cons, ih, List.take_append_drop]

end Pieces

namespace Proof

theorem joinLimbs?_map (ps : List Bytes) :
    joinLimbs? (ps.map List.length) (ps.map fun piece => (Bytes.toNat piece : Int)) =
      some ps.flatten := by
  induction ps with
  | nil => rfl
  | cons piece rest ih =>
    have hlt : ((Bytes.toNat piece : ℕ) : Int) < (Nat.pow 256 piece.length : ℕ) :=
      Int.ofNat_lt.mpr (Bytes.toNat_lt piece)
    have hbytes : limbBytes? piece.length (Bytes.toNat piece) = some piece := by
      rw [limbBytes?, if_pos ⟨Int.natCast_nonneg _, hlt⟩, Int.toNat_natCast, Bytes.ofNat_toNat]
    simp only [List.map_cons, joinLimbs?, hbytes, ih, List.flatten_cons]

variable {G₁ G₂ : Type} [CodedGroup G₁] [CodedGroup G₂] [LawfulCoding G₁] [LawfulCoding G₂]

theorem length_toBytes (p : Proof G₁ G₂) : p.toBytes.length = size G₁ G₂ := by
  simp only [toBytes, size, List.length_append, LawfulCoding.length_encode]

theorem length_limbs (p : Proof G₁ G₂) : p.limbs.length = limbCount G₁ G₂ := by
  rw [limbs, List.length_map, length_pieces (by decide), length_toBytes, limbCount]

omit [LawfulCoding G₁] [LawfulCoding G₂] in
theorem limbs_lt (p : Proof G₁ G₂) : ∀ x ∈ p.limbs, 0 ≤ x ∧ x < 2 ^ 248 := by
  intro x hx
  obtain ⟨piece, hpiece, rfl⟩ := List.mem_map.mp hx
  refine ⟨Int.natCast_nonneg _, ?_⟩
  have hlen : piece.length ≤ limbWidth := length_le_of_mem_pieces (by decide) hpiece
  have hlt : Bytes.toNat piece < 256 ^ limbWidth :=
    (Bytes.toNat_lt piece).trans_le (Nat.pow_le_pow_right (by decide) hlen)
  exact Int.ofNat_lt.mpr hlt

omit [LawfulCoding G₁] [LawfulCoding G₂] in
theorem limbs_range (p : Proof G₁ G₂) : ∀ x ∈ p.limbs, 0 ≤ x ∧ x < order := by
  have horder : (2 ^ 248 : Int) < order := by decide
  exact fun x hx => ⟨(p.limbs_lt x hx).1, (p.limbs_lt x hx).2.trans horder⟩

theorem parse_append (p : Proof G₁ G₂) (rest : Bytes) :
    parse (p.toBytes ++ rest) = .ok (p, rest) := by
  simp only [parse, toBytes, List.append_assoc, Bytes.first, Bytes.second, Bytes.element_append,
    bind, Except.bind, pure, Except.pure]

theorem ofBytes_toBytes (p : Proof G₁ G₂) : ofBytes p.toBytes = .ok p := by
  have hparse := p.parse_append []
  rw [List.append_nil] at hparse
  rw [ofBytes, if_neg (not_not.mpr p.length_toBytes), hparse]

theorem ofLimbs_limbs (p : Proof G₁ G₂) : ofLimbs p.limbs = .ok p := by
  have hsizes : limbSizes G₁ G₂ = (pieces limbWidth p.toBytes).map List.length := by
    rw [map_length_pieces (by decide), length_toBytes]
    rfl
  have hjoin : joinLimbs? (limbSizes G₁ G₂) p.limbs = some p.toBytes := by
    rw [hsizes, limbs, joinLimbs?_map, flatten_pieces]
  rw [ofLimbs, if_neg (not_not.mpr p.length_limbs), hjoin]
  exact p.ofBytes_toBytes

theorem limbs_injective : Function.Injective (limbs : Proof G₁ G₂ → List Int) := by
  intro p q h
  have hp := p.ofLimbs_limbs
  rw [h, q.ofLimbs_limbs, Except.ok.injEq] at hp
  exact hp.symm

end Proof

end RankOne
