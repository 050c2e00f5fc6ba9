import RankOne.Proofs.Limbs

/-!
# Readers

A reader takes a form of its value from the front of the data, whatever comes after it, and calls
data malformed that start with no such form. What readers in a row take is what the single ones
take, one after the other. Of a form that a reader takes no proper part from the front is enough.
-/

set_option autoImplicit false

namespace RankOne

class CanonicalCoding (G : Type) [CodedGroup G] : Prop extends LawfulCoding G where
  encode_decode? : ∀ (data : Bytes) (x : G), data.length = CodedGroup.width G →
    CodedGroup.decode? data = some x → CodedGroup.encode x = data

structure Padded (extra : ℕ) where
  value : Scalar
deriving DecidableEq

namespace Padded
variable {extra : ℕ}

instance : CodedGroup (Padded extra) where
  zero := ⟨0⟩
  add x y := ⟨x.value + y.value⟩
  neg x := ⟨-x.value⟩
  smul k x := ⟨k * x.value⟩
  generator := ⟨1⟩
  width := 32 + extra
  encode x := Bytes.ofNat (32 + extra) x.value.val
  decode? data :=
    if data.length = 32 + extra ∧ Bytes.toNat data < orderNat then some ⟨Bytes.toNat data⟩ else none
  parts x := [toString x.value.val]
  ofText? text := (Text.decimal? text).map fun n => ⟨n⟩

instance : CanonicalCoding (Padded extra) where
  length_encode x := Bytes.length_ofNat (32 + extra) _
  decode?_encode x := by
    have hval : x.value.val < orderNat := ZMod.val_lt x.value
    have hwidth : orderNat < 256 ^ (32 + extra) :=
      (show orderNat < 256 ^ 32 by decide).trans_le (Nat.pow_le_pow_right (by decide) (by omega))
    have hbytes : Bytes.toNat (Bytes.ofNat (32 + extra) x.value.val) = x.value.val :=
      Bytes.toNat_ofNat (hval.trans hwidth)
    change (if (Bytes.ofNat (32 + extra) x.value.val).length = 32 + extra ∧
        Bytes.toNat (Bytes.ofNat (32 + extra) x.value.val) < orderNat then
      some (⟨(Bytes.toNat (Bytes.ofNat (32 + extra) x.value.val) : Scalar)⟩ : Padded extra)
      else none) = some x
    rw [hbytes, if_pos ⟨Bytes.length_ofNat _ _, hval⟩, ZMod.natCast_zmod_val]
  encode_decode? data x hlen hx := by
    change (if data.length = 32 + extra ∧ Bytes.toNat data < orderNat then
      some (⟨(Bytes.toNat data : Scalar)⟩ : Padded extra) else none) = some x at hx
    by_cases hlt : data.length = 32 + extra ∧ Bytes.toNat data < orderNat
    · rw [if_pos hlt, Option.some.injEq] at hx
      subst hx
      change Bytes.ofNat (32 + extra) (Bytes.toNat data : Scalar).val = data
      rw [ZMod.val_natCast_of_lt hlt.2, ← hlt.1, Bytes.ofNat_toNat]
    · rw [if_neg hlt] at hx
      exact nomatch hx

end Padded

structure IsReader {α : Type} (read : Parse α) (form : α → Bytes → Prop) : Prop where
  eq_ok_iff : ∀ data x rest,
    read data = .ok (x, rest) ↔ ∃ used, form x used ∧ data = used ++ rest
  malformed : ∀ data e, read data = .error e → ∃ cause, e = .malformed cause

structure ReadsBack {α : Type} (read : Parse α) (x : α) (data : Bytes) : Prop where
  read_append : ∀ rest, read (data ++ rest) = .ok (x, rest)
  malformed : ∀ front more, data = front ++ more → more ≠ [] →
    ∃ cause, read front = .error (.malformed cause)

namespace IsReader
variable {α β : Type} {read : Parse α} {form form' : α → Bytes → Prop}

theorem congr (h : IsReader read form) (hform : ∀ x used, form x used ↔ form' x used) :
    IsReader read form' where
  eq_ok_iff data x rest := by simp only [h.eq_ok_iff, hform]
  malformed := h.malformed

theorem of_eq (h : IsReader read form) {read' : Parse α} (heq : ∀ data, read' data = read data) :
    IsReader read' form :=
  (funext heq : read' = read) ▸ h

theorem read_append (h : IsReader read form) {x : α} {used : Bytes} (hx : form x used)
    (rest : Bytes) : read (used ++ rest) = .ok (x, rest) :=
  (h.eq_ok_iff _ _ _).mpr ⟨used, hx, rfl⟩

/-- Were a part of the form enough, the reader would leave the other part of it. -/
theorem malformed_of_append (h : IsReader read form) {x : α} {front more : Bytes}
    (hx : form x (front ++ more)) (hmore : more ≠ []) :
    ∃ cause, read front = .error (.malformed cause) := by
  cases hfront : read front with
  | error e =>
    obtain ⟨cause, rfl⟩ := h.malformed front e hfront
    exact ⟨cause, rfl⟩
  | ok result =>
    obtain ⟨y, rest⟩ := result
    obtain ⟨used, hy, rfl⟩ := (h.eq_ok_iff front y rest).mp hfront
    have hwhole := h.read_append hx []
    rw [List.append_nil, List.append_assoc, h.read_append hy, Except.ok.injEq,
      Prod.mk.injEq] at hwhole
    exact absurd (List.append_eq_nil_iff.mp hwhole.2).2 hmore

theorem readsBack (h : IsReader read form) {x : α} {data : Bytes} (hx : form x data) :
    ReadsBack read x data where
  read_append := h.read_append hx
  malformed _ _ hdata hmore := h.malformed_of_append (hdata ▸ hx) hmore

theorem eq_append (h : IsReader read form) {print : α → Bytes}
    (hform : ∀ x used, form x used → used = print x) {data rest : Bytes} {x : α}
    (hread : read data = .ok (x, rest)) : data = print x ++ rest := by
  obtain ⟨used, hx, rfl⟩ := (h.eq_ok_iff data x rest).mp hread
  rw [hform x used hx]

theorem pure (x : α) : IsReader (fun data => .ok (x, data)) fun y used => y = x ∧ used = [] where
  eq_ok_iff data y rest := by
    constructor
    · intro h
      obtain ⟨rfl, rfl⟩ := Prod.mk.inj (Except.ok.inj h)
      exact ⟨[], ⟨rfl, rfl⟩, rfl⟩
    · rintro ⟨used, ⟨rfl, rfl⟩, rfl⟩
      rfl
  malformed data e h := nomatch h

theorem guard (x : α) (c : Prop) [Decidable c] (cause : Malformed) :
    IsReader (fun data => if c then .error (.malformed cause) else .ok (x, data)) fun y used =>
      ¬c ∧ y = x ∧ used = [] := by
  by_cases hc : c
  · simp only [hc, if_true, not_true, false_and]
    exact ⟨fun _ _ _ => ⟨nofun, nofun⟩, fun _ _ h => ⟨cause, (Except.error.inj h).symm⟩⟩
  · simp only [hc, if_false, not_false_eq_true, true_and]
    exact pure x

/-- A reader that takes its data from where another one stopped. -/
theorem bind {first : α → Bytes → Prop} {second : α → β → Bytes → Prop} {next : α → Parse β}
    (h : IsReader read first) (hnext : ∀ x, IsReader (next x) (second x)) :
    IsReader (fun data => do let (x, rest) ← read data; next x rest) fun y used =>
      ∃ x front back, first x front ∧ second x y back ∧ used = front ++ back where
  eq_ok_iff data y rest := by
    constructor
    · intro hy
      cases hread : read data with
      | error e => simp [hread, Bind.bind, Except.bind] at hy
      | ok result =>
        obtain ⟨x, data'⟩ := result
        simp only [hread, Bind.bind, Except.bind] at hy
        obtain ⟨front, hfront, rfl⟩ := (h.eq_ok_iff data x data').mp hread
        obtain ⟨back, hback, rfl⟩ := ((hnext x).eq_ok_iff data' y rest).mp hy
        exact ⟨front ++ back, ⟨x, front, back, hfront, hback, rfl⟩,
          (List.append_assoc _ _ _).symm⟩
    · rintro ⟨used, ⟨x, front, back, hfront, hback, rfl⟩, rfl⟩
      rw [List.append_assoc]
      simp only [h.read_append hfront, Bind.bind, Except.bind]
      exact (hnext x).read_append hback rest
  malformed data e he := by
    cases hread : read data with
    | error e' =>
      simp only [hread, Bind.bind, Except.bind, Except.error.injEq] at he
      exact h.malformed data e (he ▸ hread)
    | ok result =>
      simp only [hread, Bind.bind, Except.bind] at he
      exact (hnext result.1).malformed result.2 e he

end IsReader

namespace Bytes

theorem isReader_chunk (n : ℕ) :
    IsReader (chunk n) fun bytes used => bytes.length = n ∧ used = bytes where
  eq_ok_iff data bytes rest := by
    constructor
    · intro h
      rw [chunk] at h
      split at h
      · simp at h
      · obtain ⟨rfl, rfl⟩ := Prod.mk.inj (Except.ok.inj h)
        exact ⟨_, ⟨by rw [List.length_take]; omega, rfl⟩, (List.take_append_drop n data).symm⟩
    · rintro ⟨used, ⟨rfl, rfl⟩, rfl⟩
      exact chunk_append rfl rest
  malformed data e h := by
    rw [chunk] at h
    split at h
    · exact ⟨_, (Except.error.inj h).symm⟩
    · simp at h

theorem isReader_count :
    IsReader count fun n used => n < 256 ^ countWidth ∧ used = ofNat countWidth n := by
  have hparts := (isReader_chunk countWidth).bind fun bytes => .pure (toNat bytes)
  have hcount : IsReader count _ := hparts.of_eq fun data => by
    rw [count]
    cases chunk countWidth data <;> rfl
  apply hcount.congr
  intro n used
  constructor
  · rintro ⟨bytes, front, back, ⟨hlen, rfl⟩, ⟨rfl, rfl⟩, rfl⟩
    rw [← hlen, ofNat_toNat, List.append_nil]
    exact ⟨toNat_lt front, rfl⟩
  · rintro ⟨hn, rfl⟩
    exact ⟨ofNat countWidth n, _, [], ⟨length_ofNat _ _, rfl⟩, ⟨(toNat_ofNat hn).symm, rfl⟩,
      (List.append_nil _).symm⟩

theorem isReader_element {G : Type} [CodedGroup G] [CanonicalCoding G] (invalid : Malformed) :
    IsReader (element G invalid) fun x used => used = CodedGroup.encode x where
  eq_ok_iff data x rest := by
    constructor
    · intro h
      rw [element] at h
      cases hchunk : chunk (CodedGroup.width G) data with
      | error e => simp [hchunk] at h
      | ok result =>
        obtain ⟨bytes, data'⟩ := result
        obtain ⟨_, ⟨hlen, rfl⟩, rfl⟩ := ((isReader_chunk _).eq_ok_iff data bytes data').mp hchunk
        simp only [hchunk] at h
        split at h
        · rename_i y hdecode
          obtain ⟨rfl, rfl⟩ := Prod.mk.inj (Except.ok.inj h)
          exact ⟨_, (CanonicalCoding.encode_decode? _ _ hlen hdecode).symm, rfl⟩
        · simp at h
    · rintro ⟨used, rfl, rfl⟩
      exact element_append invalid x rest
  malformed data e h := by
    rw [element] at h
    split at h
    · rename_i e' hchunk
      obtain rfl := Except.error.inj h
      exact (isReader_chunk _).malformed data _ hchunk
    · split at h
      · simp at h
      · exact ⟨_, (Except.error.inj h).symm⟩

theorem isReader_many {α : Type} {one : Parse α} {print : α → Bytes}
    (h : IsReader one fun x used => used = print x) (n : ℕ) :
    IsReader (many one n) fun xs used => xs.length = n ∧ used = xs.flatMap print := by
  induction n with
  | zero =>
    apply (IsReader.pure []).congr
    intro xs used
    rw [List.length_eq_zero_iff]
    constructor <;> rintro ⟨rfl, rfl⟩ <;> exact ⟨rfl, rfl⟩
  | succ n ih =>
    have hparts := h.bind fun x => ih.bind fun xs => .pure (x :: xs)
    have hmany : IsReader (many one (n + 1)) _ := hparts.of_eq fun data => by
      rw [many]
      cases one data with
      | error e => rfl
      | ok result =>
        simp only [Bind.bind, Except.bind]
        cases many one n result.2 <;> rfl
    apply hmany.congr
    intro xs used
    constructor
    · rintro ⟨x, _, _, rfl, ⟨xs, _, _, ⟨rfl, rfl⟩, ⟨rfl, rfl⟩, rfl⟩, rfl⟩
      exact ⟨rfl, by rw [List.append_nil, List.flatMap_cons]⟩
    · rintro ⟨hlen, rfl⟩
      obtain ⟨x, xs, rfl⟩ := List.exists_cons_of_length_eq_add_one hlen
      exact ⟨x, _, _, rfl, ⟨xs, _, [], ⟨Nat.succ.inj hlen, rfl⟩, ⟨rfl, rfl⟩,
        (List.append_nil _).symm⟩, List.flatMap_cons⟩

end Bytes

end RankOne
