import RankOne.Proofs.KeyLayout
import RankOne.Proofs.Reading

/-!
# The binary form of keys and proofs

A proving key does not say how many elements it has: the reader computes the lengths of its four
lists from the three counts. A derived key has the lengths that the reader computes, so it is read
back, and what is read is written with the same bytes again.
-/

set_option autoImplicit false

namespace RankOne
open CodedGroup (encode width)

theorem Sha256.length_digest (message : List UInt8) :
    (Sha256.digest message).length = ProvingKey.digestWidth := by
  have hword : ∀ w : UInt32, (Sha256.bytesOf w).length = 4 := fun w => Bytes.length_ofNat 4 w.toNat
  simp only [Sha256.digest, List.flatMap_cons, List.flatMap_nil, List.length_append, hword]
  rfl

variable {G₁ G₂ : Type}

@[mk_iff]
structure ProvingKey.IsSized (k : ProvingKey G₁ G₂) : Prop where
  wires : k.counts.wires < 256 ^ Bytes.countWidth
  gates : k.counts.gates < 256 ^ Bytes.countWidth
  entries : k.counts.entries < 256 ^ Bytes.countWidth
  digest : k.digest.length = digestWidth
  privateColumns : k.privateColumns.length = k.counts.wires - k.counts.entries
  powers₁ : k.powers₁.length = domainSize k.counts.gates
  powers₂ : k.powers₂.length = domainSize k.counts.gates
  quotients : k.quotients.length = domainSize k.counts.gates

@[mk_iff]
structure VerifyingKey.IsSized (k : VerifyingKey G₁ G₂) : Prop where
  entryCount : k.entryCount < 256 ^ Bytes.countWidth
  publicColumns : k.publicColumns.length = k.entryCount

structure Key.IsMadeOf (k : Key G₁ G₂) (pk : ProvingKey G₁ G₂) (vk : VerifyingKey G₁ G₂) :
    Prop where
  provingKey : k.provingKey = pk
  entryCount : vk.entryCount = pk.counts.entries
  gamma₂ : k.gamma₂ = vk.gamma₂
  publicColumns : k.publicColumns = vk.publicColumns

variable [CodedGroup G₁] [CodedGroup G₂]

section Readers
variable [CanonicalCoding G₁] [CanonicalCoding G₂]

theorem isReader_first : IsReader (Bytes.first G₁) fun x used => used = encode x :=
  Bytes.isReader_element .firstGroup

theorem isReader_second : IsReader (Bytes.second G₂) fun x used => used = encode x :=
  Bytes.isReader_element .secondGroup

theorem ProvingKey.isReader_parse :
    IsReader (parse : Parse (ProvingKey G₁ G₂)) fun k used => k.IsSized ∧ used = k.toBytes := by
  have h := Bytes.isReader_count.bind fun wires => Bytes.isReader_count.bind fun gates =>
    Bytes.isReader_count.bind fun entries => (Bytes.isReader_chunk digestWidth).bind fun digest =>
    isReader_first.bind fun alpha₁ => isReader_first.bind fun beta₁ =>
    isReader_first.bind fun delta₁ => isReader_second.bind fun beta₂ =>
    isReader_second.bind fun delta₂ =>
    (Bytes.isReader_many isReader_first (wires - entries)).bind fun privateColumns =>
    (Bytes.isReader_many isReader_first (domainSize gates)).bind fun powers₁ =>
    (Bytes.isReader_many isReader_second (domainSize gates)).bind fun powers₂ =>
    (Bytes.isReader_many isReader_first (domainSize gates)).bind fun quotients =>
    IsReader.pure (⟨⟨wires, gates, entries⟩, digest, alpha₁, beta₁, delta₁, beta₂, delta₂,
      privateColumns, powers₁, powers₂, quotients⟩ : ProvingKey G₁ G₂)
  refine IsReader.congr h fun k used => ?_
  obtain ⟨⟨wires, gates, entries⟩, digest, alpha₁, beta₁, delta₁, beta₂, delta₂, privateColumns,
    powers₁, powers₂, quotients⟩ := k
  simp only [existsAndEq, true_and, mk.injEq, Counts.mk.injEq, isSized_iff, toBytes,
    Bytes.ofElements, and_assoc, List.append_assoc, List.append_nil]

theorem VerifyingKey.isReader_parse :
    IsReader (parse : Parse (VerifyingKey G₁ G₂)) fun k used => k.IsSized ∧ used = k.toBytes := by
  have h := Bytes.isReader_count.bind fun entryCount => isReader_first.bind fun alpha₁ =>
    isReader_second.bind fun beta₂ => isReader_second.bind fun gamma₂ =>
    isReader_second.bind fun delta₂ =>
    (Bytes.isReader_many isReader_first entryCount).bind fun publicColumns =>
    IsReader.pure (⟨entryCount, alpha₁, beta₂, gamma₂, delta₂, publicColumns⟩ :
      VerifyingKey G₁ G₂)
  refine IsReader.congr h fun k used => ?_
  obtain ⟨entryCount, alpha₁, beta₂, gamma₂, delta₂, publicColumns⟩ := k
  simp only [existsAndEq, true_and, mk.injEq, isSized_iff, toBytes, Bytes.ofElements, and_assoc,
    List.append_assoc, List.append_nil]
  constructor <;> rintro ⟨hcount, rfl, hused⟩ <;> exact ⟨hcount, rfl, hused⟩

theorem Proof.isReader_parse :
    IsReader (parse : Parse (Proof G₁ G₂)) fun p used => used = p.toBytes := by
  have h := isReader_first.bind fun a => isReader_second.bind fun b => isReader_first.bind fun c =>
    IsReader.pure (⟨a, b, c⟩ : Proof G₁ G₂)
  refine IsReader.congr h fun p used => ?_
  obtain ⟨a, b, c⟩ := p
  simp only [existsAndEq, true_and, mk.injEq, toBytes, and_assoc, List.append_assoc,
    List.append_nil]

/-- Elements that both parts carry may differ in the verifying key. -/
theorem Key.isReader_parse :
    IsReader (parse : Parse (Key G₁ G₂)) fun k used => ∃ pk vk, k.IsMadeOf pk vk ∧
      pk.IsSized ∧ vk.IsSized ∧ used = pk.toBytes ++ vk.toBytes := by
  have h := ProvingKey.isReader_parse.bind fun (pk : ProvingKey G₁ G₂) =>
    VerifyingKey.isReader_parse.bind fun (vk : VerifyingKey G₁ G₂) =>
    IsReader.guard (⟨pk.counts, pk.digest, pk.alpha₁, pk.beta₁, pk.delta₁, pk.beta₂, vk.gamma₂,
      pk.delta₂, vk.publicColumns, pk.privateColumns, pk.powers₁, pk.powers₂, pk.quotients⟩ :
      Key G₁ G₂) (vk.entryCount ≠ pk.counts.entries) .keysDisagree
  refine IsReader.congr h fun k used => ?_
  simp only [existsAndEq, true_and, and_assoc, not_not, List.append_nil, exists_and_left]
  constructor
  · rintro ⟨pk, hpk, vk, hvk, hcount, rfl, hused⟩
    exact ⟨pk, vk, ⟨rfl, hcount, rfl, rfl⟩, hpk, hvk, hused⟩
  · rintro ⟨pk, vk, ⟨rfl, hcount, hgamma, hcolumns⟩, hpk, hvk, hused⟩
    refine ⟨k.provingKey, hpk, vk, hvk, hcount, ?_, hused⟩
    rw [← hgamma, ← hcolumns]
    rfl

end Readers

theorem Shape.length_privateWires {s : Shape} (hnodup : s.publicWires.Nodup)
    (hlt : ∀ m ∈ s.publicWires, m < s.wireCount) :
    s.privateWires.length = s.wireCount - s.entries.length := by
  have hperm := (wires_perm hnodup hlt).length_eq
  rw [List.length_append, List.length_range, publicWires, List.length_map] at hperm
  omega

theorem Shape.WellFormed.length_privateWires {s : Shape} (h : s.WellFormed) :
    s.privateWires.length = s.wireCount - s.entries.length :=
  Shape.length_privateWires h.nodup_publicWires (List.forall_mem_map.mpr h.entries_lt)

theorem Key.isSized_of_derive {s : Shape} {t : Trapdoor} {k : Key G₁ G₂}
    (hk : Key.derive s t = .ok k) (hnodup : s.publicWires.Nodup)
    (hlt : ∀ m ∈ s.publicWires, m < s.wireCount) (hwires : k.counts.wires < 256 ^ Bytes.countWidth)
    (hgates : k.counts.gates < 256 ^ Bytes.countWidth)
    (hentries : k.counts.entries < 256 ^ Bytes.countWidth) :
    k.provingKey.IsSized ∧ k.verifyingKey.IsSized := by
  have h := (Key.isFor_of_derive hk).2
  have hwires' : k.counts.wires = s.wireCount := congrArg Counts.wires h.counts
  have hgates' : k.counts.gates = s.gates.length := congrArg Counts.gates h.counts
  have hentries' : k.counts.entries = s.entries.length := congrArg Counts.entries h.counts
  constructor
  · exact {
      wires := hwires
      gates := hgates
      entries := hentries
      digest := (congrArg List.length h.digest).trans (Sha256.length_digest _)
      privateColumns := by
        rw [provingKey, h.privateColumns, Shape.length_privateWires hnodup hlt, hwires', hentries']
      powers₁ := by rw [provingKey, h.powers₁, hgates']
      powers₂ := by rw [provingKey, h.powers₂, hgates']
      quotients := by rw [provingKey, h.quotients, hgates'] }
  · exact ⟨hentries, h.publicColumns.trans hentries'.symm⟩

theorem Bytes.many_append {α : Type} {one : Parse α} {print : α → Bytes}
    (h : ∀ x rest, one (print x ++ rest) = .ok (x, rest)) (xs : List α) (rest : Bytes) :
    many one xs.length (xs.flatMap print ++ rest) = .ok (xs, rest) := by
  induction xs with
  | nil => rfl
  | cons x xs ih =>
    rw [List.flatMap_cons, List.append_assoc, List.length_cons, many]
    simp only [h, ih]

section Lawful
variable [LawfulCoding G₁] [LawfulCoding G₂]

theorem ProvingKey.parse_append {k : ProvingKey G₁ G₂} (h : k.IsSized) (rest : Bytes) :
    parse (k.toBytes ++ rest) = .ok (k, rest) := by
  obtain ⟨⟨wires, gates, entries⟩, digest, alpha₁, beta₁, delta₁, beta₂, delta₂, privateColumns,
    powers₁, powers₂, quotients⟩ := k
  have hwires := Bytes.isReader_count.read_append ⟨h.wires, rfl⟩
  have hgates := Bytes.isReader_count.read_append ⟨h.gates, rfl⟩
  have hentries := Bytes.isReader_count.read_append ⟨h.entries, rfl⟩
  have hprivate := Bytes.many_append (Bytes.element_append .firstGroup) privateColumns
  have hpowers₁ := Bytes.many_append (Bytes.element_append .firstGroup) powers₁
  have hpowers₂ := Bytes.many_append (Bytes.element_append .secondGroup) powers₂
  have hquotients := Bytes.many_append (Bytes.element_append .firstGroup) quotients
  rw [h.privateColumns] at hprivate
  rw [h.powers₁] at hpowers₁
  rw [h.powers₂] at hpowers₂
  rw [h.quotients] at hquotients
  simp only [parse, toBytes, Bytes.ofElements, List.append_assoc, hwires, hgates, hentries,
    Bytes.chunk_append h.digest, Bytes.element_append, Bytes.first, Bytes.second, hprivate,
    hpowers₁, hpowers₂, hquotients, bind, Except.bind, pure, Except.pure]

theorem VerifyingKey.parse_append {k : VerifyingKey G₁ G₂} (h : k.IsSized) (rest : Bytes) :
    parse (k.toBytes ++ rest) = .ok (k, rest) := by
  have hentries := Bytes.isReader_count.read_append ⟨h.entryCount, rfl⟩
  have hcolumns := Bytes.many_append (Bytes.element_append .firstGroup) k.publicColumns
  rw [h.publicColumns] at hcolumns
  simp only [parse, toBytes, Bytes.ofElements, List.append_assoc, hentries, Bytes.element_append,
    Bytes.first, Bytes.second, hcolumns, bind, Except.bind, pure, Except.pure]

/-- A key of the right size is read back, also where an element has other forms besides its own. -/
theorem Key.parse_append {k : Key G₁ G₂} (hpk : k.provingKey.IsSized)
    (hvk : k.verifyingKey.IsSized) (rest : Bytes) :
    parse (k.toBytes ++ rest) = .ok (k, rest) := by
  have hentries : ¬k.verifyingKey.entryCount ≠ k.provingKey.counts.entries := not_not.mpr rfl
  rw [toBytes, List.append_assoc, parse]
  simp only [ProvingKey.parse_append hpk, VerifyingKey.parse_append hvk, hentries, bind,
    Except.bind, if_false]
  rfl

end Lawful

theorem Proof.ofBytes_of_length_ne {data : Bytes} (h : data.length ≠ size G₁ G₂) :
    (ofBytes data : Except Fault (Proof G₁ G₂)) =
      .error (.malformed (.proofSize (size G₁ G₂) data.length)) :=
  if_pos h

/-- What is written is read back, whatever follows it and from nothing less, and what is read is
written with the same bytes. The wires of the public entries are different wires of the shape. -/
theorem readsBack_and_canonical [CanonicalCoding G₁] [CanonicalCoding G₂] (h₁ : width G₁ = 48)
    (h₂ : width G₂ = 96) :
    (∀ (s : Shape) (t : Trapdoor) (k : Key G₁ G₂), s.publicWires.Nodup →
      (∀ m ∈ s.publicWires, m < s.wireCount) → Key.derive s t = .ok k →
      k.counts.wires < 2 ^ 32 → k.counts.gates < 2 ^ 32 → k.counts.entries < 2 ^ 32 →
      ReadsBack Key.parse k k.toBytes ∧
        ReadsBack ProvingKey.parse k.provingKey k.provingKey.toBytes ∧
        ReadsBack VerifyingKey.parse k.verifyingKey k.verifyingKey.toBytes) ∧
    (∀ k : VerifyingKey G₁ G₂, k.publicColumns.length = k.entryCount → k.entryCount < 2 ^ 32 →
      ReadsBack VerifyingKey.parse k k.toBytes) ∧
    (∀ p : Proof G₁ G₂, ReadsBack Proof.parse p p.toBytes ∧ Proof.ofBytes p.toBytes = .ok p) ∧
    (∀ data : Bytes, data.length ≠ 192 → (Proof.ofBytes data : Except Fault (Proof G₁ G₂)) =
      .error (.malformed (.proofSize 192 data.length))) ∧
    (∀ (data : Bytes) (k : ProvingKey G₁ G₂) (rest : Bytes),
      ProvingKey.parse data = .ok (k, rest) → data = k.toBytes ++ rest) ∧
    (∀ (data : Bytes) (k : VerifyingKey G₁ G₂) (rest : Bytes),
      VerifyingKey.parse data = .ok (k, rest) → data = k.toBytes ++ rest) ∧
    (∀ (data : Bytes) (p : Proof G₁ G₂) (rest : Bytes),
      Proof.parse data = .ok (p, rest) → data = p.toBytes ++ rest) := by
  have hcount : 256 ^ Bytes.countWidth = 2 ^ 32 := by decide
  have hsize : Proof.size G₁ G₂ = 192 := by rw [Proof.size, h₁, h₂]
  refine ⟨?_, ?_, ?_, ?_, ?_, ?_, ?_⟩
  · intro s t k hnodup hlt hk hwires hgates hentries
    rw [← hcount] at hwires hgates hentries
    obtain ⟨hpk, hvk⟩ := Key.isSized_of_derive hk hnodup hlt hwires hgates hentries
    exact ⟨Key.isReader_parse.readsBack ⟨_, _, ⟨rfl, rfl, rfl, rfl⟩, hpk, hvk, rfl⟩,
      ProvingKey.isReader_parse.readsBack ⟨hpk, rfl⟩,
      VerifyingKey.isReader_parse.readsBack ⟨hvk, rfl⟩⟩
  · intro k hlen hentries
    exact VerifyingKey.isReader_parse.readsBack ⟨⟨hcount ▸ hentries, hlen⟩, rfl⟩
  · exact fun p => ⟨Proof.isReader_parse.readsBack rfl, p.ofBytes_toBytes⟩
  · intro data hlen
    rw [← hsize] at hlen ⊢
    exact Proof.ofBytes_of_length_ne hlen
  · exact fun data k rest hk => ProvingKey.isReader_parse.eq_append (fun _ _ h => h.2) hk
  · exact fun data k rest hk => VerifyingKey.isReader_parse.eq_append (fun _ _ h => h.2) hk
  · exact fun data p rest hp => Proof.isReader_parse.eq_append (fun _ _ h => h) hp

/-- One public input besides the constant, two gates on two points. -/
theorem readsBack_and_canonical_padded :
    ∃ k : Key (Padded 16) (Padded 64),
      Key.derive ((R1CS.fresh 0 false).push none (some "x")).freeze.shape ⟨1, 1, 1, 1, 1⟩ = .ok k ∧
      ReadsBack Key.parse k k.toBytes ∧
      ReadsBack VerifyingKey.parse k.verifyingKey k.verifyingKey.toBytes := by
  obtain ⟨d⟩ := exists_domain (show 1 ≤ 31 by decide)
  obtain ⟨g, e, -, -, hk⟩ := d.derive_eq (Padded 16) (Padded 64)
    (s := ((R1CS.fresh 0 false).push none (some "x")).freeze.shape) (by decide) (by decide)
    Trapdoor.isDrawn_ones
  obtain ⟨hkeys, hverifying, -⟩ :=
    @readsBack_and_canonical (Padded 16) (Padded 64) _ _ _ _ rfl rfl
  have hcount : 2 < 2 ^ 32 := by decide
  refine ⟨_, hk, ?_, ?_⟩
  · exact (hkeys _ _ _ (by decide) (by decide) hk hcount hcount hcount).1
  · exact hverifying _ rfl hcount

end RankOne
