import RankOne.Proofs.BinaryForm

/-!
# Stored keys of which the parts differ

A stored key has its number of public entries and three of its elements twice, once in each part.
Of these a reader compares the numbers alone. Where the elements differ it takes those of the
proving key, so that the key is written with other bytes than it was read from. Nor does it compare
the number of entries with that of the wires: where there are fewer wires it takes the key to have
no private columns.
-/

set_option autoImplicit false

namespace RankOne

variable {G₁ G₂ : Type}

structure VerifyingKey.Shares (vk : VerifyingKey G₁ G₂) (pk : ProvingKey G₁ G₂) : Prop where
  alpha₁ : vk.alpha₁ = pk.alpha₁
  beta₂ : vk.beta₂ = pk.beta₂
  delta₂ : vk.delta₂ = pk.delta₂

/-- A key has its verifying part for its own exactly if that shares the elements of the other. -/
theorem Key.IsMadeOf.verifyingKey_eq_iff {k : Key G₁ G₂} {pk : ProvingKey G₁ G₂}
    {vk : VerifyingKey G₁ G₂} (h : k.IsMadeOf pk vk) : k.verifyingKey = vk ↔ vk.Shares pk := by
  obtain ⟨rfl, hcount, hgamma, hcolumns⟩ := h
  obtain ⟨entryCount, alpha₁, beta₂, gamma₂, delta₂, publicColumns⟩ := vk
  constructor
  · intro heq
    obtain ⟨-, halpha, hbeta, -, hdelta, -⟩ := VerifyingKey.mk.inj heq
    exact ⟨halpha.symm, hbeta.symm, hdelta.symm⟩
  · rintro ⟨halpha, hbeta, hdelta⟩
    rw [VerifyingKey.mk.injEq]
    exact ⟨hcount.symm, halpha.symm, hbeta.symm, hgamma, hdelta.symm, hcolumns⟩

variable [CodedGroup G₁] [CodedGroup G₂]

structure Key.StoredWith (k : Key G₁ G₂) (vk : VerifyingKey G₁ G₂) (used : Bytes) : Prop where
  isMadeOf : k.IsMadeOf k.provingKey vk
  isSized_provingKey : k.provingKey.IsSized
  isSized_verifyingKey : vk.IsSized
  used_eq : used = k.provingKey.toBytes ++ vk.toBytes

variable [CanonicalCoding G₁] [CanonicalCoding G₂]

theorem VerifyingKey.toBytes_inj {vk vk' : VerifyingKey G₁ G₂} (h : vk.IsSized)
    (h' : vk'.IsSized) : vk.toBytes = vk'.toBytes ↔ vk = vk' := by
  refine ⟨fun heq => ?_, congrArg toBytes⟩
  have hread := isReader_parse.read_append ⟨h, rfl⟩ []
  have hread' := isReader_parse.read_append ⟨h', rfl⟩ []
  rw [heq, hread'] at hread
  exact (Prod.mk.inj (Except.ok.inj hread)).1.symm

namespace Key

theorem parse_eq_ok_iff {data rest : Bytes} {k : Key G₁ G₂} :
    parse data = .ok (k, rest) ↔ ∃ vk used, k.StoredWith vk used ∧ data = used ++ rest := by
  rw [isReader_parse.eq_ok_iff]
  constructor
  · rintro ⟨used, ⟨pk, vk, hmade, hpk, hvk, hused⟩, hdata⟩
    obtain rfl := hmade.provingKey
    exact ⟨vk, used, ⟨hmade, hpk, hvk, hused⟩, hdata⟩
  · rintro ⟨vk, used, ⟨hmade, hpk, hvk, hused⟩, hdata⟩
    exact ⟨used, ⟨k.provingKey, vk, hmade, hpk, hvk, hused⟩, hdata⟩

/-- Parts with different numbers of public entries make no key, whatever comes after them. -/
theorem parse_of_entryCount_ne {pk : ProvingKey G₁ G₂} {vk : VerifyingKey G₁ G₂}
    (hpk : pk.IsSized) (hvk : vk.IsSized) (hne : vk.entryCount ≠ pk.counts.entries)
    (rest : Bytes) :
    (parse (pk.toBytes ++ vk.toBytes ++ rest) : Except Fault (Key G₁ G₂ × Bytes)) =
      .error (.malformed .keysDisagree) := by
  have hreadPk := ProvingKey.isReader_parse.read_append ⟨hpk, rfl⟩ (vk.toBytes ++ rest)
  have hreadVk := VerifyingKey.isReader_parse.read_append ⟨hvk, rfl⟩ rest
  rw [List.append_assoc, parse]
  simp only [hreadPk, hreadVk, Bind.bind, Except.bind, if_pos hne]
  rfl

theorem StoredWith.toBytes_eq_iff {k : Key G₁ G₂} {vk : VerifyingKey G₁ G₂} {used : Bytes}
    (h : k.StoredWith vk used) : k.toBytes = used ↔ vk.Shares k.provingKey := by
  obtain ⟨hmade, hpk, hvk, hused⟩ := h
  have hcolumns : k.publicColumns.length = k.counts.entries := by
    rw [hmade.publicColumns, hvk.publicColumns, hmade.entryCount]
    rfl
  have hown : k.verifyingKey.IsSized := ⟨hpk.entries, hcolumns⟩
  rw [hused, toBytes, List.append_right_inj, VerifyingKey.toBytes_inj hown hvk,
    hmade.verifyingKey_eq_iff]

/-- What is accepted as a stored key: a proving key, and after it any verifying key with as many
public entries. The key that is read has as many private columns as there are more wires than
entries, and is written with the bytes that it was read from exactly if the two parts share their
elements. Parts that differ in the number of entries are refused, and a refusal always calls the
data malformed. -/
theorem parse_accepts_parts :
    (∀ (data : Bytes) (k : Key G₁ G₂) (rest : Bytes), parse data = .ok (k, rest) ↔
      ∃ vk used, k.StoredWith vk used ∧ data = used ++ rest) ∧
    (∀ (k : Key G₁ G₂) (vk : VerifyingKey G₁ G₂) (used : Bytes), k.StoredWith vk used →
      k.privateColumns.length = k.counts.wires - k.counts.entries ∧
        (k.toBytes = used ↔ vk.Shares k.provingKey)) ∧
    (∀ (pk : ProvingKey G₁ G₂) (vk : VerifyingKey G₁ G₂) (rest : Bytes), pk.IsSized → vk.IsSized →
      vk.entryCount ≠ pk.counts.entries →
        (parse (pk.toBytes ++ vk.toBytes ++ rest) : Except Fault (Key G₁ G₂ × Bytes)) =
          .error (.malformed .keysDisagree)) ∧
    ∀ (data : Bytes) (e : Fault), (parse data : Except Fault (Key G₁ G₂ × Bytes)) = .error e →
      ∃ cause, e = .malformed cause :=
  ⟨fun _ _ _ => parse_eq_ok_iff,
    fun _ _ _ h => ⟨h.isSized_provingKey.privateColumns, h.toBytes_eq_iff⟩,
    fun _ _ rest hpk hvk hne => parse_of_entryCount_ne hpk hvk hne rest, isReader_parse.malformed⟩

end Key

namespace StoredKey

def plain (entries : ℕ) : Key (Padded 16) (Padded 64) where
  counts := ⟨1, 1, entries⟩
  digest := List.replicate 32 0
  alpha₁ := ⟨0⟩
  beta₁ := ⟨0⟩
  delta₁ := ⟨0⟩
  beta₂ := ⟨0⟩
  gamma₂ := ⟨0⟩
  delta₂ := ⟨0⟩
  publicColumns := List.replicate entries ⟨0⟩
  privateColumns := List.replicate (1 - entries) ⟨0⟩
  powers₁ := [⟨0⟩]
  powers₂ := [⟨0⟩]
  quotients := [⟨0⟩]

def changed (entries : ℕ) : VerifyingKey (Padded 16) (Padded 64) :=
  { (plain entries).verifyingKey with alpha₁ := ⟨1⟩ }

theorem isSized_plain {entries : ℕ} (h : entries < 256 ^ Bytes.countWidth) :
    (plain entries).provingKey.IsSized ∧ (plain entries).verifyingKey.IsSized := by
  have hone : 1 < 256 ^ Bytes.countWidth := by decide
  exact ⟨⟨hone, hone, h, rfl, List.length_replicate, rfl, rfl, rfl⟩, ⟨h, List.length_replicate⟩⟩

theorem storedWith_plain (entries : ℕ) (h : entries < 256 ^ Bytes.countWidth) :
    (plain entries).StoredWith (plain entries).verifyingKey (plain entries).toBytes :=
  ⟨⟨rfl, rfl, rfl, rfl⟩, (isSized_plain h).1, (isSized_plain h).2, rfl⟩

theorem storedWith_changed (entries : ℕ) (h : entries < 256 ^ Bytes.countWidth) :
    (plain entries).StoredWith (changed entries)
      ((plain entries).provingKey.toBytes ++ (changed entries).toBytes) :=
  ⟨⟨rfl, rfl, rfl, rfl⟩, (isSized_plain h).1, ⟨h, List.length_replicate⟩, rfl⟩

/-- A key of which the first element differs in the two parts is read, and written with other bytes.
A key that has two public entries among its wires, of which there is one, is read too. -/
theorem inconsistent_accepted :
    (Key.parse ((plain 1).provingKey.toBytes ++ (changed 1).toBytes) = .ok (plain 1, []) ∧
      (plain 1).toBytes ≠ (plain 1).provingKey.toBytes ++ (changed 1).toBytes) ∧
    (Key.parse (plain 2).toBytes = .ok (plain 2, []) ∧
      (plain 2).counts.wires < (plain 2).counts.entries) := by
  have hchanged := storedWith_changed 1 (by decide)
  have hplain := storedWith_plain 2 (by decide)
  refine ⟨⟨?_, fun heq => ?_⟩, ?_, by decide⟩
  · exact Key.parse_eq_ok_iff.mpr ⟨_, _, hchanged, (List.append_nil _).symm⟩
  · exact absurd (hchanged.toBytes_eq_iff.mp heq).alpha₁ (by decide)
  · exact Key.parse_eq_ok_iff.mpr ⟨_, _, hplain, (List.append_nil _).symm⟩

/-- The two keys of which the parts differ, and parts that do not even agree in their entries. -/
theorem parse_accepts_parts_changed :
    (plain 1).StoredWith (changed 1)
        ((plain 1).provingKey.toBytes ++ (changed 1).toBytes) ∧
      Key.parse ((plain 1).provingKey.toBytes ++ (changed 1).toBytes) = .ok (plain 1, []) ∧
      Key.parse ((plain 1).provingKey.toBytes ++ (changed 2).toBytes ++ []) =
        (.error (.malformed .keysDisagree) :
          Except Fault (Key (Padded 16) (Padded 64) × Bytes)) := by
  have hchanged := storedWith_changed 1 (by decide)
  have hother := storedWith_changed 2 (by decide)
  refine ⟨hchanged, ?_, ?_⟩
  · exact (Key.parse_accepts_parts.1 _ _ _).mpr ⟨_, _, hchanged, (List.append_nil _).symm⟩
  · exact Key.parse_accepts_parts.2.2.1 _ _ _ hchanged.isSized_provingKey
      hother.isSized_verifyingKey (by decide)

end StoredKey

end RankOne
