import RankOne.Proofs.FixedPoint

/-!
# What a checked circuit attests

The circuit for proofs about proofs has the same wires and gates with whatever proof and claim it
is built. Checked, its last two gates ask for a claim that is the verdict of the verifier, so there
is an outer proof for one claim alone, and whoever takes apart what the outer proof commits to finds
the inner proof that went in.
-/

set_option autoImplicit false

namespace RankOne

namespace R1CS

def apart (s : R1CS) (m n : ℕ) : Linear :=
  .combination ⟨[((m : Int), 1), ((n : Int), order - 1)], some s.tag⟩

def withGates (s : R1CS) (new : List Gate) : R1CS :=
  { s with gates := s.gates ++ new }

theorem withGates_withGates (s : R1CS) (new more : List Gate) :
    (s.withGates new).withGates more = s.withGates (new ++ more) := by
  simp only [withGates, List.append_assoc]

end R1CS

namespace Build
variable {s : R1CS} {m n : ℕ}

theorem run_connect_wireAt (hf : s.frozen = false) (hm : m < s.wireCount) (hn : n < s.wireCount)
    (hmpos : 0 < m) (hnpos : 0 < n) (hne : m ≠ n) (message : String) :
    (connect (s.wireAt m) (s.wireAt n) message).run s =
      (.ok (), s.withGates [⟨.constant 0, .constant 0, s.apart m n, message, false⟩]) := by
  have hm0 : (0 : Int) ≠ m := by omega
  have hn0 : (0 : Int) ≠ n := by omega
  have hmn : (m : Int) ≠ n := by omega
  have hzero : reduce 0 = 0 := by decide
  have hone : reduce 1 = 1 := by decide
  have hminus : reduce (order - 1) = order - 1 := by decide
  have hminus0 : order - 1 ≠ 0 := by decide
  have hdifference : Linear.difference s.tag (s.wireAt m) (s.wireAt n) = s.apart m n := by
    simp [Linear.difference, Linear.sum, Linear.ofTerms, Linear.collect, Combination.addTerms,
      Combination.addTerm, Linear.terms, R1CS.wireAt, Linear.times, Linear.multiple, R1CS.apart,
      Combination.normalTerms, hmpos.ne', hmn, hm0, hn0, hzero, hone, hminus, hminus0]
  have hagain : Linear.difference s.tag (s.apart m n) (.constant 0) = s.apart m n := by
    simp [Linear.difference, Linear.sum, Linear.ofTerms, Linear.collect, Combination.addTerms,
      Combination.addTerm, Linear.terms, Linear.times, R1CS.apart, Combination.normalTerms,
      hmpos.ne', hmn, hm0, hn0, hzero, hone, hminus, hminus0]
  have haccess : s.access [s.wireAt m, s.wireAt n] = .ok () := by
    simp [R1CS.access, hf, R1CS.owns, R1CS.wireAt, hm, hn]
  have haccess' : s.access [.constant 0, .constant 0, s.apart m n] = .ok () := by
    simp [R1CS.access, hf, R1CS.owns, R1CS.apart, hm, hn]
  have hproduct : Linear.product? s.tag (.constant 0) (.constant 0) = some (.constant 0) := rfl
  simp only [connect, run_bind, run_sub, haccess, hdifference, assertZero, run_gate, haccess',
    hproduct, hagain]
  rfl

theorem run_assertBit_wireAt (hf : s.frozen = false) (hm : m < s.wireCount) (message : String) :
    (assertBit (s.wireAt m) message).run s =
      (.ok (), s.withGates [⟨s.wireAt m, s.wireAt m, s.wireAt m, message, false⟩]) := by
  have haccess : s.access [s.wireAt m, s.wireAt m, s.wireAt m] = .ok () := by
    simp [R1CS.access, hf, R1CS.owns, R1CS.wireAt, hm]
  have hproduct : Linear.product? s.tag (s.wireAt m) (s.wireAt m) = none := rfl
  simp only [assertBit, run_gate, haccess, hproduct]
  rfl

end Build

theorem Circuit.of_run_setup {σ P : Type} [RandomSource σ] {G₁ G₂ : Type} [CodedGroup G₁]
    [CodedGroup G₂] {c : Circuit P} {source : σ} {key : Key G₁ G₂}
    (hsecrets : ∀ x ∈ RandomSource.draws 5 source, IsDraw x)
    (h : (c.setup.run source).1 = .ok key) :
    ∃ (s : R1CS) (secrets : Trapdoor), c.synthesize none = .ok s ∧ s.relationCount ≠ 0 ∧
      secrets.IsDrawn ∧ Key.derive s.shape secrets = .ok key := by
  obtain ⟨shape, source₁, hresult, hderive⟩ := Random.of_run_bind h
  obtain ⟨hshape, rfl⟩ : c.provableShape = .ok shape ∧ source = source₁ := Prod.mk.inj hresult
  obtain ⟨secrets, hdrawn, hrun⟩ := Circuit.exists_run_deriveKey G₁ G₂ hsecrets shape
  unfold provableShape at hshape
  split at hshape
  · cases hshape
  · rename_i s hs
    split at hshape
    · cases hshape
    · rename_i hcount
      obtain rfl := Except.ok.inj hshape
      exact ⟨s, secrets, hs, hcount, hdrawn, hrun.symm.trans hderive⟩

variable {G₁ G₂ : Type} [CodedGroup G₁] [CodedGroup G₂] in
/-- The other way round, a circuit with a constraint and a column for each wire has a key. -/
theorem Circuit.exists_run_setup {σ P : Type} [RandomSource σ] {c : Circuit P} {s : R1CS}
    {source : σ} (hs : c.synthesize none = .ok s) (hcount : s.relationCount ≠ 0)
    (hcolumns : s.shape.columnsExist = true) (hgates : s.gates.length ≤ 2 ^ 31)
    (hsecrets : ∀ x ∈ RandomSource.draws 5 source, IsDraw x) :
    ∃ key : Key G₁ G₂, (c.setup.run source).1 = .ok key ∧ key.counts = s.shape.counts := by
  obtain ⟨secrets, hdrawn, hrun⟩ := Circuit.exists_run_deriveKey G₁ G₂ hsecrets s.shape
  obtain ⟨m, hm, hsize, -⟩ := domainSize_eq hgates
  obtain ⟨d⟩ := exists_domain hm
  obtain ⟨g, e, -, -, hkey⟩ := d.derive_eq G₁ G₂ hsize hcolumns hdrawn
  have hshape : c.provableShape = .ok s.shape := by
    simp only [provableShape, hs, if_neg hcount]
  refine ⟨_, ?_, (Key.of_derive hkey).2.1⟩
  rw [setup, hshape]
  exact hrun.trans hkey

namespace Attestation
open Build

section Wires
variable {G₁ G₂ : Type} [CodedGroup G₁] [CodedGroup G₂] (vk : VerifyingKey G₁ G₂)

def claimWire : ℕ := 1 + limbCount G₁ G₂ + vk.inputCount.toNat

def entries : List (ℕ × String) :=
  R1CS.namedEntries "proof" 1 0 (limbCount G₁ G₂) ++
    R1CS.namedEntries "input" (1 + limbCount G₁ G₂) 0 vk.inputCount.toNat ++
    [(claimWire vk, "claim")]

def relation : List Gate :=
  let s := R1CS.fresh 0 false
  let valid := s.wireAt (claimWire vk + 1)
  [⟨valid, valid, valid, "valid is boolean", false⟩,
    ⟨.constant 0, .constant 0, s.apart (claimWire vk + 1) (claimWire vk), "inner proof verifies",
      false⟩]

def system (witnessed : Bool) (values : List (Option Int)) : R1CS :=
  ((R1CS.fresh 0 witnessed).pushList values (entries vk)).withGates (relation vk)

theorem map_fst_entries : (entries vk).map Prod.fst = List.range' 1 (claimWire vk) := by
  rw [entries, List.map_append, List.map_append, R1CS.map_fst_namedEntries,
    R1CS.map_fst_namedEntries, List.range'_append_1, List.map_singleton, claimWire, Nat.add_assoc,
    Nat.add_comm 1, List.range'_1_concat, Nat.add_comm 1]

theorem map_snd_entries : (entries vk).map Prod.snd = names vk := by
  rw [entries, List.map_append, List.map_append, R1CS.map_snd_namedEntries,
    R1CS.map_snd_namedEntries, names, List.range_eq_range', List.range_eq_range',
    List.map_singleton]

structure Supply (w : Option (Witness (Proof G₁ G₂))) where
  limbs : List (Datum (Proof G₁ G₂))
  inputs : List (Datum (Proof G₁ G₂))
  limbs_eq : limbData (subject w).1 = .ok limbs
  inputs_eq : inputData vk.inputCount (subject w).2 = .ok inputs
  serves : ∀ d ∈ limbs ++ inputs ++ [Witness.get w "claim"], d.Serves w.isSome

def allocate (w : Option (Witness (Proof G₁ G₂))) : Build Linear := do
  let _ ← allocProof true "proof" (subject w).1
  let _ ← allocInputs true "input" vk.inputCount (subject w).2
  parameter true "claim" w

theorem keeps_allocate {R : R1CS → R1CS → Prop} (hR : R1CS.IsOpenFrame R)
    (w : Option (Witness (Proof G₁ G₂))) : (allocate vk w).Keeps R :=
  keeps_bind hR.toIsFrame (keeps_allocProof hR _ _ _) fun _ =>
    keeps_bind hR.toIsFrame (keeps_allocInputs hR _ _ _ _) fun _ => keeps_supplied hR _ _ _

variable {vk} {w : Option (Witness (Proof G₁ G₂))}

def Supply.held (d : Supply vk w) : List (Option Int) :=
  (d.limbs ++ d.inputs ++ [Witness.get w "claim"]).map (Datum.held w.isSome)

theorem Supply.length_inputs (d : Supply vk w) : d.inputs.length = vk.inputCount.toNat :=
  length_inputData d.inputs_eq

variable [LawfulCoding G₁] [LawfulCoding G₂]

theorem Supply.length_limbs (d : Supply vk w) : d.limbs.length = limbCount G₁ G₂ :=
  length_limbData d.limbs_eq

theorem Supply.length_held (d : Supply vk w) : d.held.length = claimWire vk := by
  simp only [held, List.length_map, List.length_append, d.length_limbs, d.length_inputs,
    List.length_singleton, claimWire]
  omega

theorem run_allocate (d : Supply vk w) :
    (allocate vk w).run (.fresh 0 w.isSome) = (.ok ((R1CS.fresh 0 false).wireAt (claimWire vk)),
      (R1CS.fresh 0 w.isSome).pushList d.held (entries vk)) := by
  obtain ⟨⟨hlimbs, hinputs⟩, hclaim⟩ : (_ ∧ _) ∧ _ := by
    simpa only [List.forall_mem_append, List.forall_mem_singleton] using d.serves
  let s₀ := R1CS.fresh 0 w.isSome
  let s₁ := s₀.pushList (d.limbs.map (Datum.held w.isSome))
    (R1CS.namedEntries "proof" 1 0 d.limbs.length)
  let s₂ := s₁.pushList (d.inputs.map (Datum.held w.isSome))
    (R1CS.namedEntries "input" (1 + limbCount G₁ G₂) 0 d.inputs.length)
  have hcount₁ : s₁.wireCount = 1 + limbCount G₁ G₂ := by
    change 1 + (d.limbs.map _).length = _
    rw [List.length_map, d.length_limbs]
  have hcount₂ : s₂.wireCount = claimWire vk := by
    change s₁.wireCount + (d.inputs.map _).length = _
    rw [hcount₁, List.length_map, d.length_inputs, claimWire]
  have hrun₁ : (allocProof true "proof" (subject w).1).run s₀ =
      (.ok ((List.range' 1 d.limbs.length).map s₀.wireAt), s₁) := by
    rw [allocProof, d.limbs_eq]
    exact run_suppliedList (s := s₀) rfl true "proof" 0 hlimbs
  have hrun₂ : (allocInputs true "input" vk.inputCount (subject w).2).run s₁ =
      (.ok ((List.range' s₁.wireCount d.inputs.length).map s₀.wireAt), s₂) := by
    simp only [s₂, ← hcount₁]
    rw [allocInputs, d.inputs_eq]
    exact run_suppliedList (s := s₁) rfl true "input" 0 hinputs
  have hrun₃ : (parameter true "claim" w).run s₂ = (.ok (s₀.wireAt s₂.wireCount),
      s₂.push ((Witness.get w "claim").held w.isSome) (some "claim")) :=
    run_supplied (s := s₂) rfl true "claim" hclaim
  have hend : s₂.push ((Witness.get w "claim").held w.isSome) (some "claim") =
      s₀.pushList d.held (entries vk) := by
    rw [R1CS.push_eq_pushList, hcount₂]
    simp only [s₂, s₁, R1CS.pushList_pushList, Supply.held, entries, List.map_append,
      d.length_limbs, d.length_inputs]
    rfl
  change (allocate vk w).run s₀ = _
  simp only [allocate, run_bind, hrun₁, hrun₂, hrun₃, hend, hcount₂]
  rfl

end Wires

section Body
variable {G₁ G₂ Gₜ : Type} [CodedGroup G₁] [CodedGroup G₂] [Mul Gₜ] [DecidableEq Gₜ]
  [Pairing G₁ G₂ Gₜ] {vk : VerifyingKey G₁ G₂} {w : Option (Witness (Proof G₁ G₂))}

def constrainClaim (vk : VerifyingKey G₁ G₂) (proof inputs : Datum (Proof G₁ G₂))
    (claim : Linear) : Build Unit := do
  let valid ← wire (fun _ => VerifyingKey.check (some vk) proof inputs) none
  assertBit valid "valid is boolean"
  connect valid claim "inner proof verifies"

theorem body_eq : body vk .checked w = (do
    let claim ← allocate vk w
    constrainClaim vk (subject w).1 (subject w).2 claim) := by
  simp only [body, allocate, constrainClaim, bind_assoc]

theorem keeps_body {R : R1CS → R1CS → Prop} (hR : R1CS.IsOpenFrame R) :
    (body vk .checked w).Keeps R := by
  rw [body_eq]
  exact keeps_bind hR.toIsFrame (keeps_allocate vk hR w) fun _ =>
    keeps_bind hR.toIsFrame (keeps_wire hR.toIsFrame _ (.inl rfl)) fun _ =>
      keeps_bind hR.toIsFrame (keeps_gate hR.toIsFrame _ _ _ _ _) fun _ =>
        keeps_connect hR.toIsFrame _ _ _

theorem run_constrainClaim {s : R1CS} {n : ℕ} (hf : s.frozen = false) (hn : 0 < n)
    (hcount : s.wireCount = n + 1) {proof inputs : Datum (Proof G₁ G₂)} {valid : Option Int}
    (hvalue : s.wireValue (fun _ => VerifyingKey.check (some vk) proof inputs) = .ok valid) :
    (constrainClaim vk proof inputs (s.wireAt n)).run s = (.ok (), (s.push valid none).withGates
      [⟨s.wireAt (n + 1), s.wireAt (n + 1), s.wireAt (n + 1), "valid is boolean", false⟩,
        ⟨.constant 0, .constant 0, s.apart (n + 1) n, "inner proof verifies", false⟩]) := by
  have hwire : (wire (fun _ => VerifyingKey.check (some vk) proof inputs) none).run s =
      (.ok (s.wireAt (n + 1)), s.push valid none) := by
    rw [run_wire, if_neg (by simp [hf]), hvalue, hcount]
  have hlt : n + 1 < (s.push valid none).wireCount := by
    change n + 1 < s.wireCount + 1
    omega
  have hbit := run_assertBit_wireAt (s := s.push valid none) hf hlt "valid is boolean"
  have hconnect := fun g => run_connect_wireAt (s := (s.push valid none).withGates [g]) hf hlt
    (Nat.lt_of_succ_lt hlt) n.succ_pos hn n.succ_ne_self "inner proof verifies"
  simp only [R1CS.withGates_withGates] at hconnect
  rw [constrainClaim, run_bind_of_ok hwire]
  exact (run_bind_of_ok hbit).trans (hconnect _)

/-- The whole run. What the verifier says matters only where values are kept. -/
theorem run_body [LawfulCoding G₁] [LawfulCoding G₂] (d : Supply vk w) {b : Int}
    (hcheck : w.isSome = true →
      VerifyingKey.check (some vk) (subject w).1 (subject w).2 = .ok b) :
    (body vk .checked w).run (.fresh 0 w.isSome) =
      (.ok (), system vk w.isSome (d.held ++ [if w.isSome then some (reduce b) else none])) := by
  let s := (R1CS.fresh 0 w.isSome).pushList d.held (entries vk)
  have hcount : s.wireCount = claimWire vk + 1 := by
    change 1 + d.held.length = _
    rw [d.length_held, Nat.add_comm]
  have hpos : 0 < claimWire vk := by
    rw [claimWire]
    omega
  have hvalue : s.wireValue (fun _ => VerifyingKey.check (some vk) (subject w).1 (subject w).2) =
      .ok (if w.isSome then some (reduce b) else none) := by
    change (if w.isSome = true then _ else _) = _
    split
    · rename_i hw
      rw [hcheck hw]
    · rfl
  rw [body_eq, run_bind, run_allocate d]
  refine (run_constrainClaim (s := s) rfl hpos hcount hvalue).trans ?_
  simp only [s, system, relation, R1CS.push_eq_pushList, R1CS.pushList_pushList, Option.map_none,
    Option.toList_none, List.append_nil]
  rfl

end Body

section Shape
variable {G₁ G₂ : Type} [CodedGroup G₁] [CodedGroup G₂] {vk : VerifyingKey G₁ G₂}

theorem shape_eq {witnessed witnessed' : Bool} {values values' : List (Option Int)}
    (h : values.length = values'.length) :
    (system vk witnessed values).freeze.shape = (system vk witnessed' values').freeze.shape := by
  have hfreeze : ∀ (witnessed : Bool) (values : List (Option Int)),
      (system vk witnessed values).freeze.shape =
        ⟨1 + values.length, (0, "ONE") :: entries vk,
          relation vk ++ ((0, "ONE") :: entries vk).map (R1CS.fresh 0 false).bindingGate⟩ :=
    fun _ _ => rfl
  rw [hfreeze, hfreeze, h]

theorem checkGates_relation {t : R1CS} {claim b : Int}
    (hclaim : t.values[claimWire vk]? = some (some claim))
    (hvalid : t.values[claimWire vk + 1]? = some (some b)) (hrange : 0 ≤ claim ∧ claim < order)
    (hb : b = 0 ∨ b = 1) {rest : List Gate} (hrest : t.checkGates rest = .ok none) :
    t.checkGates (relation vk ++ rest) =
      .ok (if claim = b then none else some "inner proof verifies") := by
  have hslot : ∀ {m : ℕ} {v : Int}, t.values[m]? = some (some v) →
      t.slot? m = some (some v) := by
    intro m v hv
    rw [R1CS.slot?_natCast (List.getElem?_eq_some_iff.mp hv).1, hv]
  have hvalidValue := R1CS.valuation_of_getElem? hvalid
  have hclaimValue := R1CS.valuation_of_getElem? hclaim
  have hreads : t.Reads ((R1CS.fresh 0 false).wireAt (claimWire vk + 1)) := by
    intro term hterm
    obtain rfl := List.mem_singleton.mp hterm
    exact ⟨b, hslot hvalid⟩
  have hreads' : t.Reads ((R1CS.fresh 0 false).apart (claimWire vk + 1) (claimWire vk)) := by
    intro term hterm
    rcases List.mem_pair.mp hterm with rfl | rfl
    · exact ⟨b, hslot hvalid⟩
    · exact ⟨claim, hslot hclaim⟩
  have hbit : ((b : Int) : Scalar) * b = b := by
    rcases hb with rfl | rfl <;> norm_num
  have hbrange : 0 ≤ b ∧ b < order := by
    have hone : (0 : Int) < order ∧ (1 : Int) < order := by decide
    rcases hb with rfl | rfl
    · exact ⟨le_rfl, hone.1⟩
    · exact ⟨zero_le_one, hone.2⟩
  have happart : ((R1CS.fresh 0 false).apart (claimWire vk + 1) (claimWire vk)).value t.valuation =
      (b : Scalar) - claim := by
    simp only [R1CS.apart, Linear.value, termsValue, hvalidValue, hclaimValue, Int.cast_sub,
      Int.cast_one, cast_order]
    ring
  let valid := (R1CS.fresh 0 false).wireAt (claimWire vk + 1)
  have hholds : (⟨valid, valid, valid, "valid is boolean", false⟩ : Gate).Holds t.valuation := by
    rw [Gate.Holds, Linear.value_wireAt, hvalidValue, hbit]
  have hholds' : (⟨.constant 0, .constant 0,
      (R1CS.fresh 0 false).apart (claimWire vk + 1) (claimWire vk), "inner proof verifies", false⟩ :
      Gate).Holds t.valuation ↔ claim = b := by
    have hzero : (Linear.constant 0).value t.valuation = 0 := Int.cast_zero
    rw [Gate.Holds, happart, hzero, mul_zero, eq_comm, sub_eq_zero]
    constructor
    · exact fun heq => eq_of_cast_eq hrange hbrange heq.symm
    · rintro rfl
      rfl
  rw [relation, List.cons_append, R1CS.checkGates_cons _ ⟨hreads, hreads, hreads⟩, if_pos hholds,
    List.singleton_append, R1CS.checkGates_cons rest ⟨by trivial, by trivial, hreads'⟩]
  by_cases hclaims : claim = b
  · rw [if_pos (hholds'.mpr hclaims), if_pos hclaims, hrest]
  · rw [if_neg fun hg => hclaims (hholds'.mp hg), if_neg hclaims]

end Shape

section Honest
variable {G₁ G₂ Gₜ : Type} [CodedGroup G₁] [CodedGroup G₂] [Mul Gₜ] [DecidableEq Gₜ]
  [Pairing G₁ G₂ Gₜ] {vk : VerifyingKey G₁ G₂} {p : Proof G₁ G₂}
  {inputs : List Int} {claim b : Int}

def witness (p : Proof G₁ G₂) (inputs : List Int) (claim : Int) : Witness (Proof G₁ G₂) :=
  [("proof", .proof p), ("inputs", .list (inputs.map .number)), ("claim", .number claim)]

def commitments (p : Proof G₁ G₂) (inputs : List Int) (claim : Int) : List Int :=
  p.limbs ++ inputs ++ [claim]

def Supply.absent : Supply vk (none : Option (Witness (Proof G₁ G₂))) where
  limbs := List.replicate (limbCount G₁ G₂) .absent
  inputs := List.replicate vk.inputCount.toNat .absent
  limbs_eq := rfl
  inputs_eq := rfl
  serves _ _ h := absurd h Bool.false_ne_true

def Supply.ofWitness (p : Proof G₁ G₂) (h : (inputs.length : Int) = vk.inputCount) (claim : Int) :
    Supply vk (some (witness p inputs claim)) where
  limbs := p.limbs.map .number
  inputs := inputs.map .number
  limbs_eq := rfl
  inputs_eq := by
    change (if ((inputs.map Datum.number).length : Int) ≠ _ then _ else _) = _
    rw [List.length_map, if_neg (not_not.mpr h)]
  serves := by
    intro d hd _
    simp only [List.mem_append, List.mem_map, List.mem_singleton] at hd
    rcases hd with (⟨v, -, rfl⟩ | ⟨v, -, rfl⟩) | rfl
    · exact ⟨v, rfl⟩
    · exact ⟨v, rfl⟩
    · exact ⟨claim, rfl⟩

theorem commitments_reduce (hrange : ∀ x ∈ commitments p inputs claim, 0 ≤ x ∧ x < order) :
    commitments p (inputs.map reduce) (reduce claim) = commitments p inputs claim := by
  simp only [commitments, List.mem_append, List.mem_singleton] at hrange
  have hinputs : inputs.map reduce = inputs := by
    refine (List.map_congr_left fun v hv => ?_).trans (List.map_id inputs)
    have hv := hrange v (.inl (.inr hv))
    exact reduce_eq_self hv.1 hv.2
  have hclaim := hrange claim (.inr rfl)
  rw [hinputs, reduce_eq_self hclaim.1 hclaim.2]

/-- The wires hold residues. The limbs of a proof are residues as they are. -/
theorem held_ofWitness (h : (inputs.length : Int) = vk.inputCount) :
    (Supply.ofWitness p h claim).held =
      (commitments p (inputs.map reduce) (reduce claim)).map some := by
  have hlimbs : p.limbs.map (fun v => some (reduce v)) = p.limbs.map some :=
    List.map_congr_left fun v hv => by
      rw [reduce_eq_self (p.limbs_range v hv).1 (p.limbs_range v hv).2]
  change ((p.limbs.map Datum.number ++ inputs.map Datum.number ++ [Datum.number claim]).map
    (Datum.held true) : List (Option Int)) = _
  simp only [commitments, List.map_append, List.map_map, List.map_cons, List.map_nil, ← hlimbs]
  rfl

variable [LawfulCoding G₁] [LawfulCoding G₂]

theorem claimWire_eq (h : (inputs.length : Int) = vk.inputCount) (p : Proof G₁ G₂) :
    claimWire vk = (p.limbs ++ inputs).length + 1 := by
  rw [claimWire, List.length_append, p.length_limbs, ← h, Int.toNat_natCast]
  omega

def systemOf (vk : VerifyingKey G₁ G₂) (p : Proof G₁ G₂) (inputs : List Int) (claim b : Int) :
    R1CS :=
  system vk true ((commitments p inputs claim).map some ++ [some b])

/-- The run of the body on a witness ends in the system of the residues, which is the one of the
setup but for the values. The verdict is on the numbers as they came. -/
theorem run_witness_reduce (h : (inputs.length : Int) = vk.inputCount) (claim : Int)
    (hcheck : VerifyingKey.check (some vk) (.proof p) (.list (inputs.map .number)) = .ok b) :
    (body vk .checked (some (witness p inputs claim))).run (.fresh 0 true) =
      (.ok (), systemOf vk p (inputs.map reduce) (reduce claim) b) := by
  have hb : reduce b = b := by
    have hbit : (0 : Int) < order ∧ (1 : Int) < order := by decide
    rcases Cyclic.check_eq_zero_or_one hcheck with rfl | rfl
    · exact reduce_eq_self le_rfl hbit.1
    · exact reduce_eq_self zero_le_one hbit.2
  have hrun := run_body (Supply.ofWitness p h claim) fun _ => hcheck
  rw [held_ofWitness h] at hrun
  simpa only [Option.isSome_some, if_true, hb, systemOf] using hrun

theorem run_witness (h : (inputs.length : Int) = vk.inputCount)
    (hrange : ∀ x ∈ commitments p inputs claim, 0 ≤ x ∧ x < order)
    (hcheck : VerifyingKey.check (some vk) (.proof p) (.list (inputs.map .number)) = .ok b) :
    (body vk .checked (some (witness p inputs claim))).run (.fresh 0 true) =
      (.ok (), systemOf vk p inputs claim b) := by
  rw [run_witness_reduce h claim hcheck, systemOf, commitments_reduce hrange, systemOf]

section WellFormed
variable (h : (inputs.length : Int) = vk.inputCount)
  (hwell : (systemOf vk p inputs claim b).WellFormed)
include h hwell

theorem inputs_freeze_systemOf :
    (systemOf vk p inputs claim b).freeze.inputs = .ok (commitments p inputs claim) := by
  have hlen : (commitments p inputs claim).length = claimWire vk := by
    rw [claimWire_eq h p, commitments, List.length_append, List.length_singleton]
  have hvalues : (systemOf vk p inputs claim b).freeze.values =
      [some 1] ++ ((commitments p inputs claim).map some ++ [some b]) := rfl
  have hentries : (systemOf vk p inputs claim b).freeze.entries = (0, "ONE") :: entries vk := rfl
  rw [R1CS.inputs_eq ((R1CS.grows_freeze _).wellFormed hwell) rfl hentries]
  change Except.ok ((entries vk).map
    ((systemOf vk p inputs claim b).freeze.wireNumber ∘ Prod.fst)) = _
  rw [← List.map_map, map_fst_entries, ← hlen]
  exact congrArg Except.ok (R1CS.map_wireNumber hvalues)

/-- Of the gates, the last one of the body can fail, and fails of a claim that is not the
verdict. -/
theorem check_freeze_systemOf (hclaim : 0 ≤ claim ∧ claim < order) (hb : b = 0 ∨ b = 1) :
    (systemOf vk p inputs claim b).freeze.check =
      .ok (if claim = b then none else some "inner proof verifies") := by
  have hvalues : (systemOf vk p inputs claim b).freeze.values =
      some 1 :: ((p.limbs ++ inputs).map some ++ [some claim, some b]) := by
    change some 1 :: ((commitments p inputs claim).map some ++ [some b]) = _
    simp [commitments]
  have hlen := claimWire_eq h p
  apply checkGates_relation
  · rw [hvalues, hlen, List.getElem?_cons_succ, List.getElem?_append_right (by simp)]
    simp
  · rw [hvalues, hlen, List.getElem?_cons_succ, List.getElem?_append_right (by simp)]
    simp
  · exact hclaim
  · exact hb
  · exact (R1CS.fulfils_freeze hwell rfl).checkGates_drop
      ((R1CS.grows_freeze _).wellFormed hwell) rfl

end WellFormed

section
variable (h : (inputs.length : Int) = vk.inputCount)
  (hrange : ∀ x ∈ commitments p inputs claim, 0 ≤ x ∧ x < order)
  (hcheck : VerifyingKey.check (some vk) (.proof p) (.list (inputs.map .number)) = .ok b)
include h hrange hcheck

theorem wellFormed_systemOf : (systemOf vk p inputs claim b).WellFormed := by
  have hgrows := (keeps_body R1CS.isOpenFrame_grows).of_run (run_witness h hrange hcheck)
  exact hgrows.wellFormed (R1CS.wellFormed_fresh 0 true)

theorem wellFormed_freeze : (systemOf vk p inputs claim b).freeze.WellFormed :=
  (R1CS.grows_freeze _).wellFormed (wellFormed_systemOf h hrange hcheck)

theorem inputs_systemOf :
    (systemOf vk p inputs claim b).freeze.inputs = .ok (commitments p inputs claim) :=
  inputs_freeze_systemOf h (wellFormed_systemOf h hrange hcheck)

theorem check_systemOf : (systemOf vk p inputs claim b).freeze.check =
    .ok (if claim = b then none else some "inner proof verifies") :=
  check_freeze_systemOf h (wellFormed_systemOf h hrange hcheck)
    (hrange claim (by simp [commitments])) (Cyclic.check_eq_zero_or_one hcheck)

theorem names_systemOf : (systemOf vk p inputs claim b).freeze.shape.names = names vk :=
  ((wellFormed_freeze h hrange hcheck).names_eq rfl).trans (map_snd_entries vk)

end

end Honest

section Deferred
variable {G₁ G₂ Gₜ : Type} [CodedGroup G₁] [CodedGroup G₂] [LawfulCoding G₁] [LawfulCoding G₂]
  {p : Proof G₁ G₂} {inputs : List Int} {claim : Int}

theorem split_commitments (p : Proof G₁ G₂) (inputs : List Int) (claim : Int) :
    split (commitments p inputs claim) inputs.length = .ok (p, inputs, claim) := by
  have hlen : ((commitments p inputs claim).length : Int) =
      limbCount G₁ G₂ + (inputs.length : Int) + 1 := by
    simp only [commitments, List.length_append, p.length_limbs, List.length_singleton]
    omega
  have htake : (commitments p inputs claim).take (limbCount G₁ G₂) = p.limbs := by
    rw [commitments, List.append_assoc, List.take_left' p.length_limbs]
  have hdrop : ((commitments p inputs claim).drop (limbCount G₁ G₂)).take inputs.length =
      inputs := by
    rw [commitments, List.append_assoc, List.drop_left' p.length_limbs, List.take_left]
  have hlast : (commitments p inputs claim).getLast? = some claim := by
    rw [commitments, List.getLast?_append]
    rfl
  simp only [split, hlen, ne_eq, not_true, if_false, htake, p.ofLimbs_limbs, hlast,
    Int.toNat_natCast, hdrop]

variable [Mul Gₜ] [DecidableEq Gₜ] [Pairing G₁ G₂ Gₜ] {outerKey vk : VerifyingKey G₁ G₂}

theorem verifyDeferred_eq (houter : outerKey.Fits (commitments p inputs claim))
    (hinner : vk.Fits inputs) (proof : Proof G₁ G₂) :
    verifyDeferred outerKey vk (.proof proof) (.list ((commitments p inputs claim).map .number)) =
      .ok ⟨outerKey.accepts proof (commitments p inputs claim) && vk.accepts p inputs && claim == 1,
        (VerifyingKey.defaultNames (commitments p inputs claim).length).zip
          (commitments p inputs claim)⟩ := by
  have hnames : (VerifyingKey.defaultNames (commitments p inputs claim).length).length =
      (commitments p inputs claim).length := by simp [VerifyingKey.defaultNames]
  have hsplit := split_commitments p inputs claim
  rw [hinner.count] at hsplit
  simp only [verifyDeferred, houter.verifyData_eq proof none (by simp), Option.getD_none,
    List.map_snd_zip hnames.ge, hsplit, hinner.verify_eq, bind, Except.bind, pure, Except.pure]

end Deferred

section Claims
variable {G₁ G₂ Gₜ σ : Type} [CodedGroup G₁] [CodedGroup G₂] [LawfulCoding G₁] [LawfulCoding G₂]
  [Mul Gₜ] [DecidableEq Gₜ] [Pairing G₁ G₂ Gₜ] [RandomSource σ]

theorem synthesize_none (vk : VerifyingKey G₁ G₂) :
    ∃ values, values.length = claimWire vk + 1 ∧
      (circuit vk .checked).synthesize none = .ok (system vk false values).freeze ∧
      (system vk false values).freeze.WellFormed := by
  have hrun := run_body (b := 0) (Supply.absent : Supply vk none) nofun
  have hgrows := (keeps_body R1CS.isOpenFrame_grows).of_run hrun
  refine ⟨(Supply.absent : Supply vk none).held ++ [none], ?_,
    Circuit.synthesize_eq_ok_iff.mpr ⟨_, hrun, rfl⟩,
    (hgrows.trans (R1CS.grows_freeze _)).wellFormed (R1CS.wellFormed_fresh 0 false)⟩
  rw [List.length_append, Supply.length_held, List.length_singleton]

def Refused (key : Key G₁ G₂) (vk : VerifyingKey G₁ G₂) (w : Witness (Proof G₁ G₂)) (source : σ) :
    Prop :=
  ((key.provingKey.prove (circuit vk .checked) (some w)).run source).1 =
    .error (.unsatisfied "inner proof verifies")

def Attested (key : Key G₁ G₂) (vk : VerifyingKey G₁ G₂) (w : Witness (Proof G₁ G₂)) (source : σ)
    (outer : List Int) (passed : Bool) : Prop :=
  ∃ proof values,
    ((key.provingKey.prove (circuit vk .checked) (some w)).run source).1 = .ok proof ∧
    key.verifyingKey.verify proof outer none = .ok ⟨true, values⟩ ∧
    verifyDeferred key.verifyingKey vk (.proof proof) (.list (outer.map .number)) =
      .ok ⟨passed, values⟩

structure IsKey (vk : VerifyingKey G₁ G₂) (key : Key G₁ G₂) : Prop where
  exists_setup : ∃ (s : R1CS) (secrets : Trapdoor), (circuit vk .checked).synthesize none = .ok s ∧
    secrets.IsDrawn ∧ Key.derive s.shape secrets = .ok key

variable {vk : VerifyingKey G₁ G₂} {key : Key G₁ G₂} {p : Proof G₁ G₂} {inputs : List Int}
  {claim : Int} {source : σ}

/-- The key is one for every system of the circuit that has values. -/
theorem IsKey.exists_derive (h : IsKey vk key) (hlen : (inputs.length : Int) = vk.inputCount)
    (p : Proof G₁ G₂) (claim b : Int) : ∃ secrets : Trapdoor, secrets.IsDrawn ∧
      Key.derive (systemOf vk p inputs claim b).freeze.shape secrets = .ok key := by
  obtain ⟨s, secrets, hs, hdrawn, hderive⟩ := h.exists_setup
  obtain ⟨values, hvalues, hnone, -⟩ := synthesize_none vk
  obtain rfl := Except.ok.inj (hs.symm.trans hnone)
  refine ⟨secrets, hdrawn, ?_⟩
  have hcount : ((commitments p inputs claim).map some ++ [some b]).length = values.length := by
    simp only [hvalues, claimWire_eq hlen p, commitments, List.length_append, List.length_map,
      List.length_singleton]
  rw [systemOf, shape_eq hcount, hderive]

structure IsSubject (vk : VerifyingKey G₁ G₂) (inputs : List Int) (claim : Int) : Prop where
  fits : vk.Fits inputs
  claim_nonneg : 0 ≤ claim
  claim_lt : claim < order

omit [LawfulCoding G₁] [LawfulCoding G₂] [DecidableEq Gₜ] [Pairing G₁ G₂ Gₜ] [Mul Gₜ] in
theorem IsSubject.range (h : IsSubject vk inputs claim) (p : Proof G₁ G₂) :
    ∀ x ∈ commitments p inputs claim, 0 ≤ x ∧ x < order := by
  intro x hx
  simp only [commitments, List.mem_append, List.mem_singleton] at hx
  rcases hx with (hx | hx) | rfl
  · exact p.limbs_range x hx
  · exact h.fits.range x hx
  · exact ⟨h.claim_nonneg, h.claim_lt⟩

/-- The system of a witness is closed with the verdict of the verifier on its last wire. -/
theorem IsSubject.synthesize_eq (h : IsSubject vk inputs claim) (p : Proof G₁ G₂) :
    (circuit vk .checked).synthesize (some (witness p inputs claim)) =
      .ok (systemOf vk p inputs claim (if vk.accepts p inputs then 1 else 0)).freeze :=
  Circuit.synthesize_eq_ok_iff.mpr
    ⟨_, run_witness h.fits.count (h.range p) (h.fits.check_eq p), rfl⟩

theorem IsKey.refused (hkey : IsKey vk key) (h : IsSubject vk inputs claim)
    (hne : claim ≠ if vk.accepts p inputs then 1 else 0) :
    Refused key vk (witness p inputs claim) source := by
  obtain ⟨secrets, -, hderive⟩ := hkey.exists_derive h.fits.count p claim
    (if vk.accepts p inputs then 1 else 0)
  have hcheck := check_systemOf h.fits.count (h.range p) (h.fits.check_eq p)
  rw [if_neg hne] at hcheck
  have hprepare :=
    ProvingKey.prepare_eq_error (h.synthesize_eq p) (Key.fits_of_derive hderive) hcheck
  rw [Refused, key.provingKey.run_prove_of_error hprepare]

variable [PrimeOrder G₁] [PrimeOrder G₂] [Bilinear G₁ G₂ Gₜ]

theorem IsKey.attested (hkey : IsKey vk key) (hgates : key.counts.gates ≤ 2 ^ 31)
    (h : IsSubject vk inputs claim) (heq : claim = if vk.accepts p inputs then 1 else 0)
    (hblinding : ∀ x ∈ RandomSource.draws 2 source, IsDraw x) :
    Attested key vk (witness p inputs claim) source (commitments p inputs claim)
      (vk.accepts p inputs) := by
  obtain ⟨secrets, hdrawn, hderive⟩ := hkey.exists_derive h.fits.count p claim
    (if vk.accepts p inputs then 1 else 0)
  have hrange := h.range p
  have hcheck := check_systemOf h.fits.count hrange (h.fits.check_eq p)
  rw [if_pos heq] at hcheck
  rw [(Key.of_derive hderive).2.1] at hgates
  obtain ⟨proof, source', hprove, haccepts, -⟩ := Key.exists_proof (h.synthesize_eq p)
    (wellFormed_freeze h.fits.count hrange (h.fits.check_eq p)) rfl hcheck hgates
    (inputs_systemOf h.fits.count hrange (h.fits.check_eq p)) hdrawn hderive hblinding
  have hfits : key.verifyingKey.Fits (commitments p inputs claim) := by
    refine VerifyingKey.Fits.of_derive hderive ?_ hrange
    have hentries := congrArg List.length (map_fst_entries vk)
    rw [List.length_map, List.length_range', claimWire_eq h.fits.count p] at hentries
    change _ = (entries vk).length + 1
    rw [hentries, commitments, List.length_append, List.length_singleton]
  have hpassed : (vk.accepts p inputs && claim == 1) = vk.accepts p inputs := by
    rw [heq]
    cases vk.accepts p inputs <;> rfl
  refine ⟨proof, _, by rw [hprove], (hfits.verify_eq proof).trans (by rw [haccepts]), ?_⟩
  rw [verifyDeferred_eq hfits h.fits, haccepts, Bool.true_and, hpassed]

/-- A checked circuit attests what the verifier says of the inner proof. Whatever is claimed, the
names and the values of the public inputs are the ones that are announced; the claim that is true
can be proved, and no other claim. -/
theorem attests_verdict (hcolumns : vk.publicColumns.length = vk.entryCount) {source source' : σ}
    (hsecrets : ∀ x ∈ RandomSource.draws 5 source, IsDraw x)
    (hkey : ((circuit vk .checked).setup.run source).1 = .ok key)
    (hgates : key.counts.gates ≤ 2 ^ 31)
    (hlen : (inputs.length : Int) = vk.inputCount) (hinputs : ∀ x ∈ inputs, 0 ≤ x ∧ x < order)
    (p : Proof G₁ G₂) (hblinding : ∀ x ∈ RandomSource.draws 2 source', IsDraw x) :
    (∃ s, (circuit vk .checked).synthesize none = .ok s ∧ s.shape.names = names vk) ∧
    ∃ verdict, vk.verify p inputs none = .ok verdict ∧
      ∀ claim, 0 ≤ claim → claim < order → ∃ w outer s,
        assign (.proof p) (.list (inputs.map .number)) (.number claim) = .ok w ∧
        publicData (.proof p) (.list (inputs.map .number)) (.number claim) =
          .ok (outer.map .number) ∧
        (circuit vk .checked).synthesize (some w) = .ok s ∧
        s.shape.names = names vk ∧ s.inputs = .ok outer ∧
        (verdict.passed = true → claim = 1 → Attested key vk w source' outer true) ∧
        (verdict.passed = true → claim = 0 → Refused key vk w source') ∧
        (verdict.passed = false → claim = 1 → Refused key vk w source') ∧
        (verdict.passed = false → claim = 0 → Attested key vk w source' outer false) ∧
        (claim ≠ 0 → claim ≠ 1 → Refused key vk w source') := by
  obtain ⟨s₀, secrets, hs₀, -, hdrawn, hderive⟩ := Circuit.of_run_setup hsecrets hkey
  have hkey : IsKey vk key := ⟨s₀, secrets, hs₀, hdrawn, hderive⟩
  have hfits : vk.Fits inputs := ⟨hlen, hcolumns, hinputs⟩
  obtain ⟨values, -, hnone, hwell⟩ := synthesize_none vk
  refine ⟨⟨_, hnone, (hwell.names_eq rfl).trans (map_snd_entries vk)⟩, _, hfits.verify_eq p, ?_⟩
  intro claim hlow hhigh
  have hsubject : IsSubject vk inputs claim := ⟨hfits, hlow, hhigh⟩
  have hrange := hsubject.range p
  have hcheck := hfits.check_eq p
  have hattested := fun heq => hkey.attested (p := p) hgates hsubject heq hblinding
  have hrefused : claim ≠ (if vk.accepts p inputs then 1 else 0) →
    Refused key vk (witness p inputs claim) source' := hkey.refused hsubject
  refine ⟨witness p inputs claim, commitments p inputs claim, _, rfl, ?_, hsubject.synthesize_eq p,
    names_systemOf hlen hrange hcheck, inputs_systemOf hlen hrange hcheck, ?_, ?_, ?_, ?_, ?_⟩
  · simp only [publicData, Datum.items?, commitments, List.map_append, List.map_singleton]
  · rintro hpassed rfl
    have h := hattested (by rw [if_pos hpassed])
    rwa [show vk.accepts p inputs = true from hpassed] at h
  · rintro hpassed rfl
    exact hrefused (by rw [if_pos hpassed]; decide)
  · rintro hpassed rfl
    exact hrefused (by rw [if_neg (ne_true_of_eq_false hpassed)]; decide)
  · rintro hpassed rfl
    have h := hattested (by rw [if_neg (ne_true_of_eq_false hpassed)])
    rwa [show vk.accepts p inputs = false from hpassed] at h
  · intro hzero hone
    apply hrefused
    split
    · exact hone
    · exact hzero

def lenientKey : VerifyingKey Exponent Exponent :=
  ⟨2, ⟨1⟩, ⟨1⟩, ⟨1⟩, ⟨1⟩, [⟨0⟩, ⟨0⟩]⟩

/-- An inner proof that passes is attested, and one that does not is refused. -/
theorem attests_verdict_lenientKey :
    ∃ key : Key Exponent Exponent,
      ((circuit lenientKey .checked).setup.run (⟨[2, 3, 5, 7, 1]⟩ : Script)).1 = .ok key ∧
      ∃ w w' outer,
        assign (.proof (⟨⟨1⟩, ⟨1⟩, ⟨0⟩⟩ : Proof Exponent Exponent)) (.list [.number 6])
          (.number 1) = .ok w ∧
        assign (.proof (⟨⟨2⟩, ⟨1⟩, ⟨0⟩⟩ : Proof Exponent Exponent)) (.list [.number 6])
          (.number 1) = .ok w' ∧
        Attested key lenientKey w (⟨[11, 13]⟩ : Script) outer true ∧
        Refused key lenientKey w' (⟨[11, 13]⟩ : Script) := by
  have hsecrets : ∀ x ∈ RandomSource.draws 5 (⟨[2, 3, 5, 7, 1]⟩ : Script), IsDraw x := by decide
  have hblinding : ∀ x ∈ RandomSource.draws 2 (⟨[11, 13]⟩ : Script), IsDraw x := by decide
  have hinputs : ∀ x ∈ [(6 : Int)], 0 ≤ x ∧ x < order := by decide
  have hone : (0 : Int) ≤ 1 ∧ (1 : Int) < order := by decide
  obtain ⟨s, hs, hcount, hcolumns, hgates⟩ : ∃ s,
      (circuit lenientKey .checked).synthesize none = .ok s ∧ s.relationCount ≠ 0 ∧
      s.shape.columnsExist = true ∧ s.gates.length ≤ 2 ^ 31 :=
    ⟨_, rfl, by decide, by decide, by decide⟩
  obtain ⟨key, hkey, hcounts⟩ : ∃ key : Key Exponent Exponent,
      ((circuit lenientKey .checked).setup.run (⟨[2, 3, 5, 7, 1]⟩ : Script)).1 = .ok key ∧
      key.counts = s.shape.counts :=
    Circuit.exists_run_setup hs hcount hcolumns hgates hsecrets
  have hkeyGates : key.counts.gates ≤ 2 ^ 31 := by rwa [hcounts]
  obtain ⟨-, verdict, hverdict, hclaims⟩ := attests_verdict rfl hsecrets hkey hkeyGates rfl
    hinputs ⟨⟨1⟩, ⟨1⟩, ⟨0⟩⟩ hblinding
  obtain ⟨-, verdict', hverdict', hclaims'⟩ := attests_verdict rfl hsecrets hkey hkeyGates rfl
    hinputs ⟨⟨2⟩, ⟨1⟩, ⟨0⟩⟩ hblinding
  obtain ⟨w, outer, -, hw, -, -, -, -, hattested, -⟩ := hclaims 1 hone.1 hone.2
  obtain ⟨w', -, -, hw', -, -, -, -, -, -, hrefused, -⟩ := hclaims' 1 hone.1 hone.2
  have hpassed : verdict.passed = true := by
    obtain rfl := Except.ok.inj hverdict
    decide
  have hfailed : verdict'.passed = false := by
    obtain rfl := Except.ok.inj hverdict'
    decide
  exact ⟨key, hkey, w, w', outer, hw, hw', hattested hpassed rfl, hrefused hfailed rfl⟩

end Claims

end Attestation

end RankOne
