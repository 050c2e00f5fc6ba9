import RankOne.Proofs.Soundness

/-!
# A proof is bound to its public inputs

A closed system has a gate `x * 0 = 0` for each public entry. It holds of every value, but it puts
the entry into the public columns of a key by itself, also where no other gate mentions it. So two
vectors of public inputs that differ give two different polynomials, and a proof that passes with
both needs a secret point where the polynomials meet. There are fewer such points than the domain
has.
-/

set_option autoImplicit false

namespace RankOne
open CodedGroup (multiple)
open Pairing (pair)
open Polynomial Transform

namespace R1CS

def Binds (s : R1CS) : Prop :=
  s.frozen = true → ∀ entry ∈ s.entries, s.bindingGate entry ∈ s.gates

theorem frozen_freeze (s : R1CS) : s.freeze.frozen = true := by
  rw [freeze]
  split
  · assumption
  · rfl

theorem Binds.freeze {s : R1CS} (h : s.Binds) : s.freeze.Binds := by
  rw [R1CS.freeze]
  split
  · exact h
  · intro _ entry hentry
    exact List.mem_append_right _ (List.mem_map_of_mem hentry)

/-- A system binds its entries at all times: while it is open there is nothing to show. -/
theorem isOpenFrame_binds : IsOpenFrame fun s t => s.Binds → t.Binds where
  refl _ := id
  trans h h' := h' ∘ h
  push hf _ _ hfrozen := absurd hfrozen (ne_true_of_eq_false hf)
  addGate _ hf _ _ hfrozen := absurd hfrozen (ne_true_of_eq_false hf)
  publish _ hf _ _ hfrozen := absurd hfrozen (ne_true_of_eq_false hf)
  freeze _ h := h.freeze

end R1CS

/-- Whatever steps a system has been through, closed it binds its entries. -/
theorem Step.binds_runAll (around : Surroundings) (steps : List Step) (registers : Registers)
    (tag : ℕ) (witnessed : Bool) :
    ((runAll around steps registers).run (.fresh tag witnessed)).2.freeze.Binds := by
  apply R1CS.Binds.freeze
  apply keeps_runAll R1CS.isOpenFrame_binds.toIsFrame around steps registers
    fun _ _ => .inr R1CS.isOpenFrame_binds
  intro hfrozen
  simp [R1CS.fresh] at hfrozen

theorem entryFor_of_notMem {m : ℕ} {wires : List ℕ} (h : m ∉ wires) (zs : List Int) :
    entryFor m wires zs = 0 := by
  induction wires generalizing zs with
  | nil => rfl
  | cons k wires ih =>
    rw [List.mem_cons, not_or] at h
    cases zs with
    | nil => rfl
    | cons z zs => rw [entryFor, if_neg (Ne.symm h.1), ih h.2]

theorem eq_of_map_cast_eq {xs ys : List Int} (hx : ∀ x ∈ xs, 0 ≤ x ∧ x < order)
    (hy : ∀ y ∈ ys, 0 ≤ y ∧ y < order)
    (h : xs.map (Int.cast : Int → Scalar) = ys.map (Int.cast : Int → Scalar)) : xs = ys := by
  induction xs generalizing ys with
  | nil => simpa using h.symm
  | cons x xs ih =>
    cases ys with
    | nil => simp at h
    | cons y ys =>
      rw [List.forall_mem_cons] at hx hy
      rw [List.map_cons, List.map_cons, List.cons.injEq] at h
      have hxy : reduce x = reduce y := cast_eq_cast_iff.mp h.1
      rw [reduce_eq_self hx.1.1 hx.1.2, reduce_eq_self hy.1.1 hy.1.2] at hxy
      rw [hxy, ih hx.2 hy.2 h.2]

namespace Shape
variable (s : Shape)

def publicValue (inputs : List Int) (k : ℕ) : Scalar :=
  entryFor k s.publicWires (1 :: inputs)

def publicSide (alpha beta : Scalar) (inputs : List Int) (l : ℕ) : Scalar :=
  beta * sideTable (placed s.wireCount (s.publicValue inputs)) Gate.left s.gates l +
    alpha * sideTable (placed s.wireCount (s.publicValue inputs)) Gate.right s.gates l +
    sideTable (placed s.wireCount (s.publicValue inputs)) Gate.output s.gates l

variable {s}

theorem WellFormed.publicValue_zero (hs : s.WellFormed) (inputs : List Int) :
    s.publicValue inputs 0 = 1 := by
  obtain ⟨rest, hrest⟩ := hs.entries_eq
  rw [publicValue, publicWires, hrest, List.map_cons, entryFor, if_pos rfl, Int.cast_one]

theorem WellFormed.map_publicValue (hs : s.WellFormed) {inputs : List Int}
    (hlen : (1 :: inputs).length = s.publicWires.length) :
    s.publicWires.map (s.publicValue inputs) =
      (1 :: inputs).map (Int.cast : Int → Scalar) := by
  rw [← map_entryFor hs.nodup_publicWires hlen, List.map_map]
  rfl

theorem WellFormed.exists_publicValue_ne (hs : s.WellFormed) {inputs inputs' : List Int}
    (hlen : (1 :: inputs).length = s.publicWires.length)
    (hlen' : (1 :: inputs').length = s.publicWires.length)
    (hrange : ∀ x ∈ inputs, 0 ≤ x ∧ x < order) (hrange' : ∀ x ∈ inputs', 0 ≤ x ∧ x < order)
    (hne : inputs ≠ inputs') :
    ∃ k ∈ s.publicWires, s.publicValue inputs k ≠ s.publicValue inputs' k := by
  by_contra hall
  push Not at hall
  have hmap := List.map_congr_left hall
  rw [hs.map_publicValue hlen, hs.map_publicValue hlen', List.map_cons, List.map_cons,
    List.cons.injEq] at hmap
  exact hne (eq_of_map_cast_eq hrange hrange' hmap.2)

/-- The public columns taken with the inputs, as the value of one polynomial at the secret
point. -/
theorem WellFormed.cast_inner_publicColumns (hs : s.WellFormed) {m : ℕ} (d : Domain m)
    (t : Trapdoor) (g : Int) {inputs : List Int}
    (hlen : (1 :: inputs).length = s.publicWires.length) :
    (inner (d.columnExponents s t g s.publicWires) (1 :: inputs) : Scalar) =
      g * (d.lagrange (s.publicSide t.alpha t.beta inputs)).eval (t.tau : Scalar) := by
  have hprivate : (s.privateWires.map fun k => s.publicValue inputs k *
      (s.columnValue t (d.weights t.tau) k : Scalar)).sum = 0 := by
    apply List.sum_eq_zero
    intro x hx
    obtain ⟨k, hk, rfl⟩ := List.mem_map.mp hx
    have hnot : k ∉ s.publicWires := by
      rw [mem_publicWires]
      simpa using (List.mem_filter.mp hk).2
    rw [publicValue, entryFor_of_notMem hnot, Int.cast_zero, zero_mul]
  have hone : placed s.wireCount (s.publicValue inputs) 0 = 1 := by
    rw [placed_zero hs.wireCount_pos, hs.publicValue_zero]
  rw [d.cast_inner_columnExponents g (hs.map_publicValue hlen).symm,
    ← add_zero (List.sum _), ← hprivate, hs.sum_wires, sum_columnValue _ s hone, d.eval_lagrange]
  congr 1
  rw [Finset.mul_sum, Finset.mul_sum, ← Finset.sum_add_distrib, ← Finset.sum_add_distrib]
  apply Finset.sum_congr rfl
  intro l _
  rw [publicSide]
  ring

/-- Nothing but its own wire counts at the gate that binds an entry. -/
theorem publicSide_bindingGate {r : R1CS} (alpha beta : Scalar) (inputs : List Int)
    {entry : ℕ × String} (hentry : entry.1 < r.wireCount) {l : ℕ} (hl : l < r.gates.length)
    (hgate : r.gates[l] = r.bindingGate entry) :
    r.shape.publicSide alpha beta inputs l = beta * r.shape.publicValue inputs entry.1 := by
  have hplaced : placed r.wireCount (r.shape.publicValue inputs) (entry.1 : Int) =
      r.shape.publicValue inputs entry.1 := by
    simp [placed, placeAmong, hentry]
  simp only [publicSide, R1CS.shape, sideTable_getElem _ _ _ hl, hgate, R1CS.bindingGate,
    R1CS.wireAt, Linear.value, termsValue, Int.cast_one, Int.cast_zero, one_mul, add_zero,
    mul_zero]
  rw [← R1CS.shape, hplaced]

end Shape

/-- Inputs that differ on a public wire of a closed system have different polynomials: the gate that
binds the wire tells them apart. -/
theorem R1CS.Binds.lagrange_publicSide_ne {s : R1CS} (hbinds : s.Binds) (hfrozen : s.frozen = true)
    (hs : s.WellFormed) {m : ℕ} (d : Domain m) (hle : s.gates.length ≤ 2 ^ m) (alpha : Scalar)
    {beta : Scalar} (hbeta : beta ≠ 0) {inputs inputs' : List Int} {k : ℕ}
    (hk : k ∈ s.shape.publicWires)
    (hne : s.shape.publicValue inputs k ≠ s.shape.publicValue inputs' k) :
    d.lagrange (s.shape.publicSide alpha beta inputs) ≠
      d.lagrange (s.shape.publicSide alpha beta inputs') := by
  obtain ⟨entry, hentry, rfl⟩ := List.mem_map.mp hk
  obtain ⟨l, hl, hgate⟩ := List.getElem_of_mem (hbinds hfrozen entry hentry)
  have hwire := hs.entries_lt entry hentry
  intro heq
  have heval := congrArg (eval ((d.root : Scalar) ^ l)) heq
  rw [d.eval_lagrange_root_pow _ (hl.trans_le hle), d.eval_lagrange_root_pow _ (hl.trans_le hle),
    Shape.publicSide_bindingGate alpha beta inputs hwire hl hgate,
    Shape.publicSide_bindingGate alpha beta inputs' hwire hl hgate] at heval
  exact hne (mul_left_cancel₀ hbeta heval)

/-- The integers in the range of a draw that a polynomial vanishes on. -/
theorem encard_roots_le {P : Scalar[X]} {n : ℕ} (hP : P ≠ 0) (hdegree : P.degree < n) :
    {x : Int | IsDraw x ∧ P.eval (x : Scalar) = 0}.encard ≤ ((n - 1 : ℕ) : ℕ∞) := by
  have hmaps : Set.MapsTo (Int.cast : Int → Scalar)
      {x : Int | IsDraw x ∧ P.eval (x : Scalar) = 0} (P.roots.toFinset : Set Scalar) := by
    intro x hx
    rw [Finset.mem_coe, Multiset.mem_toFinset, mem_roots hP]
    exact hx.2
  have hinj : Set.InjOn (Int.cast : Int → Scalar)
      {x : Int | IsDraw x ∧ P.eval (x : Scalar) = 0} := by
    intro x hx y hy hxy
    have hreduce := cast_eq_cast_iff.mp hxy
    rwa [reduce_eq_self hx.1.1.le hx.1.2, reduce_eq_self hy.1.1.le hy.1.2] at hreduce
  have hcard : P.roots.toFinset.card ≤ n - 1 := by
    have hroots := (Multiset.toFinset_card_le P.roots).trans (card_roots' P)
    have hnat : P.natDegree < n := (natDegree_lt_iff_degree_lt hP).mpr hdegree
    omega
  calc {x : Int | IsDraw x ∧ P.eval (x : Scalar) = 0}.encard
      ≤ (P.roots.toFinset : Set Scalar).encard := Set.encard_le_encard_of_injOn hmaps hinj
    _ = (P.roots.toFinset.card : ℕ∞) := Set.encard_coe_eq_coe_finsetCard _
    _ ≤ ((n - 1 : ℕ) : ℕ∞) := by exact_mod_cast hcard

section Verification
variable {G₁ G₂ Gₜ : Type} [CodedGroup G₁] [CodedGroup G₂] [Mul Gₜ] [DecidableEq Gₜ]
  [Pairing G₁ G₂ Gₜ]

variable (G₁ G₂) in
/-- Whether the key of a shape under given secrets has a proof that passes with both of two vectors
of public inputs. -/
def Shape.IsAmbiguous (s : Shape) (t : Trapdoor) (inputs inputs' : List Int) : Prop :=
  ∃ (key : Key G₁ G₂) (proof : Proof G₁ G₂) (names names' : Option (List Unicode.Codes))
    (values values' : List (Unicode.Codes × Int)),
    Key.derive s t = .ok key ∧
    key.verifyingKey.verify proof inputs names = .ok ⟨true, values⟩ ∧
    key.verifyingKey.verify proof inputs' names' = .ok ⟨true, values'⟩

variable [PrimeOrder G₁] [PrimeOrder G₂] [Generated G₁] [Bilinear G₁ G₂ Gₜ]
  [NonDegenerate G₁ G₂ Gₜ]

/-- A proof that passes with two vectors of inputs has two equal sums of public columns. -/
theorem Domain.cast_inner_eq_of_accepts {m : ℕ} (d : Domain m) {s : Shape} {t : Trapdoor}
    (hgamma : IsDraw t.gamma) {g e : Int} {proof : Proof G₁ G₂} {inputs inputs' : List Int}
    (h : (d.key s t g e : Key G₁ G₂).verifyingKey.accepts proof inputs = true)
    (h' : (d.key s t g e : Key G₁ G₂).verifyingKey.accepts proof inputs' = true) :
    (inner (d.columnExponents s t g s.publicWires) (1 :: inputs) : Scalar) =
      inner (d.columnExponents s t g s.publicWires) (1 :: inputs') := by
  obtain ⟨z, hz⟩ := Generated.exists_eq_multiple proof.c
  have hside : ∀ xs : List Int,
      (d.key s t g e : Key G₁ G₂).verifyingKey.accepts proof xs = true →
      pair proof.a proof.b = pair (multiple (t.alpha * t.beta +
        inner (d.columnExponents s t g s.publicWires) (1 :: xs) * t.gamma + z * t.delta) : G₁)
          (multiple 1 : G₂) := by
    intro xs hxs
    have hsum : (d.key s t g e : Key G₁ G₂).verifyingKey.inputSum xs =
        multiple (inner (d.columnExponents s t g s.publicWires) (1 :: xs)) :=
      VerifyingKey.inputSum_eq rfl xs
    rw [VerifyingKey.accepts, decide_eq_true_iff, hsum, hz] at hxs
    rw [hxs]
    change pair (multiple t.alpha) (multiple t.beta) * pair (multiple _) (multiple t.gamma) *
      pair (multiple z) (multiple t.delta) = _
    rw [pair_mul_pair, pair_multiple z, ← Bilinear.pair_add_left]
  have hcast := cast_eq_of_pair_eq ((hside inputs h).symm.trans (hside inputs' h'))
  push_cast at hcast
  exact mul_right_cancel₀ hgamma.cast_ne_zero (add_left_cancel (add_right_cancel hcast))

/-- What two vectors of inputs differ by in the public columns vanishes at a secret point with a
proof for both. -/
theorem Shape.WellFormed.eval_eq_of_isAmbiguous {s : Shape} (hs : s.WellFormed) {m : ℕ}
    (d : Domain m) (hsize : domainSize s.gates.length = 2 ^ m) {t : Trapdoor} (ht : t.IsDrawn)
    {inputs inputs' : List Int} (h : s.IsAmbiguous G₁ G₂ t inputs inputs') :
    (d.lagrange (s.publicSide t.alpha t.beta inputs)).eval (t.tau : Scalar) =
      (d.lagrange (s.publicSide t.alpha t.beta inputs')).eval (t.tau : Scalar) := by
  obtain ⟨key, proof, names, names', values, values', hkey, hverify, hverify'⟩ := h
  obtain ⟨hcount, -, haccepts⟩ := VerifyingKey.of_verify hverify
  obtain ⟨hcount', -, haccepts'⟩ := VerifyingKey.of_verify hverify'
  have hlen := hs.length_inputs hkey hcount
  have hlen' := hs.length_inputs hkey hcount'
  obtain ⟨g, e, hg, -, hderive⟩ := d.derive_eq G₁ G₂ hsize (Key.of_derive hkey).1 ht
  rw [hkey] at hderive
  obtain rfl := Except.ok.inj hderive
  have hsum := d.cast_inner_eq_of_accepts ht.gamma haccepts haccepts'
  rw [hs.cast_inner_publicColumns d t g hlen, hs.cast_inner_publicColumns d t g hlen', hg] at hsum
  exact mul_left_cancel₀ (inv_ne_zero ht.gamma.cast_ne_zero) hsum

end Verification

namespace Step
variable {G₁ G₂ Gₜ : Type} [CodedGroup G₁] [CodedGroup G₂] [PrimeOrder G₁] [PrimeOrder G₂]
  [Generated G₁] [Mul Gₜ] [DecidableEq Gₜ] [Pairing G₁ G₂ Gₜ] [Bilinear G₁ G₂ Gₜ]
  [NonDegenerate G₁ G₂ Gₜ]

/-- Whatever steps a closed system comes from, and whatever four of the secrets are: there are fewer
secret points under which some proof passes with two different vectors of public inputs than the
domain of the system has points. -/
theorem encard_ambiguous_le (around : Surroundings) (registers : Registers) (steps : List Step)
    (tag : ℕ) (witnessed : Bool) {s : R1CS}
    (hs : ((runAll around steps registers).run (.fresh tag witnessed)).2.freeze = s)
    (hgates : s.gates.length ≤ 2 ^ 31) {size : ℕ}
    (hsize : IsLeast {n | s.gates.length ≤ n ∧ ∃ m, n = 2 ^ m} size)
    {alpha beta gamma delta : Int} (halpha : IsDraw alpha) (hbeta : IsDraw beta)
    (hgamma : IsDraw gamma) (hdelta : IsDraw delta) {inputs inputs' : List Int}
    (hne : inputs ≠ inputs') :
    {tau | IsDraw tau ∧
      s.shape.IsAmbiguous G₁ G₂ ⟨alpha, beta, gamma, delta, tau⟩ inputs inputs'}.encard ≤
        ((size - 1 : ℕ) : ℕ∞) := by
  have hwell := wellFormed_runAll around steps registers tag witnessed
  have hbinds := binds_runAll around steps registers tag witnessed
  have hfrozen := ((runAll around steps registers).run (.fresh tag witnessed)).2.frozen_freeze
  rw [hs] at hwell hbinds hfrozen
  have hone : (0, "ONE") ∈ s.entries := List.mem_of_mem_head? hwell.head_entries
  have hpos : 0 < s.gates.length := List.length_pos_of_mem (hbinds hfrozen _ hone)
  obtain rfl := hsize.unique (isLeast_domainSize hpos)
  obtain ⟨m, hm, hpow, hle⟩ := domainSize_eq hgates
  obtain ⟨d⟩ := exists_domain hm
  rw [hpow]
  by_cases hempty : {tau | IsDraw tau ∧
      s.shape.IsAmbiguous G₁ G₂ ⟨alpha, beta, gamma, delta, tau⟩ inputs inputs'} = ∅
  · rw [hempty, Set.encard_empty]
    exact bot_le
  obtain ⟨tau, -, key, proof, names, names', values, values', hkey, hverify, hverify'⟩ :=
    Set.nonempty_iff_ne_empty.mpr hempty
  obtain ⟨hcount, hrange, -⟩ := VerifyingKey.of_verify hverify
  obtain ⟨hcount', hrange', -⟩ := VerifyingKey.of_verify hverify'
  obtain ⟨k, hk, hvalue⟩ := hwell.shape.exists_publicValue_ne
    (hwell.shape.length_inputs hkey hcount) (hwell.shape.length_inputs hkey hcount') hrange hrange'
    hne
  let f := s.shape.publicSide alpha beta inputs
  let f' := s.shape.publicSide alpha beta inputs'
  have hdiff : d.lagrange f - d.lagrange f' ≠ 0 :=
    sub_ne_zero.mpr (hbinds.lagrange_publicSide_ne hfrozen hwell d hle alpha hbeta.cast_ne_zero hk
      hvalue)
  have hdegree : (d.lagrange f - d.lagrange f').degree < (2 ^ m : ℕ) :=
    (degree_sub_le _ _).trans_lt (max_lt (d.degree_lagrange_lt f) (d.degree_lagrange_lt f'))
  refine (Set.encard_le_encard ?_).trans (encard_roots_le hdiff hdegree)
  rintro tau ⟨htau, hambiguous⟩
  refine ⟨htau, ?_⟩
  rw [eval_sub, sub_eq_zero]
  exact hwell.shape.eval_eq_of_isAmbiguous d hpow ⟨halpha, hbeta, hgamma, hdelta, htau⟩ hambiguous

open Factorization in
/-- Of the keys for two factors only those with one of three secret points may have a proof both for
391 and for 392. -/
theorem encard_ambiguous_le_factorization :
    ∃ s : R1CS,
      ((runAll (.ofWitness (some factors)) steps (start "ONE" (.fresh 0 true))).run
        (.fresh 0 true)).2.freeze = s ∧
      IsLeast {n | s.gates.length ≤ n ∧ ∃ m, n = 2 ^ m} 4 ∧
      {tau | IsDraw tau ∧
        s.shape.IsAmbiguous Exponent Exponent ⟨2, 3, 5, 7, tau⟩ [391] [392]}.encard ≤
          ((4 - 1 : ℕ) : ℕ∞) := by
  have hleast : IsLeast {n | ((runAll (.ofWitness (some factors)) steps
      (start "ONE" (.fresh 0 true))).run (.fresh 0 true)).2.freeze.gates.length ≤ n ∧
        ∃ m, n = 2 ^ m} 4 :=
    isLeast_domainSize (by decide : 0 < 3)
  exact ⟨_, rfl, hleast, encard_ambiguous_le _ _ steps 0 true rfl (by decide) hleast (by decide)
    (by decide) (by decide) (by decide) (by decide)⟩

end Step

end RankOne
