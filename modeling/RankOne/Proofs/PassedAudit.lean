import RankOne.Proofs.Chain

/-!
# What a passed audit shows

Whoever hands in the links of a chain. No audit compares the value of the first one, which only the
gates of a step tie to the base: with its flag at zero, an assignment that satisfies them has no
other value. All later values and all limbs are those of the link before. As the limbs tell proofs
apart, no proof can be replaced that another link goes on from.
-/

set_option autoImplicit false

namespace RankOne

/-- What is accepted as the inputs of a proof is accepted as those of any other one. -/
theorem VerifyingKey.claimOf_replace {G₁ G₂ : Type} {vk : VerifyingKey G₁ G₂}
    {inputs : Datum (Proof G₁ G₂)} {names : Option (List Unicode.Codes)} {p : Proof G₁ G₂}
    {values : List (Unicode.Codes × Int)} (h : vk.claimOf (.proof p) inputs names = .ok (p, values))
    (q : Proof G₁ G₂) : vk.claimOf (.proof q) inputs names = .ok (q, values) := by
  rw [claimOf] at h ⊢
  split at h
  · cases h
  · rename_i items hitems
    split at h
    · cases h
    · rename_i values' hlabel
      split at h
      · cases h
      · rename_i hflags
        obtain ⟨-, rfl⟩ := Prod.mk.inj (Except.ok.inj h)
        simp only [if_neg hflags]

namespace Chain

section Links
variable {G₁ G₂ : Type} {vk : VerifyingKey G₁ G₂} {link : Link (Proof G₁ G₂)}
  {claim claim' : Claim G₁ G₂}

theorem Holds.unique (h : Holds vk link claim) (h' : Holds vk link claim') : claim = claim' := by
  obtain ⟨values, hclaim, hvalues⟩ := h
  obtain ⟨values', hclaim', hvalues'⟩ := h'
  obtain ⟨hproof, rfl⟩ := Prod.mk.inj (Except.ok.inj (hclaim.symm.trans hclaim'))
  exact Prod.ext hproof (hvalues.symm.trans hvalues')

theorem Holds.replace (h : Holds vk link claim) (q : Proof G₁ G₂) :
    Holds vk { link with proof := .proof q } (q, claim.2) := by
  have hproof := h.eq_proof
  obtain ⟨values, hclaim, hvalues⟩ := h
  rw [hproof] at hclaim
  exact ⟨values, VerifyingKey.claimOf_replace hclaim q, hvalues⟩

end Links

section Passed
variable {G₁ G₂ Gₜ σ : Type} [CodedGroup G₁] [CodedGroup G₂] [Mul Gₜ] [DecidableEq Gₜ]
  [Pairing G₁ G₂ Gₜ] {c : Chain G₁ G₂ σ} {claims : List (Claim G₁ G₂)}

theorem Consistent.exists_inputs {previous : Option (Claim G₁ G₂)}
    (h : c.Consistent previous claims) {claim : Claim G₁ G₂} (hclaim : claim ∈ claims) :
    ∃ z flag limbs, claim.2 = z :: flag :: limbs := by
  obtain ⟨i, hi⟩ := List.getElem?_of_mem hclaim
  have hcontinues := h.continues i claim hi
  cases hbefore : before previous claims i with
  | none =>
    rw [hbefore] at hcontinues
    obtain ⟨z, hz⟩ := continues_none_iff.mp hcontinues
    exact ⟨z, _, _, hz⟩
  | some claim' =>
    rw [hbefore] at hcontinues
    obtain ⟨_, _, -, hz⟩ := continues_some_iff.mp hcontinues
    exact ⟨_, _, _, hz⟩

/-- Claims that start with the value after the base, and that an audit lets pass, have the inputs of
an honest chain. The induction is on the position, as a value is compared with the one before it. -/
theorem Consistent.inputs_eq (h : c.Consistent none claims)
    (hfirst : ∀ claim, claims[0]? = some claim →
      claim.2.head? = some (c.step.advance c.step.base)) (i : ℕ) {claim : Claim G₁ G₂}
    (hi : claims[i]? = some claim) : claim.2 = c.step.inputsAt i (proofAt claims i) := by
  induction i generalizing claim with
  | zero =>
    obtain ⟨z, hz⟩ := continues_none_iff.mp (h.continues 0 claim hi)
    have hhead := hfirst claim hi
    rw [hz] at hhead
    rw [hz, Option.some.inj hhead]
    rfl
  | succ i ih =>
    obtain ⟨⟨q, inputs⟩, hq⟩ := exists_getElem?_of_succ hi
    have hcontinues := h.continues (i + 1) claim hi
    rw [before, hq] at hcontinues
    obtain ⟨z, rest, hbefore, hclaim⟩ := continues_some_iff.mp hcontinues
    have hz : z = c.step.advance^[i + 1] c.step.base :=
      (List.cons.inj (hbefore.symm.trans (ih hq))).1
    rw [hclaim, hz, proofAt_succ hq, inputsAt_succ]

theorem Consistent.first_eq (h : c.Consistent none claims) {t : Transition} (ht : t.IsSound)
    {vk : Option (VerifyingKey G₁ G₂)} {mode : Mode}
    (hstep : c.step = Cyclic.stepCircuit t vk mode) {s : R1CS}
    (hs : c.step.circuit.synthesize none = .ok s)
    (hadmits : ∀ claim ∈ claims, s.Admits claim.2) {claim : Claim G₁ G₂}
    (hclaim : claims[0]? = some claim) :
    claim.2.head? = some (c.step.advance c.step.base) := by
  obtain ⟨z, hz⟩ := continues_none_iff.mp (h.continues 0 claim hclaim)
  rw [hstep] at hs ⊢
  obtain ⟨z', flag, limbs, heq, -, hbase⟩ :=
    Cyclic.of_admits ht hs (hadmits claim (List.mem_of_getElem? hclaim))
  obtain ⟨rfl, hrest⟩ := List.cons.inj (hz.symm.trans heq)
  obtain ⟨rfl, -⟩ := List.cons.inj hrest
  rw [hz, hbase rfl]
  rfl

theorem Holds.verifyData_eq {vk : VerifyingKey G₁ G₂} {link : Link (Proof G₁ G₂)}
    {claim : Claim G₁ G₂} (h : Holds vk link claim) (haccepts : vk.accepts claim.1 claim.2 = true) :
    ∃ values, vk.verifyData link.proof link.inputs none = .ok ⟨true, values⟩ ∧
      values.map Prod.snd = claim.2 := by
  obtain ⟨values, hclaim, hvalues⟩ := h
  refine ⟨values, ?_, hvalues⟩
  rw [VerifyingKey.verifyData, hclaim]
  simp only [hvalues, haccepts]

/-- With another proof at a position, everything else as it is, an audit still has an answer. -/
theorem Consistent.exists_auditFrom_set (h : c.Consistent none claims)
    {links : List (Link (Proof G₁ G₂))} (hholds : List.Forall₂ (Holds c.vk) links claims) {i : ℕ}
    {link : Link (Proof G₁ G₂)} (hlink : links[i]? = some link) (q : Proof G₁ G₂) :
    ∃ b, c.auditFrom none (links.set i { link with proof := .proof q }) = .ok b := by
  apply exists_auditFrom_eq _ (by simp)
  intro x hx
  rcases List.mem_or_eq_of_mem_set hx with hx | rfl
  · obtain ⟨j, hj⟩ := List.getElem?_of_mem hx
    obtain ⟨⟨p, inputs⟩, hget, hheld⟩ := exists_of_forall₂ hholds hj
    obtain ⟨z, flag, limbs, rfl⟩ := h.exists_inputs (List.mem_of_getElem? hget)
    exact ⟨p, z, flag, limbs, hheld⟩
  · obtain ⟨claim, hget, hheld⟩ := exists_of_forall₂ hholds hlink
    obtain ⟨z, flag, limbs, hinputs⟩ := h.exists_inputs (List.mem_of_getElem? hget)
    exact ⟨q, z, flag, limbs, hinputs ▸ hheld.replace q⟩

/-- Two lists of claims that an audit lets pass agree in the proof at a position, if they agree in
the inputs after it. -/
theorem Consistent.proof_eq [LawfulCoding G₁] [LawfulCoding G₂] {claims' : List (Claim G₁ G₂)}
    (h : c.Consistent none claims) (h' : c.Consistent none claims') {i : ℕ}
    {claim claim' next next' : Claim G₁ G₂} (hi : claims[i]? = some claim)
    (hi' : claims'[i]? = some claim') (hnext : claims[i + 1]? = some next)
    (hnext' : claims'[i + 1]? = some next') (hinputs : next.2 = next'.2) : claim.1 = claim'.1 := by
  have hcontinues := h.continues (i + 1) next hnext
  have hcontinues' := h'.continues (i + 1) next' hnext'
  rw [before, hi] at hcontinues
  rw [before, hi'] at hcontinues'
  obtain ⟨z, rest, -, heq⟩ := continues_some_iff.mp hcontinues
  obtain ⟨z', rest', -, heq'⟩ := continues_some_iff.mp hcontinues'
  rw [hinputs, heq'] at heq
  simp only [List.cons.injEq, true_and] at heq
  exact (Proof.limbs_injective heq.2).symm

/-- The audit is not a pass, because the next link has the limbs of the proof that was there. -/
theorem Consistent.auditFrom_set_eq [LawfulCoding G₁] [LawfulCoding G₂]
    (h : c.Consistent none claims) {links : List (Link (Proof G₁ G₂))}
    (hholds : List.Forall₂ (Holds c.vk) links claims) {i : ℕ} {link : Link (Proof G₁ G₂)}
    {p q : Proof G₁ G₂} (hlink : links[i]? = some link)
    (hp : link.proof = .proof p) (hq : q ≠ p) (hlt : i + 1 < links.length) :
    c.auditFrom none (links.set i { link with proof := .proof q }) = .ok false := by
  obtain ⟨b, hb⟩ := h.exists_auditFrom_set hholds hlink q
  cases b with
  | false => exact hb
  | true =>
    obtain ⟨claims', hholds', h'⟩ := auditFrom_eq_true_iff.mp hb
    have hset : (links.set i { link with proof := .proof q })[i]? =
        some { link with proof := .proof q } :=
      List.getElem?_set_self (Nat.lt_of_succ_lt hlt)
    have hnext : (links.set i { link with proof := .proof q })[i + 1]? = some links[i + 1] := by
      rw [List.getElem?_set_ne (Nat.ne_of_lt (Nat.lt_succ_self i)), List.getElem?_eq_getElem hlt]
    obtain ⟨claim, hclaim, hheld⟩ := exists_of_forall₂ hholds hlink
    obtain ⟨next, hget, hnextHeld⟩ := exists_of_forall₂ hholds (List.getElem?_eq_getElem hlt)
    obtain ⟨claim', hclaim', hheld'⟩ := exists_of_forall₂ hholds' hset
    obtain ⟨next', hget', hnextHeld'⟩ := exists_of_forall₂ hholds' hnext
    have hsame : claim.1 = claim'.1 :=
      h.proof_eq h' hclaim hclaim' hget hget' (congrArg Prod.snd (hnextHeld.unique hnextHeld'))
    have hold : claim.1 = p := Datum.proof.inj (hheld.eq_proof.symm.trans hp)
    have hnew : claim'.1 = q := Datum.proof.inj hheld'.eq_proof.symm
    exact absurd (hnew.symm.trans (hsame.symm.trans hold)) hq

/-- Whatever links a chain has that passes its audit. If there is an assignment behind each of their
proofs, then every link has the inputs that an honest one has at its position, those with the value
so many steps after the base. No proof but the last one can be replaced by another one: the audit
does not pass any more. -/
theorem inputs_of_audit [LawfulCoding G₁] [LawfulCoding G₂] {t : Transition} (ht : t.IsSound)
    {vk : Option (VerifyingKey G₁ G₂)} {mode : Mode}
    (hstep : c.step = Cyclic.stepCircuit t vk mode) {s : R1CS}
    (hs : c.step.circuit.synthesize none = .ok s) (haudit : c.audit = .ok true) :
    ((∀ link ∈ c.links, ∀ values,
        c.vk.verifyData link.proof link.inputs none = .ok ⟨true, values⟩ →
          s.Admits (values.map Prod.snd)) →
      ∀ i link, c.links[i]? = some link →
        ∃ p, proofBefore c.links i = some p ∧
          link.inputs.items? = some ((c.step.inputsAt i p).map .number)) ∧
    ∀ i link p q, c.links[i]? = some link → link.proof = .proof p → q ≠ p →
      i + 1 < c.links.length →
      ({ c with links := c.links.set i { link with proof := .proof q } } : Chain G₁ G₂ σ).audit =
        .ok false := by
  obtain ⟨claims, hholds, hconsistent⟩ := auditFrom_eq_true_iff.mp haudit
  constructor
  · intro hsound i link hi
    have hadmits : ∀ claim ∈ claims, s.Admits claim.2 := by
      intro claim hclaim
      obtain ⟨j, hj⟩ := List.getElem?_of_mem hclaim
      obtain ⟨link', hlink', hheld⟩ : ∃ link', c.links[j]? = some link' ∧ Holds c.vk link' claim :=
        exists_of_forall₂ hholds.flip hj
      obtain ⟨values, hverify, hvalues⟩ := hheld.verifyData_eq (hconsistent.accepts claim hclaim)
      exact hvalues ▸ hsound link' (List.mem_of_getElem? hlink') values hverify
    obtain ⟨claim, hclaim, hheld⟩ := exists_of_forall₂ hholds hi
    have hproofs := hholds.imp fun _ _ hheld => hheld.eq_proof
    have hfirst : ∀ claim, claims[0]? = some claim →
        claim.2.head? = some (c.step.advance c.step.base) :=
      fun claim hclaim => hconsistent.first_eq ht hstep hs hadmits hclaim
    refine ⟨proofAt claims i, proofBefore_eq hproofs hclaim, ?_⟩
    rw [hheld.items_eq, hconsistent.inputs_eq hfirst i hclaim]
  · intro i link p q hi hp hq hlt
    -- what is consistent does not depend on the links that a chain has
    have hconsistent' : ({ c with links := c.links.set i { link with proof := .proof q } } :
        Chain G₁ G₂ σ).Consistent none claims :=
      ⟨hconsistent.accepts, hconsistent.continues⟩
    exact hconsistent'.auditFrom_set_eq hholds hi hp hq hlt

end Passed

section Honest
variable {G₁ G₂ Gₜ σ : Type} [CodedGroup G₁] [CodedGroup G₂] [RandomSource σ] [Mul Gₜ]
  [DecidableEq Gₜ] [Pairing G₁ G₂ Gₜ] [LawfulCoding G₁] [LawfulCoding G₂] {t : Transition}
  {mode : Mode} {key : Key G₁ G₂} {c : Chain G₁ G₂ σ} {claims : List (Claim G₁ G₂)}

theorem IsHonest.exists_handed (h : c.IsHonest t mode key claims) (ht : t.IsFaithful)
    (hkey : Cyclic.IsKey t mode key) {i : ℕ} {claim : Claim G₁ G₂} (hi : claims[i]? = some claim) :
    ∃ z flag inputs carried,
      Cyclic.IsHonest t (some key.verifyingKey) mode z flag (proofAt claims i) inputs carried ∧
      claim.2 = z :: flag :: (proofAt claims i).limbs := by
  have hinputs := h.inputs_eq i claim hi
  cases i with
  | zero =>
    rw [h.step_eq] at hinputs
    exact ⟨_, _, _, _, hkey.isHonest_base ht, hinputs⟩
  | succ i =>
    obtain ⟨⟨q, inputs⟩, hq⟩ := exists_getElem?_of_succ hi
    have hbefore := h.inputs_eq i _ hq
    obtain ⟨z, rest, rfl⟩ : ∃ z rest, inputs = z :: rest := ⟨_, _, hbefore⟩
    have hproof : proofAt claims (i + 1) = q := proofAt_succ hq
    have hmem := List.mem_of_getElem? hq
    have hhonest : Cyclic.IsHonest t (some key.verifyingKey) mode (t.advance z) 1 q (z :: rest) z :=
      Cyclic.isHonest_next (h.length_inputs hmem) (h.fits ht hkey hmem) (h.accepts _ hmem)
    refine ⟨_, _, _, _, hproof.symm ▸ hhonest, ?_⟩
    rw [hinputs, inputsAt_succ, ← (List.cons.inj hbefore).1, h.step_eq]
    rfl

/-- There is an assignment behind every claim of an honest chain. -/
theorem IsHonest.admits (h : c.IsHonest t mode key claims) (ht : t.IsFaithful)
    (hkey : Cyclic.IsKey t mode key) {s : R1CS} (hs : c.step.circuit.synthesize none = .ok s)
    {claim : Claim G₁ G₂} (hclaim : claim ∈ claims) : s.Admits claim.2 := by
  obtain ⟨i, hi⟩ := List.getElem?_of_mem hclaim
  obtain ⟨z, flag, inputs, carried, hhonest, heq⟩ := h.exists_handed ht hkey hi
  obtain ⟨draft, secrets, hdraft, -⟩ := hkey.exists_draft
  obtain ⟨u, -, hu, hw, hshape, hcheck, hinputs⟩ := hhonest.exists_system ht hdraft
  rw [h.step_eq] at hs
  have hsame : s.shape = draft.shape := Cyclic.shape_eq_of_draft ht.completes hdraft hs
  rw [heq]
  exact R1CS.admits_of_shape_eq hu hw (hshape.trans hsame.symm) hinputs hcheck

end Honest

/-- Two honest links, of which the first gets another proof. -/
theorem inputs_of_audit_counter :
    ∃ c : Chain Exponent Exponent Script,
      c.links.length = 2 ∧ c.audit = .ok true ∧
      (∀ i link, c.links[i]? = some link →
        ∃ p, proofBefore c.links i = some p ∧
          link.inputs.items? = some ((c.step.inputsAt i p).map .number)) ∧
      ∀ link p q, c.links[0]? = some link → link.proof = .proof p → q ≠ p →
        ({ c with links := c.links.set 0 { link with proof := .proof q } } :
          Chain Exponent Exponent Script).audit = .ok false := by
  obtain ⟨key, hrun, hgates⟩ := Cyclic.exists_key_counter
  have hsecrets : ∀ x ∈ RandomSource.draws 5 (⟨[2, 3, 5, 7, 1]⟩ : Script), IsDraw x := by decide
  obtain ⟨hstep, hkey⟩ := Cyclic.isKey_of_fixedPoint hsecrets hrun
  have hsource : RandomSource.IsFair (⟨[11, 13]⟩ : Script) := by
    apply RandomSource.isFair_script
    decide
  have ht := Transition.counter_isFaithful
  have hnew := isHonest_new _ hstep hsource
  obtain ⟨_, c₁, _, -, hphase, h₁⟩ := hnew.exists_start ht hkey hgates rfl
  obtain ⟨_, c, _, -, h⟩ := h₁.exists_advance ht hkey hgates hphase
  obtain ⟨s, hs⟩ : ∃ s, c.step.circuit.synthesize none = .ok s := by
    rw [h.step_eq]
    exact ⟨_, rfl⟩
  have hlength : c.links.length = 2 := by
    rw [h.links_eq, List.length_map]
    rfl
  have haudit := h.audit_eq ht hkey
  obtain ⟨hinputs, hreplace⟩ :=
    inputs_of_audit Transition.counter_isSound h.step_eq hs haudit
  refine ⟨c, hlength, haudit, hinputs ?_, fun link p q hlink hp hq => ?_⟩
  · intro link hlink values hverify
    obtain ⟨i, hi⟩ := List.getElem?_of_mem hlink
    obtain ⟨claim, hclaim, rfl⟩ := h.getElem?_links hi
    have hmem := List.mem_of_getElem? hclaim
    have hfits := (h.fits ht hkey hmem).verifyData_eq claim.1 none (by simp)
    rw [h.vk_eq, hfits] at hverify
    obtain ⟨-, rfl⟩ := Verdict.mk.inj (Except.ok.inj hverify)
    rw [List.map_snd_zip (VerifyingKey.length_getD_names (by simp)).ge]
    exact h.admits ht hkey hs hmem
  · exact hreplace 0 link p q hlink hp hq (by omega)

end Chain

end RankOne
