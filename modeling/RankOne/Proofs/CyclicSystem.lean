import RankOne.Proofs.Cyclic
import RankOne.Proofs.Soundness

/-!
# The system of a step

The wires of a step are always the same, with whatever data they are made, and so is everything that
is built on them: the shape of a cyclic circuit depends neither on the key that it is given nor on
the data. A step that is handed what it should be satisfies all its gates.
-/

set_option autoImplicit false

namespace RankOne

/-- A system is what the body of the circuit leaves behind, closed. -/
theorem Circuit.synthesize_eq_ok_iff {P : Type} {c : Circuit P} {w : Option (Witness P)}
    {s : R1CS} :
    c.synthesize w = .ok s ↔
      ∃ u, (c.body w).run (.fresh 0 w.isSome) = (.ok (), u) ∧ s = u.freeze := by
  rw [synthesize, build]
  constructor
  · intro h
    cases hrun : (c.body w).run (.fresh 0 w.isSome) with
    | mk r u =>
      rw [hrun] at h
      cases r with
      | error e => cases h
      | ok _ => exact ⟨u, rfl, (Except.ok.inj h).symm⟩
  · rintro ⟨u, hrun, rfl⟩
    rw [hrun]

namespace R1CS
variable {s : R1CS}

theorem entries_freeze (s : R1CS) : s.freeze.entries = s.entries := by
  rw [freeze]
  split <;> rfl

theorem map_wireNumber {us rest : List (Option Int)} {vs : List Int}
    (h : s.values = us ++ (vs.map some ++ rest)) :
    (List.range' us.length vs.length).map s.wireNumber = vs := by
  apply List.ext_getElem (by simp)
  intro i _ hi
  have hleft : (vs.map some ++ rest)[i]? = some (some vs[i]) := by
    rw [List.getElem?_append_left (by rwa [List.length_map]), List.getElem?_map,
      List.getElem?_eq_getElem hi]
    rfl
  simp [wireNumber, h, List.getElem?_append_right, hleft]

end R1CS

namespace Cyclic
open Build

structure Wires where
  z : Linear
  flag : Linear
  inner : Linear
  carried : Linear

section
variable {G₁ G₂ : Type} [CodedGroup G₁] [CodedGroup G₂]

def allocate (w : Option (Witness (Proof G₁ G₂))) : Build Wires := do
  let z ← parameter true "z" w
  let flag ← parameter true "flag" w
  let _ ← allocProof true "proof" (Witness.get w "proof")
  let inner ← allocInputs false "inner" (stepInputCount G₁ G₂) (Witness.get w "inputs")
  let carried ← parameter false "z_in" w
  return ⟨z, flag, inner.headD (.constant 0), carried⟩

theorem keeps_allocate {R : R1CS → R1CS → Prop} (hR : R1CS.IsOpenFrame R)
    (w : Option (Witness (Proof G₁ G₂))) : (allocate w).Keeps R :=
  keeps_bind hR.toIsFrame (keeps_supplied hR _ _ _) fun _ =>
    keeps_bind hR.toIsFrame (keeps_supplied hR _ _ _) fun _ =>
      keeps_bind hR.toIsFrame (keeps_allocProof hR _ _ _) fun _ =>
        keeps_bind hR.toIsFrame (keeps_allocInputs hR _ _ _ _) fun _ =>
          keeps_bind hR.toIsFrame (keeps_supplied hR _ _ _) fun _ => keeps_pure hR.toIsFrame _

variable (G₁ G₂) in
def wires : Wires :=
  let s := R1CS.fresh 0 false
  ⟨s.wireAt 1, s.wireAt 2, s.wireAt (3 + limbCount G₁ G₂),
    s.wireAt (3 + limbCount G₁ G₂ + stepInputCount G₁ G₂)⟩

structure Supply (w : Option (Witness (Proof G₁ G₂))) where
  limbs : List (Datum (Proof G₁ G₂))
  inputs : List (Datum (Proof G₁ G₂))
  limbs_eq : limbData (Witness.get w "proof") = .ok limbs
  inputs_eq : inputData (stepInputCount G₁ G₂) (Witness.get w "inputs") = .ok inputs
  length_limbs : limbs.length = limbCount G₁ G₂
  length_inputs : inputs.length = stepInputCount G₁ G₂
  serves : ∀ d ∈ Witness.get w "z" :: Witness.get w "flag" ::
    (limbs ++ inputs ++ [Witness.get w "z_in"]), d.Serves w.isSome

namespace Supply
variable {w : Option (Witness (Proof G₁ G₂))} (d : Supply w)

def data : List (Datum (Proof G₁ G₂)) :=
  Witness.get w "z" :: Witness.get w "flag" :: (d.limbs ++ d.inputs ++ [Witness.get w "z_in"])

def system : R1CS :=
  (R1CS.fresh 0 w.isSome).pushList (d.data.map (Datum.held w.isSome))
    ((1, "z") :: (2, "flag") :: R1CS.namedEntries "proof" 3 0 (limbCount G₁ G₂))

theorem wireCount_system :
    d.system.wireCount = 4 + limbCount G₁ G₂ + stepInputCount G₁ G₂ := by
  simp only [system, R1CS.pushList, R1CS.fresh, data, List.length_map, List.length_cons,
    List.length_append, List.length_nil, d.length_limbs, d.length_inputs]
  omega

theorem run_allocate :
    (allocate w).run (.fresh 0 w.isSome) = (.ok (wires G₁ G₂), d.system) := by
  obtain ⟨hz, hflag, hlists⟩ : _ ∧ _ ∧ _ := by simpa only [List.forall_mem_cons] using d.serves
  simp only [List.forall_mem_append, List.forall_mem_singleton] at hlists
  obtain ⟨⟨hlimbs, hinputs⟩, hcarried⟩ := hlists
  let s₀ := R1CS.fresh 0 w.isSome
  let s₁ := s₀.push ((Witness.get w "z").held w.isSome) (some "z")
  let s₂ := s₁.push ((Witness.get w "flag").held w.isSome) (some "flag")
  let s₃ := s₂.pushList (d.limbs.map (Datum.held w.isSome))
    (R1CS.namedEntries "proof" 3 0 d.limbs.length)
  let s₄ := s₃.pushList (d.inputs.map (Datum.held w.isSome)) []
  have hrun₁ : (parameter true "z" w).run s₀ = (.ok (s₀.wireAt 1), s₁) :=
    run_supplied rfl true "z" hz
  have hrun₂ : (parameter true "flag" w).run s₁ = (.ok (s₀.wireAt 2), s₂) :=
    run_supplied (s := s₁) rfl true "flag" hflag
  have hrun₃ : (allocProof true "proof" (Witness.get w "proof")).run s₂ =
      (.ok ((List.range' 3 d.limbs.length).map s₀.wireAt), s₃) := by
    rw [allocProof, d.limbs_eq]
    exact run_suppliedList (s := s₂) rfl true "proof" 0 hlimbs
  have hrun₄ : (allocInputs false "inner" (stepInputCount G₁ G₂) (Witness.get w "inputs")).run s₃ =
      (.ok ((List.range' s₃.wireCount d.inputs.length).map s₀.wireAt), s₄) := by
    rw [allocInputs, d.inputs_eq]
    exact run_suppliedList (s := s₃) rfl false "inner" 0 hinputs
  have hrun₅ : (parameter false "z_in" w).run s₄ = (.ok (s₀.wireAt s₄.wireCount),
      s₄.push ((Witness.get w "z_in").held w.isSome) none) :=
    run_supplied (s := s₄) rfl false "z_in" hcarried
  have hcount₃ : s₃.wireCount = 3 + limbCount G₁ G₂ := by
    change 3 + (d.limbs.map _).length = _
    rw [List.length_map, d.length_limbs]
  have hcount₄ : s₄.wireCount = 3 + limbCount G₁ G₂ + stepInputCount G₁ G₂ := by
    change s₃.wireCount + (d.inputs.map _).length = _
    rw [hcount₃, List.length_map, d.length_inputs]
  have hinner : ((List.range' s₃.wireCount d.inputs.length).map s₀.wireAt).headD (.constant 0) =
      s₀.wireAt (3 + limbCount G₁ G₂) := by
    rw [d.length_inputs, hcount₃, stepInputCount, Nat.add_comm 2, List.range'_succ]
    rfl
  have hend : s₄.push ((Witness.get w "z_in").held w.isSome) none = d.system := by
    simp only [s₄, s₃, s₂, s₁, s₀, R1CS.push_eq_pushList, R1CS.pushList_pushList, system, data,
      List.map_cons, List.map_append, List.map_nil, d.length_limbs]
    simp
    rfl
  change (allocate w).run s₀ = _
  simp only [allocate, run_bind, hrun₁, hrun₂, hrun₃, hrun₄, hrun₅, run_pure, hinner, hend, hcount₄]
  rfl

theorem wellFormed_system : d.system.WellFormed := by
  have hgrows := keeps_allocate (R := R1CS.Grows) R1CS.isOpenFrame_grows w (.fresh 0 w.isSome)
  rw [d.run_allocate] at hgrows
  exact hgrows.wellFormed (R1CS.wellFormed_fresh 0 w.isSome)

theorem within_wires : (wires G₁ G₂).z.Within d.system ∧ (wires G₁ G₂).flag.Within d.system ∧
    (wires G₁ G₂).inner.Within d.system ∧ (wires G₁ G₂).carried.Within d.system := by
  have hwire : ∀ m < 4 + limbCount G₁ G₂ + stepInputCount G₁ G₂,
      ((R1CS.fresh 0 false).wireAt m).Within d.system := by
    intro m hm
    exact Linear.within_wireAt (s := d.system) (by rwa [d.wireCount_system])
  have hpos : 0 < stepInputCount G₁ G₂ := by simp [stepInputCount]
  exact ⟨hwire _ (by omega), hwire _ (by omega), hwire _ (by omega), hwire _ (by omega)⟩

theorem twins_system {w' : Option (Witness (Proof G₁ G₂))} (d' : Supply w') :
    d.system.Twins d'.system where
  wireCount := by rw [d.wireCount_system, d'.wireCount_system]
  entries := rfl
  gates := rfl
  frozen := rfl
  relationCount := rfl
  left := d.wellFormed_system
  right := d'.wellFormed_system

end Supply

def Supply.absent : Supply (none : Option (Witness (Proof G₁ G₂))) where
  limbs := List.replicate (limbCount G₁ G₂) .absent
  inputs := List.replicate (stepInputCount G₁ G₂) .absent
  limbs_eq := rfl
  inputs_eq := by
    change Except.ok (List.replicate ((stepInputCount G₁ G₂ : Int).toNat) _) = _
    rw [Int.toNat_natCast]
  length_limbs := List.length_replicate
  length_inputs := List.length_replicate
  serves _ _ h := absurd h Bool.false_ne_true

def witness (z flag : Int) (p : Proof G₁ G₂) (inputs : List Int) (carried : Int) :
    Witness (Proof G₁ G₂) :=
  [("z", .number z), ("flag", .number flag), ("proof", .proof p),
    ("inputs", .list (inputs.map .number)), ("z_in", .number carried)]

def Supply.ofWitness [LawfulCoding G₁] [LawfulCoding G₂] (z flag : Int) (p : Proof G₁ G₂)
    {inputs : List Int} (carried : Int) (h : inputs.length = stepInputCount G₁ G₂) :
    Supply (some (witness z flag p inputs carried)) where
  limbs := p.limbs.map .number
  inputs := inputs.map .number
  limbs_eq := rfl
  inputs_eq := by
    change (if ((inputs.map Datum.number).length : Int) ≠ _ then _ else _) = _
    rw [List.length_map, h, if_neg (fun hne => hne rfl)]
  length_limbs := by rw [List.length_map, p.length_limbs]
  length_inputs := by rw [List.length_map, h]
  serves := by
    have hnumber : ∀ v : Int, (Datum.number v : Datum (Proof G₁ G₂)).Serves true :=
      fun v _ => ⟨v, rfl⟩
    intro d hd
    simp only [List.mem_cons, List.mem_append, List.mem_map] at hd
    rcases hd with rfl | rfl | (⟨v, -, rfl⟩ | ⟨v, -, rfl⟩) | rfl | hnil
    · exact hnumber z
    · exact hnumber flag
    · exact hnumber v
    · exact hnumber v
    · exact hnumber carried
    · cases hnil

theorem exists_supply [LawfulCoding G₁] [LawfulCoding G₂] {w : Option (Witness (Proof G₁ G₂))}
    {x : Wires} {s : R1CS} (h : (allocate w).run (.fresh 0 w.isSome) = (.ok x, s)) :
    Nonempty (Supply w) := by
  obtain ⟨z, s₁, hz, h⟩ := of_run_bind h
  obtain ⟨flag, s₂, hflag, h⟩ := of_run_bind h
  obtain ⟨limbs, s₃, hproof, h⟩ := of_run_bind h
  obtain ⟨inner, s₄, hinputs, h⟩ := of_run_bind h
  obtain ⟨carried, s₅, hcarried, -⟩ := of_run_bind h
  have hframe := R1CS.isOpenFrame_grows
  have hw₁ : s₁.witnessed = w.isSome :=
    ((keeps_supplied hframe _ _ _).of_run hz).extends_.witnessed
  have hw₂ := ((keeps_supplied hframe _ _ _).of_run hflag).extends_.witnessed.trans hw₁
  have hw₃ := ((keeps_allocProof hframe _ _ _).of_run hproof).extends_.witnessed.trans hw₂
  have hw₄ := ((keeps_allocInputs hframe _ _ _ _).of_run hinputs).extends_.witnessed.trans hw₃
  obtain ⟨limbs, hlimbs, hservesLimbs⟩ := of_run_allocProof hproof
  obtain ⟨inputs, hdata, hservesInputs⟩ := of_run_allocInputs hinputs
  rw [hw₂] at hservesLimbs
  rw [hw₃] at hservesInputs
  exact ⟨{
    limbs := limbs
    inputs := inputs
    limbs_eq := hlimbs
    inputs_eq := hdata
    length_limbs := length_limbData hlimbs
    length_inputs := by rw [length_inputData hdata, Int.toNat_natCast]
    serves := by
      have hservesZ := serves_of_run_supplied hz
      have hservesFlag := hw₁ ▸ serves_of_run_supplied hflag
      have hservesCarried := hw₄ ▸ serves_of_run_supplied hcarried
      rw [List.forall_mem_cons, List.forall_mem_cons, List.forall_mem_append,
        List.forall_mem_append, List.forall_mem_singleton]
      exact ⟨hservesZ, hservesFlag, ⟨hservesLimbs, hservesInputs⟩, hservesCarried⟩ }⟩

end

section Body
variable {G₁ G₂ Gₜ : Type} [CodedGroup G₁] [CodedGroup G₂] [Mul Gₜ] [DecidableEq Gₜ]
  [Pairing G₁ G₂ Gₜ] {t : Transition} {vk vk' : Option (VerifyingKey G₁ G₂)} {mode : Mode}
  {w w' : Option (Witness (Proof G₁ G₂))} {u : R1CS}

def Checks (vk : Option (VerifyingKey G₁ G₂)) (mode : Mode)
    (w : Option (Witness (Proof G₁ G₂))) : Prop :=
  mode = .checked → w.isSome = true →
    ∃ b, VerifyingKey.check vk (Witness.get w "proof") (Witness.get w "inputs") = .ok b

variable (vk mode) in
theorem checks_none : Checks vk mode (none : Option (Witness (Proof G₁ G₂))) :=
  fun _ h => absurd h Bool.false_ne_true

theorem body_eq :
    body t vk mode w = (do
      let x ← allocate w
      constrainCarried t.base x.flag x.inner x.carried
      constrainMode vk mode x.flag (Witness.get w "proof") (Witness.get w "inputs")
      constrainNext t x.z x.carried) := by
  cases mode <;>
    simp only [body, allocate, constrainCarried, constrainMode, constrainNext, bind_assoc,
      pure_bind]

theorem exists_stages (p : t.Program) (d : Supply w)
    (h : (body t vk mode w).run (.fresh 0 w.isSome) = (.ok (), u)) :
    ∃ s₁ s₂,
      (constrainCarried t.base (wires G₁ G₂).flag (wires G₁ G₂).inner (wires G₁ G₂).carried).run
        d.system = (.ok (), s₁) ∧
      (constrainMode vk mode (wires G₁ G₂).flag (Witness.get w "proof")
        (Witness.get w "inputs")).run s₁ = (.ok (), s₂) ∧
      (constrainNext t (wires G₁ G₂).z (wires G₁ G₂).carried).run s₂ = (.ok (), u) ∧
      d.system.Retains s₁ ∧ s₁.Retains s₂ ∧ s₂.Retains u := by
  rw [body_eq, run_bind, d.run_allocate] at h
  obtain ⟨_, s₁, hcarried, h⟩ := of_run_bind h
  obtain ⟨_, s₂, hmode, hnext⟩ := of_run_bind h
  have hretains₁ := (keeps_constrainCarried R1CS.isFrame_retains).of_run hcarried
  have hretains₂ := (keeps_constrainMode R1CS.isFrame_retains).of_run hmode
  have hretains := R1CS.isFrame_retains.trans hretains₁ hretains₂
  refine ⟨s₁, s₂, hcarried, hmode, hnext, hretains₁, hretains₂, ?_⟩
  have hs₂ := hretains.grows.wellFormed d.wellFormed_system
  have hwire : (wires G₁ G₂).carried =
      s₂.wireAt (3 + limbCount G₁ G₂ + stepInputCount G₁ G₂) :=
    R1CS.wireAt_eq hretains.grows.extends_.tag.symm _
  have hlt : 3 + limbCount G₁ G₂ + stepInputCount G₁ G₂ < s₂.wireCount := by
    have hcount := d.wireCount_system ▸ hretains.grows.extends_.wireCount
    omega
  obtain ⟨y, s₃, hrun, hconnect⟩ := of_run_bind hnext
  rw [hwire] at hrun
  have hkeeps := p.keeps R1CS.isFrame_retains hs₂ hretains.frozen (by omega) hlt
  rw [hrun] at hkeeps
  exact R1CS.isFrame_retains.trans hkeeps
    ((keeps_connect R1CS.isFrame_retains _ _ _).of_run hconnect)

theorem grows_of_synthesize (p : t.Program) (d : Supply w) {s : R1CS}
    (hs : (stepCircuit t vk mode).circuit.synthesize w = .ok s) : d.system.Grows s := by
  obtain ⟨u, hrun, rfl⟩ := Circuit.synthesize_eq_ok_iff.mp hs
  obtain ⟨s₁, s₂, -, -, -, hretains₁, hretains₂, hretains₃⟩ := exists_stages p d hrun
  exact (hretains₁.grows.trans (hretains₂.grows.trans hretains₃.grows)).trans (R1CS.grows_freeze u)

theorem entries_eq (p : t.Program) (d : Supply w) {s : R1CS}
    (hs : (stepCircuit t vk mode).circuit.synthesize w = .ok s) :
    s.entries = (0, "ONE") :: (1, "z") :: (2, "flag") ::
      R1CS.namedEntries "proof" 3 0 (limbCount G₁ G₂) := by
  obtain ⟨u, hrun, rfl⟩ := Circuit.synthesize_eq_ok_iff.mp hs
  obtain ⟨s₁, s₂, -, -, -, hretains₁, hretains₂, hretains₃⟩ := exists_stages p d hrun
  rw [u.entries_freeze, hretains₃.entries, hretains₂.entries, hretains₁.entries]
  rfl

theorem length_entries (p : t.Program) (d : Supply w) {s : R1CS}
    (hs : (stepCircuit t vk mode).circuit.synthesize w = .ok s) :
    s.entries.length = 3 + limbCount G₁ G₂ := by
  rw [entries_eq p d hs]
  simp only [List.length_cons, R1CS.length_namedEntries]
  omega

theorem parallel_body (ht : t.Completes) (d : Supply w) (d' : Supply w')
    (hchecks : Checks vk mode w) (hchecks' : Checks vk' mode w') :
    Parallel (fun _ _ _ _ => True) (body t vk mode w) (body t vk' mode w')
      (.fresh 0 w.isSome) (.fresh 0 w'.isSome) := by
  have hframe := R1CS.isFrame_retains
  have hgrows := R1CS.isOpenFrame_grows
  obtain ⟨-, hflag, hinner, hcarried⟩ := d.within_wires
  have hz := d.within_wires.1
  have hallocate : Parallel
      (fun s s' x x' => s = d.system ∧ s' = d'.system ∧ x = wires G₁ G₂ ∧ x' = wires G₁ G₂)
      (allocate w) (allocate w') (.fresh 0 w.isSome) (.fresh 0 w'.isSome) :=
    parallel_of_ok d.run_allocate d'.run_allocate (d.twins_system d')
      ((keeps_allocate hgrows w).of_run d.run_allocate).extends_
      ((keeps_allocate hgrows w').of_run d'.run_allocate).extends_ ⟨rfl, rfl, rfl, rfl⟩
  rw [body_eq, body_eq]
  apply parallel_bind hallocate
  rintro s s' x x' h - - ⟨rfl, rfl, rfl, rfl⟩
  -- the wires belong to the tag that all these systems have, so their owner does not change
  apply parallel_bind ((parallel_constrainCarried h hflag hinner hcarried).and_keeps
    (keeps_constrainCarried hframe))
  rintro s₁ s₁' _ _ h₁ hext hext' ⟨-, hretains⟩
  have hmode := (parallel_constrainMode h₁ (hflag.extend hext)
    (fun hm hw => hchecks hm (hext.witnessed.symm.trans hw))
    (fun hm hw => hchecks' hm (hext'.witnessed.symm.trans hw))).and_keeps
      (keeps_constrainMode hframe)
  rw [hext'.tag] at hmode
  apply parallel_bind hmode
  rintro s₂ s₂' _ _ h₂ hext₂ hext₂' ⟨-, hretains₂⟩
  have hretains' := hframe.trans hretains hretains₂
  have hcount : 3 + limbCount G₁ G₂ + stepInputCount G₁ G₂ < s₂.wireCount := by
    have hle := d.wireCount_system ▸ hretains'.grows.extends_.wireCount
    omega
  have hnext := parallel_constrainNext ht h₂ hretains'.frozen (by omega) hcount
    (hz.extend (hext.trans hext₂))
  rw [(hext'.trans hext₂').tag] at hnext
  rwa [R1CS.wireAt_eq (hext.trans hext₂).tag, R1CS.wireAt_eq (hext'.trans hext₂').tag] at hnext

/-- Where the draft without a key and without data can be built, a step can, and it has the shape of
the draft. -/
theorem exists_run_of_draft (ht : t.Completes) (d : Supply w) (hchecks : Checks vk mode w)
    {u₀ : R1CS}
    (hdraft : (body t (none : Option (VerifyingKey G₁ G₂)) mode none).run (.fresh 0 false) =
      (.ok (), u₀)) :
    ∃ u, (body t vk mode w).run (.fresh 0 w.isSome) = (.ok (), u) ∧
      u.freeze.shape = u₀.freeze.shape := by
  obtain ⟨_, u, hrun, htwins, hext, -⟩ :=
    (parallel_body ht d .absent hchecks (checks_none none mode)).of_run hdraft
  obtain ⟨_, u₀', hdraft', htwins', hext', -⟩ :=
    (parallel_body ht .absent d (checks_none none mode) hchecks).of_run hrun
  obtain rfl : u₀ = u₀' := congrArg Prod.snd (hdraft.symm.trans hdraft')
  refine ⟨u, hrun, R1CS.Twins.shape_eq htwins.freeze htwins'.freeze ?_⟩
  rw [(R1CS.grows_freeze u).extends_.tag, (R1CS.grows_freeze u₀).extends_.tag, hext.tag, hext'.tag]
  rfl

/-- A step that is built without data has the shape of the draft. -/
theorem shape_eq_of_draft (ht : t.Completes) {draft s : R1CS}
    (hdraft : (stepCircuit t (none : Option (VerifyingKey G₁ G₂)) mode).circuit.synthesize none =
      .ok draft)
    (hs : (stepCircuit t vk mode).circuit.synthesize none = .ok s) : s.shape = draft.shape := by
  obtain ⟨u₀, hrun₀, rfl⟩ := Circuit.synthesize_eq_ok_iff.mp hdraft
  obtain ⟨u, hrun, rfl⟩ := Circuit.synthesize_eq_ok_iff.mp hs
  obtain ⟨u', hrun', hshape⟩ := exists_run_of_draft ht .absent (checks_none vk mode) hrun₀
  obtain rfl : u = u' := congrArg Prod.snd (hrun.symm.trans hrun')
  exact hshape

end Body

section Honest
variable {G₁ G₂ Gₜ : Type} [CodedGroup G₁] [CodedGroup G₂] [Mul Gₜ] [DecidableEq Gₜ]
  [Pairing G₁ G₂ Gₜ]

/-- What a step is handed that goes on from where it says it does: from the first of the inputs
before if the flag is set, and from the base if not. -/
structure IsHonest (t : Transition) (vk : Option (VerifyingKey G₁ G₂)) (mode : Mode) (z flag : Int)
    (p : Proof G₁ G₂) (inputs : List Int) (carried : Int) : Prop where
  length_inputs : inputs.length = stepInputCount G₁ G₂
  flag_bit : flag = 0 ∨ flag = 1
  carried_eq : (carried : Scalar) = flag * ((inputs.headD 0 : Int) - t.base) + t.base
  z_eq : z = t.advance (reduce carried)
  checks : mode = .checked → ∃ b,
    VerifyingKey.check vk (.proof p) (.list (inputs.map .number)) = .ok b ∧ (flag = 0 ∨ b = 1)

structure Follows (t : Transition) (vk : Option (VerifyingKey G₁ G₂)) (mode : Mode) (z flag : Int)
    (p : Proof G₁ G₂) (inputs : List Int) (carried : Int) : Prop where
  flag_bit : (flag : Scalar) = 0 ∨ (flag : Scalar) = 1
  carried_eq : (carried : Scalar) = flag * ((inputs.headD 0 : Int) - t.base) + t.base
  z_eq : (z : Scalar) = t.advance (reduce carried)
  checks : mode = .checked → ∃ b,
    VerifyingKey.check vk (.proof p) (.list (inputs.map .number)) = .ok b ∧
      ((flag : Scalar) = 0 ∨ b = 1)

variable [LawfulCoding G₁] [LawfulCoding G₂] {t : Transition} {vk : Option (VerifyingKey G₁ G₂)}
  {mode : Mode} {z flag carried : Int} {p : Proof G₁ G₂} {inputs : List Int}

omit [LawfulCoding G₁] [LawfulCoding G₂] in
theorem IsHonest.follows (h : IsHonest t vk mode z flag p inputs carried) :
    Follows t vk mode z flag p inputs carried where
  flag_bit := h.flag_bit.imp (fun h => by rw [h, Int.cast_zero]) fun h => by rw [h, Int.cast_one]
  carried_eq := h.carried_eq
  z_eq := by rw [h.z_eq]
  checks hmode := by
    obtain ⟨b, hb, hvalid⟩ := h.checks hmode
    exact ⟨b, hb, hvalid.imp_left fun hzero => by rw [hzero, Int.cast_zero]⟩

variable (z flag carried p) in
theorem values_system (hlen : inputs.length = stepInputCount G₁ G₂) :
    (Supply.ofWitness z flag p carried hlen).system.values =
      some 1 :: (z :: flag :: (p.limbs ++ inputs ++ [carried])).map fun v => some (reduce v) := by
  have hheld : ∀ v : Int, (Datum.number v : Datum (Proof G₁ G₂)).held true = some (reduce v) :=
    fun v => rfl
  change some 1 :: (Datum.number z :: Datum.number flag :: (p.limbs.map Datum.number ++
    inputs.map Datum.number ++ [Datum.number carried])).map (Datum.held true) = _
  simp only [List.map_cons, List.map_append, List.map_map, List.map_nil, Function.comp_def, hheld]

variable (z flag carried p) in
theorem getElem?_system (hlen : inputs.length = stepInputCount G₁ G₂) {s : R1CS}
    (h : (Supply.ofWitness z flag p carried hlen).system.Extends s) :
    s.values[1]? = some (some (reduce z)) ∧ s.values[2]? = some (some (reduce flag)) ∧
    s.values[3 + limbCount G₁ G₂]? = some (some (reduce (inputs.headD 0))) ∧
    s.values[3 + limbCount G₁ G₂ + stepInputCount G₁ G₂]? = some (some (reduce carried)) := by
  have hvalues := values_system z flag carried p hlen
  have hlimbs := p.length_limbs
  have hpos : 0 < inputs.length := by simp [hlen, stepInputCount]
  have hfirst : 3 + limbCount G₁ G₂ = p.limbs.length + 1 + 1 + 1 := by omega
  have hlast : 3 + limbCount G₁ G₂ + stepInputCount G₁ G₂ =
      (p.limbs ++ inputs).length + 1 + 1 + 1 := by
    rw [List.length_append]
    omega
  refine ⟨h.getElem?_values ?_, h.getElem?_values ?_, h.getElem?_values ?_,
    h.getElem?_values ?_⟩
  · rw [hvalues]
    rfl
  · rw [hvalues]
    rfl
  · obtain ⟨v, rest, rfl⟩ := List.exists_cons_of_ne_nil (List.length_pos_iff.mp hpos)
    simp [hvalues, hfirst]
  · simp [hvalues, hlast]

variable (z flag carried p) in
theorem valuation_system (hlen : inputs.length = stepInputCount G₁ G₂) {s : R1CS}
    (h : (Supply.ofWitness z flag p carried hlen).system.Extends s) :
    (wires G₁ G₂).z.value s.valuation = z ∧ (wires G₁ G₂).flag.value s.valuation = flag ∧
    (wires G₁ G₂).inner.value s.valuation = (inputs.headD 0 : Int) ∧
    (wires G₁ G₂).carried.value s.valuation = carried := by
  have hvalue : ∀ {k : ℕ} {v : Int}, s.values[k]? = some (some (reduce v)) →
      ((R1CS.fresh 0 false).wireAt k).value s.valuation = v := by
    intro k v hv
    rw [Linear.value_wireAt, R1CS.valuation_of_getElem? hv, cast_reduce]
  obtain ⟨hz, hflag, hinner, hcarried⟩ := getElem?_system z flag carried p hlen h
  exact ⟨hvalue hz, hvalue hflag, hvalue hinner, hvalue hcarried⟩

omit [LawfulCoding G₁] [LawfulCoding G₂] in
theorem IsHonest.map_reduce_eq (h : IsHonest t vk mode z flag p inputs carried)
    (ht : t.IsFaithful) : (z :: flag :: p.limbs).map reduce = z :: flag :: p.limbs := by
  have hz := ht.advance_range (reduce_nonneg carried) (reduce_lt carried)
  rw [← h.z_eq] at hz
  have hflag : 0 ≤ flag ∧ flag < order := by
    have hone : (1 : Int) < order := by decide
    rcases h.flag_bit with rfl | rfl
    · exact ⟨le_refl 0, zero_lt_one.trans hone⟩
    · exact ⟨zero_le_one, hone⟩
  have hlimbs : p.limbs.map reduce = p.limbs := by
    refine (List.map_congr_left fun v hv => ?_).trans (List.map_id _)
    exact reduce_eq_self (p.limbs_range v hv).1 (p.limbs_range v hv).2
  rw [List.map_cons, List.map_cons, hlimbs, reduce_eq_self hz.1 hz.2,
    reduce_eq_self hflag.1 hflag.2]

/-- The values of a step that follows satisfy the gates of all parts. -/
theorem Follows.fulfils (h : Follows t vk mode z flag p inputs carried) (ht : t.IsFaithful)
    (hlen : inputs.length = stepInputCount G₁ G₂) {u : R1CS}
    (hrun : (body t vk mode (some (witness z flag p inputs carried))).run (.fresh 0 true) =
      (.ok (), u)) :
    (Supply.ofWitness z flag p carried hlen).system.Fulfils u := by
  obtain ⟨program⟩ := ht.program
  have hvalues := fun {s} => valuation_system z flag carried p hlen (s := s)
  have hplaces := fun {s} => getElem?_system z flag carried p hlen (s := s)
  have hstages := exists_stages program (Supply.ofWitness z flag p carried hlen) hrun
  have hs := (Supply.ofWitness z flag p carried hlen).wellFormed_system
  have hwithin := (Supply.ofWitness z flag p carried hlen).within_wires
  have hw : (Supply.ofWitness z flag p carried hlen).system.witnessed = true := rfl
  have hf : (Supply.ofWitness z flag p carried hlen).system.frozen = false := rfl
  have htag : (R1CS.fresh 0 false).tag =
    (Supply.ofWitness z flag p carried hlen).system.tag := rfl
  generalize (Supply.ofWitness z flag p carried hlen).system = s at *
  obtain ⟨hz, hflag, hinner, hcarried⟩ := hwithin
  obtain ⟨s₁, s₂, hrun₁, hrun₂, hrun₃, hretains₁, hretains₂, -⟩ := hstages
  have hext₁ := hretains₁.grows.extends_
  have hext₂ := hext₁.trans hretains₂.grows.extends_
  have hs₁ := hretains₁.grows.wellFormed hs
  have hs₂ := hretains₂.grows.wellFormed hs₁
  have hf₁ : s₁.frozen = false := hretains₁.frozen.trans hf
  have hfulfils₁ : s.Fulfils s₁ := by
    obtain ⟨-, hflagValue, hinnerValue, hcarriedValue⟩ := hvalues (R1CS.Extends.refl s)
    apply fulfils_constrainCarried hs hw hflag hinner hcarried _ _ hrun₁
    · rw [hflagValue]
      exact h.flag_bit
    · rw [hflagValue, hinnerValue, hcarriedValue]
      exact h.carried_eq
  have hfulfils₂ : s₁.Fulfils s₂ := by
    apply fulfils_constrainMode hs₁ (hext₁.witnessed.trans hw) hf₁ (hflag.extend hext₁) _ hrun₂
    intro hmode
    obtain ⟨b, hb, hvalid⟩ := h.checks hmode
    exact ⟨b, hb, hvalid.imp_left ((hvalues hext₁).2.1).trans⟩
  have hfulfils₃ : s₂.Fulfils u := by
    have hwire : (wires G₁ G₂).carried =
        s₂.wireAt (3 + limbCount G₁ G₂ + stepInputCount G₁ G₂) :=
      R1CS.wireAt_eq (htag.trans hext₂.tag.symm) _
    rw [hwire] at hrun₃
    apply fulfils_constrainNext ht hs₂ (hext₂.witnessed.trans hw) (hretains₂.frozen.trans hf₁)
      (by omega) (hplaces hext₂).2.2.2 (hz.extend hext₂) _ hrun₃
    rw [(hvalues hext₂).1, h.z_eq]
  exact (hfulfils₁.trans hs₁ hfulfils₂).trans hs₂ hfulfils₃

theorem Follows.check_eq (h : Follows t vk mode z flag p inputs carried) (ht : t.IsFaithful)
    (hlen : inputs.length = stepInputCount G₁ G₂) {s : R1CS}
    (hs : (stepCircuit t vk mode).circuit.synthesize (some (witness z flag p inputs carried)) =
      .ok s) : s.check = .ok none := by
  obtain ⟨u, hrun, rfl⟩ := Circuit.synthesize_eq_ok_iff.mp hs
  have hfulfils := h.fulfils ht hlen hrun
  have hu := hfulfils.grows.wellFormed (Supply.ofWitness z flag p carried hlen).wellFormed_system
  have hfreeze := R1CS.fulfils_freeze hu hfulfils.grows.extends_.witnessed
  exact (hfulfils.trans hu hfreeze).check_eq rfl (hfreeze.grows.wellFormed hu)
    (hfulfils.grows.trans hfreeze.grows).extends_.witnessed

/-- Whoever is handed what an honest step is builds a system of the shape of the draft that passes
its check, with the value, the flag and the limbs of the proof before as public inputs. -/
theorem IsHonest.exists_system (h : IsHonest t vk mode z flag p inputs carried)
    (ht : t.IsFaithful) {s₀ : R1CS}
    (hdraft : (stepCircuit t (none : Option (VerifyingKey G₁ G₂)) mode).circuit.synthesize none =
      .ok s₀) :
    ∃ s, (stepCircuit t vk mode).circuit.synthesize (some (witness z flag p inputs carried)) =
        .ok s ∧
      s.WellFormed ∧ s.witnessed = true ∧ s.shape = s₀.shape ∧ s.check = .ok none ∧
      s.inputs = .ok (z :: flag :: p.limbs) := by
  obtain ⟨program⟩ := ht.program
  obtain ⟨u₀, hdraftRun, rfl⟩ := Circuit.synthesize_eq_ok_iff.mp hdraft
  let d := Supply.ofWitness z flag p carried h.length_inputs
  have hchecks : Checks vk mode (some (witness z flag p inputs carried)) := by
    intro hmode _
    obtain ⟨b, hb, -⟩ := h.checks hmode
    exact ⟨b, hb⟩
  obtain ⟨u, hrun, hshape⟩ := exists_run_of_draft ht.completes d hchecks hdraftRun
  have hs : (stepCircuit t vk mode).circuit.synthesize
      (some (witness z flag p inputs carried)) = .ok u.freeze :=
    Circuit.synthesize_eq_ok_iff.mpr ⟨u, hrun, rfl⟩
  have hgrows := grows_of_synthesize program d hs
  have hwell := hgrows.wellFormed d.wellFormed_system
  have hw : u.freeze.witnessed = true := hgrows.extends_.witnessed
  refine ⟨u.freeze, hs, hwell, hw, hshape, h.follows.check_eq ht h.length_inputs hs, ?_⟩
  have hentries := entries_eq program d hs
  obtain ⟨rest, hrest⟩ := hgrows.extends_.values
  have hvalues : u.freeze.values = [some 1] ++ ((z :: flag :: p.limbs).map some ++
      ((inputs ++ [carried]).map (fun v => some (reduce v)) ++ rest)) := by
    rw [← hrest, values_system, ← h.map_reduce_eq ht]
    simp
  rw [R1CS.inputs_eq hwell hw hentries, ← R1CS.map_wireNumber hvalues]
  simp only [List.map_cons, List.length_cons, p.length_limbs, List.range'_succ, List.length_nil,
    ← R1CS.map_fst_namedEntries "proof" 3 0, List.map_map, Function.comp_def]

end Honest

section Sound
variable {G₁ G₂ Gₜ : Type} [CodedGroup G₁] [CodedGroup G₂] [Mul Gₜ] [DecidableEq Gₜ]
  [Pairing G₁ G₂ Gₜ] {t : Transition} {vk : Option (VerifyingKey G₁ G₂)} {mode : Mode}
  {w : Option (Witness (Proof G₁ G₂))} {s : R1CS}

theorem wellFormed_of_synthesize (p : t.Program) (d : Supply w)
    (hs : (stepCircuit t vk mode).circuit.synthesize w = .ok s) :
    s.WellFormed ∧ 3 + limbCount G₁ G₂ + stepInputCount G₁ G₂ < s.wireCount := by
  have hgrows := grows_of_synthesize p d hs
  refine ⟨hgrows.wellFormed d.wellFormed_system, ?_⟩
  have hcount := d.wireCount_system
  have hle := hgrows.extends_.wireCount
  omega

/-- What the gates of a step say of its wires, under any assignment: the flag is a bit and selects
between the base and the value before, and the value is the one after the value that is carried. -/
theorem equations_of_holds (ht : t.IsSound) (d : Supply w)
    (hs : (stepCircuit t vk mode).circuit.synthesize w = .ok s) {v : Int → Scalar}
    (hone : v 0 = 1) (hholds : ∀ g ∈ s.gates, g.Holds v) :
    (v (2 : ℕ) = 0 ∨ v (2 : ℕ) = 1) ∧
    v (3 + limbCount G₁ G₂ + stepInputCount G₁ G₂ : ℕ) =
      v (2 : ℕ) * (v (3 + limbCount G₁ G₂ : ℕ) - t.base) + t.base ∧
    v (1 : ℕ) = t.advance (v (3 + limbCount G₁ G₂ + stepInputCount G₁ G₂ : ℕ)).val := by
  obtain ⟨program⟩ := ht.program
  obtain ⟨u, hrun, rfl⟩ := Circuit.synthesize_eq_ok_iff.mp hs
  obtain ⟨s₁, s₂, hcarriedRun, -, hnextRun, hretains₁, hretains₂, hretains₃⟩ :=
    exists_stages program d hrun
  have hretains := R1CS.isFrame_retains.trans hretains₁ hretains₂
  have hfreeze := (R1CS.grows_freeze u).extends_
  have hcount := d.wireCount_system
  have hcount₂ := hretains.grows.extends_.wireCount
  obtain ⟨hz, hflag, hinner, hcarried⟩ := d.within_wires
  obtain ⟨hbit, hvalue⟩ := carried_of_holds d.wellFormed_system hflag hinner hcarried hcarriedRun
    ((hretains₂.grows.trans hretains₃.grows).extends_.trans hfreeze) hone hholds
  have hwire : (wires G₁ G₂).carried =
      s₂.wireAt (3 + limbCount G₁ G₂ + stepInputCount G₁ G₂) :=
    R1CS.wireAt_eq hretains.grows.extends_.tag.symm _
  rw [hwire] at hnextRun
  have hnext := next_of_holds ht (hretains.grows.wellFormed d.wellFormed_system) hretains.frozen
    (by omega) (by omega) (hz.extend hretains.grows.extends_) hnextRun hfreeze hone hholds
  simp only [wires, Linear.value_wireAt] at hbit hvalue hnext
  exact ⟨hbit, hvalue, hnext⟩

/-- The public inputs that the gates of a step admit: the flag is a bit, and if it is zero, the
value is the one after the base. -/
theorem of_admits (ht : t.IsSound)
    (hs : (stepCircuit t vk mode).circuit.synthesize none = .ok s) {inputs : List Int}
    (h : s.Admits inputs) :
    ∃ z flag limbs, inputs = z :: flag :: limbs ∧ (flag = 0 ∨ flag = 1) ∧
      (flag = 0 → z = t.advance t.base) := by
  obtain ⟨w, hlen, hhead, hrange, hinputs, hcheck⟩ := h
  obtain ⟨program⟩ := ht.program
  obtain ⟨hsystem, hcount⟩ := wellFormed_of_synthesize program .absent hs
  have hwell := hsystem.assign hlen hhead hrange
  have hholds := (R1CS.check_eq_none_iff (R1CS.readsGate_of_check hcheck)).mp hcheck
  obtain ⟨hbit, hvalue, hnext⟩ :=
    equations_of_holds ht .absent hs (R1CS.valuation_assign_zero hhead) hholds
  -- the value and the flag are numbers that the assignment gives, and field elements
  have hnumber : ∀ m < s.wireCount, (s.assign w).valuation m = (s.assign w).wireNumber m :=
    fun m hm => R1CS.valuation_of_getElem? (R1CS.getElem?_values hwell rfl hm)
  have hnumberRange : ∀ m < s.wireCount,
      0 ≤ (s.assign w).wireNumber m ∧ (s.assign w).wireNumber m < order :=
    fun m hm => R1CS.wireNumber_range hwell rfl hm
  rw [hnumber 1 (by omega)] at hnext
  rw [hnumber 2 (by omega)] at hbit hvalue
  have hentries := entries_eq program .absent hs
  rw [R1CS.inputs_eq hwell rfl hentries] at hinputs
  have hzero : (0 : Int) ≤ 0 ∧ 0 < order := by decide
  have hunit : (0 : Int) ≤ 1 ∧ 1 < order := by decide
  refine ⟨_, _, _, (Except.ok.inj hinputs).symm, ?_, ?_⟩
  · rcases hbit with hbit | hbit
    · exact .inl (eq_of_cast_eq (hnumberRange 2 (by omega)) hzero (by rw [hbit, Int.cast_zero]))
    · exact .inr (eq_of_cast_eq (hnumberRange 2 (by omega)) hunit (by rw [hbit, Int.cast_one]))
  · intro hflag
    change (s.assign w).wireNumber 2 = 0 at hflag
    rw [hflag, Int.cast_zero, zero_mul, zero_add] at hvalue
    have hval : (((t.base : Scalar).val : ℕ) : Int) = reduce t.base :=
      eq_of_cast_eq (val_range _) ⟨reduce_nonneg _, reduce_lt _⟩ (by rw [cast_val, cast_reduce])
    rw [hvalue, hval, ht.advance_base] at hnext
    have hadvance := ht.advance_range (reduce t.base) (reduce_nonneg _) (reduce_lt _)
    rw [ht.advance_base] at hadvance
    exact eq_of_cast_eq (hnumberRange 1 (by omega)) hadvance hnext

end Sound

end Cyclic

end RankOne
