import RankOne.Proofs.CyclicSystem
import RankOne.Proofs.FirstFailure

/-!
# The gates of a step

Whatever a step of a chain is handed, and wherever it stops, the gates that it has emitted are over
wires of its system: it takes its operands from what it allocates, and writes none down.
-/

set_option autoImplicit false

namespace RankOne

namespace Build
variable {α P : Type} {Q : R1CS → α → Prop} {s : R1CS}

/-- A safe computation also relates the systems before and after it as all of its changes do. -/
theorem Safe.keeping {R : R1CS → R1CS → Prop} {x : Build α} (h : Safe Q x s) (hx : x.Keeps R) :
    Safe (fun t a => Q t a ∧ R s t) x s := by
  have hR := hx s
  rw [Safe] at h ⊢
  generalize x.run s = p at h hR ⊢
  cases h with
  | ok hst ht hQ => exact .ok hst ht ⟨hQ, hR⟩
  | error hst ht => exact .error hst ht

def IsWire (t : R1CS) (z : Linear) : Prop :=
  t.frozen = false ∧ ∃ k, 0 < k ∧ k < t.wireCount ∧ z = t.wireAt k

theorem IsWire.within {z : Linear} (h : IsWire s z) : z.Within s := by
  obtain ⟨-, k, -, hk, rfl⟩ := h
  exact Linear.within_wireAt hk

theorem safe_supplied (hs : s.Regular) (isPublic : Bool) (name : String) (d : Datum P) :
    Safe IsWire (supplied isPublic name d) s := by
  rw [Safe, supplied, run_wire]
  split
  · exact .error (R1CS.Grows.refl s) hs
  · rename_i hf
    rw [Bool.not_eq_true] at hf
    split
    · exact .error (R1CS.Grows.refl s) hs
    · rename_i v hv
      exact .ok (R1CS.grows_push hv hf _) (hs.push hf hv _)
        ⟨hf, s.wireCount, hs.wellFormed.wireCount_pos, Nat.lt_succ_self _, rfl⟩

theorem safe_suppliedList (hs : s.Regular) (isPublic : Bool) (stem : String) (start : ℕ)
    (ds : List (Datum P)) :
    Safe (fun t xs => ∀ x ∈ xs, x.Within t) (suppliedList isPublic stem start ds) s := by
  induction ds generalizing start s with
  | nil => exact safe_pure hs (by simp)
  | cons d rest ih =>
    apply safe_bind (safe_supplied hs _ _ d)
    intro x t hst ht hx
    apply safe_bind (ih ht _)
    intro xs u htu hu hxs
    exact safe_pure hu (List.forall_mem_cons.mpr ⟨hx.within.extend htu.extends_, hxs⟩)

theorem safe_allocInputs (hs : s.Regular) (isPublic : Bool) (stem : String) (count : Int)
    (d : Datum P) :
    Safe (fun t xs => ∀ x ∈ xs, x.Within t) (allocInputs isPublic stem count d) s := by
  rw [allocInputs]
  split
  · exact safe_suppliedList hs _ _ _ _
  · exact .error (R1CS.Grows.refl s) hs

theorem safe_allocProof {G₁ G₂ : Type} [CodedGroup G₁] [CodedGroup G₂] (hs : s.Regular)
    (isPublic : Bool) (stem : String) (d : Datum (Proof G₁ G₂)) :
    Safe (fun t xs => ∀ x ∈ xs, x.Within t) (allocProof isPublic stem d) s := by
  rw [allocProof]
  split
  · exact safe_suppliedList hs _ _ _ _
  · exact .error (R1CS.Grows.refl s) hs

end Build

theorem Linear.Within.columns {s : R1CS} {x : Linear} (h : x.Within s) (hpos : 0 < s.wireCount) :
    x.terms.all (fun term => (placeAmong s.wireCount term.1).isSome) = true := by
  rw [List.all_eq_true]
  intro term hterm
  obtain ⟨hlow, hhigh⟩ := h.key_range hpos (List.mem_map_of_mem hterm)
  rw [placeAmong, if_pos hlow, if_pos (by omega)]
  rfl

theorem R1CS.Regular.columnsExist {s : R1CS} (hs : s.Regular) : s.shape.columnsExist = true := by
  have hpos := hs.wellFormed.wireCount_pos
  rw [Shape.columnsExist, List.all_eq_true]
  intro g hg
  obtain ⟨hl, hr, ho⟩ := hs.within g hg
  have hcount : s.shape.wireCount = s.wireCount := rfl
  simp only [hcount, List.all_cons, List.all_nil, hl.columns hpos, hr.columns hpos,
    ho.columns hpos, Bool.and_self]

open Build

theorem Transition.Program.safe {t : Transition} (p : t.Program) {s : R1CS} (hs : s.Regular)
    (hf : s.frozen = false) {k : ℕ} (hpos : 0 < k) (hk : k < s.wireCount) :
    Safe Own (t.constrain (s.wireAt k)) s := by
  rw [Safe, p.run_eq hs.wellFormed hf hpos hk, Transition.run_run]
  have hr : ∀ entry ∈ ("z", .scalar (s.wireAt k)) :: Step.start "ONE" s,
      entry.2.Over (Step.Known s) := by
    intro entry hentry
    have hwithin := Transition.within_registers hs.wellFormed (Linear.within_wireAt hk) entry hentry
    exact (Item.within_iff_over.mp hwithin).mono fun c hc => .inr (.inl hc)
  apply safe_bind (Step.safe_runAll .bare (fun step hstep => .inl (p.isPlain step hstep)) hs hr)
  intro registers u _ hu hregisters
  have hlinear := Operand.safe_linear_bind (Step.hosts_known hu) hregisters p.result_isPlain
    fun y hy => safe_pure (Q := Own) hu hy
  rwa [bind_pure] at hlinear

namespace Cyclic

section
variable {G₁ G₂ Gₜ : Type} [CodedGroup G₁] [CodedGroup G₂] [Mul Gₜ] [DecidableEq Gₜ]
  [Pairing G₁ G₂ Gₜ] {t : Transition} {vk : Option (VerifyingKey G₁ G₂)} {mode : Mode}
  {w : Option (Witness (Proof G₁ G₂))} {s : R1CS} {flag inner carried : Linear}

theorem safe_allocate (hs : s.Regular) (w : Option (Witness (Proof G₁ G₂))) :
    Safe (fun t x => x.z.Within t ∧ x.flag.Within t ∧ x.inner.Within t ∧ IsWire t x.carried)
      (allocate w) s := by
  apply safe_bind (safe_supplied hs _ _ _)
  intro z s₁ _ h₁ hz
  apply safe_bind (safe_supplied h₁ _ _ _)
  intro flag s₂ hs₂ h₂ hflag
  apply safe_bind (safe_allocProof h₂ _ _ _)
  intro limbs s₃ hs₃ h₃ _
  apply safe_bind (safe_allocInputs h₃ _ _ _ _)
  intro inner s₄ hs₄ h₄ hinner
  apply safe_bind (safe_supplied h₄ _ _ _)
  intro carried s₅ hs₅ h₅ hcarried
  have hfirst : (inner.headD (.constant 0)).Within s₄ := by
    cases inner with
    | nil => trivial
    | cons x rest => exact hinner x (List.mem_cons_self ..)
  have hext := (hs₃.trans (hs₄.trans hs₅)).extends_
  exact safe_pure h₅ ⟨hz.within.extend (hs₂.extends_.trans hext), hflag.within.extend hext,
    hfirst.extend hs₅.extends_, hcarried⟩

theorem safe_constrainCarried (hs : s.Regular) (base : Int) (hflag : flag.Within s)
    (hinner : inner.Within s) (hcarried : carried.Within s) :
    Safe (fun _ _ => True) (constrainCarried base flag inner carried) s := by
  apply safe_bind (safe_gate hs hflag hflag hflag _ _)
  intro _ s₁ hs₁ h₁ _
  apply safe_bind (safe_selectScalar h₁ (hflag.extend hs₁.extends_) (hinner.extend hs₁.extends_)
    (y := .constant base) trivial)
  intro selected s₂ hs₂ h₂ hselected
  exact safe_connect h₂ (hcarried.extend (hs₁.trans hs₂).extends_) hselected _

theorem safe_constrainMode (hs : s.Regular) (hflag : flag.Within s)
    (proof inputs : Datum (Proof G₁ G₂)) :
    Safe (fun _ _ => True) (constrainMode vk mode flag proof inputs) s := by
  cases mode with
  | placeholder => exact safe_pure hs trivial
  | checked =>
    apply safe_bind (safe_wire hs _ none)
    intro valid s₁ hs₁ h₁ hvalid
    apply safe_bind (safe_gate h₁ hvalid hvalid hvalid _ _)
    intro _ s₂ hs₂ h₂ _
    apply safe_bind (safe_sub h₂ (x := .constant 1) trivial (hvalid.extend hs₂.extends_))
    intro invalid s₃ hs₃ h₃ hinvalid
    exact safe_gate h₃ (hflag.extend (hs₁.trans (hs₂.trans hs₃)).extends_) hinvalid
      (z := .constant 0) trivial _ _

theorem safe_body (p : t.Program) (hs : s.Regular) :
    Safe (fun _ _ => True) (body t vk mode w) s := by
  rw [body_eq]
  apply safe_bind (safe_allocate hs w)
  rintro x s₀ - h₀ ⟨hz, hflag, hinner, hcarried⟩
  apply safe_bind ((safe_constrainCarried h₀ t.base hflag hinner hcarried.within).keeping
    (keeps_constrainCarried R1CS.isFrame_retains))
  rintro _ s₁ hs₁ h₁ ⟨-, hretains₁⟩
  apply safe_bind ((safe_constrainMode h₁ (hflag.extend hs₁.extends_) _ _).keeping
    (keeps_constrainMode R1CS.isFrame_retains))
  rintro _ s₂ hs₂ h₂ ⟨-, hretains₂⟩
  -- a transition is a program for the wires of an open system
  obtain ⟨hf, k, hpos, hk, hwire⟩ := hcarried
  have hext := (hs₁.trans hs₂).extends_
  have hopen : s₂.frozen = false := hretains₂.frozen.trans (hretains₁.frozen.trans hf)
  rw [hwire, R1CS.wireAt_eq hext.tag.symm]
  apply safe_bind (p.safe h₂ hopen hpos (hk.trans_le hext.wireCount))
  intro next s₃ hs₃ h₃ hnext
  exact safe_connect h₃ (hz.extend (hext.trans hs₃.extends_)) hnext _

theorem regular_of_synthesize (p : t.Program)
    (hs : (stepCircuit t vk mode).circuit.synthesize w = .ok s) :
    s.Regular ∧ s.witnessed = w.isSome := by
  obtain ⟨u, hrun, rfl⟩ := Circuit.synthesize_eq_ok_iff.mp hs
  have hbody : Safe (fun _ _ => True) (body t vk mode w) (.fresh 0 w.isSome) :=
    safe_body p (R1CS.regular_fresh 0 w.isSome)
  change (body t vk mode w).run _ = _ at hrun
  obtain ⟨hgrows, hregular⟩ := hbody.grows
  rw [hrun] at hgrows hregular
  exact ⟨hregular.freeze, (hgrows.trans (R1CS.grows_freeze u)).extends_.witnessed⟩

end

end Cyclic

end RankOne
