import RankOne.Proofs.Lockstep

/-!
# With values and without

A program builds the same system whether or not values are kept, and whichever values a witness
supplies. Two runs are followed step by step: they stop at the same step with the same fault or not
at all, and in between they answer the same and leave the same system behind, owners and values
apart. Their shapes are the same and have one digest.
-/

set_option autoImplicit false

namespace RankOne

namespace Shape

theorem partOf_withOwner (owner : Option Nat) (x : Linear) :
    Part.of (x.withOwner owner) = Part.of x := by
  cases x <;> rfl

theorem gateSides_withOwner (owner : Option Nat) (g : Gate) :
    gateSides (g.withOwner owner) = gateSides g := by
  simp only [gateSides, Gate.withOwner, partOf_withOwner]

end Shape

namespace R1CS.Twins
variable {s t : R1CS}

theorem sides_eq (h : s.Twins t) : t.shape.sides = s.shape.sides := by
  simp only [Shape.sides, shape, h.gates, List.flatMap_map, Shape.gateSides_withOwner]

theorem layout_eq (h : s.Twins t) : t.shape.layout = s.shape.layout := by
  simp only [Shape.layout, shape, h.gates, List.flatMap_map, Shape.gateSides_withOwner]
  rfl

theorem sortedEntries_eq (h : s.Twins t) : t.shape.sortedEntries = s.shape.sortedEntries := by
  simp only [Shape.sortedEntries, shape, h.entries]

theorem same (h : s.Twins t) : s.shape.same t.shape = true := by
  have hcount : t.shape.wireCount = s.shape.wireCount := h.wireCount
  simp only [Shape.same, h.layout_eq, h.sortedEntries_eq, hcount, beq_self_eq_true, Bool.and_self]

theorem digest_eq (h : s.Twins t) : t.shape.digest = s.shape.digest := by
  have hcount : t.shape.wireCount = s.shape.wireCount := h.wireCount
  have htext : t.shape.text = s.shape.text := by
    simp only [Shape.text, h.sides_eq, h.sortedEntries_eq, hcount]
  rw [Shape.digest, htext, Shape.digest]

/-- Of two systems with one tag that are twins both ways even the owners are the same. -/
theorem shape_eq (h : s.Twins t) (h' : t.Twins s) (htag : s.tag = t.tag) : s.shape = t.shape := by
  have hgates : s.gates = t.gates := by
    have hmap : t.gates.map (Gate.withOwner (some t.tag)) = t.gates := by
      rw [h.gates, List.map_map]
      apply List.map_congr_left
      intro g _
      simp only [Function.comp_def, Gate.withOwner, Linear.withOwner_withOwner]
    rw [h'.gates, htag, hmap]
  rw [shape, shape, h.wireCount, h.entries, hgates]

end R1CS.Twins

namespace Step

structure Alike (x y : Step) : Prop where
  instruction : x.instruction.Alike y.instruction
  target : x.target = y.target

def trace (around : Surroundings) : List Step → Registers → R1CS → List (Except Fault Item × R1CS)
  | [], _, _ => []
  | step :: rest, registers, s =>
      match (step.run around registers).run s with
      | (.ok item, t) => (.ok item, t) :: trace around rest (store registers step.target item) t
      | (.error e, t) => [(.error e, t)]

def Supplied (around : Surroundings) : List Step → Registers → R1CS → Prop
  | [], _, _ => True
  | step :: rest, registers, s =>
      step.instruction.Supplied around registers ∧
        match (step.run around registers).run s with
        | (.ok item, t) => Supplied around rest (store registers step.target item) t
        | (.error _, _) => True

structure Agree (x y : Except Fault Item × R1CS) : Prop where
  outcome : x.1.map (Item.withOwner none) = y.1.map (Item.withOwner none)
  wireCount : x.2.wireCount = y.2.wireCount
  entries : x.2.entries = y.2.entries
  gates : x.2.gates.map (Gate.withOwner none) = y.2.gates.map (Gate.withOwner none)
  frozen : x.2.frozen = y.2.frozen
  relationCount : x.2.relationCount = y.2.relationCount

variable {s t : R1CS} {around around' : Surroundings} {registers : Registers}

theorem agree_of_twins (h : s.Twins t) {x y : Except Fault Item}
    (hxy : x.map (Item.withOwner none) = y.map (Item.withOwner none)) : Agree (x, s) (y, t) where
  outcome := hxy
  wireCount := h.wireCount.symm
  entries := h.entries.symm
  gates := by
    rw [h.gates, List.map_map]
    apply List.map_congr_left
    intro g _
    simp only [Function.comp_def, Gate.withOwner, Linear.withOwner_withOwner]
  frozen := h.frozen.symm
  relationCount := h.relationCount.symm

/-- One step, in two systems side by side. Both look for the same registers first. -/
theorem parallel_run (h : s.Twins t) (hr : registers.Within s) {x y : Step} (halike : Alike x y)
    (hx : x.instruction.IsPlain)
    (hs : s.witnessed = true → x.instruction.Supplied around registers)
    (ht : t.witnessed = true →
      y.instruction.Supplied around' (registers.withOwner (some t.tag))) :
    Build.Parallel Item.Twins (x.run around registers)
      (y.run around' (registers.withOwner (some t.tag))) s t := by
  have hfind : (fun name => (Entries.get? name (registers.withOwner (some t.tag))).isNone) =
      fun name => (Entries.get? name registers).isNone := by
    funext name
    rw [Registers.get?_withOwner, Option.isNone_map]
  rw [run, run, ← halike.instruction.reads_eq, hfind]
  cases x.instruction.reads.find? fun name => (Entries.get? name registers).isNone with
  | some name => exact Build.parallel_fail h _
  | none => exact Instruction.parallel_run h hr halike.instruction hx hs ht

/-- A step that has been taken in both systems leaves the registers alike. -/
theorem store_twins {x y : Step} (hxy : Alike x y) {s' t' : R1CS} {item item' : Item}
    (hr : registers.Within s) (hs : s.Extends s') (ht : t.Extends t')
    (h : Item.Twins s' t' item item') :
    Registers.Twins s' t' (store registers x.target item)
      (store (registers.withOwner (some t.tag)) y.target item') := by
  obtain ⟨hitem, rfl⟩ := h
  refine ⟨(hr.extend hs).store hitem x.target, ?_⟩
  rw [Registers.store_withOwner, ht.tag, hxy.target]

theorem parallel_registers (h : s.Twins t) (hr : registers.Within s) {xs ys : List Step}
    (halike : List.Forall₂ Alike xs ys) (hplain : ∀ x ∈ xs, x.instruction.IsPlain)
    (hs : s.witnessed = true → Supplied around xs registers s)
    (ht : t.witnessed = true → Supplied around' ys (registers.withOwner (some t.tag)) t) :
    Build.Parallel Registers.Twins (runAll around xs registers)
      (runAll around' ys (registers.withOwner (some t.tag))) s t := by
  induction halike generalizing registers s t with
  | nil => exact Build.parallel_pure h ⟨hr, rfl⟩
  | @cons x y xs ys hxy _ ih =>
    have hstep := parallel_run h hr hxy (hplain x (List.mem_cons_self ..)) (fun hw => (hs hw).1)
      fun hw => (ht hw).1
    have hs' := fun hw => (hs hw).2
    have ht' := fun hw => (ht hw).2
    rw [Build.Parallel, runAll, runAll, Build.run_bind, Build.run_bind]
    rw [Build.Parallel] at hstep
    generalize (x.run around registers).run s = p at hstep hs' ⊢
    generalize (y.run around' (registers.withOwner (some t.tag))).run t = q at hstep ht' ⊢
    cases hstep with
    | error htwins hes het => exact .error htwins hes het
    | ok htwins hes het hR =>
      obtain ⟨hwithin, hregisters⟩ := store_twins hxy hr hes het hR
      simp only [hregisters] at ht' ⊢
      exact Build.Ends.after hes het (ih htwins hwithin
        (fun z hz => hplain z (List.mem_cons_of_mem _ hz))
        (fun hw => hs' (by rwa [hes.witnessed] at hw))
        (fun hw => ht' (by rwa [het.witnessed] at hw)))

theorem forall₂_trace (h : s.Twins t) (hr : registers.Within s) {xs ys : List Step}
    (halike : List.Forall₂ Alike xs ys) (hplain : ∀ x ∈ xs, x.instruction.IsPlain)
    (hs : s.witnessed = true → Supplied around xs registers s)
    (ht : t.witnessed = true → Supplied around' ys (registers.withOwner (some t.tag)) t) :
    List.Forall₂ Agree (trace around xs registers s)
      (trace around' ys (registers.withOwner (some t.tag)) t) := by
  induction halike generalizing registers s t with
  | nil => exact .nil
  | @cons x y xs ys hxy _ ih =>
    have hstep := parallel_run h hr hxy (hplain x (List.mem_cons_self ..)) (fun hw => (hs hw).1)
      fun hw => (ht hw).1
    have hs' := fun hw => (hs hw).2
    have ht' := fun hw => (ht hw).2
    simp only [trace]
    rw [Build.Parallel] at hstep
    generalize (x.run around registers).run s = p at hstep hs' ⊢
    generalize (y.run around' (registers.withOwner (some t.tag))).run t = q at hstep ht' ⊢
    cases hstep with
    | error htwins _ _ => exact .cons (agree_of_twins htwins rfl) .nil
    | ok htwins hes het hR =>
      obtain ⟨hwithin, hregisters⟩ := store_twins hxy hr hes het hR
      obtain ⟨-, rfl⟩ := hR
      simp only [hregisters] at ht' ⊢
      refine .cons (agree_of_twins htwins ?_) (ih htwins hwithin
        (fun z hz => hplain z (List.mem_cons_of_mem _ hz))
        (fun hw => hs' (by rwa [hes.witnessed] at hw))
        (fun hw => ht' (by rwa [het.witnessed] at hw)))
      simp only [Except.map, Item.withOwner_withOwner]

/-- Whole runs, side by side: they agree at every step, and end in twins or with one fault. -/
theorem parallel_runAll (h : s.Twins t) (hr : registers.Within s) {xs ys : List Step}
    (halike : List.Forall₂ Alike xs ys) (hplain : ∀ x ∈ xs, x.instruction.IsPlain)
    (hs : s.witnessed = true → Supplied around xs registers s)
    (ht : t.witnessed = true → Supplied around' ys (registers.withOwner (some t.tag)) t) :
    List.Forall₂ Agree (trace around xs registers s)
        (trace around' ys (registers.withOwner (some t.tag)) t) ∧
      (((runAll around xs registers).run s).2.Twins
        ((runAll around' ys (registers.withOwner (some t.tag))).run t).2) ∧
      ∀ e, ((runAll around xs registers).run s).1 = .error e ↔
        ((runAll around' ys (registers.withOwner (some t.tag))).run t).1 = .error e := by
  have hparallel := parallel_registers h hr halike hplain hs ht
  exact ⟨forall₂_trace h hr halike hplain hs ht, hparallel.twins, hparallel.error_iff⟩

/-- A run that completes with values was supplied with all of them. -/
theorem supplied_of_runAll (hw : s.witnessed = true) {steps : List Step} {registers' : Registers}
    (h : (runAll around steps registers).run s = (.ok registers', t)) :
    Supplied around steps registers s := by
  induction steps generalizing registers s with
  | nil => trivial
  | cons step rest ih =>
    rw [runAll, Build.run_bind] at h
    have hgrows := step.grows_run around registers s
    rw [Supplied]
    generalize hp : (step.run around registers).run s = p at h hgrows ⊢
    obtain ⟨r, u⟩ := p
    cases r with
    | error e => cases (Prod.mk.inj h).1
    | ok item =>
      refine ⟨?_, ih (hgrows.extends_.witnessed.trans hw) h⟩
      rw [run] at hp
      split at hp
      · cases (Prod.mk.inj hp).1
      · exact Instruction.supplied_of_run hw hp

/-- Where a run with values completes, the one without does too, and both give one shape. -/
theorem shape_eq_of_runAll (around' : Surroundings) (one : String) (tag : ℕ) {steps : List Step}
    (hplain : ∀ step ∈ steps, step.instruction.IsPlain) {registers : Registers}
    (hrun : (runAll around steps (start one (.fresh tag true))).run (.fresh tag true) =
      (.ok registers, s)) :
    ∃ registers' s', (runAll around' steps (start one (.fresh tag false))).run (.fresh tag false) =
        (.ok registers', s') ∧ s'.freeze.shape = s.freeze.shape := by
  have h := R1CS.Twins.fresh tag tag true false
  have h' := R1CS.Twins.fresh tag tag false true
  have halike : List.Forall₂ Alike steps steps :=
    List.forall₂_same.mpr fun step _ => ⟨.same step.instruction, rfl⟩
  have hsupplied := supplied_of_runAll rfl hrun
  have hnone : (R1CS.fresh tag false).witnessed = true →
      Supplied around' steps (start one (.fresh tag false)) (.fresh tag false) :=
    fun hw => absurd hw Bool.false_ne_true
  obtain ⟨-, htwins, hfault⟩ :=
    parallel_runAll h (within_start one h.left) halike hplain (fun _ => hsupplied) hnone
  obtain ⟨-, htwins', -⟩ :=
    parallel_runAll h' (within_start one h'.left) halike hplain hnone fun _ => hsupplied
  have htag : ∀ around registers witnessed, ((runAll around steps registers).run
      (.fresh tag witnessed)).2.freeze.tag = tag := by
    intro around registers witnessed
    have hgrows := grows_runAll around steps registers (.fresh tag witnessed)
    exact (hgrows.trans (R1CS.grows_freeze _)).extends_.tag
  have hshape := (R1CS.Twins.shape_eq htwins'.freeze htwins.freeze
    ((htag _ _ _).trans (htag _ _ _).symm)).trans (congrArg (fun p => p.2.freeze.shape) hrun)
  cases hend : (runAll around' steps (start one (.fresh tag false))).run (.fresh tag false) with
  | mk r s' =>
    cases r with
    | error e =>
      have hfirst := (hfault e).mpr (congrArg Prod.fst hend)
      rw [hrun] at hfirst
      cases hfirst
    | ok registers' =>
      rw [hend] at hshape
      exact ⟨registers', s', rfl, hshape⟩

/-- Two runs of a program from the start, in any modes, with any owners and any values: they stop at
the same step with the same fault or not at all, agree after every step, and give shapes that are
the same and have one digest. -/
theorem modes_agree (one : String) (tag tag' : ℕ) (witnessed witnessed' : Bool)
    {xs ys : List Step} (halike : List.Forall₂ Alike xs ys)
    (hplain : ∀ x ∈ xs, x.instruction.IsPlain)
    (hs : witnessed = true → Supplied around xs (start one (.fresh tag witnessed))
      (.fresh tag witnessed))
    (ht : witnessed' = true → Supplied around' ys (start one (.fresh tag' witnessed'))
      (.fresh tag' witnessed')) :
    List.Forall₂ Agree (trace around xs (start one (.fresh tag witnessed)) (.fresh tag witnessed))
        (trace around' ys (start one (.fresh tag' witnessed')) (.fresh tag' witnessed')) ∧
      ∀ s t : R1CS,
        s = ((runAll around xs (start one (.fresh tag witnessed))).run
          (.fresh tag witnessed)).2.freeze →
        t = ((runAll around' ys (start one (.fresh tag' witnessed'))).run
          (.fresh tag' witnessed')).2.freeze →
        s.shape.same t.shape = true ∧ s.shape.digest = t.shape.digest := by
  have h := R1CS.Twins.fresh tag tag' witnessed witnessed'
  obtain ⟨htrace, hend, -⟩ := parallel_runAll h (within_start one h.left) halike hplain hs ht
  refine ⟨htrace, ?_⟩
  rintro s t rfl rfl
  exact ⟨hend.freeze.same, hend.freeze.digest_eq.symm⟩

open Factorization in
/-- With the parameters of a witness, and without any. -/
theorem modes_agree_factorization :
    List.Forall₂ Agree
        (trace (.ofWitness (some factors)) steps (start "ONE" (.fresh 0 true)) (.fresh 0 true))
        (trace (.ofWitness (none : Option (Witness Unit))) steps (start "ONE" (.fresh 1 false))
          (.fresh 1 false)) ∧
      ∀ s t : R1CS,
        s = ((runAll (.ofWitness (some factors)) steps (start "ONE" (.fresh 0 true))).run
          (.fresh 0 true)).2.freeze →
        t = ((runAll (.ofWitness (none : Option (Witness Unit))) steps
          (start "ONE" (.fresh 1 false))).run (.fresh 1 false)).2.freeze →
        s.shape.same t.shape = true ∧ s.shape.digest = t.shape.digest := by
  apply modes_agree "ONE" 0 1 true false
  · exact List.forall₂_same.mpr fun step _ => ⟨.same step.instruction, rfl⟩
  · exact isPlain_steps
  · intro _
    exact ⟨⟨391, rfl⟩, ⟨17, rfl⟩, ⟨23, rfl⟩, trivial, trivial⟩
  · intro h
    exact absurd h Bool.false_ne_true

end Step

end RankOne
