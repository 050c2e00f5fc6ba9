import RankOne.Proofs.Admission
import RankOne.Proofs.Calls
import RankOne.Proofs.Completeness

/-!
# The first gate that does not pass

The check of a system goes through its gates in order and stops at the first that does not pass. A
gate fails to pass in one of two ways: its wires have values and the gate does not hold, or a
negative index counts back beyond the first wire, which no operation has looked at. A program that
writes no combination down by hand has no gate of the second kind.
-/

set_option autoImplicit false

namespace RankOne

namespace R1CS
variable {s : R1CS} {g : Gate}

def Misses (s : R1CS) (g : Gate) : Prop :=
  ∃ x ∈ [g.left, g.right, g.output], ∃ term ∈ x.terms, term.1 < -(s.wireCount : Int)

def Passes (s : R1CS) (g : Gate) : Prop :=
  ¬ s.Misses g ∧ g.Holds s.valuation

def FirstFailing (s : R1CS) (g : Gate) : Prop :=
  ¬ s.Passes g ∧ ∃ before after, s.gates = before ++ g :: after ∧ ∀ x ∈ before, s.Passes x

theorem FirstFailing.mem (h : s.FirstFailing g) : g ∈ s.gates := by
  obtain ⟨-, before, after, hgates, -⟩ := h
  rw [hgates]
  exact List.mem_append_right before (List.mem_cons_self ..)

/-- Either all gates pass or one of them is the first that does not. -/
theorem forall_passes_or_exists_first (s : R1CS) :
    (∀ g ∈ s.gates, s.Passes g) ∨ ∃ g, s.FirstFailing g := by
  classical
  cases hfind : s.gates.find? fun g => decide (¬ s.Passes g) with
  | none =>
    left
    simpa using hfind
  | some g =>
    obtain ⟨hfails, before, after, hsplit, hbefore⟩ := List.find?_eq_some_iff_append.mp hfind
    exact .inr ⟨g, by simpa using hfails, before, after, hsplit, by simpa using hbefore⟩

section Reading
variable (hs : s.WellFormed) (hw : s.witnessed = true)
include hs hw

theorem slot?_ne_some_none (i : Int) : s.slot? i ≠ some none := by
  intro h
  rw [slot?, hs.length_values] at h
  obtain ⟨m, hplace, hm⟩ := Option.bind_eq_some_iff.mp h
  rw [getElem?_values hs hw (placeAmong_lt hplace)] at hm
  cases hm

theorem exists_slot?_iff {i : Int} (hlt : i < s.wireCount) :
    (∃ v, s.slot? i = some (some v)) ↔ -(s.wireCount : Int) ≤ i := by
  constructor
  · rintro ⟨v, hv⟩
    rw [slot?, hs.length_values] at hv
    obtain ⟨m, hplace, -⟩ := Option.bind_eq_some_iff.mp hv
    rw [placeAmong] at hplace
    split at hplace
    · omega
    · split at hplace
      · omega
      · cases hplace
  · intro hle
    obtain ⟨m, hplace⟩ : ∃ m, placeAmong s.wireCount i = some m := by
      rw [placeAmong]
      split
      · exact ⟨_, if_pos (by omega)⟩
      · exact ⟨_, if_pos (by omega)⟩
    refine ⟨s.wireNumber m, ?_⟩
    rw [slot?, hs.length_values, hplace, Option.bind_some,
      getElem?_values hs hw (placeAmong_lt hplace)]

/-- Where all wires have values, only a wire that is not there keeps a sum from being read. -/
theorem total_eq_ok_or (terms : List (Int × Int)) :
    (∃ t, s.total terms = .ok t) ∨ s.total terms = .error .outOfRange := by
  induction terms with
  | nil => exact .inl ⟨0, rfl⟩
  | cons term rest ih =>
    obtain ⟨m, a⟩ := term
    rw [total]
    split
    · exact .inr rfl
    · rename_i hnone
      exact absurd hnone (slot?_ne_some_none hs hw m)
    · rcases ih with ⟨t, ht⟩ | herror
      · exact .inl ⟨_, by rw [ht]⟩
      · exact .inr (by rw [herror])

theorem read_of_not_reads {x : Linear} (h : ¬ s.Reads x) : s.read x = .error .outOfRange := by
  cases x with
  | constant k => exact absurd trivial h
  | combination c =>
    rcases total_eq_ok_or hs hw c.terms with ⟨t, ht⟩ | herror
    · exact absurd (reads_of_total ht) h
    · simp only [read, herror]

theorem checkGates_of_not_readsGate (h : ¬ s.ReadsGate g) (rest : List Gate) :
    s.checkGates (g :: rest) = .error .outOfRange := by
  have hread : ∀ x, (∃ r, s.read x = .ok r) ∨ s.read x = .error .outOfRange := by
    intro x
    by_cases hx : s.Reads x
    · obtain ⟨r, hr, -⟩ := read_eq_ok hx
      exact .inl ⟨r, hr⟩
    · exact .inr (read_of_not_reads hs hw hx)
  -- the sides are read in order, and the first that is not there ends the check
  rcases hread g.left with ⟨x, hx⟩ | hleft
  · rcases hread g.right with ⟨y, hy⟩ | hright
    · rcases hread g.output with ⟨z, hz⟩ | houtput
      · exact absurd ⟨reads_of_read hx, reads_of_read hy, reads_of_read hz⟩ h
      · simp only [checkGates, hx, hy, houtput, bind, Except.bind]
    · simp only [checkGates, hx, hright, bind, Except.bind]
  · simp only [checkGates, hleft, bind, Except.bind]

end Reading

section Check
variable (hs : s.Guarded) (hw : s.witnessed = true)
include hs hw

theorem reads_iff {x : Linear} (hx : s.owns x = true) :
    s.Reads x ↔ ∀ term ∈ x.terms, -(s.wireCount : Int) ≤ term.1 := by
  cases x with
  | constant k => simp [Reads, Linear.terms]
  | combination c =>
    have hlt := (owns_combination.mp hx).2
    exact forall₂_congr fun term hterm => exists_slot?_iff hs.wellFormed hw (hlt term hterm)

theorem readsGate_iff (hg : g ∈ s.gates) : s.ReadsGate g ↔ ¬ s.Misses g := by
  obtain ⟨hleft, hright, houtput⟩ := hs.ownsGate g hg
  rw [ReadsGate, reads_iff hs hw hleft, reads_iff hs hw hright, reads_iff hs hw houtput]
  simp [Misses]

theorem checkGates_append {before : List Gate} (hbefore : ∀ x ∈ before, x ∈ s.gates ∧ s.Passes x)
    (rest : List Gate) : s.checkGates (before ++ rest) = s.checkGates rest := by
  induction before with
  | nil => rfl
  | cons x before ih =>
    rw [List.forall_mem_cons] at hbefore
    obtain ⟨⟨hx, hthere, hholds⟩, hbefore⟩ := hbefore
    rw [List.cons_append, checkGates_cons _ ((readsGate_iff hs hw hx).mpr hthere), if_pos hholds,
      ih hbefore]

theorem check_of_forall (h : ∀ g ∈ s.gates, s.Passes g) : s.check = .ok none := by
  rw [check, ← List.append_nil s.gates, checkGates_append hs hw fun g hg => ⟨hg, h g hg⟩, checkGates]

/-- The check reports the first gate that does not hold, unless it has a wire that is not there. -/
theorem check_of_first (h : s.FirstFailing g) :
    s.check = open Classical in
      if s.Misses g then .error .outOfRange else .ok (some g.message) := by
  obtain ⟨hfails, before, after, hsplit, hbefore⟩ := h
  have hmem : ∀ x ∈ before ++ g :: after, x ∈ s.gates := by simp [hsplit]
  have hg : g ∈ s.gates := hmem g (by simp)
  rw [check, hsplit, checkGates_append hs hw fun x hx =>
    ⟨hmem x (List.mem_append_left _ hx), hbefore x hx⟩]
  split
  · rename_i hmisses
    exact checkGates_of_not_readsGate hs.wellFormed hw
      (fun hreads => (readsGate_iff hs hw hg).mp hreads hmisses) after
  · rename_i hthere
    rw [checkGates_cons _ ((readsGate_iff hs hw hg).mpr hthere),
      if_neg fun hholds => hfails ⟨hthere, hholds⟩]

end Check

theorem Regular.guarded (hs : s.Regular) : s.Guarded where
  wellFormed := hs.wellFormed
  ownsGate g hg :=
    have ⟨hleft, hright, houtput⟩ := hs.within g hg
    ⟨hleft.owns, hright.owns, houtput.owns⟩

theorem Regular.not_misses (hs : s.Regular) (hg : g ∈ s.gates) : ¬ s.Misses g := by
  rintro ⟨x, hx, term, hterm, hlt⟩
  obtain ⟨hleft, hright, houtput⟩ := hs.within g hg
  have hwithin : x.Within s := by
    simp only [List.mem_cons, List.not_mem_nil, or_false] at hx
    rcases hx with rfl | rfl | rfl <;> assumption
  have hrange := hwithin.key_range hs.wellFormed.wireCount_pos (List.mem_map_of_mem hterm)
  omega

end R1CS

namespace Step
open Build

def Known (s : R1CS) : Combination → Prop :=
  Item.Source (fun _ => False) s

theorem hosts_known {s : R1CS} (hs : s.Regular) : s.Hosts (Known s) where
  regular := hs
  within c hc howner := by
    rcases hc with hc | hc | hc
    · exact hc.elim
    · exact hc
    · simp [hc] at howner

theorem known_of_source {s t : R1CS} (hst : s.Extends t) {c : Combination}
    (h : Item.Source (Known s) t c) : Known t c :=
  h.elim (fun h => h.extend hst) .inr

theorem safe_run (around : Surroundings) {step : Step}
    (hstep : step.instruction.IsPlain ∨ step.instruction.IsQuestion) {registers : Registers}
    {s : R1CS} (hs : s.Regular) (hr : ∀ entry ∈ registers, entry.2.Over (Known s)) :
    Safe (fun t item => item.Over (Item.Source (Known s) t)) (step.run around registers) s := by
  rw [run]
  split
  · exact safe_fail hs _
  · exact Instruction.safe_run (hosts_known hs) around hr hstep

/-- A program with operands that come from its own results keeps a system regular, whatever it asks
in between and wherever it stops. -/
theorem safe_runAll (around : Surroundings) {steps : List Step}
    (hsteps : ∀ step ∈ steps, step.instruction.IsPlain ∨ step.instruction.IsQuestion)
    {registers : Registers} {s : R1CS} (hs : s.Regular)
    (hr : ∀ entry ∈ registers, entry.2.Over (Known s)) :
    Safe (fun t registers => ∀ entry ∈ registers, entry.2.Over (Known t))
      (runAll around steps registers) s := by
  induction steps generalizing registers s with
  | nil => exact safe_pure hs hr
  | cons step rest ih =>
    rw [List.forall_mem_cons] at hsteps
    rw [runAll]
    apply safe_bind (safe_run around hsteps.1 hs hr)
    intro item t hst ht hitem
    apply ih hsteps.2 ht
    have hregisters : ∀ entry ∈ registers, entry.2.Over (Known t) := fun entry hentry =>
      (hr entry hentry).mono fun c hc => hc.extend hst.extends_
    cases step.target with
    | none => exact hregisters
    | some name =>
      exact Entries.forall_put (P := Item.Over (Known t)) hregisters name
        (hitem.mono fun c hc => known_of_source hst.extends_ hc)

end Step

end RankOne
