import RankOne.Proofs.Frame

/-!
# Systems only grow

Whatever is called on a system, with whatever operands and however it ends, wires, public entries
and gates that are there stay there with their values, and a frozen system stays as it is. A system
that starts with the constant wire alone keeps one value for each wire and its public entries in
order of their wires.
-/

set_option autoImplicit false

namespace RankOne

namespace R1CS

structure WellFormed (s : R1CS) : Prop where
  length_values : s.values.length = s.wireCount
  head_values : s.values.head? = some (if s.witnessed then some 1 else none)
  isSome_values : ∀ v ∈ s.values, v.isSome = s.witnessed
  values_range : ∀ w, some w ∈ s.values → 0 ≤ w ∧ w < order
  head_entries : s.entries.head? = some (0, "ONE")
  entries_sorted : (s.entries.map Prod.fst).Pairwise (· < ·)
  entries_lt : ∀ entry ∈ s.entries, entry.1 < s.wireCount

structure Extends (s t : R1CS) : Prop where
  tag : t.tag = s.tag
  witnessed : t.witnessed = s.witnessed
  wireCount : s.wireCount ≤ t.wireCount
  values : s.values <+: t.values
  entries : s.entries <+: t.entries
  gates : s.gates <+: t.gates
  of_frozen : s.frozen = true → t = s

theorem Extends.refl (s : R1CS) : s.Extends s :=
  ⟨rfl, rfl, le_refl _, List.prefix_refl _, List.prefix_refl _, List.prefix_refl _, fun _ => rfl⟩

theorem Extends.trans {s t u : R1CS} (h : s.Extends t) (h' : t.Extends u) : s.Extends u where
  tag := h'.tag.trans h.tag
  witnessed := h'.witnessed.trans h.witnessed
  wireCount := h.wireCount.trans h'.wireCount
  values := h.values.trans h'.values
  entries := h.entries.trans h'.entries
  gates := h.gates.trans h'.gates
  of_frozen hf := by
    have hts := h.of_frozen hf
    subst hts
    exact h'.of_frozen hf

structure Grows (s t : R1CS) : Prop where
  extends_ : s.Extends t
  wellFormed : s.WellFormed → t.WellFormed

theorem Grows.refl (s : R1CS) : s.Grows s := ⟨Extends.refl s, id⟩

theorem Grows.trans {s t u : R1CS} (h : s.Grows t) (h' : t.Grows u) : s.Grows u :=
  ⟨h.extends_.trans h'.extends_, fun hs => h'.wellFormed (h.wellFormed hs)⟩

theorem wellFormed_fresh (tag : Nat) (witnessed : Bool) : (fresh tag witnessed).WellFormed where
  length_values := rfl
  head_values := rfl
  isSome_values := by cases witnessed <;> simp [fresh]
  values_range := by
    have hone : (0 : Int) ≤ 1 ∧ 1 < order := by decide
    cases witnessed
    · simp [fresh]
    · simpa [fresh] using hone
  head_entries := rfl
  entries_sorted := by simp [fresh]
  entries_lt := by simp [fresh]

theorem wireValue_ok {s : R1CS} {value : Reader → Except Fault Int} {v : Option Int}
    (h : s.wireValue value = .ok v) :
    v.isSome = s.witnessed ∧ ∀ w, v = some w → 0 ≤ w ∧ w < order := by
  rw [wireValue] at h
  split at h
  · rename_i hw
    split at h
    · rename_i w hread
      obtain rfl := Except.ok.inj h
      refine ⟨hw.symm, ?_⟩
      rintro _ ⟨⟩
      exact ⟨reduce_nonneg w, reduce_lt w⟩
    · simp at h
  · rename_i hw
    obtain rfl := Except.ok.inj h
    exact ⟨by simpa using hw, by simp⟩

/-- The system stays well formed when a wire is added to it, public where it has a name. -/
theorem WellFormed.push {s : R1CS} (hs : s.WellFormed) {v : Option Int}
    (hsome : v.isSome = s.witnessed) (hrange : ∀ w, v = some w → 0 ≤ w ∧ w < order)
    (name : Option String) : (s.push v name).WellFormed where
  length_values := by simp [R1CS.push, hs.length_values]
  head_values := by
    have hvalues : s.values ≠ [] := by
      intro hnil
      have := hs.head_values
      simp [hnil] at this
    rw [R1CS.push, List.head?_append_of_ne_nil _ hvalues]
    exact hs.head_values
  isSome_values := by
    intro u hu
    rcases List.mem_append.mp hu with hu | hu
    · exact hs.isSome_values u hu
    · obtain rfl : u = v := by simpa using hu
      exact hsome
  values_range := by
    intro w hw
    rcases List.mem_append.mp hw with hw | hw
    · exact hs.values_range w hw
    · exact hrange w (List.mem_singleton.mp hw).symm
  head_entries := by
    have hentries : s.entries ≠ [] := by
      intro hnil
      have := hs.head_entries
      simp [hnil] at this
    rw [R1CS.push, List.head?_append_of_ne_nil _ hentries]
    exact hs.head_entries
  entries_sorted := by
    cases name with
    | none => simpa [R1CS.push] using hs.entries_sorted
    | some text =>
      simp only [R1CS.push, Option.map_some, Option.toList_some, List.map_append, List.map_cons,
        List.map_nil, List.pairwise_append]
      refine ⟨hs.entries_sorted, List.pairwise_singleton _ _, ?_⟩
      intro a ha b hb
      obtain ⟨entry, hentry, rfl⟩ := List.mem_map.mp ha
      obtain rfl : b = s.wireCount := by simpa using hb
      exact hs.entries_lt entry hentry
  entries_lt := by
    intro entry hentry
    rcases List.mem_append.mp hentry with hentry | hentry
    · exact Nat.lt_succ_of_lt (hs.entries_lt entry hentry)
    · cases name with
      | none => simp at hentry
      | some text =>
        obtain rfl : entry = (s.wireCount, text) := by simpa using hentry
        exact Nat.lt_succ_self _

theorem grows_push {s : R1CS} {value : Reader → Except Fault Int} {v : Option Int}
    (h : s.wireValue value = .ok v) (hf : s.frozen = false) (name : Option String) :
    s.Grows (s.push v name) where
  extends_ :=
    { tag := rfl
      witnessed := rfl
      wireCount := Nat.le_succ _
      values := List.prefix_append _ _
      entries := List.prefix_append _ _
      gates := List.prefix_refl _
      of_frozen := fun hf' => by simp [hf] at hf' }
  wellFormed hs :=
    hs.push (wireValue_ok h).1 (wireValue_ok h).2 name

theorem grows_addGate {s : R1CS} (hf : s.frozen = false) (g : Gate) :
    s.Grows { s with gates := s.gates ++ [g] } where
  extends_ :=
    { tag := rfl
      witnessed := rfl
      wireCount := le_refl _
      values := List.prefix_refl _
      entries := List.prefix_refl _
      gates := List.prefix_append _ _
      of_frozen := fun hf' => by simp [hf] at hf' }
  wellFormed hs := ⟨hs.1, hs.2, hs.3, hs.4, hs.5, hs.6, hs.7⟩

theorem grows_pushGate {s : R1CS} {value : Reader → Except Fault Int} {v : Option Int}
    (h : s.wireValue value = .ok v) (hf : s.frozen = false) (g : Gate) :
    s.Grows (s.pushGate v g) :=
  (grows_push h hf none).trans (grows_addGate (s := s.push v none) hf g)

theorem grows_freeze (s : R1CS) : s.Grows s.freeze := by
  by_cases hf : s.frozen = true
  · rw [freeze, if_pos hf]
    exact Grows.refl s
  · rw [freeze, if_neg hf]
    exact
      { extends_ :=
          { tag := rfl
            witnessed := rfl
            wireCount := le_refl _
            values := List.prefix_refl _
            entries := List.prefix_refl _
            gates := List.prefix_append _ _
            of_frozen := fun hf' => absurd hf' hf }
        wellFormed := fun hs => ⟨hs.1, hs.2, hs.3, hs.4, hs.5, hs.6, hs.7⟩ }

theorem isOpenFrame_grows : IsOpenFrame Grows where
  refl := Grows.refl
  trans := Grows.trans
  push hf hv := grows_push hv hf none
  addGate g hf _ := grows_addGate hf g
  publish name hf hv := grows_push hv hf name
  freeze := grows_freeze

structure Retains (s t : R1CS) : Prop where
  grows : s.Grows t
  entries : t.entries = s.entries
  frozen : t.frozen = s.frozen

theorem isFrame_retains : IsFrame Retains where
  refl s := ⟨Grows.refl s, rfl, rfl⟩
  trans h h' := ⟨h.grows.trans h'.grows, h'.entries.trans h.entries, h'.frozen.trans h.frozen⟩
  push hf hv := ⟨grows_push hv hf none, by simp [R1CS.push], rfl⟩
  addGate g hf _ := ⟨grows_addGate hf g, rfl, rfl⟩

theorem wireAt_eq {s t : R1CS} (h : s.tag = t.tag) (k : ℕ) : s.wireAt k = t.wireAt k := by
  rw [wireAt, wireAt, h]

end R1CS

namespace Step
open R1CS (isOpenFrame_grows)

theorem grows_run (around : Surroundings) (registers : Registers) (step : Step) :
    (step.run around registers).Keeps R1CS.Grows :=
  step.keeps_run isOpenFrame_grows.toIsFrame around registers (.inr isOpenFrame_grows)

/-- A whole program leaves a system grown, also where a step of it fails. -/
theorem grows_runAll (around : Surroundings) (steps : List Step) (registers : Registers) :
    (runAll around steps registers).Keeps R1CS.Grows :=
  keeps_runAll isOpenFrame_grows.toIsFrame around steps registers
    fun _ _ => .inr isOpenFrame_grows

/-- Whatever steps a system has been through, closed it is well formed. -/
theorem wellFormed_runAll (around : Surroundings) (steps : List Step) (registers : Registers)
    (tag : Nat) (witnessed : Bool) :
    ((runAll around steps registers).run (.fresh tag witnessed)).2.freeze.WellFormed := by
  apply (R1CS.grows_freeze _).wellFormed
  exact (grows_runAll around steps registers _).wellFormed (R1CS.wellFormed_fresh tag witnessed)

end Step

end RankOne
