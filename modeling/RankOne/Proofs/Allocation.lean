import RankOne.Proofs.Filling
import RankOne.Proofs.Limbs

/-!
# Wires for data

What a system is after wires have been made for a list of data: the wires follow the ones that were
there, each with the reduced value of its datum, or with none where no values are kept. No gate is
added.
-/

set_option autoImplicit false

namespace RankOne

namespace R1CS
variable {s t : R1CS}

def pushList (s : R1CS) (values : List (Option Int)) (entries : List (ℕ × String)) : R1CS :=
  { s with
    wireCount := s.wireCount + values.length
    values := s.values ++ values
    entries := s.entries ++ entries }

theorem pushList_nil (s : R1CS) : s.pushList [] [] = s := by
  simp [pushList]

theorem pushList_pushList (s : R1CS) (vs us : List (Option Int)) (es fs : List (ℕ × String)) :
    (s.pushList vs es).pushList us fs = s.pushList (vs ++ us) (es ++ fs) := by
  simp [pushList, Nat.add_assoc]

theorem push_eq_pushList (s : R1CS) (v : Option Int) (name : Option String) :
    s.push v name = s.pushList [v] (name.map fun text => (s.wireCount, text)).toList := rfl

def namedEntries (stem : String) : (wire start count : ℕ) → List (ℕ × String)
  | _, _, 0 => []
  | wire, start, n + 1 =>
      (wire, Build.entryName stem start) :: namedEntries stem (wire + 1) (start + 1) n

theorem map_fst_namedEntries (stem : String) (wire start count : ℕ) :
    (namedEntries stem wire start count).map Prod.fst = List.range' wire count := by
  induction count generalizing wire start with
  | zero => rfl
  | succ n ih => rw [namedEntries, List.map_cons, ih, List.range'_succ]

theorem map_snd_namedEntries (stem : String) (wire start count : ℕ) :
    (namedEntries stem wire start count).map Prod.snd =
      (List.range' start count).map (Build.entryName stem) := by
  induction count generalizing wire start with
  | zero => rfl
  | succ n ih => rw [namedEntries, List.map_cons, ih, List.range'_succ, List.map_cons]

theorem length_namedEntries (stem : String) (wire start count : ℕ) :
    (namedEntries stem wire start count).length = count := by
  rw [← List.length_map Prod.fst, map_fst_namedEntries, List.length_range']

end R1CS

def Datum.held {P : Type} (witnessed : Bool) (d : Datum P) : Option Int :=
  if witnessed then d.number?.map reduce else none

def Datum.Serves {P : Type} (witnessed : Bool) (d : Datum P) : Prop :=
  witnessed = true → ∃ v, d.number? = some v

namespace Build
variable {P : Type} {s : R1CS}

theorem run_supplied (hf : s.frozen = false) (isPublic : Bool) (name : String) {d : Datum P}
    (hd : d.Serves s.witnessed) :
    (supplied isPublic name d).run s =
      (.ok (s.wireAt s.wireCount),
        s.push (d.held s.witnessed) (if isPublic then some name else none)) := by
  have hvalue : s.wireValue (fun _ => d.wireValue name) = .ok (d.held s.witnessed) := by
    rw [R1CS.wireValue, Datum.held]
    by_cases hw : s.witnessed = true
    · obtain ⟨v, hv⟩ := hd hw
      have hnumber : d.wireValue name = .ok v := by
        cases d <;> simp_all [Datum.wireValue, Datum.number?]
      rw [if_pos hw, if_pos hw, hnumber, hv]
      rfl
    · rw [if_neg hw, if_neg hw]
  rw [supplied, run_wire, hvalue, if_neg (by simp [hf])]

theorem run_suppliedList (hf : s.frozen = false) (isPublic : Bool) (stem : String) (start : ℕ)
    {ds : List (Datum P)} (hds : ∀ d ∈ ds, d.Serves s.witnessed) :
    (suppliedList isPublic stem start ds).run s =
      (.ok ((List.range' s.wireCount ds.length).map s.wireAt),
        s.pushList (ds.map (Datum.held s.witnessed))
          (if isPublic then R1CS.namedEntries stem s.wireCount start ds.length else [])) := by
  induction ds generalizing s start with
  | nil =>
    have hnone : (if isPublic then R1CS.namedEntries stem s.wireCount start 0 else []) = [] := by
      cases isPublic <;> rfl
    rw [suppliedList, run_pure, List.length_nil, hnone, List.map_nil, R1CS.pushList_nil]
    rfl
  | cons d rest ih =>
    rw [List.forall_mem_cons] at hds
    have hfirst := run_supplied hf isPublic (entryName stem start) hds.1
    have hrest := ih (s := s.push (d.held s.witnessed)
      (if isPublic then some (entryName stem start) else none)) hf (start + 1) hds.2
    simp only [suppliedList, run_bind, hfirst, hrest, run_pure]
    rw [R1CS.push_eq_pushList, R1CS.pushList_pushList, List.length_cons, List.range'_succ]
    cases isPublic <;> rfl

theorem length_limbData {G₁ G₂ : Type} [CodedGroup G₁] [CodedGroup G₂] [LawfulCoding G₁]
    [LawfulCoding G₂] {d : Datum (Proof G₁ G₂)} {limbs : List (Datum (Proof G₁ G₂))}
    (h : limbData d = .ok limbs) : limbs.length = limbCount G₁ G₂ := by
  cases d with
  | absent => obtain rfl := Except.ok.inj h; exact List.length_replicate
  | proof p => obtain rfl := Except.ok.inj h; rw [List.length_map, p.length_limbs]
  | _ => cases h

theorem length_inputData {count : Int} {d : Datum P} {inputs : List (Datum P)}
    (h : inputData count d = .ok inputs) : inputs.length = count.toNat := by
  unfold inputData at h
  split at h
  · obtain rfl := Except.ok.inj h
    exact List.length_replicate
  · split at h
    · cases h
    · split at h
      · cases h
      · rename_i hcount
        obtain rfl := Except.ok.inj h
        rw [← not_not.mp hcount, Int.toNat_natCast]

section Frames
variable {R : R1CS → R1CS → Prop}

theorem keeps_supplied (hR : R1CS.IsOpenFrame R) (isPublic : Bool) (name : String) (d : Datum P) :
    (supplied isPublic name d).Keeps R :=
  keeps_wire hR.toIsFrame _ (.inr hR)

theorem keeps_suppliedList (hR : R1CS.IsOpenFrame R) (isPublic : Bool) (stem : String) (start : ℕ)
    (ds : List (Datum P)) : (suppliedList isPublic stem start ds).Keeps R := by
  induction ds generalizing start with
  | nil => exact keeps_pure hR.toIsFrame _
  | cons d rest ih =>
    exact keeps_bind hR.toIsFrame (keeps_supplied hR _ _ d) fun _ =>
      keeps_bind hR.toIsFrame (ih _) fun _ => keeps_pure hR.toIsFrame _

theorem keeps_allocInputs (hR : R1CS.IsOpenFrame R) (isPublic : Bool) (stem : String) (count : Int)
    (d : Datum P) : (allocInputs isPublic stem count d).Keeps R := by
  rw [allocInputs]
  split
  · exact keeps_suppliedList hR _ _ _ _
  · exact hR.refl

theorem keeps_allocProof {G₁ G₂ : Type} [CodedGroup G₁] [CodedGroup G₂] (hR : R1CS.IsOpenFrame R)
    (isPublic : Bool) (stem : String) (d : Datum (Proof G₁ G₂)) :
    (allocProof isPublic stem d).Keeps R := by
  rw [allocProof]
  split
  · exact keeps_suppliedList hR _ _ _ _
  · exact hR.refl

end Frames

section Inversion
variable {t : R1CS} {isPublic : Bool} {stem : String} {d : Datum P} {xs : List Linear}

theorem serves_of_run_supplied {name : String} {x : Linear}
    (h : (supplied isPublic name d).run s = (.ok x, t)) : d.Serves s.witnessed := by
  intro hw
  rw [supplied, run_wire] at h
  split at h
  · cases (Prod.mk.inj h).1
  · rw [R1CS.wireValue, if_pos hw] at h
    cases d <;> first | exact ⟨_, rfl⟩ | cases (Prod.mk.inj h).1

theorem serves_of_run_suppliedList {start : ℕ} {ds : List (Datum P)}
    (h : (suppliedList isPublic stem start ds).run s = (.ok xs, t)) :
    ∀ d ∈ ds, d.Serves s.witnessed := by
  induction ds generalizing s start xs t with
  | nil => simp
  | cons d rest ih =>
    obtain ⟨x, s₁, hfirst, h⟩ := of_run_bind h
    obtain ⟨ys, s₂, hrest, -⟩ := of_run_bind h
    have hgrows := (keeps_supplied R1CS.isOpenFrame_grows _ _ d).of_run hfirst
    have hserves := ih hrest
    rw [hgrows.extends_.witnessed] at hserves
    exact List.forall_mem_cons.mpr ⟨serves_of_run_supplied hfirst, hserves⟩

theorem of_run_allocInputs {count : Int}
    (h : (allocInputs isPublic stem count d).run s = (.ok xs, t)) :
    ∃ ds, inputData count d = .ok ds ∧ ∀ d ∈ ds, d.Serves s.witnessed := by
  rw [allocInputs] at h
  split at h
  · rename_i ds hds
    exact ⟨ds, hds, serves_of_run_suppliedList h⟩
  · cases (Prod.mk.inj h).1

theorem of_run_allocProof {G₁ G₂ : Type} [CodedGroup G₁] [CodedGroup G₂]
    {d : Datum (Proof G₁ G₂)} (h : (allocProof isPublic stem d).run s = (.ok xs, t)) :
    ∃ ds, limbData d = .ok ds ∧ ∀ d ∈ ds, d.Serves s.witnessed := by
  rw [allocProof] at h
  split at h
  · rename_i ds hds
    exact ⟨ds, hds, serves_of_run_suppliedList h⟩
  · cases (Prod.mk.inj h).1

end Inversion

end Build

end RankOne
