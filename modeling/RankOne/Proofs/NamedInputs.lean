import RankOne.Proofs.Admission
import RankOne.Proofs.Completeness
import RankOne.Proofs.ExchangeForm

/-!
# Public inputs under their names

The exchange form of public inputs is an object, so it has one value for a name. A system may have
several public entries of one name. Those come together in the object, at the place of the first and
with the value of the last, and what is read back are the lists that were written if and only if no
name comes twice.
-/

set_option autoImplicit false

namespace RankOne

namespace Entries
variable {κ α β : Type} [DecidableEq κ]

theorem nodup_keys_put (k : κ) (v : α) {entries : List (κ × α)}
    (h : (entries.map Prod.fst).Nodup) : ((put k v entries).map Prod.fst).Nodup := by
  rw [keys_put]
  split
  · exact h
  · rename_i hk
    refine List.nodup_append.mpr ⟨h, List.nodup_singleton k, ?_⟩
    rintro a ha _ hb rfl
    exact hk (List.mem_singleton.mp hb ▸ ha)

theorem nodup_keys_ofPairs (pairs : List (κ × α)) : ((ofPairs pairs).map Prod.fst).Nodup :=
  List.foldlRecOn (motive := fun entries : List (κ × α) => (entries.map Prod.fst).Nodup) pairs _
    List.nodup_nil fun _ h pair _ => nodup_keys_put pair.1 pair.2 h

theorem mem_keys_of_mem_ofPairs {pairs : List (κ × α)} :
    ∀ k ∈ (ofPairs pairs).map Prod.fst, k ∈ pairs.map Prod.fst := by
  refine List.foldlRecOn
    (motive := fun entries : List (κ × α) => ∀ k ∈ entries.map Prod.fst, k ∈ pairs.map Prod.fst)
    pairs _ (by simp) fun entries h pair hpair k hk => ?_
  rw [keys_put] at hk
  split at hk
  · exact h k hk
  · rcases List.mem_append.mp hk with hk | hk
    · exact h k hk
    · rw [List.mem_singleton.mp hk]
      exact List.mem_map_of_mem hpair

theorem forall_ofPairs {Q : α → Prop} {pairs : List (κ × α)} (h : ∀ pair ∈ pairs, Q pair.2) :
    ∀ entry ∈ ofPairs pairs, Q entry.2 :=
  List.foldlRecOn (motive := fun entries : List (κ × α) => ∀ entry ∈ entries, Q entry.2) pairs _
    (by simp) fun _ hentries pair hpair => forall_put hentries pair.1 (h pair hpair)

theorem put_map (f : α → β) (k : κ) (v : α) (entries : List (κ × α)) :
    put k (f v) (entries.map fun entry => (entry.1, f entry.2)) =
      (put k v entries).map fun entry => (entry.1, f entry.2) := by
  induction entries with
  | nil => rfl
  | cons entry rest ih =>
    rw [List.map_cons, put, put, ih]
    split <;> rfl

theorem foldl_put_map (f : α → β) (pairs entries : List (κ × α)) :
    (pairs.map fun pair => (pair.1, f pair.2)).foldl (fun entries pair => put pair.1 pair.2 entries)
        (entries.map fun entry => (entry.1, f entry.2)) =
      (pairs.foldl (fun entries pair => put pair.1 pair.2 entries) entries).map
        fun entry => (entry.1, f entry.2) := by
  induction pairs generalizing entries with
  | nil => rfl
  | cons pair rest ih =>
    rw [List.map_cons, List.foldl_cons, List.foldl_cons]
    dsimp only
    rw [put_map, ih]

/-- Values may be changed before or after the pairs come together. -/
theorem ofPairs_map (f : α → β) (pairs : List (κ × α)) :
    ofPairs (pairs.map fun pair => (pair.1, f pair.2)) =
      (ofPairs pairs).map fun entry => (entry.1, f entry.2) :=
  foldl_put_map f pairs []

end Entries

namespace Exchange
open Unicode (Codes ofString)
variable {P : Type} {names : List Codes} {values : List Int}

def merge (names : List Codes) (values : List Int) : List Codes × List Int :=
  (Entries.ofPairs (names.zip values)).unzip

theorem merge_eq (names : List Codes) (values : List Int) :
    merge names values = ((Entries.ofPairs (names.zip values)).map Prod.fst,
      (Entries.ofPairs (names.zip values)).map Prod.snd) :=
  List.unzip_eq_map

theorem ofInputs_merge (hlen : names.length = values.length) :
    ofInputs (merge names values).1 ((merge names values).2.map (Datum.number : Int → Datum P)) =
      ofInputs names (values.map (Datum.number : Int → Datum P)) := by
  let text : Int → Json := fun u => .text (inputText (.number u : Datum P))
  let merged := Entries.ofPairs (names.zip values)
  have htexts (xs : List Int) :
      (xs.map (Datum.number : Int → Datum P)).map (fun u => Json.text (inputText u)) =
        xs.map text := List.map_map
  have hleft : Entries.ofPairs ((merged.map Prod.fst).zip ((merged.map Prod.snd).map text)) =
      merged.map fun entry => (entry.1, text entry.2) := by
    have hkeys : ((merged.map fun entry => (entry.1, text entry.2)).map Prod.fst).Nodup := by
      rw [List.map_map]
      exact Entries.nodup_keys_ofPairs _
    rw [List.map_map, List.zip_map']
    exact Entries.ofPairs_of_nodup hkeys
  have hright : Entries.ofPairs (names.zip (values.map text)) =
      merged.map fun entry => (entry.1, text entry.2) := by
    rw [List.zip_map_right]
    exact Entries.ofPairs_map text (names.zip values)
  rw [merge_eq, ofInputs, ofInputs, List.length_map, List.length_map, List.length_map,
    List.length_map, if_pos rfl, if_pos hlen, htexts, htexts, hleft, hright]

theorem read_ofInputs (hsound : ∀ name ∈ names, Unicode.IsSound name)
    (hlen : names.length = values.length) (hrange : ∀ u ∈ values, 0 ≤ u ∧ u < order) :
    ∃ x, ofInputs names (values.map (Datum.number : Int → Datum P)) = .ok x ∧
      (Json.ofBytes x.toBytes >>= inputs) = .ok (merge names values) := by
  have hfst : (names.zip values).map Prod.fst = names := List.map_fst_zip hlen.le
  have hnodup : (merge names values).1.Nodup := by
    rw [merge_eq]
    exact Entries.nodup_keys_ofPairs _
  have hsound' : ∀ name ∈ (merge names values).1, Unicode.IsSound name := by
    rw [merge_eq]
    intro name hname
    exact hsound name (hfst ▸ Entries.mem_keys_of_mem_ofPairs name hname)
  have hrange' : ∀ u ∈ (merge names values).2, 0 ≤ u ∧ u < order := by
    rw [merge_eq]
    exact List.forall_mem_map.mpr (Entries.forall_ofPairs (Q := fun u => 0 ≤ u ∧ u < order)
      fun pair hpair => hrange pair.2 (List.of_mem_zip hpair).2)
  have hlen' : (merge names values).1.length = (merge names values).2.length := by
    simp only [merge_eq, List.length_map]
  obtain ⟨x, hx, hread, hinputs⟩ := ofBytes_inputs (P := P) hnodup hsound' hlen' hrange'
  refine ⟨x, (ofInputs_merge hlen).symm.trans hx, ?_⟩
  rw [hread]
  exact hinputs

theorem merge_eq_self_iff (hlen : names.length = values.length) :
    merge names values = (names, values) ↔ names.Nodup := by
  have hfst : (names.zip values).map Prod.fst = names := List.map_fst_zip hlen.le
  constructor
  · intro h
    rw [merge_eq, Prod.mk.injEq] at h
    rw [← h.1]
    exact Entries.nodup_keys_ofPairs _
  · intro h
    rw [merge_eq, Entries.ofPairs_of_nodup (by rwa [hfst]), hfst, List.map_snd_zip hlen.ge]

end Exchange

theorem R1CS.WellFormed.exists_inputs {s : R1CS} (h : s.WellFormed) (hw : s.witnessed = true) :
    ∃ values, s.inputs = .ok values ∧ s.shape.names.length = values.length ∧
      ∀ u ∈ values, 0 ≤ u ∧ u < order := by
  obtain ⟨rest, hentries⟩ : ∃ rest, s.entries = (0, "ONE") :: rest :=
    List.head?_eq_some_iff.mp h.head_entries
  refine ⟨_, inputs_eq h hw hentries, ?_, List.forall_mem_map.mpr fun entry hentry => ?_⟩
  · rw [h.names_eq hentries, List.length_map, List.length_map]
  · exact wireNumber_range h hw (h.entries_lt entry (hentries ▸ List.mem_cons_of_mem _ hentry))

namespace Exchange
open Unicode (Codes ofString)

/-- The public inputs of a system, whatever has been called on it, can be written and read, with the
entries of one name come together. They are the names and values of the system, in order and number,
if and only if no name comes twice, and written once more they give the same text. -/
theorem inputs_restored_iff {P : Type} (tag : ℕ) (calls : List Call) :
    let s := Call.after calls (.fresh tag true)
    let names := s.shape.names.map ofString
    ∃ values x, s.inputs = .ok values ∧ names.length = values.length ∧
      ofInputs names (values.map (Datum.number : Int → Datum P)) = .ok x ∧
      (Json.ofBytes x.toBytes >>= inputs) = .ok (merge names values) ∧
      ofInputs (merge names values).1
        ((merge names values).2.map (Datum.number : Int → Datum P)) = .ok x ∧
      (merge names values = (names, values) ↔ s.shape.names.Nodup) := by
  intro s names
  have hwitnessed : s.witnessed = true :=
    (Call.grows_after calls (.fresh tag true)).extends_.witnessed
  obtain ⟨values, hvalues, hlen, hrange⟩ :=
    (Call.guarded_after tag true calls).wellFormed.exists_inputs hwitnessed
  have hlen : names.length = values.length := (List.length_map _).trans hlen
  have hsound : ∀ name ∈ names, Unicode.IsSound name :=
    List.forall_mem_map.mpr fun name _ => isSound_ofString name
  obtain ⟨x, hx, hread⟩ := read_ofInputs (P := P) hsound hlen hrange
  refine ⟨values, x, hvalues, hlen, hx, hread, (ofInputs_merge hlen).trans hx, ?_⟩
  rw [merge_eq_self_iff hlen]
  exact List.nodup_map_iff Unicode.ofString_injective

/-- Two public entries of one name come back as one. -/
theorem inputs_merged_of_repeated_name :
    let around : Surroundings := ⟨fun _ => .ok 0, fun _ => []⟩
    let s := Call.after [.instruction around [] (.publicInput "N" (.constant 1)),
      .instruction around [] (.publicInput "N" (.constant 2)), .instruction around [] .freeze]
      (.fresh 0 true)
    s.frozen = true ∧ s.shape.names = ["N", "N"] ∧ s.inputs = .ok [1, 2] ∧
      ∃ x, ofInputs (s.shape.names.map ofString) ([1, 2].map (Datum.number : Int → Datum Unit)) =
          .ok x ∧
        (Json.ofBytes x.toBytes >>= inputs) = .ok ([ofString "N"], [2]) := by
  refine ⟨rfl, rfl, by decide, ?_⟩
  have hsound : ∀ name ∈ ["N", "N"].map ofString, Unicode.IsSound name :=
    List.forall_mem_map.mpr fun name _ => isSound_ofString name
  exact read_ofInputs hsound rfl (by decide)

end Exchange

end RankOne
