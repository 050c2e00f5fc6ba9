/-!
# Entries in order of arrival

Finite maps as lists of pairs. A key keeps the place of its first arrival and the value of its
last, so the list is what a reader of the map sees.
-/

set_option autoImplicit false

namespace RankOne.Entries

variable {κ α : Type} [DecidableEq κ]

def get? (k : κ) : List (κ × α) → Option α
  | [] => none
  | (k', v) :: rest => if k' = k then some v else get? k rest

def put (k : κ) (v : α) : List (κ × α) → List (κ × α)
  | [] => [(k, v)]
  | (k', v') :: rest => if k' = k then (k', v) :: rest else (k', v') :: put k v rest

def ofPairs (pairs : List (κ × α)) : List (κ × α) :=
  pairs.foldl (fun entries pair => put pair.1 pair.2 entries) []

def erase (k : κ) (entries : List (κ × α)) : List (κ × α) :=
  entries.filter fun entry => entry.1 ≠ k

theorem get?_put (k k' : κ) (v : α) (entries : List (κ × α)) :
    get? k' (put k v entries) = if k = k' then some v else get? k' entries := by
  induction entries with
  | nil => simp [put, get?]
  | cons entry rest ih =>
    obtain ⟨key, value⟩ := entry
    simp only [put]
    split <;> simp_all only [get?]
    · split <;> simp_all
    · grind

theorem mem_of_get? {k : κ} {v : α} {entries : List (κ × α)} (h : get? k entries = some v) :
    (k, v) ∈ entries := by
  induction entries with
  | nil => simp [get?] at h
  | cons entry rest ih =>
    obtain ⟨key, value⟩ := entry
    simp only [get?] at h
    split at h
    · rename_i hkey
      obtain rfl := Option.some.inj h
      rw [hkey]
      exact List.mem_cons_self ..
    · exact List.mem_cons_of_mem _ (ih h)

theorem get?_of_mem {entries : List (κ × α)} (h : (entries.map Prod.fst).Nodup) {k : κ} {v : α}
    (hmem : (k, v) ∈ entries) : get? k entries = some v := by
  induction entries with
  | nil => cases hmem
  | cons entry rest ih =>
    rw [List.map_cons, List.nodup_cons] at h
    rcases List.mem_cons.mp hmem with rfl | hmem
    · rw [get?, if_pos rfl]
    · have hne : entry.1 ≠ k := fun heq => h.1 (heq ▸ List.mem_map_of_mem hmem)
      rw [get?, if_neg hne, ih h.2 hmem]

/-- What holds of all values holds of them after one more arrival, if it holds of that one. -/
theorem forall_put {P : α → Prop} {entries : List (κ × α)} (h : ∀ entry ∈ entries, P entry.2)
    (k : κ) {v : α} (hv : P v) : ∀ entry ∈ put k v entries, P entry.2 := by
  induction entries with
  | nil => simpa [put] using hv
  | cons entry rest ih =>
    obtain ⟨key, value⟩ := entry
    rw [List.forall_mem_cons] at h
    rw [put]
    split <;> rw [List.forall_mem_cons]
    · exact ⟨hv, h.2⟩
    · exact ⟨h.1, ih h.2⟩

theorem keys_put (k : κ) (v : α) (entries : List (κ × α)) :
    (put k v entries).map Prod.fst =
      if k ∈ entries.map Prod.fst then entries.map Prod.fst
      else entries.map Prod.fst ++ [k] := by
  induction entries with
  | nil => simp [put]
  | cons entry rest ih =>
    obtain ⟨key, value⟩ := entry
    simp only [put, List.map_cons, List.mem_cons]
    split <;> simp_all only [List.map_cons]
    · simp
    · grind

theorem put_put (k : κ) (v v' : α) (entries : List (κ × α)) :
    put k v' (put k v entries) = put k v' entries := by
  induction entries with
  | nil => simp [put]
  | cons entry rest ih =>
    obtain ⟨key, value⟩ := entry
    by_cases h : key = k
    · simp only [put, if_pos h]
    · simp only [put, if_neg h, ih]

theorem erase_cons (k : κ) (entry : κ × α) (rest : List (κ × α)) :
    erase k (entry :: rest) = if entry.1 = k then erase k rest else entry :: erase k rest := by
  by_cases h : entry.1 = k <;> simp [erase, h]

theorem get?_erase (k k' : κ) (entries : List (κ × α)) :
    get? k' (erase k entries) = if k = k' then none else get? k' entries := by
  induction entries with
  | nil => simp [erase, get?]
  | cons entry rest ih =>
    rw [erase_cons]
    split <;> simp_all only [get?] <;> grind

theorem erase_put_self (k : κ) (v : α) (entries : List (κ × α)) :
    erase k (put k v entries) = erase k entries := by
  induction entries with
  | nil => simp [put, erase]
  | cons entry rest ih =>
    by_cases h : entry.1 = k
    · rw [put, if_pos h, erase_cons, erase_cons, if_pos h, if_pos h]
    · rw [put, if_neg h, erase_cons, erase_cons, ih]

theorem erase_put_of_ne {k k' : κ} (hne : k' ≠ k) (v : α) (entries : List (κ × α)) :
    erase k (put k' v entries) = put k' v (erase k entries) := by
  induction entries with
  | nil => simp [put, erase, hne]
  | cons entry rest ih =>
    by_cases h' : entry.1 = k'
    · have h : entry.1 ≠ k := fun heq => hne (h'.symm.trans heq)
      rw [put, if_pos h', erase_cons, erase_cons, if_neg h, if_neg h, put, if_pos h']
    · rw [put, if_neg h', erase_cons, erase_cons, ih]
      by_cases h : entry.1 = k
      · rw [if_pos h, if_pos h]
      · rw [if_neg h, if_neg h, put, if_neg h']

theorem erase_of_get?_eq_none {k : κ} {entries : List (κ × α)} (h : get? k entries = none) :
    erase k entries = entries := by
  induction entries with
  | nil => rfl
  | cons entry rest ih =>
    rw [get?] at h
    split at h
    · cases h
    · rename_i hne
      rw [erase_cons, if_neg hne, ih h]

end RankOne.Entries
