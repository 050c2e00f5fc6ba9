import RankOne.Proofs.Paths

/-!
# Directories

Directories are made on the way to a path, and nothing else changes. To make them once more changes
nothing at all. Files come and go without a change to the directories, so no path leads elsewhere
because of them.
-/

set_option autoImplicit false

namespace RankOne

namespace FileTree

variable {t t' : FileTree} {here there location other : Location} {name : String}

theorem child_ne_nil (d : Location) (name : String) : d ++ [name] ≠ [] :=
  List.append_ne_nil_of_right_ne_nil d (List.cons_ne_nil name [])

theorem child_inj {d : Location} {name name' : String} :
    d ++ [name] = d ++ [name'] ↔ name = name' := by
  rw [List.append_cancel_left_eq, List.singleton_inj]

theorem node?_eq_get? (h : location ≠ []) : t.node? location = Entries.get? location t.nodes := by
  cases location with
  | nil => exact absurd rfl h
  | cons name rest => rfl

theorem ne_nil_of_node?_eq_none (h : t.node? location = none) : location ≠ [] := by
  rintro rfl
  cases h

theorem node?_empty_of_length_lt {home : Location} (h : home.length < location.length) :
    (empty home).node? location = none := by
  cases hnode : (empty home).node? location with
  | none => rfl
  | some node =>
    rw [node?_eq_get? (List.ne_nil_of_length_pos (Nat.zero_lt_of_lt h))] at hnode
    obtain ⟨ancestor, hmem, heq⟩ := List.mem_map.mp (Entries.mem_of_get? hnode)
    obtain ⟨i, -, htake⟩ := List.mem_map.mp hmem
    have hlocation : home.take (i + 1) = location := htake.trans (congrArg Prod.fst heq)
    rw [← hlocation, List.length_take] at h
    omega

theorem node?_putNode_self (d : Location) (name : String) (node : Node) :
    (t.putNode (d ++ [name]) node).node? (d ++ [name]) = some node := by
  rw [node?_putNode _ _ _ _ (child_ne_nil d name), if_pos rfl]

theorem node?_eraseNode (h : location ≠ []) (t : FileTree) (other : Location) :
    (t.eraseNode location).node? other = if location = other then none else t.node? other := by
  cases other with
  | nil => simp [FileTree.node?, h]
  | cons name rest => exact Entries.get?_erase location (name :: rest) t.nodes

theorem putNode_putNode (t : FileTree) (location : Location) (node node' : Node) :
    (t.putNode location node).putNode location node' = t.putNode location node' := by
  simp only [putNode, Entries.put_put]

theorem eraseNode_putNode (h : t.node? location = none) (node : Node) :
    (t.putNode location node).eraseNode location = t := by
  rw [node?_eq_get? (ne_nil_of_node?_eq_none h)] at h
  simp only [putNode, eraseNode, Entries.erase_put_self, Entries.erase_of_get?_eq_none h]

theorem eraseNode_putNode_putNode (h : t.node? location = none) (hne : other ≠ location)
    (node node' : Node) :
    ((t.putNode location node).putNode other node').eraseNode location = t.putNode other node' := by
  rw [node?_eq_get? (ne_nil_of_node?_eq_none h)] at h
  simp only [putNode, eraseNode, Entries.erase_put_of_ne hne, Entries.erase_put_self,
    Entries.erase_of_get?_eq_none h]

structure Extends (t t' : FileTree) : Prop where
  home : t'.home = t.home
  node? (location : Location) : t'.node? location = t.node? location ∨
    t.node? location = none ∧ t'.node? location = some .directory

namespace Extends
variable {t'' : FileTree}

theorem refl (t : FileTree) : t.Extends t :=
  ⟨rfl, fun _ => .inl rfl⟩

theorem trans (h : t.Extends t') (h' : t'.Extends t'') : t.Extends t'' where
  home := h'.home.trans h.home
  node? location := by
    rcases h.node? location with hsame | ⟨hnone, hmade⟩
    · rw [← hsame]
      exact h'.node? location
    · rcases h'.node? location with hsame' | ⟨hnone', -⟩
      · exact .inr ⟨hnone, hsame'.trans hmade⟩
      · cases hnone'.symm.trans hmade

theorem node?_eq_some (h : t.Extends t') {node : Node} (hnode : t.node? location = some node) :
    t'.node? location = some node := by
  rcases h.node? location with hsame | ⟨hnone, -⟩
  · rw [hsame, hnode]
  · cases hnone.symm.trans hnode

theorem file_iff (h : t.Extends t') {data : Bytes} :
    t'.node? location = some (.file data) ↔ t.node? location = some (.file data) := by
  refine ⟨fun hfile => ?_, h.node?_eq_some⟩
  rcases h.node? location with hsame | ⟨-, hmade⟩
  · rw [← hsame, hfile]
  · cases hmade.symm.trans hfile

theorem follow_cases (h : t.Extends t') (hfollow : t'.follow here name = .ok there) :
    t.follow here name = .ok there ∨ t.follow here name = refused .notFound := by
  obtain ⟨hnode, hcases⟩ := follow_eq_ok_iff.mp hfollow
  rcases h.node? here with hsame | ⟨hnone, -⟩
  · exact .inl (follow_eq_ok_iff.mpr ⟨hsame ▸ hnode, hcases⟩)
  · right
    rw [follow, hnone]

/-- On the way to where a path leads once there are more directories, only directories can be
missing. -/
theorem followAll_cases (h : t.Extends t') {names : List String}
    (hfollow : t'.followAll here names = .ok there) :
    t.followAll here names = .ok there ∨ t.followAll here names = refused .notFound := by
  induction names generalizing here with
  | nil => exact .inl hfollow
  | cons name rest ih =>
    obtain ⟨next, hnext, hrest⟩ := followAll_cons_eq_ok_iff.mp hfollow
    rw [followAll]
    rcases h.follow_cases hnext with hok | hnone
    · rw [hok]
      exact ih hrest
    · rw [hnone]
      exact .inr rfl

end Extends

theorem extends_putNode (hnone : t.node? location = none) :
    t.Extends (t.putNode location .directory) where
  home := rfl
  node? other := by
    rw [node?_putNode _ _ _ _ (ne_nil_of_node?_eq_none hnone)]
    split
    · rename_i heq
      exact .inr ⟨heq ▸ hnone, rfl⟩
    · exact .inl rfl

theorem makeAlong_cons_of_directory {rest : List String} (hfollow : t.follow here name = .ok there)
    (hnode : t.node? there = some .directory) :
    t.makeAlong here (name :: rest) = t.makeAlong there rest := by
  rw [makeAlong, hfollow]
  dsimp only
  rw [hnode]

/-- What is in the way stops everything. Otherwise there is a directory, and all goes on from it. -/
theorem makeAlong_cons_cases (t : FileTree) (here : Location) (name : String) (rest : List String) :
    (∃ e, t.makeAlong here (name :: rest) = (t, .error e)) ∨
      ∃ there t', t.follow here name = .ok there ∧ t'.node? there = some .directory ∧
        (t' = t ∨ t.node? there = none ∧ t' = t.putNode there .directory) ∧
        t.makeAlong here (name :: rest) = t'.makeAlong there rest := by
  cases hfollow : t.follow here name with
  | error e =>
    rw [makeAlong, hfollow]
    exact .inl ⟨e, rfl⟩
  | ok there =>
    cases hnode : t.node? there with
    | none =>
      refine .inr ⟨there, t.putNode there .directory, rfl, ?_, .inr ⟨hnode, rfl⟩, ?_⟩
      · rw [node?_putNode _ _ _ _ (ne_nil_of_node?_eq_none hnode), if_pos rfl]
      · rw [makeAlong, hfollow]
        dsimp only
        rw [hnode]
    | some node =>
      cases node with
      | directory =>
        exact .inr ⟨there, t, rfl, hnode, .inl rfl, makeAlong_cons_of_directory hfollow hnode⟩
      | file data =>
        left
        rw [makeAlong, hfollow]
        dsimp only
        rw [hnode]
        -- a file in the way is in the way of the next name, if there is one
        cases rest with
        | nil => exact ⟨_, rfl⟩
        | cons next rest =>
          dsimp only
          rw [makeAlong, follow, hnode]
          exact ⟨_, rfl⟩

theorem extends_of_made
    (h : t' = t ∨ t.node? there = none ∧ t' = t.putNode there .directory) : t.Extends t' := by
  rcases h with rfl | ⟨hnone, rfl⟩
  · exact .refl _
  · exact extends_putNode hnone

theorem extends_makeAlong (t : FileTree) (here : Location) (names : List String) :
    t.Extends (t.makeAlong here names).1 := by
  induction names generalizing t here with
  | nil => exact .refl t
  | cons name rest ih =>
    obtain ⟨e, heq⟩ | ⟨there, t', -, -, hmade, heq⟩ := makeAlong_cons_cases t here name rest
    · rw [heq]
      exact .refl t
    · rw [heq]
      exact (extends_of_made hmade).trans (ih t' there)

/-- A second time nothing is left to be made, and it comes to the same. -/
theorem makeAlong_makeAlong (t : FileTree) (here : Location) (names : List String) :
    (t.makeAlong here names).1.makeAlong here names = t.makeAlong here names := by
  induction names generalizing t here with
  | nil => rfl
  | cons name rest ih =>
    obtain ⟨e, heq⟩ | ⟨there, t', hfollow, hnode, hmade, heq⟩ :=
      makeAlong_cons_cases t here name rest
    · rw [heq]
      exact heq
    · have hgrown := (extends_of_made hmade).trans (extends_makeAlong t' there rest)
      have hthere := (extends_makeAlong t' there rest).node?_eq_some hnode
      rw [heq, makeAlong_cons_of_directory (follow_mono (fun _ => hgrown.node?_eq_some) hfollow)
        hthere, ih]

theorem exists_of_makeAlong_eq_ok {names : List String} (hhere : t.node? here = some .directory)
    (h : (t.makeAlong here names).2 = .ok ()) :
    ∃ d, (t.makeAlong here names).1.followAll here names = .ok d ∧
      (t.makeAlong here names).1.node? d = some .directory := by
  induction names generalizing t here with
  | nil => exact ⟨here, rfl, hhere⟩
  | cons name rest ih =>
    obtain ⟨e, heq⟩ | ⟨there, t', hfollow, hnode, hmade, heq⟩ :=
      makeAlong_cons_cases t here name rest
    · rw [heq] at h
      cases h
    · rw [heq] at h ⊢
      have hgrown := (extends_of_made hmade).trans (extends_makeAlong t' there rest)
      obtain ⟨d, hd, hdirectory⟩ := ih hnode h
      exact ⟨d, followAll_cons_eq_ok_iff.mpr
        ⟨there, follow_mono (fun _ => hgrown.node?_eq_some) hfollow, hd⟩, hdirectory⟩

theorem makeAlong_of_followAll {d : Location} {names : List String}
    (h : t.followAll here names = .ok d) (hd : t.node? d = some .directory) :
    t.makeAlong here names = (t, .ok ()) := by
  induction names generalizing here with
  | nil => rfl
  | cons name rest ih =>
    obtain ⟨next, hnext, hrest⟩ := followAll_cons_eq_ok_iff.mp h
    have hnode : t.node? next = some .directory := by
      cases rest with
      | nil =>
        obtain rfl := Except.ok.inj hrest
        exact hd
      | cons name' rest' =>
        obtain ⟨next', hnext', -⟩ := followAll_cons_eq_ok_iff.mp hrest
        exact (follow_eq_ok_iff.mp hnext').1
    rw [makeAlong_cons_of_directory hnext hnode]
    exact ih hrest

/-- Without ".." nothing is made further along than the way leads. -/
theorem node?_makeAlong_of_notMem {names : List String} (hdots : ".." ∉ names) (t : FileTree)
    (here : Location)
    (hlong : (here ++ names.filter (· ≠ ".")).length < location.length) :
    (t.makeAlong here names).1.node? location = t.node? location := by
  induction names generalizing t here with
  | nil => rfl
  | cons name rest ih =>
    rw [List.mem_cons, not_or] at hdots
    obtain ⟨e, heq⟩ | ⟨there, t', hfollow, -, hmade, heq⟩ :=
      makeAlong_cons_cases t here name rest
    · rw [heq]
    · have hthere : here ++ (name :: rest).filter (· ≠ ".") =
          there ++ rest.filter (· ≠ ".") := by
        have hsingle : there = here ++ [name].filter (· ≠ ".") :=
          followAll_of_notMem (by simpa using hdots.1) (followAll_singleton.mpr hfollow)
        rw [hsingle, List.append_assoc, ← List.filter_append, List.singleton_append]
      rw [hthere] at hlong
      rw [heq, ih hdots.2 t' there hlong]
      rcases hmade with rfl | ⟨hnone, rfl⟩
      · rfl
      · have hne : there ≠ location := by
          rintro rfl
          rw [List.length_append] at hlong
          omega
        rw [node?_putNode _ _ _ _ (ne_nil_of_node?_eq_none hnone), if_neg hne]

variable {path : String} {d : Location} {data : Bytes}

@[mk_iff]
structure HasDirectory (t : FileTree) (path : String) (d : Location) : Prop where
  fault : pathFault? path = none
  leads : t.LeadsTo path d

instance (t : FileTree) (path : String) (d : Location) : Decidable (t.HasDirectory path d) :=
  decidable_of_iff _ (hasDirectory_iff t path d).symm

theorem makeDirectories_of_fault {e : Fault} (h : pathFault? path = some e) (t : FileTree) :
    t.makeDirectories path = (t, .error e) := by
  rw [makeDirectories, h]

theorem makeDirectories_of_none (h : pathFault? path = none) (t : FileTree) :
    t.makeDirectories path = t.makeAlong (t.start path) (names path) := by
  rw [makeDirectories, h]

theorem HasDirectory.makeDirectories_eq (h : t.HasDirectory path d) :
    t.makeDirectories path = (t, .ok ()) := by
  rw [makeDirectories_of_none h.fault]
  exact makeAlong_of_followAll h.leads.1 h.leads.2

theorem extends_makeDirectories (t : FileTree) (path : String) :
    t.Extends (t.makeDirectories path).1 := by
  cases hfault : pathFault? path with
  | some e =>
    rw [makeDirectories_of_fault hfault]
    exact .refl t
  | none =>
    rw [makeDirectories_of_none hfault]
    exact extends_makeAlong t _ _

theorem makeDirectories_makeDirectories (t : FileTree) (path : String) :
    (t.makeDirectories path).1.makeDirectories path = t.makeDirectories path := by
  cases hfault : pathFault? path with
  | some e => rw [makeDirectories_of_fault hfault, makeDirectories_of_fault hfault]
  | none =>
    have hstart : (t.makeDirectories path).1.start path = t.start path := by
      rw [start, start, (extends_makeDirectories t path).home]
    rw [makeDirectories_of_none hfault, hstart, makeDirectories_of_none hfault,
      makeAlong_makeAlong]

theorem namesOf_ne_nil {name : List Char} (h : name ≠ []) (cs : List Char) :
    namesOf name cs ≠ [] := by
  induction cs generalizing name with
  | nil => simp [namesOf, h]
  | cons c cs ih =>
    rw [namesOf]
    split_ifs
    · rename_i hempty
      exact absurd (List.isEmpty_iff.mp hempty) h
    · exact List.cons_ne_nil _ _
    · exact ih (List.cons_ne_nil _ _)

theorem start_of_names_eq_nil (hfault : pathFault? path = none) (h : names path = []) :
    t.start path = [] := by
  refine if_pos ?_
  rw [String.startsWith_string_iff]
  cases hchars : path.toList with
  | nil =>
    rw [String.toList_eq_nil_iff.mp hchars] at hfault
    cases hfault
  | cons c cs =>
    by_cases hslash : c = '/'
    · rw [hslash]
      exact ⟨cs, rfl⟩
    · rw [names, hchars, namesOf, if_neg hslash] at h
      exact absurd h (namesOf_ne_nil (List.cons_ne_nil _ _) cs)

theorem hasDirectory_of_makeDirectories (h : (t.makeDirectories path).2 = .ok ()) :
    ∃ d, (t.makeDirectories path).1.HasDirectory path d := by
  cases hfault : pathFault? path with
  | some e =>
    rw [makeDirectories_of_fault hfault] at h
    cases h
  | none =>
    have hstart : (t.makeDirectories path).1.start path = t.start path := by
      rw [start, start, (extends_makeDirectories t path).home]
    rw [makeDirectories_of_none hfault] at h hstart ⊢
    have hhere : t.node? (t.start path) = some .directory := by
      cases hnames : names path with
      | nil => rw [start_of_names_eq_nil hfault hnames]; rfl
      | cons name rest =>
        rw [hnames] at h
        obtain ⟨e, heq⟩ | ⟨there, t', hfollow, -⟩ :=
          makeAlong_cons_cases t (t.start path) name rest
        · rw [heq] at h
          cases h
        · exact (follow_eq_ok_iff.mp hfollow).1
    obtain ⟨d, hd⟩ := exists_of_makeAlong_eq_ok hhere h
    exact ⟨d, hfault, by rw [LeadsTo, hstart]; exact hd⟩

theorem HasDirectory.locate_eq (h : t.HasDirectory path d) : t.locate path = .ok d := by
  obtain ⟨hfault, hfollow, hnode⟩ := h
  have hdot : t.follow d "." = .ok d := follow_eq_ok_iff.mpr ⟨hnode, .inl ⟨rfl, rfl⟩⟩
  rw [locate, hfault]
  dsimp only
  rw [followAll_append, hfollow]
  dsimp only
  split_ifs
  · rw [followAll_singleton, hdot]
  · rfl

structure SameDirectories (t t' : FileTree) : Prop where
  home : t'.home = t.home
  directory_iff (location : Location) :
    t'.node? location = some .directory ↔ t.node? location = some .directory

theorem SameDirectories.refl (t : FileTree) : t.SameDirectories t :=
  ⟨rfl, fun _ => Iff.rfl⟩

theorem SameDirectories.trans {t'' : FileTree} (h : t.SameDirectories t')
    (h' : t'.SameDirectories t'') : t.SameDirectories t'' where
  home := h'.home.trans h.home
  directory_iff location := (h'.directory_iff location).trans (h.directory_iff location)

theorem sameDirectories_putNode (hne : location ≠ []) (h : t.node? location ≠ some .directory)
    (data : Bytes) : t.SameDirectories (t.putNode location (.file data)) where
  home := rfl
  directory_iff other := by
    rw [node?_putNode _ _ _ _ hne]
    split
    · rename_i heq
      subst heq
      exact ⟨by nofun, fun hnode => absurd hnode h⟩
    · exact Iff.rfl

theorem sameDirectories_eraseNode (hnode : t.node? location = some (.file data)) :
    t.SameDirectories (t.eraseNode location) where
  home := rfl
  directory_iff other := by
    have hne : location ≠ [] := by
      rintro rfl
      cases hnode
    rw [node?_eraseNode hne]
    split
    · rename_i heq
      rw [← heq, hnode]
      exact ⟨by nofun, by nofun⟩
    · exact Iff.rfl

theorem SameDirectories.leadsTo_iff (h : t.SameDirectories t') :
    t'.LeadsTo path d ↔ t.LeadsTo path d :=
  ⟨.mono h.home.symm fun location => (h.directory_iff location).mp,
    .mono h.home fun location => (h.directory_iff location).mpr⟩

theorem SameDirectories.hasDirectory_iff (h : t.SameDirectories t') :
    t'.HasDirectory path d ↔ t.HasDirectory path d :=
  ⟨fun ⟨hfault, hleads⟩ => ⟨hfault, h.leadsTo_iff.mp hleads⟩,
    fun ⟨hfault, hleads⟩ => ⟨hfault, h.leadsTo_iff.mpr hleads⟩⟩

theorem write_eq_ok_iff : t.write path data = .ok t' ↔
    ∃ location, t.locate path = .ok location ∧ t.node? location ≠ some .directory ∧
      t' = t.putNode location (.file data) := by
  rw [write]
  cases t.locate path with
  | error e => simp
  | ok location =>
    cases hnode : t.node? location with
    | none => simp [hnode, eq_comm]
    | some node => cases node <;> simp [refused, hnode, eq_comm]

theorem remove_eq (hlocate : t.locate path = .ok location)
    (hnode : t.node? location = some (.file data)) :
    t.remove path = .ok (t.eraseNode location) := by
  rw [remove, hlocate]
  dsimp only
  rw [hnode]

theorem rename_eq_ok_iff {old new : String} {source : Location}
    (hlocate : t.locate old = .ok source) (hnode : t.node? source = some (.file data)) :
    t.rename old new = .ok t' ↔
      ∃ target, t.locate new = .ok target ∧ t.node? target ≠ some .directory ∧
        t' = if source = target then t else (t.putNode target (.file data)).eraseNode source := by
  have hread : t.read old = .ok data := read_eq_ok_iff.mpr ⟨source, hlocate, hnode⟩
  rw [rename, hread]
  dsimp only
  cases hwrite : t.write new data with
  | error e =>
    constructor
    · intro h
      cases h
    · rintro ⟨target, htarget, hfree, -⟩
      have hok : t.write new data = .ok (t.putNode target (.file data)) :=
        write_eq_ok_iff.mpr ⟨target, htarget, hfree, rfl⟩
      cases hwrite.symm.trans hok
  | ok written =>
    obtain ⟨target, htarget, hfree, rfl⟩ := write_eq_ok_iff.mp hwrite
    simp only [hlocate, htarget, Except.ok.injEq, exists_eq_left', hfree, ne_eq,
      not_false_eq_true, true_and]
    exact eq_comm

end FileTree

end RankOne
