import RankOne.Proofs.FaultyDisk

/-!
# Archives as maps

What saves in a row leave of the archives in one root, when any of their operations may fail. An
artifact is there if and only if some save of it did not fail, and it has the data of the last such
save, whatever has become of other saves. No temporary file stays.
-/

set_option autoImplicit false

namespace RankOne
open FileTree

namespace Archive

def nested (root : String) (scopes : List String) : Archive :=
  scopes.foldl within ⟨root, ""⟩

def IsPlain (scopes : List String) : Prop :=
  ∀ scope ∈ scopes, '/' ∉ scope.toList

instance (scopes : List String) : Decidable (IsPlain scopes) :=
  inferInstanceAs (Decidable (∀ scope ∈ scopes, '/' ∉ scope.toList))

theorem nested_eq (root : String) (scopes : List String) :
    nested root scopes = ⟨root, String.join scopes⟩ := by
  have hfold : ∀ scope,
      scopes.foldl within ⟨root, scope⟩ = ⟨root, scope ++ String.join scopes⟩ := by
    induction scopes with
    | nil => simp
    | cons inner scopes ih =>
      intro scope
      rw [List.foldl_cons, within, ih, String.join_cons, String.append_assoc]
  rw [nested, hfold, String.empty_append]

theorem IsPlain.slash_notMem {scopes : List String} (h : IsPlain scopes) :
    '/' ∉ (String.join scopes).toList := by
  induction scopes with
  | nil => simp
  | cons scope scopes ih =>
    rw [IsPlain, List.forall_mem_cons] at h
    rw [String.join_cons, String.toList_append, List.mem_append, not_or]
    exact ⟨h.1, ih h.2⟩

structure Save where
  scopes : List String
  artifact : Artifact
  data : Bytes
  trouble : Trouble

namespace Save

def scope (save : Save) : String :=
  String.join save.scopes

def file (save : Save) : String :=
  save.artifact.file save.scope

def run (root : String) (save : Save) (disk : FaultyDisk) : Except Fault String × FaultyDisk :=
  ((nested root save.scopes).save save.artifact.name save.data :
    ExceptT Fault (StateM FaultyDisk) String).run { disk with trouble := save.trouble }

end Save

abbrev Log := List (Save × Except Fault String)

def Saved (scope : String) (x : Artifact) (entry : Save × Except Fault String) : Prop :=
  entry.1.scope = scope ∧ entry.1.artifact = x ∧ entry.2.isOk = true

instance (scope : String) (x : Artifact) (entry : Save × Except Fault String) :
    Decidable (Saved scope x entry) :=
  inferInstanceAs (Decidable (_ ∧ _ ∧ _))

def lastSaved (scope : String) (x : Artifact) (log : Log) : Option Bytes :=
  ((log.filter fun entry => Saved scope x entry).getLast?).map fun entry => entry.1.data

theorem lastSaved_append (scope : String) (x : Artifact) (log : Log)
    (entry : Save × Except Fault String) :
    lastSaved scope x (log ++ [entry]) =
      if Saved scope x entry then some entry.1.data else lastSaved scope x log := by
  rw [lastSaved, List.filter_append]
  split_ifs with h
  · rw [List.filter_cons_of_pos (by simpa using h), List.filter_nil, List.getLast?_concat]
    rfl
  · rw [List.filter_cons_of_neg (by simpa using h), List.filter_nil, List.append_nil]
    rfl

theorem isSome_lastSaved_iff {scope : String} {x : Artifact} {log : Log} :
    (lastSaved scope x log).isSome ↔ ∃ entry ∈ log, Saved scope x entry := by
  rw [lastSaved, Option.isSome_map, List.getLast?_isSome, Ne, List.filter_eq_nil_iff]
  simp

structure History where
  disk : FaultyDisk
  log : Log

def History.step (root : String) (history : History) (save : Save) : History :=
  let r := save.run root history.disk
  ⟨r.2, history.log ++ [(save, r.1)]⟩

def after (start : FileTree) (root : String) (saves : List Save) : History :=
  saves.foldl (History.step root) ⟨⟨start, {}, []⟩, []⟩

def fill (base : FileTree) (d : Location) (log : Log) : FileTree :=
  log.foldl (fun t entry =>
    if entry.2.isOk then t.putNode (d ++ [entry.1.file]) (.file entry.1.data) else t) base

variable {base start t u : FileTree} {d : Location} {root scope : String} {x : Artifact} {log : Log}
  {entry : Save × Except Fault String}

theorem fill_append (base : FileTree) (d : Location) (log : Log)
    (entry : Save × Except Fault String) :
    fill base d (log ++ [entry]) =
      if entry.2.isOk then (fill base d log).putNode (d ++ [entry.1.file]) (.file entry.1.data)
      else fill base d log :=
  List.foldl_append

theorem node?_fill (base : FileTree) (d : Location) (log : Log) (scope : String) (x : Artifact) :
    (fill base d log).node? (d ++ [x.file scope]) =
      match lastSaved scope x log with
      | some data => some (.file data)
      | none => base.node? (d ++ [x.file scope]) := by
  induction log using List.reverseRecOn with
  | nil => rfl
  | append_singleton log entry ih =>
    -- no other artifact in any scope shares the file
    have hfile : d ++ [entry.1.file] = d ++ [x.file scope] ↔
        entry.1.scope = scope ∧ entry.1.artifact = x := by
      rw [FileTree.child_inj, Save.file, Artifact.file_eq_file_iff]
    rw [fill_append, lastSaved_append]
    by_cases hok : entry.2.isOk = true
    · rw [if_pos hok, node?_putNode _ _ _ _ (child_ne_nil _ _)]
      by_cases hsame : entry.1.scope = scope ∧ entry.1.artifact = x
      · rw [if_pos (hfile.mpr hsame), if_pos ⟨hsame.1, hsame.2, hok⟩]
      · rw [if_neg (mt hfile.mp hsame), if_neg fun h => hsame ⟨h.1, h.2.1⟩, ih]
    · rw [if_neg hok, if_neg fun h => hok h.2.2, ih]

theorem node?_fill_of_forall_ne {location : Location}
    (h : ∀ entry ∈ log, entry.2.isOk = true → d ++ [entry.1.file] ≠ location) :
    (fill base d log).node? location = base.node? location := by
  induction log using List.reverseRecOn with
  | nil => rfl
  | append_singleton log entry ih =>
    rw [List.forall_mem_append, List.forall_mem_singleton] at h
    rw [fill_append]
    split_ifs with hok
    · rw [node?_putNode _ _ _ _ (child_ne_nil _ _), if_neg (h.2 hok), ih h.1]
    · exact ih h.1

theorem fill_of_forall_not (h : ∀ entry ∈ log, ¬entry.2.isOk = true) (base : FileTree)
    (d : Location) : fill base d log = base := by
  induction log using List.reverseRecOn with
  | nil => rfl
  | append_singleton log entry ih =>
    rw [List.forall_mem_append, List.forall_mem_singleton] at h
    rw [fill_append, if_neg h.2, ih h.1]

theorem sameDirectories_fill
    (h : ∀ entry ∈ log, entry.2.isOk = true → base.node? (d ++ [entry.1.file]) ≠ some .directory) :
    base.SameDirectories (fill base d log) := by
  induction log using List.reverseRecOn with
  | nil => exact .refl base
  | append_singleton log entry ih =>
    rw [List.forall_mem_append, List.forall_mem_singleton] at h
    have hsame := ih h.1
    rw [fill_append]
    split_ifs with hok
    · refine hsame.trans (sameDirectories_putNode (child_ne_nil _ _) ?_ _)
      rw [Ne, hsame.directory_iff]
      exact h.2 hok
    · exact hsame

def IsVacant (start : FileTree) (root scope : String) (x : Artifact) : Prop :=
  (start.makeDirectories root).1.present (path ⟨root, scope⟩ x.name) = false

/-- Without ".." in the root it is enough that nothing is there at the start. -/
theorem isVacant_of_notMem (hdots : ".." ∉ names root) (hscope : '/' ∉ scope.toList)
    (hnone : start.node? (start.start root ++ (names root).filter (· ≠ ".") ++ [x.file scope]) =
      none) : IsVacant start root scope x := by
  rw [IsVacant, Bool.eq_false_iff]
  intro hpresent
  obtain ⟨-, d, hleads, hnode⟩ := (present_joinPath (x.isName_file hscope)).mp hpresent
  obtain rfl := followAll_of_notMem hdots hleads.1
  rw [FileTree.start, (extends_makeDirectories start root).home, ← FileTree.start] at hnode
  have hsame : (start.makeDirectories root).1.node?
      (start.start root ++ (names root).filter (· ≠ ".") ++ [x.file scope]) = none := by
    cases hfault : pathFault? root with
    | some e => rw [makeDirectories_of_fault hfault, hnone]
    | none =>
      rw [makeDirectories_of_none hfault, node?_makeAlong_of_notMem hdots, hnone]
      simp only [List.length_append, List.length_singleton, Nat.lt_succ_self]
  rw [hsame] at hnode
  cases hnode

theorem isVacant_empty {home : Location} (hdots : ".." ∉ names root)
    (hrelative : ¬root.startsWith "/" = true) (hscope : '/' ∉ scope.toList) :
    IsVacant (FileTree.empty home) root scope x := by
  refine isVacant_of_notMem hdots hscope (node?_empty_of_length_lt ?_)
  have hstart : (FileTree.empty home).start root = home := if_neg hrelative
  rw [hstart, List.append_assoc, List.length_append, List.length_append, List.length_singleton]
  omega

/-- Whether a tree is what saves have come to. The base is the start, with the root made or not, and
the saves that did not fail have put their files into one directory of it, which the root is. -/
structure Stores (start : FileTree) (root : String) (base : FileTree) (d : Location) (log : Log)
    (t : FileTree) : Prop where
  base_eq : base = start ∨ base = (start.makeDirectories root).1
  eq_fill : t = fill base d log
  plain : ∀ entry ∈ log, IsPlain entry.1.scopes
  placed : ∀ entry ∈ log, entry.2.isOk = true →
    base.HasDirectory root d ∧ FaultyDisk.IsFree base root d entry.1.file

namespace Stores
variable (h : Stores start root base d log t)
include h

theorem sameDirectories : base.SameDirectories t := by
  rw [h.eq_fill]
  exact sameDirectories_fill fun entry hentry hok => (h.placed entry hentry hok).2.2

theorem extends_base : base.Extends (start.makeDirectories root).1 := by
  rcases h.base_eq with rfl | rfl
  · exact extends_makeDirectories _ _
  · exact .refl _

/-- There is nothing but the base as long as all saves have failed. -/
theorem hasDirectory_or_eq :
    base.HasDirectory root d ∨ (∀ entry ∈ log, ¬entry.2.isOk = true) ∧ t = base := by
  by_cases hsome : ∃ entry ∈ log, entry.2.isOk = true
  · obtain ⟨entry, hentry, hok⟩ := hsome
    exact .inl (h.placed entry hentry hok).1
  · have hnone : ∀ entry ∈ log, ¬entry.2.isOk = true := fun entry hentry hok =>
      hsome ⟨entry, hentry, hok⟩
    exact .inr ⟨hnone, h.eq_fill.trans (fill_of_forall_not hnone base d)⟩

/-- The directory is the one that the root is now, if that is one. -/
theorem at_of_hasDirectory {d' : Location} (hd' : t.HasDirectory root d') :
    Stores start root base d' log t := by
  have hbase := h.sameDirectories.hasDirectory_iff.mp hd'
  rcases h.hasDirectory_or_eq with hd | ⟨hnone, heq⟩
  · obtain rfl := hd.leads.unique hbase.leads
    exact h
  · exact ⟨h.base_eq, by rw [heq, fill_of_forall_not hnone], h.plain,
      fun entry hentry hok => absurd hok (hnone entry hentry)⟩

/-- To make the root changes nothing that is stored. Only the first time it changes the base. -/
theorem exists_makeDirectories :
    ∃ base', Stores start root base' d log (t.makeDirectories root).1 := by
  rcases h.hasDirectory_or_eq with hd | ⟨hnone, heq⟩
  · rw [(h.sameDirectories.hasDirectory_iff.mpr hd).makeDirectories_eq]
    exact ⟨base, h⟩
  · have hmade : (t.makeDirectories root).1 = (start.makeDirectories root).1 := by
      rcases h.base_eq with hbase | hbase
      · rw [heq, hbase]
      · rw [heq, hbase, makeDirectories_makeDirectories]
    exact ⟨_, .inr rfl, by rw [hmade, fill_of_forall_not hnone], h.plain,
      fun entry hentry hok => absurd hok (hnone entry hentry)⟩

theorem append (entry : Save × Except Fault String) (hplain : IsPlain entry.1.scopes)
    (hplaced : entry.2.isOk = true →
      t.HasDirectory root d ∧ FaultyDisk.IsFree t root d entry.1.file) :
    Stores start root base d (log ++ [entry])
      (if entry.2.isOk then t.putNode (d ++ [entry.1.file]) (.file entry.1.data) else t) where
  base_eq := h.base_eq
  eq_fill := by rw [fill_append, ← h.eq_fill]
  plain := List.forall_mem_append.mpr ⟨h.plain, List.forall_mem_singleton.mpr hplain⟩
  placed := by
    refine List.forall_mem_append.mpr ⟨h.placed, List.forall_mem_singleton.mpr fun hok => ?_⟩
    obtain ⟨hd, hadmits, hfree⟩ := hplaced hok
    exact ⟨h.sameDirectories.hasDirectory_iff.mp hd, hadmits,
      (h.sameDirectories.directory_iff _).not.mp hfree⟩

theorem of_lastSaved {data : Bytes} (hsaved : lastSaved scope x log = some data) :
    Admits root (x.file scope) ∧
      ∃ d, t.LeadsTo root d ∧ t.node? (d ++ [x.file scope]) = some (.file data) := by
  have hsome : (lastSaved scope x log).isSome := by rw [hsaved]; rfl
  obtain ⟨entry, hentry, rfl, rfl, hok⟩ := isSome_lastSaved_iff.mp hsome
  obtain ⟨hd, hadmits, -⟩ := h.placed entry hentry hok
  refine ⟨hadmits, d, h.sameDirectories.leadsTo_iff.mpr hd.leads, ?_⟩
  rw [h.eq_fill, node?_fill, hsaved]

theorem not_present_of_lastSaved (hscope : '/' ∉ scope.toList)
    (hvacant : IsVacant start root scope x) (hnone : lastSaved scope x log = none) :
    ¬t.present (joinPath root (x.file scope)) = true := by
  have hfile := x.isName_file hscope
  intro hpresent
  obtain ⟨hadmits, d', hleads, hnode⟩ := (present_joinPath hfile).mp hpresent
  have hbase : base.LeadsTo root d' := h.sameDirectories.leadsTo_iff.mp hleads
  have hsame : t.node? (d' ++ [x.file scope]) = base.node? (d' ++ [x.file scope]) := by
    rcases h.hasDirectory_or_eq with hd | ⟨-, heq⟩
    · obtain rfl := hd.leads.unique hbase
      rw [h.eq_fill, node?_fill, hnone]
    · rw [heq]
  obtain ⟨node, hnode⟩ := Option.isSome_iff_exists.mp (hsame ▸ hnode)
  have hextends := h.extends_base
  have hthere : (start.makeDirectories root).1.present (joinPath root (x.file scope)) = true := by
    refine (present_joinPath hfile).mpr ⟨hadmits, d', hbase.mono hextends.home
      fun _ => hextends.node?_eq_some, ?_⟩
    rw [hextends.node?_eq_some hnode]
    rfl
  cases hthere.symm.trans hvacant

end Stores

def Shows (t : FileTree) (root : String) (log : Log) (scope : String) (x : Artifact) : Prop :=
  (t.present (joinPath root (x.file scope)) = true ↔ (lastSaved scope x log).isSome) ∧
    ∀ data, t.read (joinPath root (x.file scope)) = .ok data ↔ lastSaved scope x log = some data

theorem Stores.shows (h : Stores start root base d log t) (hscope : '/' ∉ scope.toList)
    (hvacant : IsVacant start root scope x) : Shows t root log scope x := by
  have hfile := x.isName_file hscope
  cases hsaved : lastSaved scope x log with
  | none =>
    have hnot := h.not_present_of_lastSaved hscope hvacant hsaved
    rw [Shows, hsaved]
    refine ⟨iff_of_false hnot nofun, fun data => iff_of_false (fun hread => hnot ?_) nofun⟩
    obtain ⟨hadmits, d', hleads, hnode⟩ := (read_joinPath hfile).mp hread
    exact (present_joinPath hfile).mpr ⟨hadmits, d', hleads, by rw [hnode]; rfl⟩
  | some saved =>
    obtain ⟨hadmits, d', hleads, hnode⟩ := h.of_lastSaved hsaved
    have hread := (read_joinPath hfile).mpr ⟨hadmits, d', hleads, hnode⟩
    have hpresent := (present_joinPath hfile).mpr
      ⟨hadmits, d', hleads, Option.isSome_iff_exists.mpr ⟨_, hnode⟩⟩
    rw [Shows, hsaved]
    refine ⟨iff_of_true hpresent rfl, fun data => ?_⟩
    rw [hread, Except.ok.injEq, Option.some_inj]

theorem Shows.of_isDrafted (h : Shows t root log scope x) (hscope : '/' ∉ scope.toList)
    {name : String} (hroom : t.HasRoom root d name) (hu : t.IsDrafted d name u) :
    Shows u root log scope x := by
  have hfile := x.isName_file hscope
  obtain ⟨bytes, rfl⟩ := hu
  have hleads {d' : Location} : (t.putNode (d ++ [name]) (.file bytes)).LeadsTo root d' ↔
      t.LeadsTo root d' := (hroom.sameDirectories bytes).leadsTo_iff
  have hnode (d' : Location) : (t.putNode (d ++ [name]) (.file bytes)).node?
      (d' ++ [x.file scope]) = t.node? (d' ++ [x.file scope]) := by
    rw [node?_putNode _ _ _ _ (child_ne_nil _ _), if_neg]
    intro heq
    exact x.file_ne_of_isDraft hroom.isDraft _
      (List.singleton_inj.mp (List.append_inj' heq rfl).2).symm
  rw [Shows, present_joinPath hfile]
  simp only [read_joinPath hfile, hleads, hnode]
  simp only [← read_joinPath hfile, ← present_joinPath hfile]
  exact h

variable {history : History} {save : Save}

theorem Save.exists_run (root : String) {disk : FaultyDisk} (hhome : IsNamed disk.files.home)
    (hplain : IsPlain save.scopes) :
    let made := disk.files.makeDirectories root
    ∃ r s', save.run root disk = (r, s') ∧
      (∃ moments, s'.past = moments ++ disk.past ∧ ∀ u ∈ moments, Moment disk.files root u) ∧
      (r.isOk = true ∧ CanSave save.trouble disk.files root save.file ∧
          (∃ d, made.1.HasDirectory root d ∧ FaultyDisk.IsFree made.1 root d save.file ∧
            s'.files = made.1.putNode (d ++ [save.file]) (.file save.data)) ∨
        ¬r.isOk = true ∧ ¬CanSave save.trouble disk.files root save.file ∧
          (s'.files = disk.files ∨ s'.files = made.1)) := by
  intro made
  let a : Archive := ⟨root, String.join save.scopes⟩
  let s : FaultyDisk := { disk with trouble := save.trouble }
  obtain ⟨r, s', hrun, hpasses, hcases⟩ :=
    ends_save (a := a) (s := s) hhome hplain.slash_notMem save.artifact save.data
  refine ⟨r, s', by rw [Save.run, nested_eq]; exact hrun, hpasses.past, hcases.imp ?_ ?_⟩
  · rintro ⟨rfl, hput⟩
    exact ⟨rfl, hput⟩
  · rintro ⟨⟨e, rfl⟩, hfiles⟩
    exact ⟨nofun, hfiles⟩

/-- All that there is in the course of a save shows what there was before. -/
theorem Stores.shows_of_moment (h : Stores start root base d log t) (hscope : '/' ∉ scope.toList)
    (hvacant : IsVacant start root scope x) (hu : Moment t root u) : Shows u root log scope x := by
  obtain ⟨base', hmade⟩ := h.exists_makeDirectories
  rcases hu with rfl | rfl | ⟨d', name, hroom, hdrafted⟩
  · exact h.shows hscope hvacant
  · exact hmade.shows hscope hvacant
  · exact (hmade.shows hscope hvacant).of_isDrafted hscope hroom hdrafted

theorem Stores.isNamed_home (h : Stores start root base d log t) (hhome : IsNamed start.home) :
    IsNamed t.home := by
  rw [h.sameDirectories.home, ← h.extends_base.home, (extends_makeDirectories start root).home]
  exact hhome

def IsStored (start : FileTree) (root : String) (history : History) : Prop :=
  ∃ base d, Stores start root base d history.log history.disk.files

theorem IsStored.step (h : IsStored start root history) (hhome : IsNamed start.home)
    (hplain : IsPlain save.scopes) : IsStored start root (history.step root save) := by
  obtain ⟨base, d, hstores⟩ := h
  -- the root may have been made even where the save fails afterwards
  obtain ⟨base', hmade⟩ := hstores.exists_makeDirectories
  obtain ⟨r, s', hrun, -, hcases⟩ :=
    Save.exists_run root (hstores.isNamed_home hhome) hplain
  have hstep : history.step root save = ⟨s', history.log ++ [(save, r)]⟩ := by
    rw [History.step, hrun]
  rw [hstep]
  obtain ⟨hok, -, d', hd', hfree, hput⟩ | ⟨hfailed, -, hfiles | hfiles⟩ := hcases
  · have happend := (hmade.at_of_hasDirectory hd').append (save, r) hplain fun _ => ⟨hd', hfree⟩
    rw [if_pos hok] at happend
    exact ⟨base', d', by rw [hput]; exact happend⟩
  · have happend := hstores.append (save, r) hplain fun hok => absurd hok hfailed
    rw [if_neg hfailed] at happend
    exact ⟨base, d, by rw [hfiles]; exact happend⟩
  · have happend := hmade.append (save, r) hplain fun hok => absurd hok hfailed
    rw [if_neg hfailed] at happend
    exact ⟨base', d, by rw [hfiles]; exact happend⟩

theorem IsStored.foldl_step (h : IsStored start root history) (hhome : IsNamed start.home)
    {saves : List Save} (hplain : ∀ save ∈ saves, IsPlain save.scopes) :
    IsStored start root (saves.foldl (History.step root) history) := by
  induction saves generalizing history with
  | nil => exact h
  | cons save rest ih =>
    rw [List.forall_mem_cons] at hplain
    exact ih (h.step hhome hplain.1) hplain.2

theorem isStored_after (root : String) (hhome : IsNamed start.home) {saves : List Save}
    (hplain : ∀ save ∈ saves, IsPlain save.scopes) :
    IsStored start root (after start root saves) := by
  refine IsStored.foldl_step ⟨start, [], .inl rfl, rfl, ?_, ?_⟩ hhome hplain
  all_goals exact List.forall_mem_nil _

theorem log_foldl_step (root : String) (saves : List Save) (history : History) :
    (saves.foldl (History.step root) history).log.map Prod.fst =
      history.log.map Prod.fst ++ saves := by
  induction saves generalizing history with
  | nil => exact (List.append_nil _).symm
  | cons save rest ih =>
    rw [List.foldl_cons, ih, History.step, List.map_append, List.append_assoc]
    rfl

theorem log_after (start : FileTree) (root : String) (saves : List Save) :
    (after start root saves).log.map Prod.fst = saves :=
  log_foldl_step root saves _

namespace Stores
variable (h : Stores start root base d log t)
include h

theorem locate_eq {entry : Save × Except Fault String} (hentry : entry ∈ log)
    (hok : entry.2.isOk = true) :
    t.locate (joinPath root entry.1.file) = .ok (d ++ [entry.1.file]) := by
  have hfile := entry.1.artifact.isName_file (h.plain entry hentry).slash_notMem
  obtain ⟨hd, hadmits, -⟩ := h.placed entry hentry hok
  exact (locate_joinPath_eq_ok_iff hfile).mpr
    ⟨hadmits, d, h.sameDirectories.leadsTo_iff.mpr hd.leads, rfl⟩

theorem exists_entry {location : Location} (hscope : '/' ∉ scope.toList)
    (hlocate : t.locate (joinPath root (x.file scope)) = .ok location)
    (hsaved : (lastSaved scope x log).isSome) :
    ∃ entry ∈ log, entry.2.isOk = true ∧ d ++ [entry.1.file] = location := by
  obtain ⟨entry, hentry, rfl, rfl, hok⟩ := isSome_lastSaved_iff.mp hsaved
  exact ⟨entry, hentry, hok, Except.ok.inj ((h.locate_eq hentry hok).symm.trans hlocate)⟩

/-- There are the files that have been saved, each as it was saved last, and those of the start in
whose place none has been saved. -/
theorem file_iff {location : Location} {data : Bytes} :
    t.node? location = some (.file data) ↔
      (∃ scopes x, IsPlain scopes ∧
        t.locate (joinPath root (x.file (String.join scopes))) = .ok location ∧
        lastSaved (String.join scopes) x log = some data) ∨
      start.node? location = some (.file data) ∧ ∀ scopes x, IsPlain scopes →
        t.locate (joinPath root (x.file (String.join scopes))) = .ok location →
        lastSaved (String.join scopes) x log = none := by
  have hbase : base.node? location = some (.file data) ↔
      start.node? location = some (.file data) := by
    rcases h.base_eq with rfl | rfl
    · exact Iff.rfl
    · exact (extends_makeDirectories start root).file_iff
  constructor
  · intro hnode
    by_cases hput : ∀ entry ∈ log, entry.2.isOk = true → d ++ [entry.1.file] ≠ location
    · right
      rw [h.eq_fill, node?_fill_of_forall_ne hput, hbase] at hnode
      refine ⟨hnode, fun scopes x hscopes hlocate =>
        Option.not_isSome_iff_eq_none.mp fun hsaved => ?_⟩
      obtain ⟨entry, hentry, hok, heq⟩ := h.exists_entry hscopes.slash_notMem hlocate hsaved
      exact hput entry hentry hok heq
    · left
      push Not at hput
      obtain ⟨entry, hentry, hok, rfl⟩ := hput
      have hsome : (lastSaved entry.1.scope entry.1.artifact log).isSome :=
        isSome_lastSaved_iff.mpr ⟨entry, hentry, rfl, rfl, hok⟩
      obtain ⟨saved, hsaved⟩ := Option.isSome_iff_exists.mp hsome
      have hfill := node?_fill base d log entry.1.scope entry.1.artifact
      rw [hsaved, ← h.eq_fill] at hfill
      have hdata : saved = data := Node.file.inj (Option.some.inj (hfill.symm.trans hnode))
      exact ⟨entry.1.scopes, entry.1.artifact, h.plain entry hentry, h.locate_eq hentry hok,
        hdata ▸ hsaved⟩
  · rintro (⟨scopes, x, hscopes, hlocate, hsaved⟩ | ⟨hstart, hnone⟩)
    · obtain ⟨-, d', hleads, rfl⟩ :=
        (locate_joinPath_eq_ok_iff (x.isName_file hscopes.slash_notMem)).mp hlocate
      obtain ⟨-, d'', hleads', hnode⟩ := h.of_lastSaved hsaved
      rwa [hleads.unique hleads']
    · have hput : ∀ entry ∈ log, entry.2.isOk = true → d ++ [entry.1.file] ≠ location := by
        rintro entry hentry hok rfl
        have hsome : (lastSaved entry.1.scope entry.1.artifact log).isSome :=
          isSome_lastSaved_iff.mpr ⟨entry, hentry, rfl, rfl, hok⟩
        have hnone' := hnone _ entry.1.artifact (h.plain entry hentry) (h.locate_eq hentry hok)
        exact Option.not_isSome_iff_eq_none.mpr hnone' hsome
      rw [h.eq_fill, node?_fill_of_forall_ne hput, hbase]
      exact hstart

end Stores

/-- Whether a disk answers for an artifact what saves have come to: there is the artifact if and
only if a save of it did not fail, and what is read are the data of the last such save. -/
def Reflects (s : FaultyDisk) (root : String) (log : Log) (scopes : List String) (x : Artifact) :
    Prop :=
  (∃ there, ((nested root scopes).holds x.name : StateM FaultyDisk Bool) s = (there, s) ∧
    (there = true ↔ ∃ entry ∈ log, Saved (String.join scopes) x entry)) ∧
  ∃ r, ((nested root scopes).load x.name : ExceptT Fault (StateM FaultyDisk) Bytes).run s =
    (r, s) ∧ ∀ data, r = .ok data ↔ lastSaved (String.join scopes) x log = some data

theorem Shows.reflects {s : FaultyDisk} {scopes : List String}
    (h : Shows s.files root log (String.join scopes) x) : Reflects s root log scopes x := by
  rw [Reflects, nested_eq]
  exact ⟨⟨_, rfl, h.1.trans isSome_lastSaved_iff⟩, _, rfl, h.2⟩

/-- Any saves in one root, in any scopes and whatever goes wrong with them. Where nothing is at the
path of an artifact once the root is made, the artifact is there if and only if some save of it did
not fail, and what is read are the data of the last such save, whatever has become of all others.
The files are those that have been saved last and those of the start that no save has replaced, so
no temporary file stays. At every moment of one more save the archives answer as before it, and
without trouble it fails only where the disk refuses what it needs. -/
theorem reflects_saves (hhome : IsNamed start.home) {saves : List Save}
    (hplain : ∀ save ∈ saves, IsPlain save.scopes) :
    let history := after start root saves
    let files := history.disk.files
    history.log.map Prod.fst = saves ∧
      (∀ scopes x, IsPlain scopes → IsVacant start root (String.join scopes) x →
        Reflects history.disk root history.log scopes x) ∧
      (∀ location data, files.node? location = some (.file data) ↔
        (∃ scopes x, IsPlain scopes ∧
          files.locate ((nested root scopes).path x.name) = .ok location ∧
          lastSaved (String.join scopes) x history.log = some data) ∨
        start.node? location = some (.file data) ∧ ∀ scopes x, IsPlain scopes →
          files.locate ((nested root scopes).path x.name) = .ok location →
          lastSaved (String.join scopes) x history.log = none) ∧
      ∀ save : Save, IsPlain save.scopes →
        (∃ moments, (save.run root history.disk).2.past = moments ++ history.disk.past ∧
          ∀ u ∈ moments, ∀ scopes x, IsPlain scopes → IsVacant start root (String.join scopes) x →
            Reflects { history.disk with files := u } root history.log scopes x) ∧
        (save.trouble.IsNone →
          let made := files.makeDirectories root
          ((save.run root history.disk).1.isOk = true ↔ made.2 = .ok () ∧
            (∃ path, (made.1.createAs (made.1.nameFor save.trouble.letters) root).2 = .ok path) ∧
            ∃ location, made.1.locate ((nested root save.scopes).path save.artifact.name) =
              .ok location ∧ made.1.node? location ≠ some .directory)) := by
  intro history files
  obtain ⟨base, d, hstores⟩ := isStored_after root hhome hplain
  refine ⟨log_after start root saves, fun scopes x hscopes hvacant =>
    (hstores.shows hscopes.slash_notMem hvacant).reflects, fun location data => ?_,
    fun save hsave => ?_⟩
  · simp only [nested_eq]
    exact hstores.file_iff
  · obtain ⟨r, s', hrun, ⟨moments, hpast, hmoments⟩, hcases⟩ :=
      Save.exists_run root (hstores.isNamed_home hhome) hsave
    rw [hrun]
    refine ⟨⟨moments, hpast, fun u hu scopes x hscopes hvacant => ?_⟩, fun hnone => ?_⟩
    · exact Shows.reflects (s := { history.disk with files := u })
        (hstores.shows_of_moment hscopes.slash_notMem hvacant (hmoments u hu))
    · have hcan : r.isOk = true ↔ CanSave save.trouble files root save.file :=
        hcases.elim (fun h => iff_of_true h.1 h.2.1) fun h => iff_of_false h.1 h.2.1
      rw [nested_eq]
      exact hcan.trans (canSave_iff (save.artifact.isName_file hsave.slash_notMem) hnone)

/-- A proof in the root itself and one in a scope that two ways lead to. Writing fails halfway for
the one, and the other does not get into its place. -/
theorem reflects_saves_recursive :
    let start := FileTree.empty ["tmp", "work"]
    let refusal := Fault.refused .other
    let saves : List Save := [⟨[], .proof, [1], {}⟩, ⟨["recursive_"], .proof, [2], {}⟩,
      ⟨["recur", "sive_"], .proof, [3], {}⟩,
      ⟨[], .proof, [4, 5], { writing := some (1, refusal) }⟩,
      ⟨["recursive_"], .proof, [6], { placing := some refusal }⟩]
    let history := after start "out/keys" saves
    IsNamed start.home ∧ (∀ save ∈ saves, IsPlain save.scopes) ∧
      history.log.map (fun entry => entry.2.isOk) = [true, true, true, false, false] ∧
      lastSaved "" .proof history.log = some [1] ∧
      lastSaved "recursive_" .proof history.log = some [3] ∧
      ∀ scopes x, IsPlain scopes → Reflects history.disk "out/keys" history.log scopes x := by
  intro start refusal saves history
  have hhome : IsNamed start.home := by decide
  have hplain : ∀ save ∈ saves, IsPlain save.scopes := by decide
  refine ⟨hhome, hplain, by decide +kernel, by decide +kernel, by decide +kernel,
    fun scopes x hscopes => ?_⟩
  exact (reflects_saves hhome hplain).2.1 scopes x hscopes
    (isVacant_empty (by decide +kernel) (by decide +kernel) hscopes.slash_notMem)

/-- On the way to such a root a directory is made, and it has the path of a proof. So there is a
proof where none has been saved. -/
theorem present_of_nothing_saved :
    let start := FileTree.empty ["tmp", "work"]
    let root := "proof.json/.."
    let saves : List Save := [⟨[], .params, [1], {}⟩]
    let history := after start root saves
    IsNamed start.home ∧ (∀ save ∈ saves, IsPlain save.scopes) ∧
      (∀ scopes, IsPlain scopes → ∀ x : Artifact,
        start.present ((nested root scopes).path x.name) = false) ∧
      history.log.map (fun entry => entry.2.isOk) = [true] ∧
      (¬∃ entry ∈ history.log, Saved "" .proof entry) ∧
      ((nested root []).holds Artifact.proof.name : StateM FaultyDisk Bool) history.disk =
        (true, history.disk) ∧
      ¬Reflects history.disk root history.log [] .proof := by
  intro start root saves history
  have hhome : IsNamed start.home := by decide
  have hplain : ∀ save ∈ saves, IsPlain save.scopes := by decide
  have hlost : start.followAll (start.start root) (names root) = .error (.refused .notFound) := by
    decide +kernel
  have hnothing : ∀ scopes, IsPlain scopes → ∀ x : Artifact,
      start.present ((nested root scopes).path x.name) = false := by
    intro scopes hscopes x
    rw [nested_eq, Bool.eq_false_iff]
    intro hpresent
    obtain ⟨-, d, hleads, -⟩ := (present_joinPath (x.isName_file hscopes.slash_notMem)).mp hpresent
    cases hlost.symm.trans hleads.1
  have hunsaved : ¬∃ entry ∈ history.log, Saved "" .proof entry := by decide +kernel
  have hthere : history.disk.files.present ((nested root []).path Artifact.proof.name) = true := by
    decide +kernel
  have hholds : ((nested root []).holds Artifact.proof.name : StateM FaultyDisk Bool) history.disk =
      (true, history.disk) := congrArg (·, history.disk) hthere
  refine ⟨hhome, hplain, hnothing, by decide +kernel, hunsaved, hholds, ?_⟩
  rintro ⟨⟨there, hrun, hiff⟩, -⟩
  obtain rfl := congrArg Prod.fst (hholds.symm.trans hrun)
  exact hunsaved (hiff.mp rfl)

end Archive

end RankOne
