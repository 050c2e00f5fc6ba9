import Mathlib.Data.List.Infix
import Mathlib.Tactic.MkIffOfInductiveProp
import Mathlib.Tactic.SplitIfs
import RankOne.FileTree

/-!
# Paths

Where paths lead in a file tree, whatever the tree. The names of a path in a directory are those of
the directory and one more, so a file is where its directory is, and only directories matter on the
way there. Without names such as ".." the names of a path say where it leads.
-/

set_option autoImplicit false

namespace RankOne

namespace FileTree

theorem namesOf_append_slash (name cs rest : List Char) :
    namesOf name (cs ++ '/' :: rest) = namesOf name cs ++ namesOf [] rest := by
  induction cs generalizing name with
  | nil =>
    rw [List.nil_append, namesOf, namesOf, if_pos rfl]
    split <;> rfl
  | cons c cs ih =>
    rw [List.cons_append, namesOf, namesOf]
    split_ifs
    · exact ih []
    · rw [ih, List.cons_append]
    · exact ih (c :: name)

theorem namesOf_of_notMem {cs : List Char} (h : '/' ∉ cs) (name : List Char) :
    namesOf name cs = namesOf (cs.reverse ++ name) [] := by
  induction cs generalizing name with
  | nil => rfl
  | cons c cs ih =>
    rw [List.mem_cons, not_or] at h
    have hcons : namesOf name (c :: cs) = namesOf (c :: name) cs := if_neg (Ne.symm h.1)
    rw [hcons, ih h.2, List.reverse_cons, List.append_assoc, List.singleton_append]

theorem names_append_slash (path rest : String) :
    names (path ++ "/" ++ rest) = names path ++ names rest := by
  have hchars : (path ++ "/" ++ rest).toList = path.toList ++ '/' :: rest.toList := by
    simp only [String.toList_append, List.append_assoc]
    rfl
  rw [names, hchars, namesOf_append_slash]
  rfl

theorem names_empty : names "" = [] := rfl

@[mk_iff]
structure IsName (name : String) : Prop where
  slash : '/' ∉ name.toList
  ne_empty : name ≠ ""
  ne_dot : name ≠ "."
  ne_dots : name ≠ ".."

instance (name : String) : Decidable (IsName name) :=
  decidable_of_iff _ (isName_iff name).symm

theorem names_of_notMem {name : String} (h : '/' ∉ name.toList) (hne : name ≠ "") :
    names name = [name] := by
  have hlist : name.toList ≠ [] := fun heq => hne (String.toList_eq_nil_iff.mp heq)
  rw [names, namesOf_of_notMem h, List.append_nil, namesOf, if_neg (by simpa using hlist),
    List.reverse_reverse, String.ofList_toList]

theorem endsWith_iff {path tail : String} :
    path.endsWith tail = true ↔ tail.toList <:+ path.toList := by
  rw [String.endsWith_eq_endsWith_toSlice, String.Slice.endsWith_string_iff, String.copy_toSlice]

theorem exists_append_of_endsWith {path : String} (h : path.endsWith "/" = true) :
    ∃ start, path = start ++ "/" := by
  obtain ⟨start, hstart⟩ := endsWith_iff.mp h
  refine ⟨String.ofList start, String.toList_injective ?_⟩
  rw [String.toList_append, String.toList_ofList, hstart]

variable {file : String}

theorem not_endsWith_slash (hfile : IsName file) (path : String) :
    (path ++ file).endsWith "/" = false := by
  rw [Bool.eq_false_iff, Ne, endsWith_iff, String.toList_append]
  rintro ⟨start, hstart⟩
  have hne : file.toList ≠ [] := fun heq => hfile.ne_empty (String.toList_eq_nil_iff.mp heq)
  have hlast := congrArg List.getLast? hstart
  rw [List.getLast?_append, List.getLast?_append_of_ne_nil _ hne] at hlast
  exact hfile.slash (List.mem_of_getLast? hlast.symm)

theorem not_startsWith_slash (hfile : IsName file) : file.startsWith "/" = false := by
  rw [Bool.eq_false_iff, Ne, String.startsWith_string_iff]
  intro h
  exact hfile.slash (h.subset (List.mem_singleton_self _))

/-- The cases of a path in a directory: one without a name, one that ends in a slash, and any
other. -/
theorem joinPath_cases (hfile : IsName file) (directory : String) :
    directory = "" ∧ joinPath directory file = file ∨
      directory ≠ "" ∧ ∃ start, (directory = start ++ "/" ∨ directory = start) ∧
        joinPath directory file = start ++ "/" ++ file := by
  have hstart : ¬file.startsWith "/" = true := by
    rw [not_startsWith_slash hfile]
    exact Bool.false_ne_true
  rw [joinPath]
  by_cases hempty : directory = ""
  · exact .inl ⟨hempty, if_pos (.inr (by rw [hempty]; rfl))⟩
  · right
    rw [if_neg (by simp [hstart, hempty])]
    refine ⟨hempty, ?_⟩
    split_ifs with hends
    · obtain ⟨start, rfl⟩ := exists_append_of_endsWith hends
      exact ⟨start, .inl rfl, rfl⟩
    · exact ⟨directory, .inr rfl, rfl⟩

theorem names_joinPath (hfile : IsName file) (directory : String) :
    names (joinPath directory file) = names directory ++ [file] := by
  have hnames : names file = [file] := names_of_notMem hfile.slash hfile.ne_empty
  obtain ⟨rfl, hjoin⟩ | ⟨-, start, rfl | rfl, hjoin⟩ := joinPath_cases hfile directory
  · rw [hjoin, hnames]
    rfl
  · have hslash : names (start ++ "/") = names start := by
      have := names_append_slash start ""
      rwa [String.append_empty, names_empty, List.append_nil] at this
    rw [hjoin, names_append_slash, hnames, hslash]
  · rw [hjoin, names_append_slash, hnames]

theorem startsWith_slash_append {path : String} (h : path ≠ "") (rest : String) :
    (path ++ rest).startsWith "/" = path.startsWith "/" := by
  have hne : path.toList ≠ [] := fun heq => h (String.toList_eq_nil_iff.mp heq)
  obtain ⟨c, cs, hcs⟩ := List.exists_cons_of_ne_nil hne
  have hslash : "/".toList = ['/'] := rfl
  rw [Bool.eq_iff_iff, String.startsWith_string_iff, String.startsWith_string_iff,
    String.toList_append, hcs, hslash, List.cons_append, List.cons_prefix_cons,
    List.cons_prefix_cons, and_iff_left List.nil_prefix, and_iff_left List.nil_prefix]

variable {t t' : FileTree} {here there : Location} {name : String}

theorem start_joinPath (hfile : IsName file) (t : FileTree) (directory : String) :
    t.start (joinPath directory file) = t.start directory := by
  have hplain : t.start file = t.home := if_neg (by rw [not_startsWith_slash hfile]; decide)
  obtain ⟨rfl, hjoin⟩ | ⟨hne, start, rfl | rfl, hjoin⟩ := joinPath_cases hfile directory
  · rw [hjoin, hplain]
    rfl
  · rw [hjoin, FileTree.start, startsWith_slash_append hne]
    rfl
  · rw [hjoin, FileTree.start, String.append_assoc, startsWith_slash_append hne]
    rfl

/-- A name leads on from a directory: to itself, out of it, or into it. -/
theorem follow_eq_ok_iff :
    t.follow here name = .ok there ↔ t.node? here = some .directory ∧
      (name = "." ∧ there = here ∨ name = ".." ∧ there = here.dropLast ∨
        (name ≠ "." ∧ name ≠ ".." ∧ name.utf8ByteSize ≤ nameLimit) ∧ there = here ++ [name]) := by
  rw [follow]
  cases hnode : t.node? here with
  | none => simp [refused]
  | some node =>
    cases node with
    | file data => simp [refused]
    | directory =>
      dsimp only
      split_ifs <;> simp_all [refused, eq_comm, Nat.not_le_of_lt]

theorem follow_eq_ok_iff_of_isName (hname : IsName name) :
    t.follow here name = .ok there ↔ t.node? here = some .directory ∧
      name.utf8ByteSize ≤ nameLimit ∧ there = here ++ [name] := by
  rw [follow_eq_ok_iff]
  simp only [hname.ne_dot, hname.ne_dots, false_and, false_or, ne_eq, not_false_eq_true, true_and]

theorem followAll_append (t : FileTree) (here : Location) (names rest : List String) :
    t.followAll here (names ++ rest) =
      match t.followAll here names with
      | .ok there => t.followAll there rest
      | .error e => .error e := by
  induction names generalizing here with
  | nil => rfl
  | cons name names ih =>
    rw [List.cons_append, followAll, followAll]
    cases t.follow here name with
    | error e => rfl
    | ok there => exact ih there

theorem followAll_cons_eq_ok_iff {names : List String} :
    t.followAll here (name :: names) = .ok there ↔
      ∃ next, t.follow here name = .ok next ∧ t.followAll next names = .ok there := by
  rw [followAll]
  cases t.follow here name <;> simp

theorem followAll_append_eq_ok_iff {names rest : List String} :
    t.followAll here (names ++ rest) = .ok there ↔
      ∃ next, t.followAll here names = .ok next ∧ t.followAll next rest = .ok there := by
  rw [followAll_append]
  cases t.followAll here names <;> simp

theorem followAll_singleton :
    t.followAll here [name] = .ok there ↔ t.follow here name = .ok there := by
  rw [followAll]
  cases t.follow here name <;> simp [followAll]

theorem follow_mono (h : ∀ location, t.node? location = some .directory →
    t'.node? location = some .directory) (hfollow : t.follow here name = .ok there) :
    t'.follow here name = .ok there := by
  rw [follow_eq_ok_iff] at hfollow ⊢
  exact hfollow.imp_left (h here)

theorem followAll_mono (h : ∀ location, t.node? location = some .directory →
    t'.node? location = some .directory) {names : List String}
    (hfollow : t.followAll here names = .ok there) : t'.followAll here names = .ok there := by
  induction names generalizing here with
  | nil => exact hfollow
  | cons name names ih =>
    rw [followAll_cons_eq_ok_iff] at hfollow ⊢
    obtain ⟨next, hnext, hrest⟩ := hfollow
    exact ⟨next, follow_mono h hnext, ih hrest⟩

def LeadsTo (t : FileTree) (path : String) (directory : Location) : Prop :=
  t.followAll (t.start path) (names path) = .ok directory ∧
    t.node? directory = some .directory

def Admits (path file : String) : Prop :=
  pathFault? (joinPath path file) = none ∧ file.utf8ByteSize ≤ nameLimit

instance (t : FileTree) (path : String) (directory : Location) :
    Decidable (t.LeadsTo path directory) :=
  inferInstanceAs (Decidable (_ ∧ _))

instance (path file : String) : Decidable (Admits path file) :=
  inferInstanceAs (Decidable (_ ∧ _))

theorem LeadsTo.unique {path : String} {d d' : Location} (h : t.LeadsTo path d)
    (h' : t.LeadsTo path d') : d = d' :=
  Except.ok.inj (h.1.symm.trans h'.1)

theorem LeadsTo.mono {path : String} {d : Location} (hhome : t'.home = t.home)
    (hnodes : ∀ location, t.node? location = some .directory →
      t'.node? location = some .directory) (h : t.LeadsTo path d) : t'.LeadsTo path d := by
  refine ⟨?_, hnodes _ h.2⟩
  have hstart : t'.start path = t.start path := by rw [start, start, hhome]
  rw [hstart]
  exact followAll_mono hnodes h.1

theorem locate_joinPath (hfile : IsName file) (t : FileTree) {path : String}
    (hpath : pathFault? (joinPath path file) = none) :
    t.locate (joinPath path file) = t.followAll (t.start path) (names path ++ [file]) := by
  have hends : ¬(joinPath path file).endsWith "/" = true := by
    rw [Bool.not_eq_true]
    obtain ⟨-, hjoin⟩ | ⟨-, start, -, hjoin⟩ := joinPath_cases hfile path
    · rw [hjoin, ← String.empty_append (s := file)]
      exact not_endsWith_slash hfile ""
    · rw [hjoin]
      exact not_endsWith_slash hfile _
  rw [locate, hpath, start_joinPath hfile, names_joinPath hfile, if_neg hends, List.append_nil]

theorem locate_joinPath_eq_ok_iff (hfile : IsName file) {path : String} {location : Location} :
    t.locate (joinPath path file) = .ok location ↔
      Admits path file ∧ ∃ d, t.LeadsTo path d ∧ location = d ++ [file] := by
  cases hpath : pathFault? (joinPath path file) with
  | some fault =>
    rw [locate, hpath]
    simp [Admits, hpath]
  | none =>
    rw [locate_joinPath hfile t hpath, followAll_append_eq_ok_iff]
    simp only [followAll_singleton, follow_eq_ok_iff_of_isName hfile]
    constructor
    · rintro ⟨d, hd, hnode, hsize, rfl⟩
      exact ⟨⟨hpath, hsize⟩, d, ⟨hd, hnode⟩, rfl⟩
    · rintro ⟨⟨-, hsize⟩, d, ⟨hd, hnode⟩, rfl⟩
      exact ⟨d, hd, hnode, hsize, rfl⟩

theorem present_joinPath (hfile : IsName file) {path : String} :
    t.present (joinPath path file) = true ↔
      Admits path file ∧ ∃ d, t.LeadsTo path d ∧ (t.node? (d ++ [file])).isSome := by
  have hpresent : t.present (joinPath path file) = true ↔ ∃ location,
      t.locate (joinPath path file) = .ok location ∧ (t.node? location).isSome := by
    rw [present]
    cases t.locate (joinPath path file) <;> simp
  rw [hpresent]
  simp only [locate_joinPath_eq_ok_iff hfile]
  constructor
  · rintro ⟨_, ⟨hadmits, d, hd, rfl⟩, hnode⟩
    exact ⟨hadmits, d, hd, hnode⟩
  · rintro ⟨hadmits, d, hd, hnode⟩
    exact ⟨_, ⟨hadmits, d, hd, rfl⟩, hnode⟩

theorem read_eq_ok_iff {path : String} {data : Bytes} :
    t.read path = .ok data ↔
      ∃ location, t.locate path = .ok location ∧ t.node? location = some (.file data) := by
  rw [read]
  cases t.locate path with
  | error e => simp
  | ok location =>
    cases hnode : t.node? location with
    | none => simp [refused, hnode]
    | some node => cases node <;> simp [refused, hnode]

theorem read_joinPath (hfile : IsName file) {path : String} {data : Bytes} :
    t.read (joinPath path file) = .ok data ↔
      Admits path file ∧ ∃ d, t.LeadsTo path d ∧ t.node? (d ++ [file]) = some (.file data) := by
  rw [read_eq_ok_iff]
  simp only [locate_joinPath_eq_ok_iff hfile]
  constructor
  · rintro ⟨_, ⟨hadmits, d, hd, rfl⟩, hnode⟩
    exact ⟨hadmits, d, hd, hnode⟩
  · rintro ⟨hadmits, d, hd, hnode⟩
    exact ⟨_, ⟨hadmits, d, hd, rfl⟩, hnode⟩

variable {path : String} {d : Location}

theorem plain_of_mem_namesOf {taken cs : List Char} (htaken : '/' ∉ taken) {name : String}
    (h : name ∈ namesOf taken cs) : '/' ∉ name.toList ∧ name ≠ "" := by
  have hspelled : ∀ taken : List Char, '/' ∉ taken → ¬taken.isEmpty = true →
      '/' ∉ (String.ofList taken.reverse).toList ∧ String.ofList taken.reverse ≠ "" := by
    intro taken htaken hne
    refine ⟨by simpa using htaken, fun heq => hne ?_⟩
    have hlist := congrArg String.toList heq
    simpa using hlist
  induction cs generalizing taken with
  | nil =>
    rw [namesOf] at h
    split_ifs at h with hempty
    · cases h
    · rw [List.mem_singleton.mp h]
      exact hspelled taken htaken hempty
  | cons c cs ih =>
    rw [namesOf] at h
    split_ifs at h with hslash hempty
    · exact ih List.not_mem_nil h
    · rcases List.mem_cons.mp h with rfl | h
      · exact hspelled taken htaken hempty
      · exact ih List.not_mem_nil h
    · exact ih (List.not_mem_cons_of_ne_of_not_mem (Ne.symm hslash) htaken) h

theorem plain_of_mem_names (h : name ∈ names path) : '/' ∉ name.toList ∧ name ≠ "" :=
  plain_of_mem_namesOf List.not_mem_nil h

def IsNamed (location : Location) : Prop :=
  ∀ name ∈ location, IsName name

instance (location : Location) : Decidable (IsNamed location) :=
  inferInstanceAs (Decidable (∀ name ∈ location, IsName name))

theorem IsNamed.of_followAll {names : List String} (hhere : IsNamed here)
    (hnames : ∀ name ∈ names, '/' ∉ name.toList ∧ name ≠ "")
    (h : t.followAll here names = .ok there) : IsNamed there := by
  induction names generalizing here with
  | nil =>
    obtain rfl := Except.ok.inj h
    exact hhere
  | cons name rest ih =>
    obtain ⟨next, hnext, hrest⟩ := followAll_cons_eq_ok_iff.mp h
    rw [List.forall_mem_cons] at hnames
    refine ih ?_ hnames.2 hrest
    obtain ⟨-, ⟨-, rfl⟩ | ⟨-, rfl⟩ | ⟨⟨hdot, hdots, -⟩, rfl⟩⟩ := follow_eq_ok_iff.mp hnext
    · exact hhere
    · exact fun name hname => hhere name (List.mem_of_mem_dropLast hname)
    · intro other hother
      rcases List.mem_append.mp hother with hother | hother
      · exact hhere other hother
      · rw [List.mem_singleton.mp hother]
        exact ⟨hnames.1.1, hnames.1.2, hdot, hdots⟩

theorem IsNamed.of_leadsTo (hhome : IsNamed t.home) (h : t.LeadsTo path d) : IsNamed d := by
  refine IsNamed.of_followAll ?_ (fun name hname => plain_of_mem_names hname) h.1
  rw [start]
  split
  · exact List.forall_mem_nil _
  · exact hhome

theorem followAll_of_notMem {names : List String} (hdots : ".." ∉ names)
    (h : t.followAll here names = .ok there) : there = here ++ names.filter (· ≠ ".") := by
  induction names generalizing here with
  | nil =>
    obtain rfl := Except.ok.inj h
    exact (List.append_nil _).symm
  | cons name rest ih =>
    obtain ⟨next, hnext, hrest⟩ := followAll_cons_eq_ok_iff.mp h
    rw [List.mem_cons, not_or] at hdots
    obtain ⟨-, ⟨rfl, rfl⟩ | ⟨rfl, -⟩ | ⟨⟨hdot, -, -⟩, rfl⟩⟩ := follow_eq_ok_iff.mp hnext
    · rw [ih hdots.2 hrest, List.filter_cons_of_neg (by simp)]
    · exact absurd rfl hdots.1
    · rw [ih hdots.2 hrest, List.filter_cons_of_pos (by simpa using hdot), List.append_assoc,
        List.singleton_append]

theorem followAll_of_isNamed {names : List String} (hnames : ∀ name ∈ names, IsName name)
    (h : t.followAll here names = .ok there) : there = here ++ names := by
  have hdots : ".." ∉ names := fun hmem => (hnames _ hmem).ne_dots rfl
  have hfilter : names.filter (· ≠ ".") = names :=
    List.filter_eq_self.mpr fun name hname => by simpa using (hnames name hname).ne_dot
  rw [followAll_of_notMem hdots h, hfilter]

theorem names_slash_append (rest : String) : names ("/" ++ rest) = names rest := by
  have h := names_append_slash "" rest
  rwa [String.empty_append, names_empty, List.nil_append] at h

theorem names_intercalate (h : IsNamed d) : names (String.intercalate "/" d) = d := by
  induction d with
  | nil => rfl
  | cons name rest ih =>
    have h' := List.forall_mem_cons.mp h
    have hname : names name = [name] := names_of_notMem h'.1.slash h'.1.ne_empty
    by_cases hrest : rest = []
    · rw [hrest, String.intercalate_singleton, hname]
    · rw [String.intercalate_cons_of_ne_nil hrest, names_append_slash, hname, ih h'.2,
        List.singleton_append]

theorem names_absolute (h : IsNamed d) : names (absolute d) = d := by
  rw [absolute, names_slash_append, names_intercalate h]

theorem start_absolute (t : FileTree) (d : Location) : t.start (absolute d) = [] :=
  if_pos (by
    rw [absolute, String.startsWith_string_iff, String.toList_append]
    exact List.prefix_append _ _)

theorem LeadsTo.eq_of_absolute (hd : IsNamed d) (h : t.LeadsTo (absolute d) there) : there = d := by
  obtain ⟨h, -⟩ := h
  rw [start_absolute, names_absolute hd] at h
  exact followAll_of_isNamed hd h

end FileTree

end RankOne
