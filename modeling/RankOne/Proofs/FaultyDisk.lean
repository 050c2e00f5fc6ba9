import RankOne.Proofs.Drafts

/-!
# Saving on a disk that fails

A disk any of whose operations may fail, and which may have written some of the data when writing
fails. A save on it puts the file in its place, or else it leaves no more than directories. All
that there is in between are the files from before and a temporary one. As long as nothing goes
wrong, a save on a host comes to the same.
-/

set_option autoImplicit false

namespace RankOne
open FileTree

/-- What goes wrong in the course of a save: the operations that are refused, and how many bytes
have been written when writing fails. The letters are those of the temporary name. -/
structure Trouble where
  making : Option Fault := none
  drafting : Option Fault := none
  writing : Option (Nat × Fault) := none
  placing : Option Fault := none
  letters : String := ""
deriving DecidableEq, Repr

structure Trouble.IsNone (trouble : Trouble) : Prop where
  making : trouble.making = none
  drafting : trouble.drafting = none
  writing : trouble.writing = none
  placing : trouble.placing = none

structure FaultyDisk where
  files : FileTree
  trouble : Trouble
  past : List FileTree
deriving DecidableEq, Repr

namespace FaultyDisk

def become (s : FaultyDisk) (t : FileTree) : FaultyDisk :=
  { s with files := t, past := s.files :: s.past }

def attempt {α : Type} (s : FaultyDisk) (refusal : Option Fault)
    (r : FileTree × Except Fault α) : Except Fault α × FaultyDisk :=
  match refusal with
  | some fault => (.error fault, s)
  | none => (r.2, s.become r.1)

def change (s : FaultyDisk) (r : Except Fault FileTree) : Except Fault Unit × FaultyDisk :=
  match r with
  | .ok t => (.ok (), s.become t)
  | .error e => (.error e, s)

instance : Disk (StateM FaultyDisk) where
  present path := fun s => (s.files.present path, s)
  read path := fun s => (s.files.read path, s)
  makeDirectories path := fun s => s.attempt s.trouble.making (s.files.makeDirectories path)
  createTemporary directory := fun s =>
    s.attempt s.trouble.drafting (s.files.createAs (s.files.nameFor s.trouble.letters) directory)
  write path data := fun s =>
    match s.trouble.writing with
    | some (n, fault) => (.error fault, (s.change (s.files.write path (data.take n))).2)
    | none => s.change (s.files.write path data)
  rename old new := fun s =>
    match s.trouble.placing with
    | some fault => (.error fault, s)
    | none => s.change (s.files.rename old new)
  remove path := fun s => s.change (s.files.remove path)

structure Passes (P : FileTree → Prop) (s s' : FaultyDisk) : Prop where
  trouble : s'.trouble = s.trouble
  past : ∃ moments, s'.past = moments ++ s.past ∧ ∀ u ∈ moments, P u

variable {P Q : FileTree → Prop} {s s' s'' : FaultyDisk}

theorem Passes.refl (P : FileTree → Prop) (s : FaultyDisk) : Passes P s s :=
  ⟨rfl, [], rfl, List.forall_mem_nil P⟩

theorem Passes.become (h : P s.files) (t : FileTree) : Passes P s (s.become t) :=
  ⟨rfl, [s.files], rfl, List.forall_mem_singleton.mpr h⟩

theorem Passes.trans (h : Passes P s s') (h' : Passes P s' s'') : Passes P s s'' := by
  obtain ⟨moments, hpast, hmoments⟩ := h.past
  obtain ⟨moments', hpast', hmoments'⟩ := h'.past
  refine ⟨h'.trouble.trans h.trouble, moments' ++ moments, ?_, ?_⟩
  · rw [hpast', hpast, List.append_assoc]
  · exact List.forall_mem_append.mpr ⟨hmoments', hmoments⟩

theorem Passes.imp (h : Passes P s s') (hPQ : ∀ u, P u → Q u) : Passes Q s s' := by
  obtain ⟨moments, hpast, hmoments⟩ := h.past
  exact ⟨h.trouble, moments, hpast, fun u hu => hPQ u (hmoments u hu)⟩

end FaultyDisk

namespace FaultyDisk
variable {α β : Type} {x : ExceptT Fault (StateM FaultyDisk) α} {a : α} {b : β} {s : FaultyDisk}
  {can can' : Prop} {P Q reached reached' left left' : FileTree → Prop}

/-- Whether a computation gives a result and reaches a tree of one kind if it can, and otherwise
fails and leaves a tree of another kind. On the way there are trees of one kind only. -/
def Ends {α : Type} (x : ExceptT Fault (StateM FaultyDisk) α) (s : FaultyDisk)
    (P : FileTree → Prop) (can : Prop) (a : α) (reached left : FileTree → Prop) : Prop :=
  ∃ r s', x.run s = (r, s') ∧ Passes P s s' ∧
    (r = .ok a ∧ can ∧ reached s'.files ∨ (∃ e, r = .error e) ∧ ¬can ∧ left s'.files)

theorem Ends.imp (h : Ends x s P can a reached left) (hP : ∀ u, P u → Q u) (hcan : can ↔ can')
    (hreached : ∀ u, can → reached u → reached' u) (hleft : ∀ u, left u → left' u) :
    Ends x s Q can' a reached' left' := by
  obtain ⟨r, s', hrun, hpasses, hcases⟩ := h
  refine ⟨r, s', hrun, hpasses.imp hP, hcases.imp ?_ ?_⟩
  · rintro ⟨hr, hyes, hfiles⟩
    exact ⟨hr, hcan.mp hyes, hreached _ hyes hfiles⟩
  · rintro ⟨hr, hno, hfiles⟩
    exact ⟨hr, mt hcan.mpr hno, hleft _ hfiles⟩

theorem Ends.ret (h : reached s.files) : Ends (pure a) s P True a reached left :=
  ⟨.ok a, s, rfl, .refl P s, .inl ⟨rfl, trivial, h⟩⟩

theorem Ends.bind (h : Ends x s P can a reached left)
    {f : α → ExceptT Fault (StateM FaultyDisk) β}
    (hnext : ∀ s', s'.trouble = s.trouble → reached s'.files →
      Ends (f a) s' P can' b reached' left) :
    Ends (x >>= f) s P (can ∧ can') b reached' left := by
  obtain ⟨r, s', hrun, hpasses, hcases⟩ := h
  rw [Ends, Random.run_bind, hrun]
  obtain ⟨rfl, hcan, hfiles⟩ | ⟨⟨e, rfl⟩, hcan, hfiles⟩ := hcases
  · obtain ⟨r, s'', hrun', hpasses', hcases⟩ := hnext s' hpasses.trouble hfiles
    refine ⟨r, s'', hrun', hpasses.trans hpasses', hcases.imp ?_ ?_⟩
    · rintro ⟨hr, hcan', hfiles'⟩
      exact ⟨hr, ⟨hcan, hcan'⟩, hfiles'⟩
    · rintro ⟨hr, hcan', hfiles'⟩
      exact ⟨hr, fun hboth => hcan' hboth.2, hfiles'⟩
  · exact ⟨.error e, s', rfl, hpasses, .inr ⟨⟨e, rfl⟩, fun hboth => hcan hboth.1, hfiles⟩⟩

theorem Ends.andReturn (h : Ends x s P can a reached left) (b : β) :
    Ends (x >>= fun _ => pure b) s P can b reached left := by
  have hnext : ∀ s', s'.trouble = s.trouble → reached s'.files →
      Ends (pure b) s' P True b reached left := fun _ _ => .ret
  exact (h.bind hnext).imp (fun _ => id) (and_iff_left trivial) (fun _ _ => id) fun _ => id

/-- What is done about a failure fails itself, and leaves something else. -/
theorem Ends.handle (h : Ends x s P can a reached left)
    {f : Fault → ExceptT Fault (StateM FaultyDisk) α}
    (hnext : ∀ e s', left s'.files → ∃ s'', (f e).run s' = (.error e, s'') ∧ Passes P s' s'' ∧
      left' s''.files) :
    Ends (tryCatch x f) s P can a reached left' := by
  obtain ⟨r, s', hrun, hpasses, hcases⟩ := h
  rw [Ends]
  obtain ⟨rfl, hcan, hfiles⟩ | ⟨⟨e, rfl⟩, hcan, hfiles⟩ := hcases
  · rw [Job.run_tryCatch_of_ok hrun]
    exact ⟨.ok a, s', rfl, hpasses, .inl ⟨rfl, hcan, hfiles⟩⟩
  · obtain ⟨s'', hrun', hpasses', hfiles'⟩ := hnext e s' hfiles
    rw [Job.run_tryCatch_of_error hrun, hrun']
    exact ⟨.error e, s'', rfl, hpasses.trans hpasses', .inr ⟨⟨e, rfl⟩, hcan, hfiles'⟩⟩

variable {t : FileTree} {d : Location} {root file name : String} {data : Bytes}

def IsFree (t : FileTree) (root : String) (d : Location) (file : String) : Prop :=
  Admits root file ∧ t.node? (d ++ [file]) ≠ some .directory

/-- The temporary file is filled, or else it is left with some data. -/
theorem ends_write (h : t.HasRoom root d name) (hs : t.IsDrafted d name s.files) (data : Bytes) :
    Ends (ExceptT.mk (Disk.write (joinPath (absolute d) name) data)) s (t.IsDrafted d name)
      (s.trouble.writing = none) () (· = t.putNode (d ++ [name]) (.file data))
      (t.IsDrafted d name) := by
  obtain ⟨bytes, hfiles⟩ := id hs
  have hwrite : ∀ data, s.files.write (joinPath (absolute d) name) data =
      .ok (t.putNode (d ++ [name]) (.file data)) := by
    intro data
    rw [hfiles, h.write_eq]
  have hrun : (ExceptT.mk (Disk.write (joinPath (absolute d) name) data) :
      ExceptT Fault (StateM FaultyDisk) Unit).run s = match s.trouble.writing with
        | some (n, fault) => (.error fault, s.become (t.putNode (d ++ [name]) (.file (data.take n))))
        | none => (.ok (), s.become (t.putNode (d ++ [name]) (.file data))) := by
    simp only [ExceptT.run, ExceptT.mk, Disk.write, hwrite, change]
  rw [Ends, hrun]
  cases s.trouble.writing with
  | some stop =>
    exact ⟨.error stop.2, _, rfl, .become hs _,
      .inr ⟨⟨stop.2, rfl⟩, nofun, data.take stop.1, rfl⟩⟩
  | none => exact ⟨.ok (), _, rfl, .become hs _, .inl ⟨rfl, rfl, rfl⟩⟩

/-- The temporary file takes the place of a file, or else it stays. -/
theorem ends_rename (h : t.HasRoom root d name) (hfile : IsName file) (hne : file ≠ name)
    (hs : s.files = t.putNode (d ++ [name]) (.file data)) :
    Ends (ExceptT.mk (Disk.rename (joinPath (absolute d) name) (joinPath root file))) s
      (t.IsDrafted d name) (s.trouble.placing = none ∧ IsFree t root d file) ()
      (· = t.putNode (d ++ [file]) (.file data)) (t.IsDrafted d name) := by
  have hdrafted : t.IsDrafted d name s.files := ⟨data, hs⟩
  have hrun : (ExceptT.mk (Disk.rename (joinPath (absolute d) name) (joinPath root file)) :
      ExceptT Fault (StateM FaultyDisk) Unit).run s = match s.trouble.placing with
        | some fault => (.error fault, s)
        | none => s.change (s.files.rename (joinPath (absolute d) name) (joinPath root file)) :=
    rfl
  rw [Ends, hrun]
  cases s.trouble.placing with
  | some fault => exact ⟨.error fault, s, rfl, .refl _ s, .inr ⟨⟨fault, rfl⟩, nofun, hdrafted⟩⟩
  | none =>
    dsimp only
    cases hrename : s.files.rename (joinPath (absolute d) name) (joinPath root file) with
    | ok t' =>
      obtain ⟨hadmits, hfree, hput⟩ := (h.rename_eq_ok_iff hfile hne data).mp (hs ▸ hrename)
      exact ⟨.ok (), s.become t', rfl, .become hdrafted t',
        .inl ⟨rfl, ⟨rfl, hadmits, hfree⟩, hput⟩⟩
    | error e =>
      refine ⟨.error e, s, rfl, .refl _ s, .inr ⟨⟨e, rfl⟩, ?_, hdrafted⟩⟩
      rintro ⟨-, hadmits, hfree⟩
      have hok := (h.rename_eq_ok_iff hfile hne data).mpr ⟨hadmits, hfree, rfl⟩
      rw [← hs, hrename] at hok
      cases hok

theorem ends_createTemporary (hhome : IsNamed s.files.home) (h : s.files.HasDirectory root d) :
    let name := s.files.nameFor s.trouble.letters d
    Ends (ExceptT.mk (Disk.createTemporary root)) s (· = s.files)
      (s.trouble.drafting = none ∧
        ∃ path, (s.files.createAs (s.files.nameFor s.trouble.letters) root).2 = .ok path)
      (joinPath (absolute d) name)
      (fun u => s.files.HasRoom root d name ∧ u = s.files.putNode (d ++ [name]) (.file []))
      (· = s.files) := by
  intro name
  have hrun : (ExceptT.mk (Disk.createTemporary root) :
      ExceptT Fault (StateM FaultyDisk) String).run s = s.attempt s.trouble.drafting
        (s.files.createAs (s.files.nameFor s.trouble.letters) root) := rfl
  rw [Ends, hrun]
  cases s.trouble.drafting with
  | some fault => exact ⟨.error fault, s, rfl, .refl _ s, .inr ⟨⟨fault, rfl⟩, nofun, rfl⟩⟩
  | none =>
    obtain ⟨e, hcreate⟩ | ⟨hroom, hcreate⟩ := createAs_cases hhome h
      (s.files.isDraft_nameFor s.trouble.letters d) (s.files.node?_nameFor s.trouble.letters d)
    · rw [hcreate]
      refine ⟨.error e, s.become s.files, rfl, .become (P := (· = s.files)) rfl s.files,
        .inr ⟨⟨e, rfl⟩, ?_, rfl⟩⟩
      rintro ⟨-, path, hpath⟩
      cases hpath
    · rw [hcreate]
      exact ⟨.ok _, _, rfl, .become (P := (· = s.files)) rfl _,
        .inl ⟨rfl, ⟨rfl, _, rfl⟩, hroom, rfl⟩⟩

theorem ends_makeDirectories (s : FaultyDisk) (root : String) :
    let made := s.files.makeDirectories root
    Ends (ExceptT.mk (Disk.makeDirectories root)) s (· = s.files)
      (s.trouble.making = none ∧ made.2 = .ok ()) ()
      (fun u => u = made.1 ∧ ∃ d, made.1.HasDirectory root d)
      (fun u => u = s.files ∨ u = made.1) := by
  intro made
  have hrun : (ExceptT.mk (Disk.makeDirectories root) :
      ExceptT Fault (StateM FaultyDisk) Unit).run s = s.attempt s.trouble.making made := rfl
  rw [Ends, hrun]
  cases s.trouble.making with
  | some fault => exact ⟨.error fault, s, rfl, .refl _ s, .inr ⟨⟨fault, rfl⟩, nofun, .inl rfl⟩⟩
  | none =>
    refine ⟨made.2, s.become made.1, rfl, .become (P := (· = s.files)) rfl made.1, ?_⟩
    cases hmade : made.2 with
    | ok => exact .inl ⟨rfl, ⟨rfl, rfl⟩, rfl, hasDirectory_of_makeDirectories hmade⟩
    | error e => exact .inr ⟨⟨e, rfl⟩, nofun, .inr rfl⟩

end FaultyDisk

namespace Archive
variable {s : FaultyDisk} {t : FileTree} {d : Location} {name : String} {a : Archive}

def CanPlace (trouble : Trouble) (t : FileTree) (root : String) (d : Location) (file : String) :
    Prop :=
  trouble.writing = none ∧ trouble.placing = none ∧ FaultyDisk.IsFree t root d file

theorem ends_place (h : t.HasRoom a.root d name) (hscope : '/' ∉ a.scope.toList)
    (hs : t.IsDrafted d name s.files) (x : Artifact) (data : Bytes) :
    FaultyDisk.Ends (a.place x.name (joinPath (absolute d) name) data) s (t.IsDrafted d name)
      (CanPlace s.trouble t a.root d (x.file a.scope)) ()
      (· = t.putNode (d ++ [x.file a.scope]) (.file data)) (t.IsDrafted d name) := by
  refine (FaultyDisk.ends_write h hs data).bind fun s' htrouble hfiles => ?_
  rw [← htrouble]
  exact FaultyDisk.ends_rename h (x.isName_file hscope)
    (x.file_ne_of_isDraft h.isDraft a.scope) hfiles

/-- Where the file cannot be put in its place, the temporary file goes. -/
theorem ends_place_or_remove (h : t.HasRoom a.root d name) (hscope : '/' ∉ a.scope.toList)
    (hs : t.IsDrafted d name s.files) (x : Artifact) (data : Bytes) :
    FaultyDisk.Ends (tryCatch (a.place x.name (joinPath (absolute d) name) data) fun fault => do
        ExceptT.mk (Disk.remove (joinPath (absolute d) name))
        throw fault) s (t.IsDrafted d name)
      (CanPlace s.trouble t a.root d (x.file a.scope)) ()
      (· = t.putNode (d ++ [x.file a.scope]) (.file data)) (· = t) := by
  refine (ends_place h hscope hs x data).handle fun e s' hdrafted => ?_
  obtain ⟨bytes, hfiles⟩ := id hdrafted
  have hremove : (ExceptT.mk (Disk.remove (joinPath (absolute d) name)) :
      ExceptT Fault (StateM FaultyDisk) Unit).run s' = (.ok (), s'.become t) := by
    change s'.change (s'.files.remove _) = _
    rw [hfiles, h.remove_eq, FaultyDisk.change]
  refine ⟨s'.become t, ?_, .become hdrafted t, rfl⟩
  rw [Random.run_bind, hremove]
  rfl

section SaveThere
variable {m : Type → Type} [Monad m] [Disk m]

def saveThere (a : Archive) (name : String) (data : Bytes) : ExceptT Fault m String := do
  let temporary ← ExceptT.mk (Disk.createTemporary a.root)
  tryCatch (a.place name temporary data) fun fault => do
    ExceptT.mk (Disk.remove temporary)
    throw fault
  return a.path name

end SaveThere

def MomentThere (t : FileTree) (root : String) (u : FileTree) : Prop :=
  u = t ∨ ∃ d name, t.HasRoom root d name ∧ t.IsDrafted d name u

def CanSaveThere (trouble : Trouble) (t : FileTree) (root : String) (d : Location)
    (file : String) : Prop :=
  (trouble.drafting = none ∧ ∃ path, (t.createAs (t.nameFor trouble.letters) root).2 = .ok path) ∧
    CanPlace trouble t root d file

theorem ends_saveThere (hhome : IsNamed s.files.home) (h : s.files.HasDirectory a.root d)
    (hscope : '/' ∉ a.scope.toList) (x : Artifact) (data : Bytes) :
    FaultyDisk.Ends (a.saveThere x.name data) s (MomentThere s.files a.root)
      (CanSaveThere s.trouble s.files a.root d (x.file a.scope)) (a.path x.name)
      (· = s.files.putNode (d ++ [x.file a.scope]) (.file data)) (· = s.files) := by
  have hcreate := (FaultyDisk.ends_createTemporary hhome h).imp
    (Q := MomentThere s.files a.root) (fun _ => .inl) Iff.rfl (fun _ _ => id) fun _ => id
  refine hcreate.bind fun s' htrouble ⟨hroom, hfiles⟩ => ?_
  have hmoment : ∀ u, s.files.IsDrafted d (s.files.nameFor s.trouble.letters d) u →
      MomentThere s.files a.root u := fun u hu => .inr ⟨d, _, hroom, hu⟩
  have hplace := (ends_place_or_remove hroom hscope ⟨[], hfiles⟩ x data).imp hmoment Iff.rfl
    (fun _ _ => id) fun _ => id
  rw [htrouble] at hplace
  exact hplace.andReturn _

def Moment (t : FileTree) (root : String) (u : FileTree) : Prop :=
  u = t ∨ MomentThere (t.makeDirectories root).1 root u

def CanSave (trouble : Trouble) (t : FileTree) (root file : String) : Prop :=
  let made := t.makeDirectories root
  (trouble.making = none ∧ made.2 = .ok ()) ∧
    ∃ d, made.1.HasDirectory root d ∧ CanSaveThere trouble made.1 root d file

/-- A save puts the file in its place, or else it leaves no more than directories. -/
theorem ends_save (hhome : IsNamed s.files.home) (hscope : '/' ∉ a.scope.toList)
    (x : Artifact) (data : Bytes) :
    let made := s.files.makeDirectories a.root
    FaultyDisk.Ends (a.save x.name data) s (Moment s.files a.root)
      (CanSave s.trouble s.files a.root (x.file a.scope)) (a.path x.name)
      (fun u => ∃ d, made.1.HasDirectory a.root d ∧
        FaultyDisk.IsFree made.1 a.root d (x.file a.scope) ∧
        u = made.1.putNode (d ++ [x.file a.scope]) (.file data))
      (fun u => u = s.files ∨ u = made.1) := by
  intro made
  have hmake := (FaultyDisk.ends_makeDirectories s a.root).imp
    (Q := Moment s.files a.root) (fun _ => .inl) Iff.rfl (fun _ _ => id) fun _ => id
  refine hmake.bind fun s' htrouble ⟨hfiles, d, hd⟩ => ?_
  have hhome' : IsNamed s'.files.home := by
    rw [hfiles, (extends_makeDirectories s.files a.root).home]
    exact hhome
  have hsave := ends_saveThere hhome' (hfiles ▸ hd) hscope x data
  rw [hfiles, htrouble] at hsave
  refine hsave.imp (fun _ => .inr) ⟨fun hcan => ⟨d, hd, hcan⟩, ?_⟩
    (fun _ hcan hput => ⟨d, hd, hcan.2.2.2, hput⟩) fun _ => .inr
  rintro ⟨d', hd', hcan⟩
  rwa [hd.leads.unique hd'.leads]

/-- Without trouble a save needs that the directories can be made, then a temporary file, and that
there is no directory in the place of the file. -/
theorem canSave_iff {trouble : Trouble} {root file : String} (hfile : IsName file)
    (hnone : trouble.IsNone) :
    CanSave trouble t root file ↔
      let made := t.makeDirectories root
      made.2 = .ok () ∧
        (∃ path, (made.1.createAs (made.1.nameFor trouble.letters) root).2 = .ok path) ∧
        ∃ location, made.1.locate (joinPath root file) = .ok location ∧
          made.1.node? location ≠ some .directory := by
  dsimp only
  simp only [locate_joinPath_eq_ok_iff hfile]
  constructor
  · rintro ⟨⟨-, hmade⟩, d, hd, ⟨-, hdrafted⟩, -, -, hadmits, hfree⟩
    exact ⟨hmade, hdrafted, _, ⟨hadmits, d, hd.leads, rfl⟩, hfree⟩
  · rintro ⟨hmade, hdrafted, _, ⟨hadmits, d, hleads, rfl⟩, hfree⟩
    obtain ⟨d', hd'⟩ := hasDirectory_of_makeDirectories hmade
    obtain rfl := hleads.unique hd'.leads
    exact ⟨⟨hnone.making, hmade⟩, d, hd', ⟨hnone.drafting, hdrafted⟩, hnone.writing,
      hnone.placing, hadmits, hfree⟩

end Archive

namespace FaultyDisk

def ComesToSame {α : Type} (x : ExceptT Fault (StateM Host) α)
    (y : ExceptT Fault (StateM FaultyDisk) α) : Prop :=
  ∀ (host : Host) (past : List FileTree), ∃ r files past',
    x.run host = (r, { host with files := files }) ∧
      y.run ⟨host.files, {}, past⟩ = (r, ⟨files, {}, past'⟩)

namespace ComesToSame
variable {α β : Type} {x : ExceptT Fault (StateM Host) α}
  {y : ExceptT Fault (StateM FaultyDisk) α}

theorem ret (a : α) : ComesToSame (pure a) (pure a) :=
  fun host past => ⟨.ok a, host.files, past, rfl, rfl⟩

theorem fail (e : Fault) : ComesToSame (throw e : ExceptT Fault (StateM Host) α) (throw e) :=
  fun host past => ⟨.error e, host.files, past, rfl, rfl⟩

theorem bind (h : ComesToSame x y) {f : α → ExceptT Fault (StateM Host) β}
    {g : α → ExceptT Fault (StateM FaultyDisk) β} (hnext : ∀ a, ComesToSame (f a) (g a)) :
    ComesToSame (x >>= f) (y >>= g) := by
  intro host past
  obtain ⟨r, files, past', hx, hy⟩ := h host past
  rw [Random.run_bind, hx, Random.run_bind, hy]
  cases r with
  | error e => exact ⟨.error e, files, past', rfl, rfl⟩
  | ok a => exact hnext a { host with files := files } past'

theorem handle (h : ComesToSame x y) {f : Fault → ExceptT Fault (StateM Host) α}
    {g : Fault → ExceptT Fault (StateM FaultyDisk) α} (hnext : ∀ e, ComesToSame (f e) (g e)) :
    ComesToSame (tryCatch x f) (tryCatch y g) := by
  intro host past
  obtain ⟨r, files, past', hx, hy⟩ := h host past
  cases r with
  | ok a =>
    rw [Job.run_tryCatch_of_ok hx, Job.run_tryCatch_of_ok hy]
    exact ⟨.ok a, files, past', rfl, rfl⟩
  | error e =>
    rw [Job.run_tryCatch_of_error hx, Job.run_tryCatch_of_error hy]
    exact hnext e { host with files := files } past'

theorem makeDirectories (path : String) :
    ComesToSame (ExceptT.mk (Disk.makeDirectories path)) (ExceptT.mk (Disk.makeDirectories path)) :=
  fun _ _ => ⟨_, _, _, rfl, rfl⟩

theorem createTemporary (directory : String) :
    ComesToSame (ExceptT.mk (Disk.createTemporary directory))
      (ExceptT.mk (Disk.createTemporary directory)) := by
  have hname (t : FileTree) : t.createAs (t.nameFor "") directory = t.createTemporary directory := by
    rw [createTemporary_eq_createAs, funext t.nameFor_empty]
  refine fun host past => ⟨_, _, host.files :: past, rfl, ?_⟩
  change (((host.files.createAs _ directory).2, FaultyDisk.become _ _) : _ × FaultyDisk) = _
  rw [hname]
  rfl

theorem change {f : FileTree → Except Fault FileTree}
    {g : FaultyDisk → Except Fault Unit × FaultyDisk}
    (h : ∀ t past, g ⟨t, {}, past⟩ = FaultyDisk.change ⟨t, {}, past⟩ (f t)) :
    ComesToSame (ExceptT.mk (Host.change f)) (ExceptT.mk g) := by
  intro host past
  cases hf : f host.files with
  | ok t =>
    refine ⟨.ok (), t, host.files :: past, ?_, (h host.files past).trans ?_⟩
    · change Host.change f host = _
      rw [Host.change, hf]
    · rw [hf]
      rfl
  | error e =>
    refine ⟨.error e, host.files, past, ?_, (h host.files past).trans ?_⟩
    · change Host.change f host = _
      rw [Host.change, hf]
    · rw [hf]
      rfl

end ComesToSame

end FaultyDisk

/-- A save on a host is a save on a disk on which nothing goes wrong. -/
theorem Archive.save_comesToSame (a : Archive) (name : String) (data : Bytes) :
    FaultyDisk.ComesToSame (a.save name data) (a.save name data) := by
  refine .bind (.makeDirectories _) fun _ => .bind (.createTemporary _) fun path =>
    .bind (.handle (.bind (.change fun t past => ?_) fun _ => .change fun t past => ?_)
      fun e => .bind (.change fun t past => ?_) fun _ => .fail e) fun _ => .ret _
  all_goals rfl

end RankOne
