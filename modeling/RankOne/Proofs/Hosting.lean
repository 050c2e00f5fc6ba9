import RankOne.Proofs.Drafts

/-!
# A directory of a file tree as a workspace

Any path can be the root of a workspace on a file tree, whether there is a directory already or is
to be made, unless a directory has a name that a file is to have there or a path gets too long.
Temporary files that others have left stay where they are.
-/

set_option autoImplicit false

namespace RankOne

theorem isName_of_mem_fileNames {name : String} (h : name ∈ fileNames) : FileTree.IsName name := by
  obtain ⟨scope, hscope, hname⟩ := List.mem_flatMap.mp h
  obtain ⟨x, -, rfl⟩ := List.mem_map.mp hname
  have hslash : ∀ scope ∈ scopes, '/' ∉ scope.toList := by decide
  exact x.isName_file (hslash scope hscope)

theorem temporaryName_ne {name : String} (h : name ∈ fileNames) (k : ℕ) :
    FileTree.temporaryName k ≠ name := by
  obtain ⟨scope, -, hname⟩ := List.mem_flatMap.mp h
  obtain ⟨x, -, rfl⟩ := List.mem_map.mp hname
  exact (x.file_ne_of_isDraft (FileTree.isDraft_temporaryName k) scope).symm

namespace FileTree

variable {t t' : FileTree} {root name : String} {d location other : Location} {k : ℕ}
  {data : Bytes}

def fileAt (t : FileTree) (location : Location) : Option Bytes :=
  match t.node? location with
  | some (.file data) => some data
  | _ => none

theorem fileAt_eq_some_iff : t.fileAt location = some data ↔
    t.node? location = some (.file data) := by
  rw [fileAt]
  cases hnode : t.node? location with
  | none => simp
  | some node => cases node <;> simp

theorem node?_eq_map (h : t.node? location ≠ some .directory) :
    t.node? location = (t.fileAt location).map .file := by
  rw [fileAt]
  cases hnode : t.node? location with
  | none => rfl
  | some node =>
    cases node with
    | directory => exact absurd hnode h
    | file data => rfl

theorem fileAt_putNode (t : FileTree) (d : Location) (name other : String) (data : Bytes) :
    (t.putNode (d ++ [name]) (.file data)).fileAt (d ++ [other]) =
      if name = other then some data else t.fileAt (d ++ [other]) := by
  rw [fileAt, node?_putNode _ _ _ _ (child_ne_nil d name)]
  simp only [child_inj]
  split_ifs <;> rfl

theorem fileAt_eraseNode (t : FileTree) (d : Location) (name other : String) :
    (t.eraseNode (d ++ [name])).fileAt (d ++ [other]) =
      if name = other then none else t.fileAt (d ++ [other]) := by
  rw [fileAt, node?_eraseNode (child_ne_nil d name)]
  simp only [child_inj]
  split_ifs <;> rfl

theorem Extends.fileAt_eq (h : t.Extends t') (location : Location) :
    t'.fileAt location = t.fileAt location :=
  Option.ext fun data => by rw [fileAt_eq_some_iff, fileAt_eq_some_iff, h.file_iff]

def draftPath (d : Location) (k : ℕ) : String :=
  joinPath (absolute d) (temporaryName k)

/-- Whether there is a directory at the root where all files can be put, the temporary one under
the first free name. -/
@[mk_iff]
structure Serves (t : FileTree) (root : String) (d : Location) (k : ℕ) : Prop where
  directory : t.HasDirectory root d
  leads : t.LeadsTo (absolute d) d
  admits : ∀ name ∈ fileNames, Admits root name
  admitsDraft : Admits (absolute d) (temporaryName k)
  free : ∀ name ∈ temporaryName k :: fileNames, t.node? (d ++ [name]) ≠ some .directory
  used : ∀ i < k, t.node? (d ++ [temporaryName i]) ≠ none

instance (t : FileTree) (root : String) (d : Location) (k : ℕ) : Decidable (t.Serves root d k) :=
  decidable_of_iff _ (serves_iff t root d k).symm

namespace Serves
variable (h : t.Serves root d k)
include h

theorem congr (hsame : t.SameDirectories t')
    (hused : ∀ i < k, t'.node? (d ++ [temporaryName i]) ≠ none) : t'.Serves root d k where
  directory := hsame.hasDirectory_iff.mpr h.directory
  leads := hsame.leadsTo_iff.mpr h.leads
  admits := h.admits
  admitsDraft := h.admitsDraft
  free name hname := (hsame.directory_iff _).not.mpr (h.free name hname)
  used := hused

theorem putNode (hname : name ∈ temporaryName k :: fileNames) (data : Bytes) :
    (t.putNode (d ++ [name]) (.file data)).Serves root d k := by
  refine h.congr (sameDirectories_putNode (child_ne_nil d name) (h.free name hname) data) ?_
  intro i hi
  rw [node?_putNode _ _ _ _ (child_ne_nil d name)]
  split
  · nofun
  · exact h.used i hi

theorem eraseNode (hdraft : t.fileAt (d ++ [temporaryName k]) = some data) :
    (t.eraseNode (d ++ [temporaryName k])).Serves root d k := by
  refine h.congr (sameDirectories_eraseNode (fileAt_eq_some_iff.mp hdraft)) fun i hi => ?_
  have hne : d ++ [temporaryName k] ≠ d ++ [temporaryName i] :=
    child_inj.not.mpr (temporaryName_injective.ne hi.ne')
  rw [node?_eraseNode (child_ne_nil d _), if_neg hne]
  exact h.used i hi

theorem createTemporary_eq (hdraft : t.fileAt (d ++ [temporaryName k]) = none) :
    t.createTemporary root =
      (t.putNode (d ++ [temporaryName k]) (.file []), .ok (draftPath d k)) := by
  have hnode : t.node? (d ++ [temporaryName k]) = none := by
    rw [node?_eq_map (h.free _ List.mem_cons_self), hdraft]
    rfl
  have hname : t.freeName d = temporaryName k := freeName_eq h.used hnode
  have hroom : t.HasRoom root d (t.freeName d) := by
    rw [hname]
    exact ⟨h.directory, h.leads, h.admitsDraft, isDraft_temporaryName k, hnode⟩
  rw [createTemporary_eq_createAs, hroom.createAs_eq, hname, draftPath]

theorem locate_draftPath : t.locate (draftPath d k) = .ok (d ++ [temporaryName k]) :=
  (locate_joinPath_eq_ok_iff (isDraft_temporaryName k).isName).mpr ⟨h.admitsDraft, d, h.leads, rfl⟩

theorem locate_file (hname : name ∈ fileNames) :
    t.locate (joinPath root name) = .ok (d ++ [name]) :=
  (locate_joinPath_eq_ok_iff (isName_of_mem_fileNames hname)).mpr
    ⟨h.admits name hname, d, h.directory.leads, rfl⟩

theorem write_eq (data : Bytes) :
    t.write (draftPath d k) data = .ok (t.putNode (d ++ [temporaryName k]) (.file data)) :=
  write_eq_ok_iff.mpr ⟨_, h.locate_draftPath, h.free _ List.mem_cons_self, rfl⟩

theorem rename_eq (hdraft : t.fileAt (d ++ [temporaryName k]) = some data) (hname : name ∈ fileNames) :
    t.rename (draftPath d k) (joinPath root name) =
      .ok ((t.putNode (d ++ [name]) (.file data)).eraseNode (d ++ [temporaryName k])) := by
  have hne : d ++ [temporaryName k] ≠ d ++ [name] := child_inj.not.mpr (temporaryName_ne hname k)
  refine (rename_eq_ok_iff h.locate_draftPath (fileAt_eq_some_iff.mp hdraft)).mpr
    ⟨_, h.locate_file hname, h.free name (List.mem_cons_of_mem _ hname), ?_⟩
  rw [if_neg hne]

end Serves

/-- Whether there is such a directory as soon as it has been made, and none of the files turns up
in it only then. -/
@[mk_iff]
structure CanServe (t : FileTree) (root : String) (d : Location) (k : ℕ) : Prop where
  made : (t.makeDirectories root).1.Serves root d k
  vacant : t.LeadsTo root d ∨ ∀ name ∈ temporaryName k :: fileNames, t.node? (d ++ [name]) = none

instance (t : FileTree) (root : String) (d : Location) (k : ℕ) : Decidable (t.CanServe root d k) :=
  decidable_of_iff _ (canServe_iff t root d k).symm

theorem Serves.canServe (h : t.Serves root d k) : t.CanServe root d k where
  made := by rwa [h.directory.makeDirectories_eq]
  vacant := .inl h.directory.leads

namespace CanServe
variable (h : t.CanServe root d k)
include h

theorem serves (hleads : t.LeadsTo root d) : t.Serves root d k := by
  have hdirectory : t.HasDirectory root d := ⟨h.made.directory.fault, hleads⟩
  have hmade := h.made
  rwa [hdirectory.makeDirectories_eq] at hmade

theorem makeDirectories_eq_ok : (t.makeDirectories root).2 = .ok () := by
  rw [← makeDirectories_makeDirectories, h.made.directory.makeDirectories_eq]

theorem node?_eq (hname : name ∈ temporaryName k :: fileNames) :
    t.node? (d ++ [name]) = (t.fileAt (d ++ [name])).map .file :=
  node?_eq_map fun hnode =>
    h.made.free name hname ((extends_makeDirectories t root).node?_eq_some hnode)

theorem leadsTo (hname : name ∈ temporaryName k :: fileNames)
    (hfile : t.fileAt (d ++ [name]) = some data) : t.LeadsTo root d := by
  refine h.vacant.resolve_right fun hnone => ?_
  cases (hnone name hname).symm.trans (fileAt_eq_some_iff.mp hfile)

theorem locate_cases (hname : name ∈ fileNames) :
    t.locate (joinPath root name) = .ok (d ++ [name]) ∨
      t.locate (joinPath root name) = refused .notFound := by
  have hmade := h.made.locate_file hname
  have hgrown := extends_makeDirectories t root
  have hstart : (t.makeDirectories root).1.start root = t.start root := by
    rw [start, start, hgrown.home]
  have hfault := (h.made.admits name hname).1
  rw [locate_joinPath (isName_of_mem_fileNames hname) _ hfault] at hmade ⊢
  rw [hstart] at hmade
  exact hgrown.followAll_cases hmade

theorem present_eq (hname : name ∈ fileNames) :
    t.present (joinPath root name) = (t.fileAt (d ++ [name])).isSome := by
  have hname' := List.mem_cons_of_mem (temporaryName k) hname
  rw [Bool.eq_iff_iff, present_joinPath (isName_of_mem_fileNames hname)]
  constructor
  · rintro ⟨-, there, hleads, hnode⟩
    have hgrown := extends_makeDirectories t root
    obtain rfl := (hleads.mono hgrown.home fun _ => hgrown.node?_eq_some).unique
      h.made.directory.leads
    rwa [h.node?_eq hname', Option.isSome_map] at hnode
  · intro hsome
    obtain ⟨data, hfile⟩ := Option.isSome_iff_exists.mp hsome
    refine ⟨h.made.admits name hname, d, h.leadsTo hname' hfile, ?_⟩
    rwa [h.node?_eq hname', Option.isSome_map]

theorem read_eq (hname : name ∈ fileNames) :
    t.read (joinPath root name) =
      match t.fileAt (d ++ [name]) with
      | some data => .ok data
      | none => refused .notFound := by
  have hname' := List.mem_cons_of_mem (temporaryName k) hname
  cases hfile : t.fileAt (d ++ [name]) with
  | some data =>
    exact (read_joinPath (isName_of_mem_fileNames hname)).mpr ⟨h.made.admits name hname, d,
      h.leadsTo hname' hfile, fileAt_eq_some_iff.mp hfile⟩
  | none =>
    rw [read]
    rcases h.locate_cases hname with hlocate | hlocate
    · rw [hlocate]
      dsimp only
      rw [h.node?_eq hname', hfile]
      rfl
    · rw [hlocate]
      rfl

end CanServe

example : (empty ["home"]).CanServe "out/../proofs/" ["home", "proofs"] 0 := by decide +kernel

end FileTree

namespace Host
open FileTree

def view (d : Location) (k : ℕ) (host : Host) : View where
  files name := if name ∈ fileNames then host.files.fileAt (d ++ [name]) else none
  draft := (host.files.fileAt (d ++ [temporaryName k])).map fun data => (draftPath d k, data)
  printed := host.printed

variable {host : Host} {d : Location} {k : ℕ} {name : String}

theorem files_view (hname : name ∈ fileNames) :
    (view d k host).files name = host.files.fileAt (d ++ [name]) :=
  if_pos hname

theorem view_of_extends {t : FileTree} (h : host.files.Extends t) :
    view d k ⟨t, host.printed⟩ = view d k host := by
  simp only [view, h.fileAt_eq]

theorem view_putDraft (data : Bytes) :
    view d k ⟨host.files.putNode (d ++ [temporaryName k]) (.file data), host.printed⟩ =
      (view d k host).withDraft (draftPath d k) data := by
  simp only [view, View.withDraft, fileAt_putNode, if_true, Option.map_some, View.mk.injEq,
    and_true, funext_iff]
  intro name
  split
  · rename_i hname
    rw [if_neg (temporaryName_ne hname k)]
  · rfl

theorem view_place (hname : name ∈ fileNames) (data : Bytes) :
    view d k ⟨(host.files.putNode (d ++ [name]) (.file data)).eraseNode (d ++ [temporaryName k]),
        host.printed⟩ = (view d k host).put name data := by
  simp only [view, View.put, fileAt_eraseNode, fileAt_putNode, if_true, Option.map_none,
    View.mk.injEq, and_true, funext_iff, Function.update_apply]
  intro other
  by_cases hother : other ∈ fileNames
  · rw [if_pos hother, if_pos hother, if_neg (temporaryName_ne hother k)]
    simp only [eq_comm]
  · have hne : other ≠ name := by
      rintro rfl
      exact hother hname
    rw [if_neg hother, if_neg hother, if_neg hne]

theorem fileAt_of_draft {path : String} {data : Bytes}
    (h : (view d k host).draft = some (path, data)) :
    path = draftPath d k ∧ host.files.fileAt (d ++ [temporaryName k]) = some data := by
  obtain ⟨data', hfile, heq⟩ := Option.map_eq_some_iff.mp h
  obtain ⟨rfl, rfl⟩ := Prod.mk.inj heq
  exact ⟨rfl, hfile⟩

def workspace (root : String) (d : Location) (k : ℕ) : Workspace Host root where
  Usable host := host.files.CanServe root d k
  IsMade host := host.files.LeadsTo root d
  view := view d k
  present {host name} hs hname := by
    change (host.files.present (joinPath root name), host) = _
    rw [hs.present_eq hname, files_view hname]
  read {host name} hs hname := by
    change (host.files.read (joinPath root name), host) = _
    rw [hs.read_eq hname, files_view hname]
    cases host.files.fileAt (d ++ [name]) <;> rfl
  makeDirectories {host} hs := by
    refine ⟨_, ?_, hs.made.canServe, hs.made.directory.leads,
      view_of_extends (extends_makeDirectories host.files root)⟩
    change step (fun t => t.makeDirectories root) host = _
    simp only [step, hs.makeDirectories_eq_ok]
  createTemporary {host} hs hmade hdraft := by
    have hserves := hs.serves hmade
    refine ⟨draftPath d k, _, ?_, (hserves.putNode List.mem_cons_self []).canServe,
      view_putDraft []⟩
    change step (fun t => t.createTemporary root) host = _
    simp only [step, hserves.createTemporary_eq (Option.map_eq_none_iff.mp hdraft)]
  write {host path old} hs hdraft data := by
    obtain ⟨rfl, hfile⟩ := fileAt_of_draft hdraft
    have hserves := hs.serves (hs.leadsTo List.mem_cons_self hfile)
    refine ⟨_, ?_, (hserves.putNode List.mem_cons_self data).canServe, view_putDraft data⟩
    change change (fun t => t.write (draftPath d k) data) host = _
    rw [change, hserves.write_eq]
  rename {host path name data} hs hdraft hname := by
    obtain ⟨rfl, hfile⟩ := fileAt_of_draft hdraft
    have hserves := hs.serves (hs.leadsTo List.mem_cons_self hfile)
    have hserves' := hserves.putNode (List.mem_cons_of_mem _ hname) data
    have hfile' : (host.files.putNode (d ++ [name]) (.file data)).fileAt (d ++ [temporaryName k]) =
        some data := by
      rw [fileAt_putNode, if_neg (temporaryName_ne hname k).symm, hfile]
    refine ⟨_, ?_, (hserves'.eraseNode hfile').canServe, view_place hname data⟩
    change change (fun t => t.rename (draftPath d k) (joinPath root name)) host = _
    rw [change, hserves.rename_eq hfile hname]
  say {host} hs line := ⟨{ host with printed := line :: host.printed }, rfl, hs, rfl⟩

end Host

end RankOne
