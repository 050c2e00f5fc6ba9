import Mathlib.Logic.Function.Basic
import RankOne.Command.Run
import RankOne.Proofs.FixedPoint

/-!
# Workspaces

A directory as the commands see it: the files under the names of the artifacts, the one temporary
file that there may be, and the lines that have been printed. A workspace is any world with a disk
and a console whose operations on such a directory are not refused and do what they are for. A job
is described by what it makes of the view of a world, whatever else there is in that world.
-/

set_option autoImplicit false

namespace RankOne
open Unicode (Codes ofString)

namespace Artifact

def file (scope : String) (x : Artifact) : String :=
  scope ++ x.name ++ suffixOf x.name

def all : List Artifact :=
  [params, shape, verificationKey, proof, publicInputs]

theorem mem_all (x : Artifact) : x ∈ all := by
  cases x <;> decide

theorem toList_file (scope : String) (x : Artifact) :
    (x.file scope).toList = scope.toList ++ (x.name ++ suffixOf x.name).toList := by
  rw [file, String.toList_append, String.toList_append, String.toList_append, List.append_assoc]

/-- No two artifacts share a file, nor do two scopes: no artifact's file is called like the end of
another's. -/
theorem file_eq_file_iff {scope scope' : String} {x y : Artifact} :
    x.file scope = y.file scope' ↔ scope = scope' ∧ x = y := by
  have hends : ∀ x y : Artifact, (x.name ++ suffixOf x.name).toList <:+
      (y.name ++ suffixOf y.name).toList → x = y := by
    intro x y
    cases x <;> cases y <;> decide
  refine ⟨fun h => ?_, by rintro ⟨rfl, rfl⟩; rfl⟩
  have hlist := congrArg String.toList h
  rw [toList_file, toList_file] at hlist
  have hxy : x = y := by
    rcases List.suffix_or_suffix_of_suffix (List.suffix_append _ _)
      (hlist ▸ List.suffix_append _ _) with hsuffix | hsuffix
    · exact (hends y x hsuffix).symm
    · exact hends x y hsuffix
  subst hxy
  exact ⟨String.toList_injective (List.append_cancel_right hlist), rfl⟩

end Artifact

def scopes : List String :=
  ["", "recursive_", "chain_"]

def fileNames : List String :=
  scopes.flatMap fun scope => Artifact.all.map (Artifact.file scope)

theorem file_mem_fileNames {scope : String} (h : scope ∈ scopes) (x : Artifact) :
    x.file scope ∈ fileNames :=
  List.mem_flatMap.mpr ⟨scope, h, List.mem_map_of_mem x.mem_all⟩

structure View where
  files : String → Option Bytes
  draft : Option (String × Bytes)
  printed : List Codes

namespace View

def put (v : View) (name : String) (data : Bytes) : View :=
  ⟨Function.update v.files name (some data), none, v.printed⟩

def withDraft (v : View) (path : String) (data : Bytes) : View :=
  { v with draft := some (path, data) }

def print (v : View) (line : Codes) : View :=
  { v with printed := line :: v.printed }

@[simp] theorem draft_withDraft (v : View) (path : String) (data : Bytes) :
    (v.withDraft path data).draft = some (path, data) := rfl

@[simp] theorem files_print (v : View) (line : Codes) : (v.print line).files = v.files := rfl

theorem files_put_of_ne (v : View) {name other : String} (h : other ≠ name) (data : Bytes) :
    (v.put name data).files other = v.files other :=
  Function.update_of_ne h ..

theorem files_put_file (v : View) (scope : String) (x y : Artifact) (data : Bytes) :
    (v.put (x.file scope) data).files (y.file scope) =
      if y = x then some data else v.files (y.file scope) := by
  simp only [put, Function.update_apply, Artifact.file_eq_file_iff, true_and]

end View

/-- A disk and a console that serve a directory: no operation is refused once the directory is made,
a file is read as it was put in place, and nothing but a rename puts one there. -/
structure Workspace (S : Type) [Disk (StateM S)] [Console (StateM S)] (root : String) where
  Usable : S → Prop
  IsMade : S → Prop
  view : S → View
  present {s : S} {name : String} (hs : Usable s) (hname : name ∈ fileNames) :
    (Disk.present (joinPath root name) : StateM S Bool) s = (((view s).files name).isSome, s)
  read {s : S} {name : String} (hs : Usable s) (hname : name ∈ fileNames) :
    (Disk.read (joinPath root name) : StateM S (Except Fault Bytes)) s =
      (match (view s).files name with
        | some data => .ok data
        | none => .error (.refused .notFound), s)
  makeDirectories {s : S} (hs : Usable s) :
    ∃ s', (Disk.makeDirectories root : StateM S (Except Fault Unit)) s = (.ok (), s') ∧
      Usable s' ∧ IsMade s' ∧ view s' = view s
  createTemporary {s : S} (hs : Usable s) (hmade : IsMade s) (hdraft : (view s).draft = none) :
    ∃ path s', (Disk.createTemporary root : StateM S (Except Fault String)) s = (.ok path, s') ∧
      Usable s' ∧ view s' = (view s).withDraft path []
  write {s : S} {path : String} {old : Bytes} (hs : Usable s)
    (hdraft : (view s).draft = some (path, old)) (data : Bytes) :
    ∃ s', (Disk.write path data : StateM S (Except Fault Unit)) s = (.ok (), s') ∧
      Usable s' ∧ view s' = (view s).withDraft path data
  rename {s : S} {path name : String} {data : Bytes} (hs : Usable s)
    (hdraft : (view s).draft = some (path, data)) (hname : name ∈ fileNames) :
    ∃ s', (Disk.rename path (joinPath root name) : StateM S (Except Fault Unit)) s =
      (.ok (), s') ∧ Usable s' ∧ view s' = (view s).put name data
  say {s : S} (hs : Usable s) (line : Codes) :
    ∃ s', (Console.say line : StateM S Unit) s = ((), s') ∧ Usable s' ∧
      view s' = (view s).print line

variable {S σ : Type} [Disk (StateM S)] [Console (StateM S)] {root : String}

def Job.Goes {α : Type} (W : Workspace S root) (x : Job σ (StateM S) α) (source : σ) (v : View)
    (r : Except Halt α) (source' : σ) (v' : View) : Prop :=
  ∀ s, W.Usable s → W.view s = v →
    ∃ s', x.run.run source s = ((r, source'), s') ∧ W.Usable s' ∧ W.view s' = v'

namespace Job
variable {α β : Type} {W : Workspace S root} {source source' source'' : σ} {v v' v'' : View}

theorem goes_pure (a : α) : Goes W (pure a) source v (.ok a) source v :=
  fun s hs hv => ⟨s, rfl, hs, hv⟩

theorem goes_throw (h : Halt) :
    Goes W (throw h : Job σ (StateM S) α) source v (.error h) source v :=
  fun s hs hv => ⟨s, rfl, hs, hv⟩

omit [Disk (StateM S)] [Console (StateM S)] in
theorem run_bind (x : Job σ (StateM S) α) (f : α → Job σ (StateM S) β) (source : σ) (s : S) :
    (x >>= f).run.run source s =
      match x.run.run source s with
      | ((.ok a, source'), s') => (f a).run.run source' s'
      | ((.error h, source'), s') => ((.error h, source'), s') := by
  simp only [bind, ExceptT.bind, ExceptT.bindCont, ExceptT.run, ExceptT.mk, StateT.bind,
    StateT.run, pure]
  obtain ⟨⟨r, source'⟩, s'⟩ := x source s
  cases r <;> rfl

theorem Goes.bind {x : Job σ (StateM S) α} {f : α → Job σ (StateM S) β} {a : α}
    {r : Except Halt β} (hx : Goes W x source v (.ok a) source' v')
    (hf : Goes W (f a) source' v' r source'' v'') : Goes W (x >>= f) source v r source'' v'' := by
  intro s hs hv
  obtain ⟨s', hrun, hs', hv'⟩ := hx s hs hv
  obtain ⟨s'', hrun', hs'', hv''⟩ := hf s' hs' hv'
  exact ⟨s'', by rw [run_bind, hrun, ← hrun'], hs'', hv''⟩

theorem Goes.bind_error {x : Job σ (StateM S) α} {h : Halt}
    (hx : Goes W x source v (.error h) source' v') (f : α → Job σ (StateM S) β) :
    Goes W (x >>= f) source v (.error h) source' v' := by
  intro s hs hv
  obtain ⟨s', hrun, hs', hv'⟩ := hx s hs hv
  exact ⟨s', by rw [run_bind, hrun], hs', hv'⟩

theorem goes_get (source : σ) (v : View) :
    Goes W (get : Job σ (StateM S) σ) source v (.ok source) source v :=
  fun s hs hv => ⟨s, rfl, hs, hv⟩

theorem goes_ofExcept (r : Except Fault α) (source : σ) (v : View) :
    Goes W (ofExcept r : Job σ (StateM S) α) source v (r.mapError .fault) source v :=
  fun s hs hv => ⟨s, rfl, hs, hv⟩

theorem goes_ofExcept_of_ok {r : Except Fault α} {a : α} (h : r = .ok a) (source : σ) (v : View) :
    Goes W (ofExcept r : Job σ (StateM S) α) source v (.ok a) source v := by
  rw [h]
  exact goes_ofExcept (.ok a) source v

theorem goes_random (x : Random σ α) (source : σ) (v : View) :
    Goes W (random x : Job σ (StateM S) α) source v ((x.run source).1.mapError .fault)
      (x.run source).2 v :=
  fun s hs hv => ⟨s, rfl, hs, hv⟩

theorem goes_random_of_ok {x : Random σ α} {source : σ} {a : α} (h : (x.run source).1 = .ok a)
    (v : View) :
    Goes W (random x : Job σ (StateM S) α) source v (.ok a) (x.run source).2 v := by
  have hgoes := goes_random (W := W) x source v
  rwa [h] at hgoes

theorem goes_print (line : Codes) (source : σ) (v : View) :
    Goes W (print line : Job σ (StateM S) Unit) source v (.ok ()) source (v.print line) := by
  rintro s hs rfl
  obtain ⟨s', hsay, hs', hv'⟩ := W.say hs line
  have hrun : (print line : Job σ (StateM S) Unit).run.run source s =
      ((.ok (), source), ((Console.say line : StateM S Unit) s).2) := rfl
  exact ⟨s', by rw [hrun, hsay], hs', hv'⟩

def Serves (W : Workspace S root) (x : ExceptT Fault (StateM S) α) (v : View)
    (r : Except Fault α) (v' : View) : Prop :=
  ∀ s, W.Usable s → W.view s = v → ∃ s', x.run s = (r, s') ∧ W.Usable s' ∧ W.view s' = v'

theorem Serves.goes {x : ExceptT Fault (StateM S) α} {r : Except Fault α}
    (h : Serves W x v r v') (source : σ) :
    Goes W (disk x : Job σ (StateM S) α) source v (r.mapError .fault) source v' := by
  intro s hs hv
  obtain ⟨s', hrun, hs', hv'⟩ := h s hs hv
  have hdisk : (disk x : Job σ (StateM S) α).run.run source s =
      (((x.run s).1.mapError .fault, source), (x.run s).2) := rfl
  exact ⟨s', by rw [hdisk, hrun], hs', hv'⟩

omit [Disk (StateM S)] [Console (StateM S)] in
theorem run_tryCatch_of_ok {x : ExceptT Fault (StateM S) α} {s s' : S} {a : α}
    (h : x.run s = (.ok a, s')) (handle : Fault → ExceptT Fault (StateM S) α) :
    (tryCatch x handle).run s = (.ok a, s') := by
  have hx : x s = (.ok a, s') := h
  simp only [tryCatch, tryCatchThe, MonadExceptOf.tryCatch, ExceptT.tryCatch, ExceptT.run,
    ExceptT.mk, bind, StateT.bind, pure, hx]
  rfl

omit [Disk (StateM S)] [Console (StateM S)] in
theorem run_tryCatch_of_error {x : ExceptT Fault (StateM S) α} {s s' : S} {e : Fault}
    (h : x.run s = (.error e, s')) (handle : Fault → ExceptT Fault (StateM S) α) :
    (tryCatch x handle).run s = (handle e).run s' := by
  have hx : x s = (.error e, s') := h
  simp only [tryCatch, tryCatchThe, MonadExceptOf.tryCatch, ExceptT.tryCatch, ExceptT.run,
    ExceptT.mk, bind, StateT.bind, hx]

variable {scope : String} (hscope : scope ∈ scopes)
include hscope

theorem serves_holds (x : Artifact) (v : View) :
    Serves W (ExceptT.lift ((⟨root, scope⟩ : Archive).holds x.name)) v
      (.ok (v.files (x.file scope)).isSome) v := by
  rintro s hs rfl
  have hrun : (ExceptT.lift ((⟨root, scope⟩ : Archive).holds x.name) :
      ExceptT Fault (StateM S) Bool).run s =
        (.ok ((Disk.present (joinPath root (x.file scope)) : StateM S Bool) s).1,
          ((Disk.present (joinPath root (x.file scope)) : StateM S Bool) s).2) := rfl
  exact ⟨s, by rw [hrun, W.present hs (file_mem_fileNames hscope x)], hs, rfl⟩

theorem serves_load (x : Artifact) (v : View) :
    Serves W ((⟨root, scope⟩ : Archive).load x.name) v
      (match v.files (x.file scope) with
        | some data => .ok data
        | none => .error (.refused .notFound)) v := by
  rintro s hs rfl
  exact ⟨s, W.read hs (file_mem_fileNames hscope x), hs, rfl⟩

/-- The temporary file is made and filled before it takes its place. -/
theorem serves_save (x : Artifact) (data : Bytes) {v : View} (hdraft : v.draft = none) :
    Serves W ((⟨root, scope⟩ : Archive).save x.name data) v
      (.ok ((⟨root, scope⟩ : Archive).path x.name)) (v.put (x.file scope) data) := by
  rintro s hs rfl
  obtain ⟨s₁, hmake, hs₁, hmade, hv₁⟩ := W.makeDirectories hs
  obtain ⟨path, s₂, hcreate, hs₂, hv₂⟩ := W.createTemporary hs₁ hmade (by rw [hv₁, hdraft])
  obtain ⟨s₃, hwrite, hs₃, hv₃⟩ := W.write hs₂ (by rw [hv₂, View.draft_withDraft]) data
  obtain ⟨s₄, hrename, hs₄, hv₄⟩ :=
    W.rename hs₃ (by rw [hv₃, View.draft_withDraft]) (file_mem_fileNames hscope x)
  have hplace : (Archive.place ⟨root, scope⟩ x.name path data :
      ExceptT Fault (StateM S) Unit).run s₂ = (.ok (), s₄) := by
    have hfirst : (ExceptT.mk (Disk.write path data) : ExceptT Fault (StateM S) Unit).run s₂ =
      (.ok (), s₃) := hwrite
    rw [Archive.place, Random.run_bind, hfirst]
    exact hrename
  refine ⟨s₄, ?_, hs₄, ?_⟩
  · have hfirst : (ExceptT.mk (Disk.makeDirectories root) : ExceptT Fault (StateM S) Unit).run s =
      (.ok (), s₁) := hmake
    have hsecond : (ExceptT.mk (Disk.createTemporary root) :
      ExceptT Fault (StateM S) String).run s₁ = (.ok path, s₂) := hcreate
    rw [Archive.save, Random.run_bind, hfirst]
    dsimp only
    rw [Random.run_bind, hsecond]
    dsimp only
    rw [Random.run_bind, run_tryCatch_of_ok hplace]
    rfl
  · rw [hv₄, hv₃, hv₂, hv₁]
    rfl

theorem goes_saveArtifact (x : Artifact) (what : String) (data : Bytes) {v : View}
    (hdraft : v.draft = none) (source : σ) :
    Goes W (Command.saveArtifact ⟨root, scope⟩ x what data : Job σ (StateM S) Unit) source v
      (.ok ()) source ((v.put (x.file scope) data).print
        (ofString ("Saving " ++ what ++ " to: " ++ Archive.path ⟨root, scope⟩ x.name))) :=
  ((serves_save hscope x data hdraft).goes source).bind (goes_print _ source _)

theorem goes_loadArtifact {x : Artifact} {data : Bytes} {v : View}
    (h : v.files (x.file scope) = some data) (source : σ) :
    Goes W (Command.loadArtifact ⟨root, scope⟩ x : Job σ (StateM S) Bytes) source v (.ok data)
      source v := by
  have hload := (serves_load (W := W) hscope x v).goes source
  rw [h] at hload
  exact hload

theorem goes_loadArtifact_missing {x : Artifact} {v : View} (h : v.files (x.file scope) = none)
    (source : σ) :
    Goes W (Command.loadArtifact ⟨root, scope⟩ x : Job σ (StateM S) Bytes) source v
      (.error (.fault (.refused .notFound))) source v := by
  have hload := (serves_load (W := W) hscope x v).goes source
  rw [h] at hload
  exact hload

theorem goes_demand {xs : List Artifact} {v : View}
    (h : ∀ x ∈ xs, (v.files (x.file scope)).isSome) (source : σ) :
    Goes W (demand ⟨root, scope⟩ xs : Job σ (StateM S) Unit) source v (.ok ()) source v := by
  induction xs with
  | nil => exact goes_pure ()
  | cons x xs ih =>
    rw [List.forall_mem_cons] at h
    have hholds := (serves_holds (W := W) hscope x v).goes source
    rw [h.1] at hholds
    exact hholds.bind (ih h.2)

theorem exists_goes_demand_error {xs : List Artifact} {v : View} {x : Artifact} (hx : x ∈ xs)
    (h : v.files (x.file scope) = none) (source : σ) :
    ∃ e, Goes W (demand ⟨root, scope⟩ xs : Job σ (StateM S) Unit) source v (.error e) source v := by
  induction xs with
  | nil => cases hx
  | cons y xs ih =>
    have hholds := (serves_holds (W := W) hscope y v).goes source
    cases hfile : v.files (y.file scope) with
    | none =>
      rw [hfile] at hholds
      exact ⟨_, hholds.bind (goes_throw _)⟩
    | some data =>
      rw [hfile] at hholds
      have hne : x ≠ y := by
        rintro rfl
        rw [h] at hfile
        cases hfile
      obtain ⟨e, he⟩ := ih ((List.mem_cons.mp hx).resolve_left hne)
      exact ⟨e, hholds.bind he⟩

end Job

/-- Whether a job comes to an end, wherever no temporary file stands in the way, and leaves all
files but these as they were. -/
def Job.Touches {α : Type} (W : Workspace S root) (names : List String) (x : Job σ (StateM S) α) :
    Prop :=
  ∀ source v, v.draft = none → ∃ r source' v', Goes W x source v r source' v' ∧ v'.draft = none ∧
    ∀ name ∉ names, v'.files name = v.files name

namespace Job
variable {α β : Type} {W : Workspace S root} {names : List String}

theorem touches_of_goes {x : Job σ (StateM S) α}
    (h : ∀ source v, ∃ r source' v', Goes W x source v r source' v' ∧ v'.draft = v.draft ∧
      v'.files = v.files) : Touches W names x := by
  intro source v hdraft
  obtain ⟨r, source', v', hx, hdraft', hfiles⟩ := h source v
  exact ⟨r, source', v', hx, hdraft'.trans hdraft, fun name _ => by rw [hfiles]⟩

theorem Touches.bind {x : Job σ (StateM S) α} {f : α → Job σ (StateM S) β}
    (hx : Touches W names x) (hf : ∀ a, Touches W names (f a)) : Touches W names (x >>= f) := by
  intro source v hdraft
  obtain ⟨r, source₁, v₁, hgoes, hdraft₁, hfiles₁⟩ := hx source v hdraft
  cases r with
  | error e => exact ⟨.error e, source₁, v₁, hgoes.bind_error f, hdraft₁, hfiles₁⟩
  | ok a =>
    obtain ⟨r, source₂, v₂, hgoes₂, hdraft₂, hfiles₂⟩ := hf a source₁ v₁ hdraft₁
    exact ⟨r, source₂, v₂, hgoes.bind hgoes₂, hdraft₂, fun name hname =>
      (hfiles₂ name hname).trans (hfiles₁ name hname)⟩

theorem touches_pure (a : α) : Touches W names (pure a : Job σ (StateM S) α) :=
  touches_of_goes fun source v => ⟨_, source, v, goes_pure a, rfl, rfl⟩

theorem touches_throw (e : Halt) : Touches W names (throw e : Job σ (StateM S) α) :=
  touches_of_goes fun source v => ⟨_, source, v, goes_throw e, rfl, rfl⟩

theorem touches_get : Touches W names (get : Job σ (StateM S) σ) :=
  touches_of_goes fun source v => ⟨_, source, v, goes_get source v, rfl, rfl⟩

theorem touches_ofExcept (r : Except Fault α) :
    Touches W names (ofExcept r : Job σ (StateM S) α) :=
  touches_of_goes fun source v => ⟨_, source, v, goes_ofExcept r source v, rfl, rfl⟩

theorem touches_random (x : Random σ α) : Touches W names (random x : Job σ (StateM S) α) :=
  touches_of_goes fun source v => ⟨_, _, v, goes_random x source v, rfl, rfl⟩

theorem touches_print (line : Codes) : Touches W names (print line : Job σ (StateM S) Unit) :=
  touches_of_goes fun source v => ⟨_, source, _, goes_print line source v, rfl, rfl⟩

theorem touches_say (line : String) : Touches W names (say line : Job σ (StateM S) Unit) :=
  touches_print _

theorem touches_printAll (lines : List Codes) :
    Touches W names (Command.printAll lines : Job σ (StateM S) Unit) := by
  induction lines with
  | nil => exact touches_pure ()
  | cons line rest ih => exact (touches_print line).bind fun _ => ih

section Scoped
variable {scope : String} (hscope : scope ∈ scopes)
include hscope

theorem touches_loadArtifact (x : Artifact) :
    Touches W names (Command.loadArtifact ⟨root, scope⟩ x : Job σ (StateM S) Bytes) := by
  refine touches_of_goes fun source v => ?_
  cases hfile : v.files (x.file scope) with
  | none => exact ⟨_, source, v, goes_loadArtifact_missing hscope hfile source, rfl, rfl⟩
  | some data => exact ⟨_, source, v, goes_loadArtifact hscope hfile source, rfl, rfl⟩

theorem touches_demand (xs : List Artifact) :
    Touches W names (demand ⟨root, scope⟩ xs : Job σ (StateM S) Unit) := by
  refine touches_of_goes fun source v => ?_
  by_cases h : ∀ x ∈ xs, (v.files (x.file scope)).isSome
  · exact ⟨_, source, v, goes_demand hscope h source, rfl, rfl⟩
  · simp only [not_forall, Bool.not_eq_true, Option.isSome_eq_false_iff,
      Option.isNone_iff_eq_none] at h
    obtain ⟨x, hx, hnone⟩ := h
    obtain ⟨e, he⟩ := exists_goes_demand_error (W := W) hscope hx hnone source
    exact ⟨_, source, v, he, rfl, rfl⟩

theorem touches_saveArtifact {x : Artifact} (h : x.file scope ∈ names) (what : String)
    (data : Bytes) :
    Touches W names (Command.saveArtifact ⟨root, scope⟩ x what data : Job σ (StateM S) Unit) := by
  intro source v hdraft
  refine ⟨_, source, _, goes_saveArtifact hscope x what data hdraft source, rfl, ?_⟩
  intro name hname
  rw [View.files_print, View.files_put_of_ne]
  rintro rfl
  exact hname h

end Scoped

end Job

/-- Whether a job either stops for a reason and leaves the files as they were, or comes to an end
and leaves such a view. -/
def Job.Commits (W : Workspace S root) (x : Job σ (StateM S) Unit) (source : σ) (v : View)
    (reason : Prop) (post : View → Prop) : Prop :=
  ∃ r source' v', Goes W x source v r source' v' ∧ v'.draft = none ∧
    ((∃ e, r = .error e) ∧ reason ∧ v'.files = v.files ∨ r = .ok () ∧ post v')

namespace Job
variable {α : Type} {W : Workspace S root} {source source' : σ} {v v' : View} {reason : Prop}
  {post : View → Prop}

theorem commits_of_error {x : Job σ (StateM S) Unit} {e : Halt}
    (h : Goes W x source v (.error e) source' v') (hdraft : v'.draft = none)
    (hfiles : v'.files = v.files) (hreason : reason) : Commits W x source v reason post :=
  ⟨_, source', v', h, hdraft, .inl ⟨⟨e, rfl⟩, hreason, hfiles⟩⟩

theorem commits_of_ok {x : Job σ (StateM S) Unit} (h : Goes W x source v (.ok ()) source' v')
    (hdraft : v'.draft = none) (hpost : post v') : Commits W x source v reason post :=
  ⟨_, source', v', h, hdraft, .inr ⟨rfl, hpost⟩⟩

theorem Commits.imp {x : Job σ (StateM S) Unit} {reason' : Prop} {post' : View → Prop}
    (h : Commits W x source v reason post) (hreason : reason → reason')
    (hpost : ∀ v', post v' → post' v') : Commits W x source v reason' post' := by
  obtain ⟨r, source', v', hgoes, hdraft, hcases⟩ := h
  exact ⟨r, source', v', hgoes, hdraft,
    hcases.imp (And.imp_right (And.imp_left hreason)) (And.imp_right (hpost v'))⟩

theorem Goes.commits {x : Job σ (StateM S) α} {f : α → Job σ (StateM S) Unit} {a : α}
    (hx : Goes W x source v (.ok a) source' v') (hfiles : v'.files = v.files)
    (h : Commits W (f a) source' v' reason post) : Commits W (x >>= f) source v reason post := by
  obtain ⟨r, source'', v'', hgoes, hdraft, hcases⟩ := h
  refine ⟨r, source'', v'', hx.bind hgoes, hdraft, hcases.imp_left ?_⟩
  rintro ⟨he, hreason, hfiles'⟩
  exact ⟨he, hreason, hfiles'.trans hfiles⟩

theorem commits_say_bind {f : Unit → Job σ (StateM S) Unit} (line : String)
    (h : Commits W (f ()) source (v.print (ofString line)) reason post) :
    Commits W (say line >>= f) source v reason post :=
  (goes_print _ source v).commits rfl h

theorem commits_ofExcept_bind {f : α → Job σ (StateM S) Unit} {r : Except Fault α}
    (hdraft : v.draft = none) (herror : ∀ e, r = .error e → reason)
    (hok : ∀ a, r = .ok a → Commits W (f a) source v reason post) :
    Commits W (ofExcept r >>= f) source v reason post := by
  have hgoes := goes_ofExcept (W := W) r source v
  cases r with
  | error e => exact commits_of_error (hgoes.bind_error f) hdraft rfl (herror e rfl)
  | ok a => exact hgoes.commits rfl (hok a rfl)

end Job

end RankOne
