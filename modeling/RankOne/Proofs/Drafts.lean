import RankOne.Proofs.Directories
import RankOne.Proofs.Workspace

/-!
# Temporary files

A temporary file has a name that no other file of the tree has, and that no artifact's file can
have. While there is one, all other paths lead where they led and to what they led to. To fill it,
to remove it and to move it into place come to what they would in any tree with such a file.
-/

set_option autoImplicit false

namespace RankOne

namespace FileTree
variable {t t' : FileTree} {d : Location} {name path file : String}

theorem ofDigitChars_replicate_zero (n : ℕ) (cs : List Char) :
    Nat.ofDigitChars 10 (List.replicate n '0' ++ cs) 0 = Nat.ofDigitChars 10 cs 0 := by
  induction n with
  | zero => rfl
  | succ n ih =>
    rw [List.replicate_succ, List.cons_append, Nat.ofDigitChars_cons, ← ih]
    rfl

theorem temporaryName_injective : Function.Injective temporaryName := by
  intro i j h
  have hlist := String.ofList_injective ((String.append_right_inj _).mp h)
  have hvalue := congrArg (fun cs => Nat.ofDigitChars 10 cs 0) hlist
  simp only [ofDigitChars_replicate_zero, Nat.toString_eq_repr, Nat.toList_repr,
    Nat.ofDigitChars_ten_toDigits] at hvalue
  exact hvalue

theorem exists_find?_free (t : FileTree) (location : Location) :
    ∃ i, ((List.range (t.nodes.length + 1)).find?
        fun i => !(t.node? (location ++ [temporaryName i])).isSome) = some i ∧
      t.freeName location = temporaryName i := by
  rw [freeName]
  cases hfind : (List.range (t.nodes.length + 1)).find?
      fun i => !(t.node? (location ++ [temporaryName i])).isSome with
  | some i => exact ⟨i, rfl, rfl⟩
  | none =>
    -- all these names would be keys of the tree, one more than it has
    exfalso
    let place := fun i => location ++ [temporaryName i]
    have hinjective : Function.Injective place := fun i j h =>
      temporaryName_injective (child_inj.mp h)
    have hsubset : (List.range (t.nodes.length + 1)).map place ⊆ t.nodes.map Prod.fst := by
      intro other hother
      obtain ⟨i, hi, rfl⟩ := List.mem_map.mp hother
      have hused := List.find?_eq_none.mp hfind i hi
      rw [Bool.not_eq_true, Bool.not_eq_false', node?_eq_get? (by simp)] at hused
      obtain ⟨node, hnode⟩ := Option.isSome_iff_exists.mp hused
      exact List.mem_map_of_mem (f := Prod.fst) (Entries.mem_of_get? hnode)
    have hnodup : ((List.range (t.nodes.length + 1)).map place).Nodup :=
      (List.nodup_map_iff hinjective).mpr List.nodup_range
    have hlength := (List.subperm_of_subset hnodup hsubset).length_le
    simp at hlength

theorem node?_freeName (t : FileTree) (location : Location) :
    t.node? (location ++ [t.freeName location]) = none := by
  obtain ⟨i, hfind, hname⟩ := t.exists_find?_free location
  have hfree := List.find?_some hfind
  rw [hname]
  simpa using hfree

theorem freeName_eq {k : ℕ} (hused : ∀ i < k, t.node? (d ++ [temporaryName i]) ≠ none)
    (hfree : t.node? (d ++ [temporaryName k]) = none) : t.freeName d = temporaryName k := by
  obtain ⟨i, hfind, hname⟩ := t.exists_find?_free d
  rw [List.find?_range_eq_some] at hfind
  obtain ⟨hi, -, hbefore⟩ := hfind
  have hle : i ≤ k := by
    by_contra hlt
    have hk := hbefore k (by omega)
    simp [hfree] at hk
  have hge : ¬i < k := fun hlt => hused i hlt (by simpa using hi)
  rw [hname, show i = k by omega]

def isDraftLetter (c : Char) : Bool :=
  c.isLower || c.isDigit || c == '_'

def IsDraft (name : String) : Prop :=
  ∃ letters : List Char, name.toList = ".tmp-".toList ++ letters ∧ 8 ≤ letters.length ∧
    ∀ c ∈ letters, isDraftLetter c = true

theorem isDraft_temporaryName (i : ℕ) : IsDraft (temporaryName i) := by
  refine ⟨List.replicate (8 - (toString i).toList.length) '0' ++ (toString i).toList, ?_, ?_, ?_⟩
  · rw [temporaryName, String.toList_append]
    exact congrArg _ String.toList_ofList
  · rw [List.length_append, List.length_replicate]
    omega
  · intro c hc
    rcases List.mem_append.mp hc with hc | hc
    · rw [(List.mem_replicate.mp hc).2]
      decide
    · rw [Nat.toString_eq_repr, Nat.toList_repr] at hc
      rw [isDraftLetter, Nat.isDigit_of_mem_toDigits (by decide) (by decide) hc, Bool.or_true,
        Bool.true_or]

theorem isDraft_freeName (t : FileTree) (location : Location) :
    IsDraft (t.freeName location) :=
  isDraft_temporaryName _

theorem IsDraft.isName (h : IsDraft name) : IsName name := by
  obtain ⟨letters, hname, hlength, hletters⟩ := h
  have hlong : 13 ≤ name.toList.length := by
    rw [hname, List.length_append]
    exact Nat.add_le_add_left hlength 5
  have hne : ∀ short : String, short.toList.length < 13 → name ≠ short := by
    rintro short hshort rfl
    omega
  refine ⟨fun hslash => ?_, hne _ (by decide), hne _ (by decide), hne _ (by decide)⟩
  rw [hname] at hslash
  rcases List.mem_append.mp hslash with hslash | hslash
  · revert hslash
    decide
  · have hletter := hletters _ hslash
    revert hletter
    decide

def createAs (t : FileTree) (name : Location → String) (directory : String) :
    FileTree × Except Fault String :=
  match t.locate directory with
  | .error e => (t, .error e)
  | .ok location =>
      let path := joinPath (absolute location) (name location)
      match t.write path [] with
      | .ok t' => (t', .ok path)
      | .error e => (t, .error e)

theorem createTemporary_eq_createAs (t : FileTree) (directory : String) :
    t.createTemporary directory = t.createAs t.freeName directory :=
  rfl

def nameFor (t : FileTree) (letters : String) (location : Location) : String :=
  if 8 ≤ letters.toList.length ∧ letters.toList.all isDraftLetter = true ∧
      (t.node? (location ++ [".tmp-" ++ letters])).isNone = true then ".tmp-" ++ letters
  else t.freeName location

theorem isDraft_nameFor (t : FileTree) (letters : String) (location : Location) :
    IsDraft (t.nameFor letters location) := by
  rw [nameFor]
  split_ifs with h
  · exact ⟨letters.toList, String.toList_append, h.1, List.all_eq_true.mp h.2.1⟩
  · exact t.isDraft_freeName location

theorem node?_nameFor (t : FileTree) (letters : String) (location : Location) :
    t.node? (location ++ [t.nameFor letters location]) = none := by
  rw [nameFor]
  split_ifs with h
  · exact Option.isNone_iff_eq_none.mp h.2.2
  · exact t.node?_freeName location

theorem nameFor_empty (t : FileTree) (location : Location) :
    t.nameFor "" location = t.freeName location :=
  if_neg fun h => absurd h.1 (by decide)

structure HasRoom (t : FileTree) (path : String) (d : Location) (name : String) : Prop where
  directory : t.HasDirectory path d
  leads : t.LeadsTo (absolute d) d
  admits : Admits (absolute d) name
  isDraft : IsDraft name
  free : t.node? (d ++ [name]) = none

variable {names : Location → String}

theorem HasDirectory.createAs_eq (h : t.HasDirectory path d) (names : Location → String) :
    t.createAs names path =
      match t.write (joinPath (absolute d) (names d)) [] with
      | .ok t' => (t', .ok (joinPath (absolute d) (names d)))
      | .error e => (t, .error e) := by
  rw [createAs, h.locate_eq]

theorem HasRoom.createAs_eq (h : t.HasRoom path d (names d)) :
    t.createAs names path =
      (t.putNode (d ++ [names d]) (.file []), .ok (joinPath (absolute d) (names d))) := by
  have hlocate := (locate_joinPath_eq_ok_iff h.isDraft.isName).mpr ⟨h.admits, d, h.leads, rfl⟩
  have hwrite : t.write (joinPath (absolute d) (names d)) [] =
      .ok (t.putNode (d ++ [names d]) (.file [])) :=
    write_eq_ok_iff.mpr ⟨d ++ [names d], hlocate, by rw [h.free]; nofun, rfl⟩
  rw [h.directory.createAs_eq, hwrite]

theorem createAs_cases (hhome : IsNamed t.home) (h : t.HasDirectory path d)
    (hname : IsDraft (names d)) (hfree : t.node? (d ++ [names d]) = none) :
    (∃ e, t.createAs names path = (t, .error e)) ∨
      t.HasRoom path d (names d) ∧ t.createAs names path =
        (t.putNode (d ++ [names d]) (.file []), .ok (joinPath (absolute d) (names d))) := by
  cases hwrite : t.write (joinPath (absolute d) (names d)) [] with
  | error e =>
    rw [h.createAs_eq, hwrite]
    exact .inl ⟨e, rfl⟩
  | ok written =>
    obtain ⟨location, hlocate, -, rfl⟩ := write_eq_ok_iff.mp hwrite
    obtain ⟨hadmits, there, hleads, rfl⟩ := (locate_joinPath_eq_ok_iff hname.isName).mp hlocate
    obtain rfl := hleads.eq_of_absolute (hhome.of_leadsTo h.leads)
    have hroom : t.HasRoom path there (names there) := ⟨h, hleads, hadmits, hname, hfree⟩
    exact .inr ⟨hroom, hroom.createAs_eq⟩

def IsDrafted (t : FileTree) (d : Location) (name : String) (t' : FileTree) : Prop :=
  ∃ bytes, t' = t.putNode (d ++ [name]) (.file bytes)

namespace HasRoom
variable (h : t.HasRoom path d name)
include h

theorem sameDirectories (bytes : Bytes) :
    t.SameDirectories (t.putNode (d ++ [name]) (.file bytes)) :=
  sameDirectories_putNode (child_ne_nil d name) (by rw [h.free]; nofun) bytes

theorem locate_eq (bytes : Bytes) :
    (t.putNode (d ++ [name]) (.file bytes)).locate (joinPath (absolute d) name) =
      .ok (d ++ [name]) :=
  (locate_joinPath_eq_ok_iff h.isDraft.isName).mpr
    ⟨h.admits, d, (h.sameDirectories bytes).leadsTo_iff.mpr h.leads, rfl⟩

theorem write_eq (bytes bytes' : Bytes) :
    (t.putNode (d ++ [name]) (.file bytes)).write (joinPath (absolute d) name) bytes' =
      .ok (t.putNode (d ++ [name]) (.file bytes')) := by
  refine write_eq_ok_iff.mpr ⟨d ++ [name], h.locate_eq bytes, ?_, ?_⟩
  · rw [node?_putNode_self]
    nofun
  · rw [putNode_putNode]

theorem remove_eq (bytes : Bytes) :
    (t.putNode (d ++ [name]) (.file bytes)).remove (joinPath (absolute d) name) = .ok t := by
  rw [FileTree.remove_eq (h.locate_eq bytes) (node?_putNode_self d name _),
    eraseNode_putNode h.free]

theorem rename_eq_ok_iff (hfile : IsName file) (hne : file ≠ name) (bytes : Bytes) :
    (t.putNode (d ++ [name]) (.file bytes)).rename (joinPath (absolute d) name)
        (joinPath path file) = .ok t' ↔
      Admits path file ∧ t.node? (d ++ [file]) ≠ some .directory ∧
        t' = t.putNode (d ++ [file]) (.file bytes) := by
  have hne' : d ++ [file] ≠ d ++ [name] := child_inj.not.mpr hne
  have hnode : (t.putNode (d ++ [name]) (.file bytes)).node? (d ++ [file]) =
      t.node? (d ++ [file]) := by
    rw [node?_putNode _ _ _ _ (child_ne_nil d name), if_neg hne'.symm]
  have hleads := (h.sameDirectories bytes).leadsTo_iff.mpr h.directory.leads
  have hplace := eraseNode_putNode_putNode h.free hne' (.file bytes) (.file bytes)
  rw [FileTree.rename_eq_ok_iff (h.locate_eq bytes) (node?_putNode_self d name _)]
  simp only [locate_joinPath_eq_ok_iff hfile]
  constructor
  · rintro ⟨_, ⟨hadmits, there, hthere, rfl⟩, hfree, rfl⟩
    obtain rfl := hthere.unique hleads
    rw [hnode] at hfree
    rw [if_neg hne'.symm, hplace]
    exact ⟨hadmits, hfree, rfl⟩
  · rintro ⟨hadmits, hfree, rfl⟩
    refine ⟨d ++ [file], ⟨hadmits, d, hleads, rfl⟩, by rwa [hnode], ?_⟩
    rw [if_neg hne'.symm, hplace]

end HasRoom

end FileTree

namespace Artifact

theorem exists_toList_file (scope : String) (x : Artifact) :
    ∃ stem ending, (x.file scope).toList = stem ++ '.' :: ending ∧ 3 ≤ ending.length ∧
      ending.length ≤ 4 := by
  have hends : ∃ stem ending, (x.name ++ suffixOf x.name).toList = stem ++ '.' :: ending ∧
      3 ≤ ending.length ∧ ending.length ≤ 4 := by
    cases x with
    | params | shape =>
      exact ⟨(_ : String).toList, ['b', 'i', 'n'], String.toList_append, by decide, by decide⟩
    | verificationKey | proof | publicInputs =>
      exact ⟨(_ : String).toList, ['j', 's', 'o', 'n'], String.toList_append, by decide, by decide⟩
  obtain ⟨stem, ending, hlist, hlength⟩ := hends
  exact ⟨scope.toList ++ stem, ending, by rw [toList_file, hlist, List.append_assoc], hlength⟩

theorem slash_notMem_file {scope : String} (h : '/' ∉ scope.toList) (x : Artifact) :
    '/' ∉ (x.file scope).toList := by
  have hends : '/' ∉ (x.name ++ suffixOf x.name).toList := by
    cases x <;> decide
  rw [toList_file, List.mem_append, not_or]
  exact ⟨h, hends⟩

theorem isName_file {scope : String} (h : '/' ∉ scope.toList) (x : Artifact) :
    FileTree.IsName (x.file scope) := by
  obtain ⟨stem, ending, hlist, hlength, -⟩ := exists_toList_file scope x
  have hlong : 4 ≤ (x.file scope).toList.length := by
    rw [hlist, List.length_append, List.length_cons]
    omega
  have hne : ∀ short : String, short.toList.length < 4 → x.file scope ≠ short := by
    rintro short hshort heq
    rw [heq] at hlong
    omega
  exact ⟨slash_notMem_file h x, hne _ (by decide), hne _ (by decide), hne _ (by decide)⟩

theorem file_ne_of_isDraft {name : String} (h : FileTree.IsDraft name) (scope : String)
    (x : Artifact) : x.file scope ≠ name := by
  rintro rfl
  obtain ⟨letters, hname, hlength, hletters⟩ := h
  obtain ⟨stem, ending, hlist, -, hending⟩ := exists_toList_file scope x
  rw [hlist] at hname
  rcases List.append_eq_append_iff.mp hname with ⟨rest, -, hrest⟩ | ⟨rest, -, hrest⟩
  · have hcount := congrArg List.length hrest
    rw [List.length_append, List.length_cons] at hcount
    omega
  · have hdot := hletters '.' (by rw [hrest]; simp)
    revert hdot
    decide

end Artifact

end RankOne
