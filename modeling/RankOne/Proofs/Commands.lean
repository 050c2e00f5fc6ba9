import RankOne.Proofs.ExchangeForm
import RankOne.Proofs.Factoring
import RankOne.Proofs.Workspace

/-!
# What the commands do to a directory

Setup and proving for two factors save within no scope, and either save everything or nothing.
Proving again and running a chain save within scopes of their own. Verification changes no file, and
what it prints of a proof that was saved with its key is that it passes, with the product of the
factors.
-/

set_option autoImplicit false

namespace RankOne.Command
open Job
open Unicode (Codes ofString)

variable {S σ : Type} [Disk (StateM S)] [Console (StateM S)] {root : String}
  {W : Workspace S root} {names : List String}

theorem within_root (root scope : String) : Archive.within ⟨root, ""⟩ scope = ⟨root, scope⟩ := by
  rw [Archive.within, String.empty_append]

theorem touches_modeOf (mode : Option Mode) :
    Touches W names (modeOf mode : Job σ (StateM S) Mode) := by
  cases mode with
  | none => exact touches_throw _
  | some mode => exact touches_pure mode

theorem touches_archiveIn_bind {β : Type} {out : Option String} (hout : ∀ path ∈ out, path = root)
    {f : Archive → Job σ (StateM S) β} (h : Touches W names (f ⟨root, ""⟩)) :
    Touches W names (archiveIn out >>= f) := by
  cases out with
  | none =>
    exact touches_of_goes fun source v =>
      ⟨_, source, v, (goes_throw _).bind_error f, rfl, rfl⟩
  | some path =>
    obtain rfl := hout path rfl
    rwa [archiveIn, pure_bind]

section Groups
variable {G₁ G₂ Gₜ : Type} [CodedGroup G₁] [CodedGroup G₂]

section Scoped
variable {scope : String} (hscope : scope ∈ scopes)
include hscope

theorem touches_loadVerifyingKey :
    Touches W names (loadVerifyingKey ⟨root, scope⟩ : Job σ (StateM S) (VerifyingKey G₁ G₂)) :=
  (touches_loadArtifact hscope _).bind fun _ => (touches_ofExcept _).bind fun _ =>
    touches_ofExcept _

theorem touches_loadInputs :
    Touches W names (loadInputs ⟨root, scope⟩ : Job σ (StateM S) (List Codes × List Int)) :=
  (touches_say _).bind fun _ => (touches_loadArtifact hscope _).bind fun _ =>
    (touches_ofExcept _).bind fun _ => touches_ofExcept _

theorem touches_loadProof :
    Touches W names
      (loadProof ⟨root, scope⟩ : Job σ (StateM S) (Proof G₁ G₂ × List Codes × List Int)) :=
  (touches_say _).bind fun _ => (touches_loadArtifact hscope _).bind fun _ =>
    (touches_ofExcept _).bind fun _ => (touches_ofExcept _).bind fun _ =>
    (touches_loadInputs hscope).bind fun _ => touches_pure _

variable (hnames : ∀ x : Artifact, x.file scope ∈ names)
include hnames

theorem touches_saveKey [ShapeCoding] (key : Key G₁ G₂) (shape : Shape) :
    Touches W names (saveKey ⟨root, scope⟩ key shape : Job σ (StateM S) Unit) :=
  (touches_saveArtifact hscope (hnames _) _ _).bind fun _ =>
    (touches_saveArtifact hscope (hnames _) _ _).bind fun _ =>
    touches_saveArtifact hscope (hnames _) _ _

theorem touches_saveProof (proof : Proof G₁ G₂) (inputNames : List String)
    (inputs : List (Datum (Proof G₁ G₂))) :
    Touches W names (saveProof ⟨root, scope⟩ proof inputNames inputs : Job σ (StateM S) Unit) :=
  (touches_saveArtifact hscope (hnames _) _ _).bind fun _ => (touches_ofExcept _).bind fun _ =>
    touches_saveArtifact hscope (hnames _) _ _

end Scoped

omit [CodedGroup G₁] [CodedGroup G₂] in
theorem touches_onChain {α : Type} (c : Chain G₁ G₂ σ) (call : OnChain G₁ G₂ σ α) :
    Touches W names (onChain G₁ G₂ c call : Job σ (StateM S) (α × Chain G₁ G₂ σ)) := by
  rw [onChain]
  split
  · exact touches_pure _
  · exact touches_throw _

theorem touches_chainLength (steps : Option Int) :
    Touches W names (chainLength steps : Job σ (StateM S) ℕ) := by
  rw [chainLength.eq_def]
  split
  · split
    · exact touches_throw _
    · exact touches_pure _
  · exact touches_throw _

variable [RandomSource σ]

theorem touches_runSteps (n : ℕ) (c : Chain G₁ G₂ σ) (i : ℕ) :
    Touches W names (runSteps G₁ G₂ c i n : Job σ (StateM S) (Chain G₁ G₂ σ)) := by
  induction n generalizing c i with
  | zero => exact touches_pure c
  | succ n ih =>
    exact (touches_say _).bind fun _ => (touches_onChain c _).bind fun r => ih r.2 (i + 1)

variable [Mul Gₜ] [DecidableEq Gₜ] [Pairing G₁ G₂ Gₜ] {out : Option String}
  (hout : ∀ path ∈ out, path = root) (workers : Choice Int)
include hout

omit [RandomSource σ] in
variable (G₁ G₂) in
theorem touches_runVerify : Touches W [] (runVerify G₁ G₂ out workers : Job σ (StateM S) Unit) := by
  have hscope : "" ∈ scopes := by decide
  refine touches_archiveIn_bind hout ?_
  exact (touches_demand hscope _).bind fun _ => (touches_loadVerifyingKey hscope).bind fun _ =>
    (touches_loadProof hscope).bind fun _ => (touches_say _).bind fun _ =>
    (touches_ofExcept _).bind fun _ => (touches_ofExcept _).bind fun _ => touches_printAll _

variable (G₁ G₂) in
theorem touches_runRecurse [ShapeCoding] (mode : Option Mode) :
    Touches W (Artifact.all.map (Artifact.file "recursive_"))
      (runRecurse G₁ G₂ out workers mode : Job σ (StateM S) Unit) := by
  have hplain : "" ∈ scopes := by decide
  have hscope : "recursive_" ∈ scopes := by decide
  have hnames : ∀ x : Artifact,
      x.file "recursive_" ∈ Artifact.all.map (Artifact.file "recursive_") :=
    fun x => List.mem_map_of_mem x.mem_all
  refine (touches_modeOf mode).bind fun mode => ?_
  refine touches_archiveIn_bind hout ?_
  rw [within_root]
  refine (touches_demand hplain _).bind fun _ => (touches_loadVerifyingKey hplain).bind fun vk =>
    (touches_loadProof hplain).bind fun inner => (touches_say _).bind fun _ =>
    (touches_ofExcept _).bind fun _ => (touches_random _).bind fun key =>
    (touches_ofExcept _).bind fun system => (touches_saveKey hscope hnames _ _).bind fun _ =>
    (touches_say _).bind fun _ => (touches_ofExcept _).bind fun w =>
    (touches_random _).bind fun proof => (touches_saveProof hscope hnames _ _ _).bind fun _ =>
    (touches_say _).bind fun _ => ?_
  cases mode with
  | placeholder =>
    exact (touches_say _).bind fun _ => (touches_ofExcept _).bind fun _ => touches_printAll _
  | checked => exact (touches_ofExcept _).bind fun _ => touches_printAll _

variable (G₁ G₂) in
/-- A chain saves within another scope, and the proof that it has come to only. -/
theorem touches_runChain [ShapeCoding] (steps : Option Int) (mode : Option Mode) :
    Touches W (Artifact.all.map (Artifact.file "chain_"))
      (runChain G₁ G₂ out workers steps mode : Job σ (StateM S) Unit) := by
  have hscope : "chain_" ∈ scopes := by decide
  have hnames : ∀ x : Artifact, x.file "chain_" ∈ Artifact.all.map (Artifact.file "chain_") :=
    fun x => List.mem_map_of_mem x.mem_all
  refine (touches_chainLength steps).bind fun length => (touches_modeOf mode).bind fun mode =>
    (touches_say _).bind fun _ => (touches_ofExcept _).bind fun _ =>
    (touches_random _).bind fun r => (touches_ofExcept _).bind fun system => ?_
  refine touches_archiveIn_bind hout ?_
  rw [within_root]
  exact (touches_saveKey hscope hnames _ _).bind fun _ => (touches_say _).bind fun _ =>
    touches_get.bind fun source => (touches_onChain _ _).bind fun r =>
    (touches_runSteps _ _ _).bind fun c => (touches_ofExcept _).bind fun last =>
    (touches_saveProof hscope hnames _ _ _).bind fun _ => (touches_say _).bind fun _ =>
    (touches_onChain _ _).bind fun r => (touches_printAll _).bind fun _ =>
    (touches_ofExcept _).bind fun _ => touches_say _

end Groups

structure Keyed {G₁ G₂ : Type} [CodedGroup G₁] [CodedGroup G₂] (v : View) (key : Key G₁ G₂) :
    Prop where
  isKey : Factorization.IsKey key
  params : v.files (Artifact.params.file "") = some key.toBytes
  verificationKey : v.files (Artifact.verificationKey.file "") =
    some (Exchange.ofVerifyingKey key.verifyingKey).toBytes

theorem Keyed.congr {G₁ G₂ : Type} [CodedGroup G₁] [CodedGroup G₂] {v v' : View} {key : Key G₁ G₂}
    (h : Keyed v key) (hfiles : ∀ x : Artifact, v'.files (x.file "") = v.files (x.file "")) :
    Keyed v' key :=
  ⟨h.isKey, (hfiles _).trans h.params, (hfiles _).trans h.verificationKey⟩

theorem Keyed.print {G₁ G₂ : Type} [CodedGroup G₁] [CodedGroup G₂] {v : View} {key : Key G₁ G₂}
    (h : Keyed v key) (line : Codes) : Keyed (v.print line) key :=
  h.congr fun _ => rfl

/-- Whether the files of a proof are those of one that passes under the key, with one number as the
public input. -/
structure Proven {G₁ G₂ Gₜ : Type} [CodedGroup G₁] [CodedGroup G₂] [Mul Gₜ] [DecidableEq Gₜ]
    [Pairing G₁ G₂ Gₜ] (v : View) (key : Key G₁ G₂) (n : Int) : Prop where
  keyed : Keyed v key
  proof : ∃ proof : Proof G₁ G₂, key.verifyingKey.accepts proof [n] = true ∧
    v.files (Artifact.proof.file "") = some (Exchange.ofProof proof).toBytes
  publicInputs : ∃ x, Exchange.ofInputs [ofString "N"] [(.number n : Datum (Proof G₁ G₂))] = .ok x ∧
    v.files (Artifact.publicInputs.file "") = some x.toBytes

theorem Proven.congr {G₁ G₂ Gₜ : Type} [CodedGroup G₁] [CodedGroup G₂] [Mul Gₜ] [DecidableEq Gₜ]
    [Pairing G₁ G₂ Gₜ] {v v' : View} {key : Key G₁ G₂} {n : Int} (h : Proven v key n)
    (hfiles : ∀ x : Artifact, v'.files (x.file "") = v.files (x.file "")) : Proven v' key n := by
  obtain ⟨hkeyed, ⟨proof, haccepts, hproof⟩, x, hx, hpublic⟩ := h
  exact ⟨hkeyed.congr hfiles, ⟨proof, haccepts, (hfiles _).trans hproof⟩, x, hx,
    (hfiles _).trans hpublic⟩

variable {source : σ} {v : View} {out : Option String}

theorem commits_archiveIn_bind {f : Archive → Job σ (StateM S) Unit} {reason : Prop}
    {post : View → Prop} (hout : ∀ path ∈ out, path = root) (hdraft : v.draft = none)
    (hnone : out = none → reason)
    (h : out ≠ none → Commits W (f ⟨root, ""⟩) source v reason post) :
    Commits W (archiveIn out >>= f) source v reason post := by
  cases out with
  | none => exact commits_of_error ((goes_throw _).bind_error f) hdraft rfl (hnone rfl)
  | some path =>
    obtain rfl := hout path rfl
    rw [archiveIn, pure_bind]
    exact h (Option.some_ne_none _)

section Groups
variable {G₁ G₂ Gₜ : Type} [CodedGroup G₁] [CodedGroup G₂]

/-- The shape that is saved between the two is not asked for again. -/
theorem commits_saveKey [ShapeCoding] {key : Key G₁ G₂} (hkey : Factorization.IsKey key)
    (shape : Shape) {reason : Prop} (hdraft : v.draft = none) :
    Commits W (saveKey ⟨root, ""⟩ key shape : Job σ (StateM S) Unit) source v reason
      fun v' => ∃ key : Key G₁ G₂, Keyed v' key := by
  have hscope : "" ∈ scopes := by decide
  refine commits_of_ok ((goes_saveArtifact hscope .params _ _ hdraft source).bind
    ((goes_saveArtifact hscope .shape _ _ rfl source).bind
      (goes_saveArtifact hscope .verificationKey _ _ rfl source))) rfl ⟨key, hkey, ?_, ?_⟩
  · simp [View.files_put_file]
  · simp [View.files_put_file]

variable [RandomSource σ]

theorem commits_runSetup [ShapeCoding] (hout : ∀ path ∈ out, path = root)
    (hdraft : v.draft = none)
    (hsecrets : ∀ x ∈ RandomSource.draws 5 source, IsDraw x) (workers : Choice Int) :
    Commits W (runSetup G₁ G₂ out workers) source v (out = none ∨ workersFault? workers ≠ .ok ())
      fun v' => ∃ key : Key G₁ G₂, Keyed v' key := by
  obtain ⟨key, hsetup, hkey⟩ := Factorization.exists_setup G₁ G₂ (P := Proof G₁ G₂) hsecrets
  refine commits_say_bind _ (commits_ofExcept_bind hdraft ?_ fun _ _ => ?_)
  · rintro e he
    exact .inr (by rw [he]; nofun)
  refine (goes_random_of_ok hsetup _).commits rfl
    (commits_say_bind _ (commits_say_bind _ (commits_say_bind _ ?_)))
  refine commits_ofExcept_bind hdraft ?_ fun system _ => ?_
  · rintro e he
    cases Factorization.synthesize_none.symm.trans he
  exact commits_archiveIn_bind hout hdraft .inl fun _ => commits_saveKey hkey system.shape hdraft

/-- What a proof needs: a directory with a key in it, a worker, both factors, and no other number
than their product. -/
structure Provable (out : Option String) (workers : Choice Int) (pairs : List (String × Int))
    (v : View) : Prop where
  out : out ≠ none
  workers : workersFault? workers = .ok ()
  params : v.files (Artifact.params.file "") ≠ none
  factors : ∃ p q, Entries.get? "p" pairs = some p ∧ Entries.get? "q" pairs = some q ∧
    ∀ n, Entries.get? "N" pairs = some n → n = reduce (p * q)

omit [CodedGroup G₁] [CodedGroup G₂] [RandomSource σ] in
theorem assign_eq {P : Type} (p q : Int) (n : Option Int) :
    Factorization.assign (.number p) (.number q) ((n.map Datum.number).getD .absent) =
      .ok (Factorization.witness p q (n.getD (reduce (p * q))) : Witness P) := by
  cases n <;> rfl

theorem exists_ofInputs {P : Type} {n : Int} (hn : 0 ≤ n ∧ n < order) :
    ∃ x, Exchange.ofInputs [ofString "N"] [(.number n : Datum P)] = .ok x ∧
      Json.ofBytes x.toBytes = .ok x ∧ Exchange.inputs x = .ok ([ofString "N"], [n]) :=
  Exchange.ofBytes_inputs (List.nodup_singleton _)
    (List.forall_mem_singleton.mpr (Exchange.isSound_ofString "N")) rfl
    (List.forall_mem_singleton.mpr hn)

omit [RandomSource σ] in
theorem goes_loadKey [LawfulCoding G₁] [LawfulCoding G₂] {key : Key G₁ G₂} (h : Keyed v key) :
    Goes W (loadKey ⟨root, ""⟩ : Job σ (StateM S) (Key G₁ G₂)) source v (.ok key) source
      (v.print (ofString ("Loading parameters from: " ++ Archive.path ⟨root, ""⟩
        Artifact.params.name))) := by
  refine (goes_print _ source v).bind ?_
  refine (goes_loadArtifact (by decide) (v := v.print _) h.params source).bind ?_
  refine (goes_ofExcept_of_ok h.isKey.parse_toBytes source _).bind ?_
  exact goes_pure key

variable [Mul Gₜ] [DecidableEq Gₜ] [Pairing G₁ G₂ Gₜ]

omit [RandomSource σ] in
theorem commits_saveProof {reason : Prop} {key : Key G₁ G₂} (h : Keyed v key)
    (hdraft : v.draft = none) {proof : Proof G₁ G₂} {n : Int} (hn : 0 ≤ n ∧ n < order)
    (haccepts : key.verifyingKey.accepts proof [n] = true) :
    Commits W (saveProof ⟨root, ""⟩ proof ["N"] [.number n] : Job σ (StateM S) Unit) source v reason
      fun v' => Proven v' key n := by
  have hscope : "" ∈ scopes := by decide
  obtain ⟨x, hx, -⟩ := exists_ofInputs (P := Proof G₁ G₂) hn
  refine commits_of_ok ((goes_saveArtifact hscope .proof _ _ hdraft source).bind
    ((goes_ofExcept_of_ok hx source _).bind
      (goes_saveArtifact hscope .publicInputs _ _ rfl source))) rfl
        ⟨⟨h.isKey, ?_, ?_⟩, ⟨proof, haccepts, ?_⟩, x, hx, ?_⟩
  · simp [View.files_put_file, h.params]
  · simp [View.files_put_file, h.verificationKey]
  · simp [View.files_put_file]
  · simp [View.files_put_file]

variable [PrimeOrder G₁] [PrimeOrder G₂] [Bilinear G₁ G₂ Gₜ] [LawfulCoding G₁] [LawfulCoding G₂]

omit [CodedGroup G₁] [CodedGroup G₂] [RandomSource σ] in
theorem number_spec {pairs : List (String × Int)}
    (hpairs : ∀ pair ∈ pairs, 0 ≤ pair.2 ∧ pair.2 < order) {p q : Int} :
    (0 ≤ (Entries.get? "N" pairs).getD (reduce (p * q)) ∧
      (Entries.get? "N" pairs).getD (reduce (p * q)) < order) ∧
    ((∀ n, Entries.get? "N" pairs = some n → n = reduce (p * q)) ↔
      reduce (p * q) = (Entries.get? "N" pairs).getD (reduce (p * q))) := by
  cases hget : Entries.get? "N" pairs with
  | none => exact ⟨⟨reduce_nonneg _, reduce_lt _⟩, by simp⟩
  | some n =>
    refine ⟨hpairs _ (Entries.mem_of_get? hget), ?_⟩
    simp [eq_comm]

omit [LawfulCoding G₁] [LawfulCoding G₂] in
/-- With a key at hand, a proof is made exactly if the number is the product and there is a
worker. -/
theorem commits_proveWith {key : Key G₁ G₂} (h : Keyed v key) (hdraft : v.draft = none)
    {p q n : Int} (hn : 0 ≤ n ∧ n < order)
    (hblinding : ∀ x ∈ RandomSource.draws 2 source, IsDraw x) (workers : Choice Int) :
    Commits W (do
        let system ← ofExcept (key.provingKey.prepare factorization
          (some (Factorization.witness p q n : Witness (Proof G₁ G₂))))
        ofExcept (workersFault? workers)
        let proof ← random (key.provingKey.blind system)
        saveProof ⟨root, ""⟩ proof ["N"] [.number n] : Job σ (StateM S) Unit) source v
      (¬(reduce (p * q) = n ∧ workersFault? workers = .ok ()))
      fun v' => (reduce (p * q) = n ∧ workersFault? workers = .ok ()) ∧ Proven v' key n := by
  have hreduce : reduce n = n := reduce_eq_self hn.1 hn.2
  rw [h.isKey.prepare_eq, hreduce]
  refine commits_ofExcept_bind hdraft ?_ fun system hsystem => ?_
  · rintro e he ⟨heq, -⟩
    rw [if_pos heq] at he
    cases he
  split_ifs at hsystem with heq
  obtain rfl := Except.ok.inj hsystem
  refine commits_ofExcept_bind hdraft ?_ fun _ hworkers => ?_
  · rintro e he ⟨-, hworkers⟩
    cases hworkers.symm.trans he
  obtain ⟨proof, hproof, haccepts⟩ := h.isKey.exists_blind (heq.trans hreduce.symm) hblinding
  rw [hreduce] at haccepts
  exact (goes_random_of_ok hproof _).commits rfl ((commits_saveProof h hdraft hn haccepts).imp id
    fun v' hproven => ⟨⟨heq, hworkers⟩, hproven⟩)

/-- A proof is made exactly if there is all that it needs. The key may be of any of the setups
before, as long as its files are. -/
theorem commits_runProve (hout : ∀ path ∈ out, path = root) (hdraft : v.draft = none)
    (hkeyed : ∀ data, v.files (Artifact.params.file "") = some data →
      ∃ key : Key G₁ G₂, Keyed v key)
    {pairs : List (String × Int)} (hpairs : ∀ pair ∈ pairs, 0 ≤ pair.2 ∧ pair.2 < order)
    (hblinding : ∀ x ∈ RandomSource.draws 2 source, IsDraw x) (workers : Choice Int) :
    Commits W (runProve G₁ G₂ out workers pairs) source v (¬Provable out workers pairs v)
      fun v' => Provable out workers pairs v ∧ ∃ (key : Key G₁ G₂) (p q : Int),
        Entries.get? "p" pairs = some p ∧ Entries.get? "q" pairs = some q ∧
          Proven v' key (reduce (p * q)) := by
  have hscope : "" ∈ scopes := by decide
  rw [runProve.eq_def]
  split
  · rename_i p q hp hq
    refine commits_archiveIn_bind hout hdraft (fun hnone hprovable => hprovable.out hnone)
      fun hsome => ?_
    cases hparams : v.files (Artifact.params.file "") with
    | none =>
      obtain ⟨e, he⟩ := exists_goes_demand_error (W := W) hscope
        (List.mem_singleton_self Artifact.params) hparams source
      exact commits_of_error (he.bind_error _) hdraft rfl fun hprovable =>
        hprovable.params hparams
    | some data =>
      obtain ⟨key, hkey⟩ := hkeyed data hparams
      have hpresent : ∀ x ∈ [Artifact.params], (v.files (x.file "")).isSome := by simp [hparams]
      obtain ⟨hrange, hgiven⟩ := number_spec (p := p) (q := q) hpairs
      have hneeds : Provable out workers pairs v ↔
          reduce (p * q) = (Entries.get? "N" pairs).getD (reduce (p * q)) ∧
            workersFault? workers = .ok () := by
        constructor
        · rintro ⟨-, hworkers, -, p', q', hp', hq', hnumber⟩
          obtain rfl := Option.some.inj (hp.symm.trans hp')
          obtain rfl := Option.some.inj (hq.symm.trans hq')
          exact ⟨hgiven.mp hnumber, hworkers⟩
        · rintro ⟨heq, hworkers⟩
          exact ⟨hsome, hworkers, by simp [hparams], p, q, hp, hq, hgiven.mpr heq⟩
      refine (goes_demand hscope hpresent source).commits rfl ?_
      refine (goes_ofExcept_of_ok (assign_eq p q (Entries.get? "N" pairs)) source v).commits rfl ?_
      refine (goes_loadKey hkey).commits rfl (commits_say_bind _ ?_)
      rw [hneeds]
      refine (commits_proveWith ((hkey.print _).print _) hdraft hrange hblinding workers).imp id ?_
      rintro v' ⟨hall, hproven⟩
      exact ⟨hall, key, p, q, hp, hq, hall.1.symm ▸ hproven⟩
  · rename_i hfactors
    refine commits_of_error (goes_throw _) hdraft rfl ?_
    rintro ⟨-, -, -, p, q, hp, hq, -⟩
    exact hfactors p q hp hq

def passedLines (root : String) (n : Int) : List Codes :=
  [ofString ("Public entries: \x7bN = " ++ toString n ++ "\x7d"),
    ofString "Verification passed!", ofString "Verifying proof...",
    ofString ("Loading public inputs from: " ++ Archive.path ⟨root, ""⟩ Artifact.publicInputs.name),
    ofString ("Loading proof from: " ++ Archive.path ⟨root, ""⟩ Artifact.proof.name)]

variable [LawfulText G₁] [LawfulText G₂]

omit [RandomSource σ] [PrimeOrder G₁] [PrimeOrder G₂] [LawfulCoding G₁] [LawfulCoding G₂] [Mul Gₜ]
  [DecidableEq Gₜ] [Pairing G₁ G₂ Gₜ] [Bilinear G₁ G₂ Gₜ] in
theorem goes_loadVerifyingKey {key : Key G₁ G₂} (h : Keyed v key) :
    Goes W (loadVerifyingKey ⟨root, ""⟩ : Job σ (StateM S) (VerifyingKey G₁ G₂)) source v
      (.ok key.verifyingKey) source v := by
  obtain ⟨hcolumns, hentries⟩ := h.isKey.columns_eq
  refine (goes_loadArtifact (by decide) h.verificationKey source).bind ?_
  refine (goes_ofExcept_of_ok (Exchange.ofBytes_verifyingKey _) source v).bind ?_
  exact goes_ofExcept_of_ok (Exchange.verifyingKey_ofVerifyingKey hcolumns hentries) source v

omit [RandomSource σ] [PrimeOrder G₁] [PrimeOrder G₂] [LawfulCoding G₁] [LawfulCoding G₂]
  [Bilinear G₁ G₂ Gₜ] in
theorem goes_loadProof {key : Key G₁ G₂} {n : Int} (h : Proven v key n) (hn : 0 ≤ n ∧ n < order)
    (source : σ) :
    ∃ proof : Proof G₁ G₂, key.verifyingKey.accepts proof [n] = true ∧
      Goes W (loadProof ⟨root, ""⟩ : Job σ (StateM S) (Proof G₁ G₂ × List Codes × List Int)) source
        v (.ok (proof, [ofString "N"], [n])) source
        ((v.print (ofString ("Loading proof from: " ++ Archive.path ⟨root, ""⟩
          Artifact.proof.name))).print (ofString ("Loading public inputs from: " ++
            Archive.path ⟨root, ""⟩ Artifact.publicInputs.name))) := by
  obtain ⟨-, ⟨proof, haccepts, hproof⟩, x, hx, hpublic⟩ := h
  obtain ⟨x', hx', hbytes, hinputs⟩ := exists_ofInputs (P := Proof G₁ G₂) hn
  obtain rfl := Except.ok.inj (hx.symm.trans hx')
  refine ⟨proof, haccepts, (goes_print _ source v).bind ?_⟩
  refine (goes_loadArtifact (by decide) (v := v.print _) hproof source).bind ?_
  refine (goes_ofExcept_of_ok (Exchange.ofBytes_proof proof) source _).bind ?_
  refine (goes_ofExcept_of_ok (Exchange.proof_ofProof proof) source _).bind ?_
  refine Goes.bind (a := ([ofString "N"], [n])) ?_ (goes_pure _)
  refine (goes_print _ source _).bind ?_
  refine (goes_loadArtifact (by decide) (v := (v.print _).print _) hpublic source).bind ?_
  refine (goes_ofExcept_of_ok hbytes source _).bind ?_
  exact goes_ofExcept_of_ok hinputs source _

theorem lines_passed (n : Int) :
    (⟨true, [(ofString "N", n)]⟩ : Verdict).lines "Verification" =
      [ofString "Verification passed!",
        ofString ("Public entries: \x7bN = " ++ toString n ++ "\x7d")] := by
  simp [Verdict.lines, Verdict.entriesText, Verdict.entryText, ofString, List.intercalate]

omit [RandomSource σ] [PrimeOrder G₁] [PrimeOrder G₂] [LawfulCoding G₁] [LawfulCoding G₂]
  [Bilinear G₁ G₂ Gₜ] in
theorem goes_runVerify {key : Key G₁ G₂} {n : Int} (h : Proven v key n) (hn : 0 ≤ n ∧ n < order)
    {workers : Choice Int} (hworkers : workersFault? workers = .ok ()) (source : σ) :
    Goes W (runVerify G₁ G₂ (some root) workers : Job σ (StateM S) Unit) source v (.ok ()) source
      { v with printed := passedLines root n ++ v.printed } := by
  have hscope : "" ∈ scopes := by decide
  obtain ⟨proof, haccepts, hload⟩ := goes_loadProof (W := W) h hn source
  have hpresent : ∀ x ∈ [Artifact.verificationKey, .proof, .publicInputs],
      (v.files (x.file "")).isSome := by
    obtain ⟨hkeyed, ⟨_, _, hproof⟩, _, _, hpublic⟩ := h
    simp [hkeyed.verificationKey, hproof, hpublic]
  rw [runVerify, archiveIn, pure_bind]
  refine (goes_demand hscope hpresent source).bind ?_
  refine (goes_loadVerifyingKey h.keyed).bind ?_
  refine hload.bind ?_
  refine (goes_print _ source _).bind ?_
  refine (goes_ofExcept_of_ok
    ((h.keyed.isKey.fits hn).label_eq (some [ofString "N"]) (by simp)) source _).bind ?_
  refine (goes_ofExcept_of_ok hworkers source _).bind ?_
  rw [haccepts]
  change Goes W (printAll ((⟨true, [(ofString "N", n)]⟩ : Verdict).lines "Verification")) source _ _
    source _
  rw [lines_passed]
  exact (goes_print _ source _).bind ((goes_print _ source _).bind (goes_pure ()))

end Groups

end RankOne.Command
