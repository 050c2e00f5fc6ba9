import RankOne.Proofs.Chain
import RankOne.Proofs.Commands
import RankOne.Proofs.Exponent
import RankOne.Proofs.Hosting

/-!
# Command lines in a row

Any command lines, one after the other, on a directory that was empty at first. Between two of them
the files of a setup are those of one key, and those of a proof belong to it as long as the last
setup or proof that did not fail was a proof. So a verification then passes, whatever has failed or
been proved again in the meantime.
-/

set_option autoImplicit false

namespace RankOne

def AreReduced (pairs : List (String × Int)) : Prop :=
  ∀ pair ∈ pairs, 0 ≤ pair.2 ∧ pair.2 < order

namespace Choices
variable {c c' : Choices}

theorem areReduced_addPairs {texts : List String} (hc : AreReduced c.pairs)
    (h : c.addPairs texts = .ok c') : AreReduced c'.pairs := by
  induction texts generalizing c with
  | nil =>
    obtain rfl := Except.ok.inj h
    exact hc
  | cons text texts ih =>
    rw [addPairs] at h
    dsimp only at h
    cases hvalue : Text.literal? (splitPair text).2 with
    | none =>
      rw [hvalue] at h
      cases h
    | some v =>
      rw [hvalue] at h
      refine ih ?_ h
      exact Entries.forall_put (P := fun v => 0 ≤ v ∧ v < order) hc _
        ⟨reduce_nonneg _, reduce_lt _⟩

theorem exists_of_map_eq_ok {α : Type} {r : Except Rejection α} {f : α → Choices}
    (h : r.map f = .ok c') : ∃ v, f v = c' := by
  cases r with
  | error e => cases h
  | ok v => exact ⟨v, Except.ok.inj h⟩

theorem areReduced_choose {setting : Setting} {values : List String} (hc : AreReduced c.pairs)
    (h : c.choose setting values = .ok c') : AreReduced c'.pairs := by
  cases setting with
  | help => cases h
  | pairs => exact areReduced_addPairs hc h
  | out | workers | seed | mode | steps =>
    obtain ⟨v, rfl⟩ := exists_of_map_eq_ok h
    exact hc

theorem areReduced_read {events : List (CommandOption.Event Setting)} {stray : Bool}
    {reading : Reading} (hc : AreReduced c.pairs) (h : c.read stray events = .ok reading) :
    AreReduced reading.choices.pairs := by
  induction events generalizing c stray with
  | nil =>
    obtain rfl := Except.ok.inj h
    exact hc
  | cons event rest ih =>
    cases event with
    | chosen key values =>
      rw [read] at h
      split at h
      · rename_i hchoose
        exact ih (areReduced_choose hc hchoose) h
      · cases h
    | stray => exact ih hc h
    | command name words =>
      obtain rfl := Except.ok.inj h
      exact hc
    | misuse => cases h

theorem command?_eq_prove {name : String} {pairs : List (String × Int)}
    (h : c.command? name = some (.prove pairs)) : c.pairs = pairs := by
  rw [command?.eq_def] at h
  split at h <;> cases h
  rfl

end Choices

/-- Both readings, that of the words before the name of the command and that of the words after it,
keep the numbers reduced. -/
theorem Invocation.areReduced_pairs {words : List String} {i : Invocation}
    {pairs : List (String × Int)} (h : ofWords words = .ok i) (hi : i.command = .prove pairs) :
    AreReduced pairs := by
  simp only [ofWords, bind, Except.bind] at h
  split at h
  · cases h
  rename_i outer houter
  split at h
  · cases h
  split at h
  · cases h
  split at h
  · cases h
  rename_i inner hinner
  have hstart : AreReduced Choices.start.pairs := List.forall_mem_nil _
  have houter' := Choices.areReduced_read hstart houter
  have hinner' := Choices.areReduced_read houter' hinner
  split at h
  · rename_i hcommand
    split at h
    · cases h
    · obtain rfl := Except.ok.inj h
      obtain rfl := Choices.command?_eq_prove (hcommand.trans (congrArg some hi))
      exact hinner'
  · cases h

variable {S σ : Type} [Disk (StateM S)] [Console (StateM S)] [RandomSource σ]

namespace CommandLine
open Job Command

structure Request (σ : Type) where
  words : List String
  source : σ

structure Request.IsFor (request : Request σ) (root : String) : Prop where
  fair : RandomSource.IsFair request.source
  out : ∀ i, Invocation.ofWords request.words = .ok i → ∀ path ∈ i.out, path = root

def sourceFor (i : Invocation) (source : σ) : σ ⊕ Twister.Generator :=
  match i.seed with
  | some seed => .inr (Twister.ofSeed seed)
  | none => .inl source

theorem draws_inl {τ : Type} [RandomSource τ] (n : ℕ) (source : σ) :
    RandomSource.draws n (.inl source : σ ⊕ τ) = RandomSource.draws n source := by
  induction n generalizing source with
  | zero => rfl
  | succ n ih => exact congrArg _ (ih _)

theorem draws_inr {τ : Type} [RandomSource τ] (n : ℕ) (source : τ) :
    RandomSource.draws n (.inr source : σ ⊕ τ) = RandomSource.draws n source := by
  induction n generalizing source with
  | zero => rfl
  | succ n ih => exact congrArg _ (ih _)

theorem isFair_sourceFor {source : σ} (h : RandomSource.IsFair source) (i : Invocation) :
    RandomSource.IsFair (sourceFor i source) := by
  intro n
  rw [sourceFor]
  split
  · rw [draws_inr]
    exact Twister.isFair_generator _ n
  · rw [draws_inl]
    exact h n

variable (G₁ G₂ : Type) {Gₜ : Type} [CodedGroup G₁] [CodedGroup G₂] [Mul Gₜ] [DecidableEq Gₜ]
  [Pairing G₁ G₂ Gₜ]

def perform [ShapeCoding] (request : Request σ) : StateM S (Except Rejection (Except Halt Unit)) :=
  match Invocation.ofWords request.words with
  | .error e => pure (.error e)
  | .ok i => do
      let job : Job (σ ⊕ Twister.Generator) (StateM S) Unit :=
        i.command.run G₁ G₂ i.out i.workers
      let (result, _) ← job.run.run (sourceFor i request.source)
      return .ok result

def isMaking : Command → Bool
  | .setup => true
  | .prove _ => true
  | _ => false

structure Progress (S : Type) where
  world : S
  latest : Option Command

def latestAfter (latest : Option Command) (c : Command) : Except Halt Unit → Option Command
  | .ok () => if isMaking c then some c else latest
  | .error _ => latest

theorem latestAfter_ok {c : Command} (h : isMaking c = true) (latest : Option Command) :
    latestAfter latest c (.ok ()) = some c :=
  if_pos h

theorem latestAfter_of_not_isMaking {c : Command} (h : isMaking c = false) (latest : Option Command)
    (r : Except Halt Unit) : latestAfter latest c r = latest := by
  cases r with
  | error e => rfl
  | ok u => rw [latestAfter, h, if_neg Bool.false_ne_true]

def Progress.step [ShapeCoding] (progress : Progress S) (request : Request σ) : Progress S where
  world := (perform G₁ G₂ request progress.world).2
  latest :=
    match Invocation.ofWords request.words, (perform G₁ G₂ request progress.world).1 with
    | .ok i, .ok r => latestAfter progress.latest i.command r
    | _, _ => progress.latest

def after [ShapeCoding] (start : S) (requests : List (Request σ)) : Progress S :=
  requests.foldl (Progress.step G₁ G₂) ⟨start, none⟩

section Step
variable [ShapeCoding] {G₁ G₂} {root : String} {W : Workspace S root} {request : Request σ}
  {i : Invocation} {progress : Progress S}

variable (G₁ G₂) in
theorem exists_perform (hread : Invocation.ofWords request.words = .ok i) {s : S} {v' : View}
    (hs : W.Usable s) {r : Except Halt Unit} {source' : σ ⊕ Twister.Generator}
    (h : Goes W (i.command.run G₁ G₂ i.out i.workers) (sourceFor i request.source) (W.view s) r
      source' v') :
    ∃ s', perform G₁ G₂ request s = (.ok r, s') ∧ W.Usable s' ∧ W.view s' = v' := by
  obtain ⟨s', hrun, hs', hv'⟩ := h s hs rfl
  refine ⟨s', ?_, hs', hv'⟩
  rw [perform, hread]
  exact congrArg (fun p : (Except Halt Unit × (σ ⊕ Twister.Generator)) × S =>
    ((.ok p.1.1 : Except Rejection (Except Halt Unit)), p.2)) hrun

theorem step_of_rejection {e : Rejection} (hread : Invocation.ofWords request.words = .error e) :
    progress.step G₁ G₂ request = progress := by
  rw [Progress.step, perform, hread]
  rfl

theorem exists_step (hread : Invocation.ofWords request.words = .ok i) {v' : View}
    (hs : W.Usable progress.world) {r : Except Halt Unit} {source' : σ ⊕ Twister.Generator}
    (h : Goes W (i.command.run G₁ G₂ i.out i.workers) (sourceFor i request.source)
      (W.view progress.world) r source' v') :
    ∃ s', progress.step G₁ G₂ request =
        ⟨s', latestAfter progress.latest i.command r⟩ ∧
      W.Usable s' ∧ W.view s' = v' := by
  obtain ⟨s', hperform, hs', hv'⟩ := exists_perform G₁ G₂ hread hs h
  refine ⟨s', ?_, hs', hv'⟩
  rw [Progress.step, hread, hperform]

theorem latest_step (hread : Invocation.ofWords request.words = .ok i)
    (hi : isMaking i.command = true)
    (h : (perform G₁ G₂ request progress.world).1 = .ok (.ok ())) :
    (progress.step G₁ G₂ request).latest = some i.command := by
  rw [Progress.step, hread, h]
  exact latestAfter_ok hi _

end Step

variable {G₁ G₂} {v v' : View} {latest : Option Command}

variable (G₁ G₂) in
structure Kept (v : View) (latest : Option Command) : Prop where
  draft : v.draft = none
  keyed : ∀ data, v.files (Artifact.params.file "") = some data → ∃ key : Key G₁ G₂, Keyed v key
  proven : ∀ pairs, latest = some (.prove pairs) → ∃ (key : Key G₁ G₂) (p q : Int),
    Entries.get? "p" pairs = some p ∧ Entries.get? "q" pairs = some q ∧
      Proven v key (reduce (p * q))

theorem Kept.congr (h : Kept G₁ G₂ v latest) (hdraft : v'.draft = none)
    (hfiles : ∀ x : Artifact, v'.files (x.file "") = v.files (x.file "")) :
    Kept G₁ G₂ v' latest where
  draft := hdraft
  keyed data hdata := by
    obtain ⟨key, hkey⟩ := h.keyed data ((hfiles _).symm.trans hdata)
    exact ⟨key, hkey.congr hfiles⟩
  proven pairs hpairs := by
    obtain ⟨key, p, q, hp, hq, hproven⟩ := h.proven pairs hpairs
    exact ⟨key, p, q, hp, hq, hproven.congr hfiles⟩

variable {root : String} {W : Workspace S root} {source : σ ⊕ Twister.Generator}
  {out : Option String}

omit [RandomSource σ] in
/-- What leaves the files of no scope alone keeps what holds of them. -/
theorem Kept.exists_goes_of_touches (h : Kept G₁ G₂ v latest) {names : List String}
    {x : Job (σ ⊕ Twister.Generator) (StateM S) Unit} (hx : Touches W names x)
    (hnames : ∀ x : Artifact, x.file "" ∉ names) (source : σ ⊕ Twister.Generator) :
    ∃ r source' v', Goes W x source v r source' v' ∧ Kept G₁ G₂ v' latest ∧
      ∀ x : Artifact, v'.files (x.file "") = v.files (x.file "") := by
  obtain ⟨r, source', v', hgoes, hdraft, hfiles⟩ := hx source v h.draft
  have hplain := fun x : Artifact => hfiles _ (hnames x)
  exact ⟨r, source', v', hgoes, h.congr hdraft hplain, hplain⟩

theorem file_notMem {scope : String} (h : scope ∈ ["recursive_", "chain_"]) (x : Artifact) :
    x.file "" ∉ Artifact.all.map (Artifact.file scope) := by
  revert scope
  cases x <;> decide +kernel

omit [RandomSource σ] in
/-- The case of a command that commits: what failed has left the files alone. -/
theorem Kept.exists_goes_of_commits (h : Kept G₁ G₂ v latest)
    {x : Job (σ ⊕ Twister.Generator) (StateM S) Unit} {c : Command} (hc : isMaking c = true)
    {reason : Prop} {post : View → Prop} (hx : Commits W x source v reason post)
    (hpost : ∀ v', v'.draft = none → post v' → Kept G₁ G₂ v' (some c)) :
    ∃ r source' v', Goes W x source v r source' v' ∧
      Kept G₁ G₂ v' (latestAfter latest c r) := by
  obtain ⟨r, source', v', hgoes, hdraft, ⟨⟨e, rfl⟩, -, hfiles⟩ | ⟨rfl, hv'⟩⟩ := hx
  · exact ⟨_, source', v', hgoes, h.congr hdraft fun _ => by rw [hfiles]⟩
  · refine ⟨_, source', v', hgoes, ?_⟩
    rw [latestAfter_ok hc]
    exact hpost v' hdraft hv'

variable [PrimeOrder G₁] [PrimeOrder G₂] [Bilinear G₁ G₂ Gₜ] [LawfulCoding G₁] [LawfulCoding G₂]

section Kept
variable [ShapeCoding]

theorem Kept.exists_goes_run (h : Kept G₁ G₂ v latest) (hout : ∀ path ∈ out, path = root)
    (hsource : RandomSource.IsFair source) (workers : Choice Int) (c : Command)
    (hpairs : ∀ pairs, c = .prove pairs → AreReduced pairs) :
    ∃ r source' v', Goes W (c.run G₁ G₂ out workers) source v r source' v' ∧
      Kept G₁ G₂ v' (latestAfter latest c r) := by
  cases c with
  | setup =>
    refine h.exists_goes_of_commits rfl (commits_runSetup hout h.draft (hsource 5) workers) ?_
    exact fun v' hdraft hkey => ⟨hdraft, fun _ _ => hkey, fun pairs hpairs => by cases hpairs⟩
  | prove pairs =>
    refine h.exists_goes_of_commits rfl
      (commits_runProve hout h.draft h.keyed (hpairs pairs rfl) (hsource 2) workers) ?_
    rintro v' hdraft ⟨-, key, p, q, hp, hq, hproven⟩
    refine ⟨hdraft, fun _ _ => ⟨key, hproven.keyed⟩, fun pairs' heq => ?_⟩
    cases heq
    exact ⟨key, p, q, hp, hq, hproven⟩
  | verify =>
    obtain ⟨r, source', v', hgoes, hv', -⟩ := h.exists_goes_of_touches (W := W)
      (touches_runVerify G₁ G₂ hout workers) (fun _ => List.not_mem_nil) source
    exact ⟨r, source', v', hgoes, by rwa [latestAfter_of_not_isMaking rfl]⟩
  | recurse mode =>
    obtain ⟨r, source', v', hgoes, hv', -⟩ := h.exists_goes_of_touches (W := W)
      (touches_runRecurse G₁ G₂ hout workers mode) (file_notMem (by decide)) source
    exact ⟨r, source', v', hgoes, by rwa [latestAfter_of_not_isMaking rfl]⟩
  | chain steps mode =>
    obtain ⟨r, source', v', hgoes, hv', -⟩ := h.exists_goes_of_touches (W := W)
      (touches_runChain G₁ G₂ hout workers steps mode) (file_notMem (by decide)) source
    exact ⟨r, source', v', hgoes, by rwa [latestAfter_of_not_isMaking rfl]⟩

theorem Kept.step {progress : Progress S}
    (h : Kept G₁ G₂ (W.view progress.world) progress.latest)
    (hs : W.Usable progress.world) {request : Request σ} (hrequest : request.IsFor root) :
    W.Usable (progress.step G₁ G₂ request).world ∧
      Kept G₁ G₂ (W.view (progress.step G₁ G₂ request).world)
        (progress.step G₁ G₂ request).latest := by
  cases hread : Invocation.ofWords request.words with
  | error e =>
    rw [step_of_rejection hread]
    exact ⟨hs, h⟩
  | ok i =>
    obtain ⟨r, source', v', hgoes, hv'⟩ := h.exists_goes_run (W := W)
      (hrequest.out i hread) (isFair_sourceFor hrequest.fair i) i.workers i.command
      fun pairs => Invocation.areReduced_pairs hread
    obtain ⟨s', hstep, hs', rfl⟩ := exists_step hread hs hgoes
    rw [hstep]
    exact ⟨hs', hv'⟩

theorem Kept.foldl_step {progress : Progress S}
    (h : Kept G₁ G₂ (W.view progress.world) progress.latest) {requests : List (Request σ)}
    (hrequests : ∀ request ∈ requests, request.IsFor root) (hs : W.Usable progress.world) :
    W.Usable (requests.foldl (Progress.step G₁ G₂) progress).world ∧
      Kept G₁ G₂ (W.view (requests.foldl (Progress.step G₁ G₂) progress).world)
        (requests.foldl (Progress.step G₁ G₂) progress).latest := by
  induction requests generalizing progress with
  | nil => exact ⟨hs, h⟩
  | cons request rest ih =>
    rw [List.forall_mem_cons] at hrequests
    obtain ⟨hs', h'⟩ := h.step hs hrequests.1
    exact ih h' hrequests.2 hs'

structure Empty (W : Workspace S root) (s : S) : Prop where
  usable : W.Usable s
  draft : (W.view s).draft = none
  files : ∀ name ∈ fileNames, (W.view s).files name = none

variable (G₁ G₂) in
/-- What holds of an empty directory holds after any command lines. -/
theorem kept_after {start : S} (hstart : Empty W start) {requests : List (Request σ)}
    (hrequests : ∀ request ∈ requests, request.IsFor root) :
    W.Usable (after G₁ G₂ start requests).world ∧
      Kept G₁ G₂ (W.view (after G₁ G₂ start requests).world)
        (after G₁ G₂ start requests).latest := by
  have hkept : Kept G₁ G₂ (W.view start) none := by
    refine ⟨hstart.draft, fun data hdata => ?_, by nofun⟩
    rw [hstart.files _ (file_mem_fileNames (by decide) .params)] at hdata
    cases hdata
  exact hkept.foldl_step hrequests hstart.usable

section Perform
variable {s : S} {request : Request σ} {i : Invocation} (hs : W.Usable s)
  (hread : Invocation.ofWords request.words = .ok i) (hrequest : request.IsFor root)
include hs hread

omit [PrimeOrder G₁] [PrimeOrder G₂] [Bilinear G₁ G₂ Gₜ] [LawfulCoding G₁] [LawfulCoding G₂] in
/-- The last proof that was made passes, with the product of its factors. -/
theorem Kept.perform_verify [LawfulText G₁] [LawfulText G₂] {pairs : List (String × Int)}
    (h : Kept G₁ G₂ (W.view s) (some (.prove pairs))) (hi : i.command = .verify)
    (hout : i.out = some root) (hworkers : workersFault? i.workers = .ok ()) :
    ∃ p q, Entries.get? "p" pairs = some p ∧ Entries.get? "q" pairs = some q ∧
      (perform G₁ G₂ request s).1 = .ok (.ok ()) ∧
      (W.view (perform G₁ G₂ request s).2).printed =
        passedLines root (reduce (p * q)) ++ (W.view s).printed := by
  obtain ⟨key, p, q, hp, hq, hproven⟩ := h.proven pairs rfl
  have hgoes := goes_runVerify (W := W) hproven ⟨reduce_nonneg _, reduce_lt _⟩ hworkers
    (sourceFor i request.source)
  rw [← hout] at hgoes
  obtain ⟨s', hperform, -, hv'⟩ :=
    exists_perform G₁ G₂ hread hs (by rw [hi]; exact hgoes)
  exact ⟨p, q, hp, hq, by rw [hperform], by rw [hperform, hv']⟩

include hrequest

theorem Kept.perform_prove (h : Kept G₁ G₂ (W.view s) latest) {pairs : List (String × Int)}
    (hi : i.command = .prove pairs) :
    ((perform G₁ G₂ request s).1 = .ok (.ok ()) ↔ Provable i.out i.workers pairs (W.view s)) ∧
      ((perform G₁ G₂ request s).1 ≠ .ok (.ok ()) →
        (W.view (perform G₁ G₂ request s).2).files = (W.view s).files) := by
  obtain ⟨r, source', v', hgoes, -, hcases⟩ := commits_runProve (W := W)
    (hrequest.out i hread) h.draft h.keyed (Invocation.areReduced_pairs hread hi)
    (isFair_sourceFor hrequest.fair i 2) i.workers
  obtain ⟨s', hperform, -, rfl⟩ :=
    exists_perform G₁ G₂ hread hs (by rw [hi]; exact hgoes)
  rw [hperform]
  obtain ⟨⟨e, rfl⟩, hreason, hfiles⟩ | ⟨rfl, hprovable, -⟩ := hcases
  · exact ⟨⟨by nofun, fun hprovable => absurd hprovable hreason⟩, fun _ => hfiles⟩
  · exact ⟨⟨fun _ => hprovable, fun _ => rfl⟩, fun hne => absurd rfl hne⟩

omit [PrimeOrder G₁] [PrimeOrder G₂] [Bilinear G₁ G₂ Gₜ] [LawfulCoding G₁] [LawfulCoding G₂] in
theorem Kept.perform_setup (h : Kept G₁ G₂ (W.view s) latest) (hi : i.command = .setup)
    (hout : i.out ≠ none) (hworkers : workersFault? i.workers = .ok ()) :
    (perform G₁ G₂ request s).1 = .ok (.ok ()) ∧
      ∃ key : Key G₁ G₂, Keyed (W.view (perform G₁ G₂ request s).2) key := by
  have hsetup : Commits W (runSetup G₁ G₂ i.out i.workers) (sourceFor i request.source) (W.view s)
      _ _ :=
    commits_runSetup (hrequest.out i hread) h.draft (isFair_sourceFor hrequest.fair i 5) i.workers
  obtain ⟨r, source', v', hgoes, -, hcases⟩ := hsetup
  obtain ⟨s', hperform, -, rfl⟩ :=
    exists_perform G₁ G₂ hread hs (by rw [hi]; exact hgoes)
  rw [hperform]
  obtain ⟨-, hreason, -⟩ | ⟨rfl, hkey⟩ := hcases
  · exact absurd hreason (not_or.mpr ⟨hout, not_not.mpr hworkers⟩)
  · exact ⟨rfl, hkey⟩

omit [PrimeOrder G₁] [PrimeOrder G₂] [Bilinear G₁ G₂ Gₜ] [LawfulCoding G₁] [LawfulCoding G₂] in
/-- Proving again and running a chain keep to their scopes, whether they fail or not. -/
theorem Kept.perform_scoped (h : Kept G₁ G₂ (W.view s) latest)
    (hi : (∃ mode, i.command = .recurse mode) ∨ ∃ steps mode, i.command = .chain steps mode)
    (x : Artifact) :
    (W.view (perform G₁ G₂ request s).2).files (x.file "") = (W.view s).files (x.file "") := by
  obtain ⟨r, source', v', hgoes, -, hfiles⟩ : ∃ r source' v',
      Goes W (i.command.run G₁ G₂ i.out i.workers) (sourceFor i request.source) (W.view s) r
        source' v' ∧ Kept G₁ G₂ v' latest ∧
        ∀ x : Artifact, v'.files (x.file "") = (W.view s).files (x.file "") := by
    rcases hi with ⟨mode, hi⟩ | ⟨steps, mode, hi⟩ <;> rw [hi]
    · exact h.exists_goes_of_touches (touches_runRecurse G₁ G₂ (hrequest.out i hread) _ mode)
        (file_notMem (by decide)) _
    · exact h.exists_goes_of_touches (touches_runChain G₁ G₂ (hrequest.out i hread) _ steps mode)
        (file_notMem (by decide)) _
  obtain ⟨s', hperform, -, rfl⟩ := exists_perform G₁ G₂ hread hs hgoes
  rw [hperform]
  exact hfiles x

end Perform

/-- One more command line after any others in a directory that was empty. If the last setup or proof
that did not fail was a proof for two factors, a verification passes with their product. A proof
that cannot be made leaves all files alone, and there are no other reasons for it to fail than what
it needs. Proving again and running a chain leave the files of no scope alone. -/
theorem perform_after [LawfulText G₁] [LawfulText G₂] {start : S} (hstart : Empty W start)
    {requests : List (Request σ)} (hrequests : ∀ request ∈ requests, request.IsFor root)
    {request : Request σ} (hrequest : request.IsFor root) {i : Invocation}
    (hread : Invocation.ofWords request.words = .ok i) :
    let reached := after G₁ G₂ start requests
    let before := W.view reached.world
    let result := (perform G₁ G₂ request reached.world).1
    let left := W.view (perform G₁ G₂ request reached.world).2
    (∀ pairs, reached.latest = some (.prove pairs) → i.command = .verify → i.out ≠ none →
      workersFault? i.workers = .ok () →
        ∃ p q, Entries.get? "p" pairs = some p ∧ Entries.get? "q" pairs = some q ∧
          result = .ok (.ok ()) ∧
          left.printed = passedLines root (reduce (p * q)) ++ before.printed) ∧
    (∀ pairs, i.command = .prove pairs →
      (result = .ok (.ok ()) ↔ Provable i.out i.workers pairs before) ∧
      (result ≠ .ok (.ok ()) → left.files = before.files)) ∧
    ((∃ mode, i.command = .recurse mode) ∨ (∃ steps mode, i.command = .chain steps mode) →
      ∀ x : Artifact, left.files (x.file "") = before.files (x.file "")) := by
  intro reached before result left
  obtain ⟨hs, hkept⟩ := kept_after G₁ G₂ hstart hrequests
  refine ⟨fun pairs hlatest hi hout hworkers => ?_,
    fun pairs hi => hkept.perform_prove hs hread hrequest hi,
    fun hi => hkept.perform_scoped hs hread hrequest hi⟩
  obtain ⟨path, hpath⟩ := Option.ne_none_iff_exists'.mp hout
  obtain rfl := hrequest.out i hread path hpath
  exact Kept.perform_verify hs hread (hlatest ▸ hkept) hi hpath hworkers

variable (G₁ G₂) in
/-- A setup in an empty directory and then a proof for two factors do not fail. -/
theorem latest_after_setup {start : S} (hstart : Empty W start) {first second : Request σ}
    (hfirst : first.IsFor root) (hsecond : second.IsFor root) {i j : Invocation}
    (hi : Invocation.ofWords first.words = .ok i) (hj : Invocation.ofWords second.words = .ok j)
    {p q : Int} (hsetup : i.command = .setup) (hprove : j.command = .prove [("p", p), ("q", q)])
    (hout : i.out ≠ none ∧ j.out ≠ none)
    (hworkers : workersFault? i.workers = .ok () ∧ workersFault? j.workers = .ok ()) :
    (after G₁ G₂ start [first, second]).latest = some (.prove [("p", p), ("q", q)]) := by
  have hnone : ∀ request ∈ ([] : List (Request σ)), request.IsFor root := List.forall_mem_nil _
  obtain ⟨hs, hkept⟩ := kept_after G₁ G₂ hstart hnone
  obtain ⟨-, key, hkey⟩ := hkept.perform_setup hs hi hfirst hsetup hout.1 hworkers.1
  obtain ⟨hs₁, hkept₁⟩ := hkept.step hs hfirst
  have hprovable : Provable j.out j.workers [("p", p), ("q", q)]
      (W.view (Progress.step G₁ G₂ ⟨start, none⟩ first).world) := by
    refine ⟨hout.2, hworkers.2, fun hparams => ?_, p, q, rfl, rfl, by nofun⟩
    cases hkey.params.symm.trans hparams
  have hproved := (hkept₁.perform_prove hs₁ hj hsecond hprove).1.mpr hprovable
  rw [← hprove]
  exact latest_step hj (by rw [hprove]; rfl) hproved

end Kept

/-- An empty disk, a setup, a proof that 391 is 17 times 23, and its verification. -/
theorem verify_factors :
    ∃ left : Host,
      perform Exponent Exponent ⟨["verify"], (⟨[]⟩ : Script)⟩
          (after Exponent Exponent ⟨FileTree.empty [], []⟩
            [⟨["setup"], (⟨[2, 3, 5, 7, 11]⟩ : Script)⟩,
              ⟨["-s", "1", "prove", "-a", "p=17", "q=23"], ⟨[]⟩⟩]).world = (.ok (.ok ()), left) ∧
      passedLines "." 391 <+: left.printed := by
  have hsetup : Invocation.ofWords ["setup"] = .ok ⟨some ".", .unmade, none, .setup⟩ := rfl
  have hprove : Invocation.ofWords ["-s", "1", "prove", "-a", "p=17", "q=23"] =
    .ok ⟨some ".", .unmade, some 1, .prove [("p", 17), ("q", 23)]⟩ := rfl
  have hverify : Invocation.ofWords ["verify"] = .ok ⟨some ".", .unmade, none, .verify⟩ := rfl
  have hfor {words : List String} {i : Invocation} (hread : Invocation.ofWords words = .ok i)
      (hout : i.out = some ".") {values : List Int} (hvalues : ∀ x ∈ values, IsDraw x) :
      Request.IsFor ⟨words, (⟨values⟩ : Script)⟩ "." := by
    refine ⟨RandomSource.isFair_script hvalues, fun i' hread' path hpath => ?_⟩
    obtain rfl := Except.ok.inj (hread.symm.trans hread')
    rw [hout] at hpath
    exact (Option.some.inj hpath).symm
  have hserves : (FileTree.empty []).CanServe "." [] 0 := by decide +kernel
  have hempty : Empty (Host.workspace "." [] 0) ⟨FileTree.empty [], []⟩ :=
    ⟨hserves, rfl, by decide +kernel⟩
  have hsetupFor : Request.IsFor ⟨["setup"], (⟨[2, 3, 5, 7, 11]⟩ : Script)⟩ "." :=
    hfor hsetup rfl (by decide)
  have hproveFor :
      Request.IsFor ⟨["-s", "1", "prove", "-a", "p=17", "q=23"], (⟨[]⟩ : Script)⟩ "." :=
    hfor hprove rfl (List.forall_mem_nil _)
  have hlatest := latest_after_setup Exponent Exponent hempty hsetupFor hproveFor hsetup hprove rfl
    rfl ⟨by nofun, by nofun⟩ ⟨rfl, rfl⟩
  have hrequests : ∀ request ∈ [⟨["setup"], (⟨[2, 3, 5, 7, 11]⟩ : Script)⟩,
      (⟨["-s", "1", "prove", "-a", "p=17", "q=23"], ⟨[]⟩⟩ : Request Script)],
      request.IsFor "." :=
    List.forall_mem_cons.mpr ⟨hsetupFor, List.forall_mem_singleton.mpr hproveFor⟩
  have hverifyFor : Request.IsFor ⟨["verify"], (⟨[]⟩ : Script)⟩ "." :=
    hfor hverify rfl (List.forall_mem_nil _)
  obtain ⟨p, q, hp, hq, hresult, hprinted⟩ :=
    (perform_after hempty hrequests hverifyFor hverify).1 _ hlatest rfl (by nofun) rfl
  obtain rfl := Option.some.inj hp
  obtain rfl := Option.some.inj hq
  exact ⟨_, Prod.ext hresult rfl, _, hprinted.symm⟩

end CommandLine

end RankOne
