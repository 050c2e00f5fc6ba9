import RankOne.Proofs.Calls
import RankOne.Proofs.Completeness

/-!
# Systems side by side

A caller may have many systems and hand what one of them has answered to another. A session keeps
them all, with every combination that any of them has handed out. Whatever calls are made in a
session, also failing ones, each of its systems stays regular. So a closed system has its gates in
two parts, and its public entries come in one order: the names, the public inputs and the public
columns of a key follow it.
-/

set_option autoImplicit false

namespace RankOne

structure Session where
  systems : List R1CS
  known : List Combination

namespace Session

def create (w : Session) (witnessed : Bool) : Session where
  systems := w.systems ++ [.fresh w.systems.length witnessed]
  known := w.known ++ [⟨[(0, 1)], some w.systems.length⟩]

def handedOut : Except Fault Item → List Combination
  | .ok item => item.combinations
  | .error _ => []

def call (w : Session) (i : ℕ) (c : Call) : Session :=
  match w.systems[i]? with
  | none => w
  | some s =>
      { systems := w.systems.set i (c.run.run s).2
        known := w.known ++ handedOut (c.run.run s).1 }

/-- The sessions that calls lead to whose operands are integers and combinations handed out before,
by the same system or another. -/
inductive Reachable : Session → Prop
  | start : Reachable ⟨[], []⟩
  | create {w : Session} (h : Reachable w) (witnessed : Bool) : Reachable (w.create witnessed)
  | call {w : Session} (h : Reachable w) (i : ℕ) {c : Call} (hc : c.Uses (· ∈ w.known)) :
      Reachable (w.call i c)

structure Regular (w : Session) : Prop where
  tag : ∀ (i : ℕ) (s : R1CS), w.systems[i]? = some s → s.tag = i
  hosts : ∀ (i : ℕ) (s : R1CS), w.systems[i]? = some s → s.Hosts (· ∈ w.known)
  owners : ∀ c ∈ w.known, ∀ n, c.owner = some n → n < w.systems.length

theorem hosts_append {s : R1CS} {known new : List Combination} (h : s.Hosts (· ∈ known))
    (hnew : ∀ c ∈ new, c.owner = some s.tag → (Linear.combination c).Within s) :
    s.Hosts (· ∈ known ++ new) :=
  ⟨h.regular, fun c hc => (List.mem_append.mp hc).elim (h.within c) (hnew c)⟩

variable {w : Session}

theorem Regular.create (h : w.Regular) (witnessed : Bool) : (w.create witnessed).Regular := by
  have hcases : ∀ i s, (w.create witnessed).systems[i]? = some s →
      w.systems[i]? = some s ∨ i = w.systems.length ∧ s = .fresh w.systems.length witnessed := by
    intro i s hi
    rw [Session.create, List.getElem?_append] at hi
    split at hi
    · exact .inl hi
    · rw [List.getElem?_singleton] at hi
      split at hi
      · exact .inr ⟨by omega, (Option.some.inj hi).symm⟩
      · simp at hi
  refine ⟨?_, ?_, ?_⟩
  · intro i s hi
    rcases hcases i s hi with hold | ⟨rfl, rfl⟩
    · exact h.tag i s hold
    · rfl
  · intro i s hi
    rcases hcases i s hi with hold | ⟨rfl, rfl⟩
    · -- the new constant wire has a later number
      apply hosts_append (h.hosts i s hold)
      intro c hc howner
      obtain rfl := List.mem_singleton.mp hc
      have hlt := (List.getElem?_eq_some_iff.mp hold).1
      have htag := h.tag i s hold
      have hlen : w.systems.length = s.tag := Option.some.inj howner
      omega
    · apply hosts_append ⟨R1CS.regular_fresh _ _, fun c hc howner =>
        absurd (h.owners c hc _ howner) (lt_irrefl _)⟩
      intro c hc _
      obtain rfl := List.mem_singleton.mp hc
      exact Linear.within_wireAt (s := .fresh w.systems.length witnessed) (m := 0) Nat.one_pos
  · intro c hc n hn
    rw [Session.create, List.length_append, List.length_singleton]
    rcases List.mem_append.mp hc with hc | hc
    · exact Nat.lt_succ_of_lt (h.owners c hc n hn)
    · obtain rfl := List.mem_singleton.mp hc
      exact (Option.some.inj hn) ▸ Nat.lt_succ_self _

theorem Regular.call (h : w.Regular) (i : ℕ) {c : Call} (hc : c.Uses (· ∈ w.known)) :
    (w.call i c).Regular := by
  cases hi : w.systems[i]? with
  | none =>
    rw [Session.call, hi]
    exact h
  | some s =>
    have hsafe := Call.safe_run (h.hosts i s hi) hc
    obtain ⟨hgrows, hregular⟩ := hsafe.grows
    have htag : (c.run.run s).2.tag = i := hgrows.extends_.tag.trans (h.tag i s hi)
    have hlt := (List.getElem?_eq_some_iff.mp hi).1
    have hsource : ∀ x ∈ handedOut (c.run.run s).1,
        Item.Source (· ∈ w.known) (c.run.run s).2 x := by
      rw [Build.Safe] at hsafe
      generalize c.run.run s = p at hsafe ⊢
      cases hsafe with
      | ok _ _ hover => exact hover
      | error _ _ => simp [handedOut]
    simp only [Session.call, hi]
    generalize (c.run.run s).2 = t at *
    have hcases : ∀ j u, (w.systems.set i t)[j]? = some u →
        j = i ∧ u = t ∨ j ≠ i ∧ w.systems[j]? = some u := by
      intro j u hj
      rw [List.getElem?_set] at hj
      split at hj
      · rename_i hij
        exact .inl ⟨hij.symm, (Option.some.inj hj).symm⟩
      · rename_i hij
        exact .inr ⟨Ne.symm hij, hj⟩
    refine ⟨?_, ?_, ?_⟩
    · intro j u hj
      rcases hcases j u hj with ⟨rfl, rfl⟩ | ⟨-, hold⟩
      · exact htag
      · exact h.tag j u hold
    · intro j u hj
      rcases hcases j u hj with ⟨rfl, rfl⟩ | ⟨hne, hold⟩
      · have hgrown := (h.hosts j s hi).grow hgrows hregular
        apply hosts_append hgrown
        intro x hx howner
        rcases hsource x hx with hx | hx | hx
        · exact hgrown.within x hx howner
        · exact hx
        · simp [hx] at howner
      · apply hosts_append (h.hosts j u hold)
        intro x hx howner
        rcases hsource x hx with hx | hx | hx
        · exact (h.hosts j u hold).within x hx howner
        · -- an answer of one system does not have the number of another
          have hsame : t.tag = u.tag := Option.some.inj (hx.1.symm.trans howner)
          rw [htag, h.tag j u hold] at hsame
          exact absurd hsame.symm hne
        · simp [hx] at howner
    · intro x hx n hn
      rw [List.length_set]
      rcases List.mem_append.mp hx with hx | hx
      · exact h.owners x hx n hn
      · rcases hsource x hx with hx | hx | hx
        · exact h.owners x hx n hn
        · obtain rfl : t.tag = n := Option.some.inj (hx.1.symm.trans hn)
          rwa [htag]
        · rw [hx] at hn
          cases hn

theorem Reachable.regular (h : w.Reachable) : w.Regular := by
  induction h with
  | start => exact ⟨by simp, by simp, by simp⟩
  | create _ witnessed ih => exact ih.create witnessed
  | call _ i hc ih => exact ih.call i hc

/-- Every system in every session, with values or without. Its entries are in the order of their
wires, and after the constant the names, the public inputs and the public columns of any key run
through the same wires. Its gates are over its wires, those of the relation are of two kinds, and if
it is closed then one gate for each entry comes after them. -/
theorem systems_in_order (hw : w.Reachable) {s : R1CS} (hs : s ∈ w.systems) :
    (s.values.length = s.wireCount ∧ 1 ≤ s.wireCount) ∧
    (s.witnessed = true → s.values.head? = some (some 1) ∧
      ∀ v ∈ s.values, ∃ n, v = some n ∧ 0 ≤ n ∧ n < order) ∧
    (s.witnessed = false → ∀ v ∈ s.values, v = none) ∧
    (s.entries.map Prod.fst).Pairwise (· < ·) ∧
    (∀ entry ∈ s.entries, entry.1 < s.wireCount) ∧
    (∀ g ∈ s.gates, g.Within s) ∧
    (∀ g ∈ s.relations, g.IsRelation) ∧
    (s.frozen = true → s.relations.length = s.relationCount ∧
      s.gates = s.relations ++ s.entries.map s.bindingGate) ∧
    ∃ rest, s.entries = (0, "ONE") :: rest ∧
      s.shape.names = rest.map Prod.snd ∧
      (s.witnessed = true → s.inputs = .ok (rest.map fun entry => s.wireNumber entry.1)) ∧
      ∀ (G₁ G₂ : Type) [CodedGroup G₁] [CodedGroup G₂] (t : Trapdoor) (k : Key G₁ G₂),
        Key.derive s.shape t = .ok k →
          ∃ weights g, Key.basisAt (domainSize s.gates.length) t.tau = .ok weights ∧
            Transform.invert t.gamma order = .ok g ∧
            k.publicColumns = ((0, "ONE") :: rest).map fun entry =>
              CodedGroup.multiple (reduce (s.shape.columnValue t weights entry.1 * g)) := by
  obtain ⟨i, hi⟩ := List.mem_iff_getElem?.mp hs
  have hregular := (hw.regular.hosts i s hi).regular
  have hwf := hregular.wellFormed
  obtain ⟨rest, hrest⟩ := hwf.shape.entries_eq
  refine ⟨⟨hwf.length_values, hwf.wireCount_pos⟩, ?_, ?_, hwf.entries_sorted, hwf.entries_lt,
    hregular.within, hregular.relations, hregular.closed, rest, hrest, hwf.names_eq hrest,
    fun hwitnessed => R1CS.inputs_eq hwf hwitnessed hrest, ?_⟩
  · intro hwitnessed
    refine ⟨by rw [hwf.head_values, if_pos hwitnessed], fun v hv => ?_⟩
    have hsome := hwf.isSome_values v hv
    rw [hwitnessed] at hsome
    obtain ⟨n, rfl⟩ := Option.isSome_iff_exists.mp hsome
    exact ⟨n, rfl, hwf.values_range n hv⟩
  · intro hwitnessed v hv
    have hsome := hwf.isSome_values v hv
    rwa [hwitnessed, Option.isSome_eq_false_iff, Option.isNone_iff_eq_none] at hsome
  · intro G₁ G₂ _ _ t k hk
    obtain ⟨weights, g, hweights, hg, -, -, hcolumns⟩ := Key.exists_of_derive hk
    refine ⟨weights, g, hweights, hg, ?_⟩
    rw [hcolumns]
    exact congrArg _ hrest

namespace Square

def x : Combination := ⟨[(1, 1)], some 0⟩

def foreign : Combination := ⟨[(0, 1)], some 1⟩

def step (i : Instruction) : Call :=
  .instruction ⟨fun _ => .ok 0, fun _ => []⟩
    [("x", .scalar (.combination x)), ("foreign", .scalar (.combination foreign))] i

def opening : Session :=
  ((Session.create ⟨[], []⟩ true).create false).call 0 (.wire (fun _ => .ok 5) (some "x"))

def session : Session :=
  ((opening.call 0 (step (.mul (.register "x") (.register "foreign") none))).call 0
    (step (.mul (.register "x") (.register "x") none))).call 0 (step .freeze)

theorem uses_step {i : Instruction} (hi : i.IsPlain) (hx : x ∈ w.known)
    (hforeign : foreign ∈ w.known) : (step i).Uses (· ∈ w.known) :=
  ⟨.inl hi, by simpa [Item.Over, Item.combinations] using ⟨hx, hforeign⟩⟩

theorem reachable_opening : opening.Reachable :=
  ((Reachable.start.create true).create false).call 0 (c := .wire _ _) trivial

theorem reachable_session : session.Reachable := by
  have hrefused := reachable_opening.call 0
    (uses_step (i := .mul (.register "x") (.register "foreign") none) ⟨trivial, trivial⟩
      (by decide) (by decide))
  have hsquare := hrefused.call 0 (uses_step (i := .mul (.register "x") (.register "x") none)
    ⟨trivial, trivial⟩ (by decide) (by decide))
  exact hsquare.call 0 (uses_step (i := .freeze) trivial (by decide) (by decide))

end Square

/-- The first system of the session, with a gate for the square and one for each entry. -/
theorem systems_in_order_square :
    Square.session.Reachable ∧ ∃ s ∈ Square.session.systems, s.frozen = true ∧
      s.relationCount = 1 ∧ s.gates = s.relations ++ s.entries.map s.bindingGate := by
  refine ⟨Square.reachable_session, _, List.mem_cons_self .., rfl, rfl, ?_⟩
  have horder := systems_in_order Square.reachable_session (List.mem_cons_self ..)
  exact (horder.2.2.2.2.2.2.2.1 rfl).2

end Session

end RankOne
