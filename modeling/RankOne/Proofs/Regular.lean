import RankOne.Proofs.Refusal
import RankOne.Proofs.Ownership

/-!
# What every call leaves in order

A call gets operands from anywhere, but a system only lets in a combination that has its own
number on it. If each combination with this number that is around goes over wires of the system,
then so does what a call answers, and so does each gate that it emits. A gate with a constant factor
is never emitted as it stands, but as `0 * 0 = z` with a proper wire in `z`.
-/

set_option autoImplicit false

namespace RankOne

/-- Whether a gate is of one of the two kinds that operations emit: a product of combinations, or
`0 * 0 = z` where `z` is not a constant in disguise. -/
def Gate.IsRelation (g : Gate) : Prop :=
  (∃ x y, g.left = .combination x ∧ g.right = .combination y) ∨
    g.left = .constant 0 ∧ g.right = .constant 0 ∧
      ∃ z, g.output = .combination z ∧ ∃ term ∈ z.terms, term.1 ≠ 0

namespace R1CS

def relations (s : R1CS) : List Gate :=
  if s.frozen then s.gates.take s.relationCount else s.gates

structure Regular (s : R1CS) : Prop where
  wellFormed : s.WellFormed
  within : ∀ g ∈ s.gates, g.Within s
  relations : ∀ g ∈ s.relations, g.IsRelation
  closed : s.frozen = true → s.relations.length = s.relationCount ∧
    s.gates = s.relations ++ s.entries.map s.bindingGate

variable {s t : R1CS}

theorem relations_of_not_frozen (hf : s.frozen = false) : s.relations = s.gates := by
  simp [relations, hf]

theorem regular_fresh (tag : ℕ) (witnessed : Bool) : (fresh tag witnessed).Regular where
  wellFormed := wellFormed_fresh tag witnessed
  within := by simp [fresh]
  relations := by simp [R1CS.relations, fresh]
  closed := by simp [fresh]

/-- An open system stays regular as long as its new gates are as they should be. -/
theorem Regular.of_gates (hs : s.Regular) (hst : s.Grows t) (hs₀ : s.frozen = false)
    (ht₀ : t.frozen = false) {new : List Gate} (hgates : t.gates = s.gates ++ new)
    (hnew : ∀ g ∈ new, g.Within t ∧ g.IsRelation) : t.Regular where
  wellFormed := hst.wellFormed hs.wellFormed
  within := by
    rw [hgates, List.forall_mem_append]
    exact ⟨fun g hg => (hs.within g hg).extend hst.extends_, fun g hg => (hnew g hg).1⟩
  relations := by
    have hold := hs.relations
    rw [relations_of_not_frozen hs₀] at hold
    rw [relations_of_not_frozen ht₀, hgates, List.forall_mem_append]
    exact ⟨hold, fun g hg => (hnew g hg).2⟩
  closed hf := by simp [ht₀] at hf

theorem Regular.push (hs : s.Regular) (hf : s.frozen = false)
    {value : Reader → Except Fault Int} {v : Option Int} (hv : s.wireValue value = .ok v)
    (name : Option String) : (s.push v name).Regular :=
  hs.of_gates (grows_push hv hf name) hf hf (List.append_nil _).symm (by simp)

theorem Regular.addGate (hs : s.Regular) (hf : s.frozen = false) {g : Gate} (hg : g.Within s)
    (hrelation : g.IsRelation) : { s with gates := s.gates ++ [g] : R1CS }.Regular :=
  hs.of_gates (grows_addGate hf g) hf hf rfl (by simpa using ⟨hg, hrelation⟩)

/-- Closing puts one gate for each public entry after the gates that are there. -/
theorem Regular.freeze (hs : s.Regular) : s.freeze.Regular := by
  by_cases hf : s.frozen = true
  · rwa [R1CS.freeze, if_pos hf]
  · have hopen : s.frozen = false := by simpa using hf
    have hfreeze : s.freeze = { s with
        relationCount := s.gates.length
        gates := s.gates ++ s.entries.map s.bindingGate
        frozen := true } := if_neg hf
    have hrelations : s.freeze.relations = s.gates := by
      simp [R1CS.relations, hfreeze]
    have hentry : ∀ entry ∈ s.entries, (s.bindingGate entry).Within s := fun entry hentry =>
      ⟨Linear.within_wireAt (hs.wellFormed.entries_lt entry hentry), trivial, trivial⟩
    exact
      { wellFormed := (grows_freeze s).wellFormed hs.wellFormed
        within := by
          have hall : ∀ g ∈ s.gates ++ s.entries.map s.bindingGate, g.Within s := by
            rw [List.forall_mem_append, List.forall_mem_map]
            exact ⟨hs.within, hentry⟩
          intro g hg
          rw [hfreeze] at hg
          exact (hall g hg).extend (grows_freeze s).extends_
        relations := by
          rw [hrelations, ← relations_of_not_frozen hopen]
          exact hs.relations
        closed := fun _ => by
          rw [hrelations, hfreeze]
          exact ⟨rfl, rfl⟩ }

structure Hosts (s : R1CS) (K : Combination → Prop) : Prop where
  regular : s.Regular
  within : ∀ c, K c → c.owner = some s.tag → (Linear.combination c).Within s

theorem Hosts.grow {K : Combination → Prop} (h : s.Hosts K) (hst : s.Grows t) (ht : t.Regular) :
    t.Hosts K :=
  ⟨ht, fun c hc howner =>
    (h.within c hc (by rw [howner, hst.extends_.tag])).extend hst.extends_⟩

end R1CS

/-- What is left of a sum after its constants is over a proper wire. -/
theorem Linear.exists_term_of_ofTerms {tag : ℕ} {terms : List (Int × Int)} {z : Combination}
    (h : ofTerms tag terms = .combination z) : ∃ term ∈ z.terms, term.1 ≠ 0 := by
  simp only [ofTerms] at h
  split at h
  · simp at h
  · rename_i hall
    obtain rfl := Linear.combination.inj h
    simpa using hall

namespace Build
variable {α β : Type} {Q : R1CS → α → Prop} {Q' : R1CS → β → Prop} {s : R1CS}

inductive Lands (Q : R1CS → α → Prop) (s : R1CS) : Except Fault α × R1CS → Prop
  | ok {a t} : s.Grows t → t.Regular → Q t a → Lands Q s (.ok a, t)
  | error {e t} : s.Grows t → t.Regular → Lands Q s (.error e, t)

def Safe (Q : R1CS → α → Prop) (x : Build α) (s : R1CS) : Prop :=
  Lands Q s (x.run s)

theorem Safe.grows {x : Build α} (h : Safe Q x s) : s.Grows (x.run s).2 ∧ (x.run s).2.Regular := by
  rw [Safe] at h
  generalize x.run s = p at h ⊢
  cases h with
  | ok hst ht _ => exact ⟨hst, ht⟩
  | error hst ht => exact ⟨hst, ht⟩

theorem safe_pure (hs : s.Regular) {a : α} (hQ : Q s a) : Safe Q (pure a) s :=
  .ok (R1CS.Grows.refl s) hs hQ

theorem safe_fail (hs : s.Regular) (e : Fault) : Safe Q (fail e : Build α) s :=
  .error (R1CS.Grows.refl s) hs

theorem safe_throw (hs : s.Regular) (e : Fault) : Safe Q (throw e : Build α) s :=
  .error (R1CS.Grows.refl s) hs

theorem safe_bind {x : Build α} {f : α → Build β} (hx : Safe Q x s)
    (hf : ∀ a t, s.Grows t → t.Regular → Q t a → Safe Q' (f a) t) : Safe Q' (x >>= f) s := by
  rw [Safe, run_bind]
  rw [Safe] at hx
  generalize x.run s = p at hx ⊢
  cases hx with
  | error hst ht => exact .error hst ht
  | @ok a t hst ht hQ =>
    have hrest := hf a t hst ht hQ
    rw [Safe] at hrest
    change Lands Q' s ((f a).run t)
    generalize (f a).run t = q at hrest ⊢
    cases hrest with
    | error htu hu => exact .error (hst.trans htu) hu
    | ok htu hu hQ' => exact .ok (hst.trans htu) hu hQ'

/-- The same where the first computation only looks: the system is still the same one. -/
theorem safe_look {x : Build α} {f : α → Build β} (hx : x.Still) (hs : s.Regular)
    (hf : ∀ a, (x.run s).1 = .ok a → Safe Q' (f a) s) : Safe Q' (x >>= f) s := by
  have hstate := hx s
  rw [Safe, run_bind]
  generalize x.run s = p at hstate hf ⊢
  obtain ⟨r, t⟩ := p
  obtain rfl : t = s := hstate
  cases r with
  | error e => exact .error (R1CS.Grows.refl t) hs
  | ok a => exact hf a rfl

theorem safe_map {x : Build α} (hx : Safe Q x s) (g : α → β) (h : ∀ a t, Q t a → Q' t (g a)) :
    Safe Q' (g <$> x) s := by
  rw [map_eq_pure_bind]
  exact safe_bind hx fun a t _ ht hQ => safe_pure ht (h a t hQ)

variable {x y z b : Linear}

def Own (t : R1CS) (z : Linear) : Prop := z.Within t

theorem safe_wire (hs : s.Regular) (value : Reader → Except Fault Int) (name : Option String) :
    Safe Own (wire value name) s := by
  rw [Safe, run_wire]
  split
  · exact .error (R1CS.Grows.refl s) hs
  · rename_i hf
    rw [Bool.not_eq_true] at hf
    split
    · exact .error (R1CS.Grows.refl s) hs
    · rename_i v hv
      exact .ok (R1CS.grows_push hv hf name) (hs.push hf hv name)
        (Linear.within_wireAt (s := s.push v name) (Nat.lt_succ_self _))

theorem safe_sum (hs : s.Regular) {xs : List Linear} (h : ∀ y ∈ x :: xs, y.Within s) :
    Safe Own (sum xs x) s := by
  rw [Safe, run_sum]
  split
  · exact .error (R1CS.Grows.refl s) hs
  · exact .ok (R1CS.Grows.refl s) hs (Linear.within_sum hs.wellFormed.wireCount_pos h)

theorem safe_sub (hs : s.Regular) (hx : x.Within s) (hy : y.Within s) : Safe Own (sub x y) s := by
  rw [Safe, run_sub]
  split
  · exact .error (R1CS.Grows.refl s) hs
  · exact .ok (R1CS.Grows.refl s) hs (Linear.within_difference hs.wellFormed.wireCount_pos hx hy)

theorem lands_pushGate (hs : s.Regular) (hf : s.frozen = false) {value : Reader → Except Fault Int}
    {v : Option Int} (hv : s.wireValue value = .ok v) {g : Gate}
    (hg : ∀ t, s.Extends t → (s.wireAt s.wireCount).Within t → g.Within t)
    (hrelation : g.IsRelation) :
    Lands Own s (.ok (s.wireAt s.wireCount), s.pushGate v g) := by
  have hgrows := R1CS.grows_pushGate hv hf g
  have hwire := Linear.within_wireAt (s := s.push v none) (Nat.lt_succ_self s.wireCount)
  have hwithin := hg (s.push v none) (R1CS.grows_push hv hf none).extends_ hwire
  exact .ok hgrows ((hs.push hf hv none).addGate hf hwithin hrelation) hwire

theorem safe_mul (hs : s.Regular) (hx : x.Within s) (hy : y.Within s) (message : String) :
    Safe Own (mul x y message) s := by
  rw [Safe, run_mul]
  split
  · exact .error (R1CS.Grows.refl s) hs
  · rename_i u haccess
    split
    · rename_i p hp
      exact .ok (R1CS.Grows.refl s) hs (Linear.within_product? hx hy hp)
    · rename_i hp
      split
      · exact .error (R1CS.Grows.refl s) hs
      · rename_i v hv
        apply lands_pushGate hs (not_frozen_of_access haccess) hv
        · exact fun t hst hwire => ⟨hx.extend hst, hy.extend hst, hwire⟩
        · cases x <;> cases y <;> simp [Linear.product?] at hp
          exact .inl ⟨_, _, rfl, rfl⟩

theorem safe_div (hs : s.Regular) (hx : x.Within s) (hy : y.Within s) (message : String)
    (isFlag : Bool) : Safe Own (div x y message isFlag) s := by
  rw [Safe, run_div]
  split
  · exact .error (R1CS.Grows.refl s) hs
  · rename_i u haccess
    split
    · split
      · exact .error (R1CS.Grows.refl s) hs
      · exact .ok (R1CS.Grows.refl s) hs (Linear.within_times hx _)
    · split
      · exact .ok (R1CS.Grows.refl s) hs trivial
      · split
        · exact .error (R1CS.Grows.refl s) hs
        · rename_i v hv
          apply lands_pushGate hs (not_frozen_of_access haccess) hv
          · exact fun t hst hwire => ⟨hwire, hy.extend hst, hx.extend hst⟩
          · exact .inl ⟨_, _, rfl, rfl⟩

/-- A gate with a constant factor is emitted over the difference that it asks to vanish. -/
theorem safe_gate (hs : s.Regular) (hx : x.Within s) (hy : y.Within s) (hz : z.Within s)
    (message : String) (isFlag : Bool) :
    Safe (fun _ _ => True) (gate x y z message isFlag) s := by
  rw [Safe, run_gate]
  split
  · exact .error (R1CS.Grows.refl s) hs
  · rename_i u haccess
    have hf := not_frozen_of_access haccess
    split
    · rename_i p hp
      have hd := Linear.within_difference hs.wellFormed.wireCount_pos hz
        (Linear.within_product? hx hy hp)
      rw [run_zeroGate]
      split
      · split
        · exact .ok (R1CS.Grows.refl s) hs trivial
        · exact .error (R1CS.Grows.refl s) hs
      · rename_i d hdiff
        refine .ok (R1CS.grows_addGate hf _) (hs.addGate hf ⟨trivial, trivial, hd⟩ ?_) trivial
        exact .inr ⟨rfl, rfl, d, hdiff, Linear.exists_term_of_ofTerms hdiff⟩
    · rename_i hp
      refine .ok (R1CS.grows_addGate hf _) (hs.addGate hf ⟨hx, hy, hz⟩ ?_) trivial
      cases x <;> cases y <;> simp [Linear.product?] at hp
      exact .inl ⟨_, _, rfl, rfl⟩

theorem safe_selectScalar (hs : s.Regular) (hb : b.Within s) (hx : x.Within s) (hy : y.Within s) :
    Safe Own (selectScalar b x y) s := by
  apply safe_bind (safe_sub hs hx hy)
  intro d t hst ht hd
  apply safe_bind (safe_mul ht (hb.extend hst.extends_) hd _)
  intro p u htu hu hp
  apply safe_sum hu
  simpa using ⟨trivial, hp, hy.extend (hst.trans htu).extends_⟩

theorem safe_connect (hs : s.Regular) (hx : x.Within s) (hy : y.Within s) (message : String) :
    Safe (fun _ _ => True) (connect x y message) s :=
  safe_bind (safe_sub hs hx hy) fun _ _ _ ht hd =>
    safe_gate ht (x := .constant 0) (y := .constant 0) trivial trivial hd message false

end Build

end RankOne
