import RankOne.Program
import RankOne.Proofs.Valuation

/-!
# What the operations of a builder do

One equation for each operation says what it answers and what system it leaves behind, with all
refusals. From these two facts follow for every operation and so for every program: a system stays
well formed, and it only ever grows. A frozen system does not change at all.
-/

set_option autoImplicit false

namespace RankOne

namespace Build
variable {α β : Type}

theorem run_bind (x : Build α) (f : α → Build β) (s : R1CS) :
    (x >>= f).run s =
      match x.run s with
      | (.ok a, t) => (f a).run t
      | (.error e, t) => (.error e, t) := by
  simp only [bind, ExceptT.bind, ExceptT.bindCont, ExceptT.run, ExceptT.mk, StateT.bind, pure]
  obtain ⟨r, t⟩ := x s
  cases r <;> rfl

theorem run_bind_of_ok {x : Build α} {f : α → Build β} {s t : R1CS} {a : α}
    (h : x.run s = (.ok a, t)) : (x >>= f).run s = (f a).run t := by
  rw [run_bind, h]

theorem of_run_bind {x : Build α} {f : α → Build β} {s t : R1CS} {r : β}
    (h : (x >>= f).run s = (.ok r, t)) :
    ∃ a u, x.run s = (.ok a, u) ∧ (f a).run u = (.ok r, t) := by
  rw [run_bind] at h
  split at h
  · rename_i a u hx
    exact ⟨a, u, hx, h⟩
  · cases (Prod.mk.inj h).1

theorem run_map (g : α → β) (x : Build α) (s : R1CS) :
    (g <$> x).run s =
      match x.run s with
      | (.ok a, t) => (.ok (g a), t)
      | (.error e, t) => (.error e, t) := by
  simp only [Functor.map, ExceptT.map, ExceptT.run, ExceptT.mk, bind, StateT.bind, pure]
  obtain ⟨r, t⟩ := x s
  cases r <;> rfl

theorem run_pure (a : α) (s : R1CS) : (pure a : Build α).run s = (.ok a, s) := rfl

theorem run_get (s : R1CS) : (get : Build R1CS).run s = (.ok s, s) := rfl

theorem run_freeze (s : R1CS) : freeze.run s = (.ok (), s.freeze) := rfl

theorem run_wire (value : Reader → Except Fault Int) (name : Option String) (s : R1CS) :
    (wire value name).run s =
      if s.frozen then (.error .frozen, s)
      else
        match s.wireValue value with
        | .error e => (.error e, s)
        | .ok v => (.ok (s.wireAt s.wireCount), s.push v name) := rfl

end Build

namespace R1CS

def access (s : R1CS) (xs : List Linear) : Except Fault Unit :=
  if s.frozen then .error .frozen
  else if xs.all s.owns then .ok ()
  else .error (.mismatch .foreignVariable)

theorem access_eq_ok_iff {s : R1CS} {xs : List Linear} :
    s.access xs = .ok () ↔ s.frozen = false ∧ ∀ x ∈ xs, s.owns x := by
  rw [access]
  split
  · rename_i hf
    simp [hf]
  · rename_i hf
    split
    · rename_i hall
      simpa [hf] using List.all_eq_true.mp hall
    · rename_i hall
      simpa [hf, List.all_eq_true] using hall

section
variable {s : R1CS} {x y p : Linear}

@[simp]
theorem owns_constant (k : Int) : s.owns (.constant k) = true := rfl

theorem owns_combination {c : Combination} : s.owns (.combination c) = true ↔
    c.owner = some s.tag ∧ ∀ term ∈ c.terms, term.1 < s.wireCount := by
  simp [owns]

theorem owns_wireAt {m : ℕ} (hm : m < s.wireCount) : s.owns (s.wireAt m) = true := by
  simpa [owns, wireAt] using hm

theorem owns_push (hx : s.owns x = true) (value : Option Int) (name : Option String) :
    (s.push value name).owns x = true := by
  cases x with
  | constant k => rfl
  | combination c =>
    obtain ⟨howner, hterms⟩ := owns_combination.mp hx
    refine owns_combination.mpr ⟨howner, fun term hterm => (hterms term hterm).trans ?_⟩
    exact Int.ofNat_lt.mpr (Nat.lt_succ_self s.wireCount)

theorem owns_multiple {c : Combination} (hc : s.owns (.combination c) = true) (k : Int) :
    s.owns (Linear.multiple s.tag c k) = true := by
  simp only [Linear.multiple]
  split
  · rfl
  · simp only [owns, Bool.and_eq_true, List.all_eq_true, List.all_map] at hc ⊢
    exact ⟨by simp, hc.2⟩

theorem owns_times (hx : s.owns x = true) (k : Int) : s.owns (Linear.times s.tag k x) = true := by
  cases x with
  | constant a => rfl
  | combination c => exact owns_multiple hx k

theorem owns_product? (hx : s.owns x = true) (hy : s.owns y = true)
    (h : Linear.product? s.tag x y = some p) : s.owns p = true := by
  cases x with
  | constant a =>
    cases y with
    | constant b => obtain rfl := Option.some.inj h; rfl
    | combination c => obtain rfl := Option.some.inj h; exact owns_multiple hy a
  | combination c =>
    cases y with
    | constant b => obtain rfl := Option.some.inj h; exact owns_multiple hx b
    | combination d => simp [Linear.product?] at h

/-- The wires of the terms that stand for an expression: a constant is one of wire 0. -/
theorem key_lt_of_owns (hpos : 0 < s.wireCount) (hx : s.owns x = true) {k : Int}
    (hk : k ∈ x.terms.map Prod.fst) : k < s.wireCount := by
  cases x with
  | constant a =>
    obtain rfl : k = 0 := by simpa [Linear.terms] using hk
    exact Int.ofNat_lt.mpr hpos
  | combination c =>
    obtain ⟨term, hterm, rfl⟩ := List.mem_map.mp hk
    exact (owns_combination.mp hx).2 term hterm

theorem owns_sum (hpos : 0 < s.wireCount) {xs : List Linear} (h : ∀ x ∈ xs, s.owns x = true) :
    s.owns (Linear.sum s.tag xs) = true := by
  simp only [Linear.sum, Linear.ofTerms]
  split
  · rfl
  · refine owns_combination.mpr ⟨rfl, fun term hterm => ?_⟩
    have hkey := (keys_normalTerms_sublist _).subset (List.mem_map_of_mem hterm)
    obtain ⟨x, hx, hk⟩ := Linear.mem_keys_collect hkey
    exact key_lt_of_owns hpos (h x hx) hk

theorem owns_summands (hx : s.owns x = true) (hy : s.owns y = true) :
    ∀ z ∈ [.constant 0, x, y], s.owns z = true :=
  List.forall_mem_cons.mpr ⟨owns_constant 0, List.forall_mem_cons.mpr
    ⟨hx, List.forall_mem_singleton.mpr hy⟩⟩

theorem owns_difference (hpos : 0 < s.wireCount) (hx : s.owns x = true) (hy : s.owns y = true) :
    s.owns (Linear.difference s.tag x y) = true :=
  owns_sum hpos (owns_summands hx (owns_times hy _))

def OwnsGate (s : R1CS) (g : Gate) : Prop :=
  s.owns g.left = true ∧ s.owns g.right = true ∧ s.owns g.output = true

end

def pushGate (s : R1CS) (value : Option Int) (g : Gate) : R1CS :=
  { s.push value none with gates := s.gates ++ [g] }

end R1CS

namespace Build
variable {s : R1CS}

theorem run_own (xs : List Linear) (s : R1CS) : (own xs).run s = (s.access xs, s) := by
  simp only [own, R1CS.access, ExceptT.run, ExceptT.mk]
  split
  · rfl
  · split <;> rfl

theorem run_own_bind {α : Type} (xs : List Linear) (f : R1CS → Build α) (s : R1CS) :
    (do own xs; let t ← get; f t : Build α).run s =
      match s.access xs with
      | .error e => (.error e, s)
      | .ok _ => (f s).run s := by
  simp only [run_bind, run_own, run_get]
  cases s.access xs <;> rfl

theorem run_sum (xs : List Linear) (start : Linear) (s : R1CS) :
    (sum xs start).run s =
      match s.access (start :: xs) with
      | .error e => (.error e, s)
      | .ok _ => (.ok (Linear.sum s.tag (start :: xs)), s) := by
  rw [sum, run_own_bind]
  rfl

theorem run_sub (x y : Linear) (s : R1CS) :
    (sub x y).run s =
      match s.access [x, y] with
      | .error e => (.error e, s)
      | .ok _ => (.ok (Linear.difference s.tag x y), s) := by
  rw [sub, run_own_bind]
  rfl

theorem not_frozen_of_access {s : R1CS} {xs : List Linear} {u : Unit} (h : s.access xs = .ok u) :
    s.frozen = false :=
  (R1CS.access_eq_ok_iff.mp h).1

theorem run_wire_emit (value : Reader → Except Fault Int) (g : Linear → Gate)
    (h : s.frozen = false) :
    (do let z ← wire value none; emit (g z); return z : Build Linear).run s =
      match s.wireValue value with
      | .error e => (.error e, s)
      | .ok v => (.ok (s.wireAt s.wireCount), s.pushGate v (g (s.wireAt s.wireCount))) := by
  simp only [run_bind, run_wire, h, Bool.false_eq_true, if_false]
  cases s.wireValue value <;> rfl

theorem run_mul (x y : Linear) (message : String) (s : R1CS) :
    (mul x y message).run s =
      match s.access [x, y] with
      | .error e => (.error e, s)
      | .ok _ =>
        match Linear.product? s.tag x y with
        | some p => (.ok p, s)
        | none =>
          match s.wireValue (productValue x y) with
          | .error e => (.error e, s)
          | .ok v => (.ok (s.wireAt s.wireCount),
              s.pushGate v ⟨x, y, s.wireAt s.wireCount, message, false⟩) := by
  rw [mul, run_own_bind]
  cases h : s.access [x, y] with
  | error e => rfl
  | ok u =>
    cases Linear.product? s.tag x y with
    | some p => rfl
    | none =>
      exact run_wire_emit (productValue x y) (fun z => ⟨x, y, z, message, false⟩)
        (not_frozen_of_access h)

theorem run_div (x y : Linear) (message : String) (isFlag : Bool) (s : R1CS) :
    (div x y message isFlag).run s =
      match s.access [x, y] with
      | .error e => (.error e, s)
      | .ok _ =>
        match y with
        | .constant k =>
          if reduce k = 0 then (.error (.unsatisfied message), s)
          else (.ok (Linear.times s.tag (inverse k) x), s)
        | .combination _ =>
          if div.isZero x then (.ok (.constant 0), s)
          else
            match s.wireValue (quotientValue x y) with
            | .error e => (.error e, s)
            | .ok v => (.ok (s.wireAt s.wireCount),
                s.pushGate v ⟨s.wireAt s.wireCount, y, x, message, isFlag⟩) := by
  rw [div, run_own_bind]
  cases h : s.access [x, y] with
  | error e => rfl
  | ok u =>
    cases y with
    | constant k =>
      simp only
      split <;> rfl
    | combination y =>
      simp only
      split
      · rfl
      · exact run_wire_emit (quotientValue x (.combination y))
          (fun z => ⟨z, .combination y, x, message, isFlag⟩) (not_frozen_of_access h)

theorem run_zeroGate (z : Linear) (message : String) (s : R1CS) :
    (zeroGate z message).run s =
      match z with
      | .constant k => if k = 0 then (.ok (), s) else (.error (.unsatisfied message), s)
      | .combination _ =>
        (.ok (), { s with
          gates := s.gates ++ [⟨.constant 0, .constant 0, z, message, false⟩] }) := by
  cases z with
  | constant k =>
    simp only [zeroGate]
    split <;> rfl
  | combination z => rfl

theorem run_gate (x y z : Linear) (message : String) (isFlag : Bool) (s : R1CS) :
    (gate x y z message isFlag).run s =
      match s.access [x, y, z] with
      | .error e => (.error e, s)
      | .ok _ =>
        match Linear.product? s.tag x y with
        | some p => (zeroGate (Linear.difference s.tag z p) message).run s
        | none => (.ok (), { s with gates := s.gates ++ [⟨x, y, z, message, isFlag⟩] }) := by
  rw [gate, run_own_bind]
  cases s.access [x, y, z] with
  | error e => rfl
  | ok u =>
    cases Linear.product? s.tag x y with
    | some p => rfl
    | none => rfl

end Build

namespace Item

def isSequence : Item → Bool
  | .list _ => true
  | .tuple _ => true
  | _ => false

theorem isSequence_eq_false {x : Item} (hlist : ∀ xs, x ≠ .list xs) (htuple : ∀ xs, x ≠ .tuple xs) :
    x.isSequence = false := by
  cases x with
  | list xs => exact absurd rfl (hlist xs)
  | tuple xs => exact absurd rfl (htuple xs)
  | _ => rfl

end Item

namespace Build
variable {b t : Item} {ts fs : List Item}

theorem select_of_bit {bit : Bool} (hb : b.bit? = some bit) (t f : Item) :
    select b t f = pure (if bit then t else f) := by
  cases bit <;> cases t <;> simp [select, hb]

theorem select_of_not_isSequence (hb : b.bit? = none) (ht : t.isSequence = false) (f : Item) :
    select b t f = selectBetween b t f := by
  cases t <;> simp_all [select, Item.isSequence]

theorem selectAll_of_mismatch (hnil : ts = [] → fs ≠ [])
    (hcons : ∀ t ts' f fs', ts = t :: ts' → fs ≠ f :: fs') :
    selectAll b ts fs = throw (.unusable .unequalLengths) := by
  cases ts with
  | nil =>
    cases fs with
    | nil => exact absurd rfl (hnil rfl)
    | cons f fs => simp [selectAll]
  | cons t ts =>
    cases fs with
    | nil => simp [selectAll]
    | cons f fs => exact absurd rfl (hcons t ts f fs rfl)

end Build

end RankOne
