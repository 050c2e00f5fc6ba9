import RankOne.Proofs.Ownership

/-!
# What the gates of an operation say

An operation that succeeds adds gates, and the gates that it adds hold under an assignment exactly
when the equation of the operation does, whoever chose the assignment. Where constants are folded no
gate is added, and the equation is a fact of the field. Equations of operations in a row are taken
together.
-/

set_option autoImplicit false

namespace RankOne

structure R1CS.Emits (s t : R1CS) (E : (Int → Scalar) → Prop) : Prop where
  grows : s.Grows t
  gates : ∃ new, t.gates = s.gates ++ new ∧ (∀ g ∈ new, g.Within t) ∧
    ∀ v : Int → Scalar, v 0 = 1 → ((∀ g ∈ new, g.Holds v) ↔ E v)

namespace R1CS
variable {s t u : R1CS} {E E' : (Int → Scalar) → Prop}

theorem Emits.trans (h : s.Emits t E) (h' : t.Emits u E') : s.Emits u fun v => E v ∧ E' v := by
  obtain ⟨new, hnew, hwithin, hiff⟩ := h.gates
  obtain ⟨new', hnew', hwithin', hiff'⟩ := h'.gates
  refine ⟨h.grows.trans h'.grows, new ++ new', ?_, ?_, ?_⟩
  · rw [hnew', hnew, List.append_assoc]
  · intro g hg
    rcases List.mem_append.mp hg with hg | hg
    · exact (hwithin g hg).extend h'.grows.extends_
    · exact hwithin' g hg
  · intro v hone
    rw [List.forall_mem_append, hiff v hone, hiff' v hone]

theorem Emits.congr (h : s.Emits t E) (hE : ∀ v, v 0 = 1 → (E v ↔ E' v)) : s.Emits t E' := by
  obtain ⟨new, hnew, hwithin, hiff⟩ := h.gates
  exact ⟨h.grows, new, hnew, hwithin, fun v hone => (hiff v hone).trans (hE v hone)⟩

theorem emits_of_gates_eq (h : s.Grows t) (hgates : t.gates = s.gates)
    (hE : ∀ v, v 0 = 1 → E v) : s.Emits t E := by
  refine ⟨h, [], by rw [hgates, List.append_nil], by simp, fun v hone => ?_⟩
  simp [hE v hone]

theorem emits_refl (s : R1CS) (hE : ∀ v, v 0 = 1 → E v) : s.Emits s E :=
  emits_of_gates_eq (Grows.refl s) rfl hE

theorem emits_gate (h : s.Grows t) (g : Gate) (hgates : t.gates = s.gates ++ [g])
    (hwithin : g.Within t) (hE : ∀ v, v 0 = 1 → (g.Holds v ↔ E v)) : s.Emits t E := by
  refine ⟨h, [g], hgates, by simpa using hwithin, fun v hone => ?_⟩
  rw [List.forall_mem_singleton, hE v hone]

end R1CS

namespace Build
variable {α β : Type} {s t : R1CS}

inductive Meant (W : R1CS → α → Prop) (E : α → (Int → Scalar) → Prop) (s : R1CS) :
    Except Fault α × R1CS → Prop
  | ok {a t} : s.Emits t (E a) → W t a → Meant W E s (.ok a, t)
  | error {e t} : Meant W E s (.error e, t)

def Means (W : R1CS → α → Prop) (E : α → (Int → Scalar) → Prop) (x : Build α) (s : R1CS) : Prop :=
  Meant W E s (x.run s)

variable {W : R1CS → α → Prop} {W' : R1CS → β → Prop} {E : α → (Int → Scalar) → Prop}
  {E' : β → (Int → Scalar) → Prop}

theorem Means.of_run {x : Build α} (hx : Means W E x s) {a : α} (h : x.run s = (.ok a, t)) :
    s.Emits t (E a) ∧ W t a := by
  rw [Means, h] at hx
  cases hx with
  | ok hemits hW => exact ⟨hemits, hW⟩

theorem means_pure {a : α} (hW : W s a) (hE : ∀ v, v 0 = 1 → E a v) : Means W E (pure a) s :=
  .ok (R1CS.emits_refl s hE) hW

theorem means_throw (e : Fault) : Means W E (throw e : Build α) s := .error

theorem means_fail (e : Fault) : Means W E (fail e : Build α) s := .error

/-- Two computations in a row. What is known of both answers gives what is known of the last one,
and the two equations become one. -/
theorem means_bind (W₁ : α → R1CS → β → Prop) (E₁ : α → β → (Int → Scalar) → Prop) {x : Build α}
    {f : α → Build β} (hx : Means W E x s)
    (hf : ∀ a t, s.Grows t → W t a → Means (W₁ a) (E₁ a) (f a) t)
    (h : ∀ {a b t u}, W t a → W₁ a u b →
      W' u b ∧ ∀ v, v 0 = 1 → (E a v ∧ E₁ a b v ↔ E' b v)) :
    Means W' E' (x >>= f) s := by
  rw [Means, run_bind]
  rw [Means] at hx
  generalize x.run s = p at hx ⊢
  cases hx with
  | error => exact .error
  | @ok a t hemits hW =>
    have hrest := hf a t hemits.grows hW
    rw [Means] at hrest
    change Meant W' E' s ((f a).run t)
    generalize (f a).run t = q at hrest ⊢
    cases hrest with
    | error => exact .error
    | ok hemits' hW₁ =>
      obtain ⟨hW', hE⟩ := h hW hW₁
      exact .ok ((hemits.trans hemits').congr hE) hW'

theorem means_after {x : Build α} {f : α → Build β} (hx : Means W (fun _ _ => True) x s)
    (hf : ∀ a t, s.Grows t → W t a → Means W' E' (f a) t) : Means W' E' (x >>= f) s :=
  means_bind (fun _ => W') (fun _ => E') hx hf fun _ hW' => ⟨hW', fun _ _ => and_iff_right trivial⟩

theorem Means.congr {W' : R1CS → α → Prop} {E' : α → (Int → Scalar) → Prop} {x : Build α}
    (hx : Means W E x s)
    (h : ∀ {a t}, W t a → W' t a ∧ ∀ v, v 0 = 1 → (E a v ↔ E' a v)) : Means W' E' x s := by
  rw [Means] at hx ⊢
  generalize x.run s = p at hx ⊢
  cases hx with
  | error => exact .error
  | ok hemits hW => exact .ok (hemits.congr (h hW).2) (h hW).1

theorem means_map {x : Build α} (f : α → β) (hx : Means W E x s)
    (h : ∀ {a t}, W t a → W' t (f a) ∧ ∀ v, v 0 = 1 → (E a v ↔ E' (f a) v)) :
    Means W' E' (f <$> x) s := by
  rw [Means, run_map]
  rw [Means] at hx
  generalize x.run s = p at hx ⊢
  cases hx with
  | error => exact .error
  | ok hemits hW =>
    obtain ⟨hW', hE⟩ := h hW
    exact .ok (hemits.congr hE) hW'

end Build

namespace Build
variable {s : R1CS} {b x y z : Linear}

def Worth (f : (Int → Scalar) → Scalar) (t : R1CS) (z : Linear) : Prop :=
  z.Within t ∧ ∀ v, v 0 = 1 → z.value v = f v

theorem means_own (xs : List Linear) : Means (fun _ _ => True) (fun _ _ => True) (own xs) s := by
  rw [Means, run_own]
  cases s.access xs with
  | error e => exact .error
  | ok u => exact .ok (R1CS.emits_refl s fun _ _ => trivial) trivial

/-- The value that a new wire gets is no part of what the system demands of it. -/
theorem means_wire (value : Reader → Except Fault Int) (name : Option String) :
    Means (fun t z => z.Within t) (fun _ _ => True) (wire value name) s := by
  rw [Means, run_wire]
  by_cases hf : s.frozen = true
  · rw [if_pos hf]
    exact .error
  · rw [if_neg hf]
    cases hv : s.wireValue value with
    | error e => exact .error
    | ok v =>
      have hgrows := R1CS.grows_push hv (by simpa using hf) name
      exact .ok (R1CS.emits_of_gates_eq hgrows rfl fun _ _ => trivial)
        (Linear.within_wireAt (s := s.push v name) (Nat.lt_succ_self _))

theorem means_sum (hs : s.WellFormed) {xs : List Linear} (hx : x.Within s)
    (hxs : ∀ y ∈ xs, y.Within s) :
    Means (Worth fun v => ((x :: xs).map (Linear.value v)).sum) (fun _ _ => True) (sum xs x) s := by
  rw [Means, run_sum]
  cases s.access (x :: xs) with
  | error e => exact .error
  | ok u =>
    refine .ok (R1CS.emits_refl s fun _ _ => trivial)
      ⟨Linear.within_sum hs.wireCount_pos ?_, fun v hone => Linear.value_sum hone s.tag _⟩
    simpa using ⟨hx, hxs⟩

theorem means_add (hs : s.WellFormed) (hx : x.Within s) (hy : y.Within s) :
    Means (Worth fun v => x.value v + y.value v) (fun _ _ => True) (add x y) s := by
  have hboth : ∀ z ∈ [x, y], z.Within s := by simpa using ⟨hx, hy⟩
  have hsum := means_sum hs (x := .constant 0) trivial hboth
  have hvalue : (fun v => (([.constant 0, x, y] : List Linear).map (Linear.value v)).sum) =
      fun v => x.value v + y.value v := by
    funext v
    simp [Linear.value]
  rwa [hvalue] at hsum

theorem means_sub (hs : s.WellFormed) (hx : x.Within s) (hy : y.Within s) :
    Means (Worth fun v => x.value v - y.value v) (fun _ _ => True) (sub x y) s := by
  rw [Means, run_sub]
  cases s.access [x, y] with
  | error e => exact .error
  | ok u =>
    exact .ok (R1CS.emits_refl s fun _ _ => trivial)
      ⟨Linear.within_difference hs.wireCount_pos hx hy,
        fun v hone => Linear.value_difference hone s.tag x y⟩

/-- A wire together with a gate comes to the equation of the gate. -/
theorem meant_pushGate (hf : s.frozen = false) {value : Reader → Except Fault Int}
    {v : Option Int} (hv : s.wireValue value = .ok v) (g : Linear → Gate)
    (hg : ∀ t, s.Extends t → (s.wireAt s.wireCount).Within t →
      (g (s.wireAt s.wireCount)).Within t)
    {E : Linear → (Int → Scalar) → Prop} (hE : ∀ z v, (g z).Holds v ↔ E z v) :
    Meant (fun t z => z.Within t) E s
      (.ok (s.wireAt s.wireCount), s.pushGate v (g (s.wireAt s.wireCount))) := by
  have hgrows := R1CS.grows_pushGate hv hf (g (s.wireAt s.wireCount))
  have hwire := Linear.within_wireAt (s := s.pushGate v (g (s.wireAt s.wireCount)))
    (Nat.lt_succ_self _)
  exact .ok (R1CS.emits_gate hgrows _ rfl (hg _ hgrows.extends_ hwire) fun v _ => hE _ v) hwire

theorem means_mul (hx : x.Within s) (hy : y.Within s) (message : String) :
    Means (fun t z => z.Within t) (fun z v => z.value v = x.value v * y.value v)
      (mul x y message) s := by
  rw [Means, run_mul]
  cases haccess : s.access [x, y] with
  | error e => exact .error
  | ok u =>
    cases hp : Linear.product? s.tag x y with
    | some p =>
      exact .ok (R1CS.emits_refl s fun v _ => Linear.value_product? hp)
        (Linear.within_product? hx hy hp)
    | none =>
      cases hv : s.wireValue (productValue x y) with
      | error e => exact .error
      | ok v =>
        exact meant_pushGate (not_frozen_of_access haccess) hv (fun z => ⟨x, y, z, message, false⟩)
          (fun t hst hwire => ⟨hx.extend hst, hy.extend hst, hwire⟩) fun z v => eq_comm

theorem value_of_isZero {v : Int → Scalar} (h : div.isZero x = true) : x.value v = 0 := by
  cases x with
  | constant k =>
    have hzero : reduce k = 0 := by simpa [div.isZero] using h
    exact reduce_eq_zero_iff.mp hzero
  | combination x => simp [div.isZero] at h

/-- A division is a product the other way round, also where a constant divisor is inverted. -/
theorem means_div (hx : x.Within s) (hy : y.Within s) (message : String) (isFlag : Bool) :
    Means (fun t z => z.Within t) (fun z v => z.value v * y.value v = x.value v)
      (div x y message isFlag) s := by
  rw [Means, run_div]
  cases haccess : s.access [x, y] with
  | error e => exact .error
  | ok u =>
    cases y with
    | constant k =>
      by_cases hk : reduce k = 0
      · simp only [hk, if_true]
        exact .error
      · simp only [hk, if_false]
        have hk₀ : (k : Scalar) ≠ 0 := fun hzero => hk (reduce_eq_zero_iff.mpr hzero)
        refine .ok (R1CS.emits_refl s fun v _ => ?_) (Linear.within_times hx _)
        change (Linear.times s.tag (inverse k) x).value v * (k : Scalar) = x.value v
        rw [Linear.value_times, cast_inverse hk₀]
        field_simp
    | combination y =>
      by_cases hzero : div.isZero x = true
      · simp only [hzero, if_true]
        refine .ok (R1CS.emits_refl s fun v _ => ?_) trivial
        change ((0 : Int) : Scalar) * _ = x.value v
        rw [value_of_isZero hzero, Int.cast_zero, zero_mul]
      · simp only [hzero]
        cases hv : s.wireValue (quotientValue x (.combination y)) with
        | error e => exact .error
        | ok v =>
          exact meant_pushGate (not_frozen_of_access haccess) hv
            (fun z => ⟨z, .combination y, x, message, isFlag⟩)
            (fun t hst hwire => ⟨hwire, hy.extend hst, hx.extend hst⟩) fun z v => Iff.rfl

theorem means_zeroGate (hz : z.Within s) (hf : s.frozen = false) (message : String) :
    Means (fun _ _ => True) (fun _ v => z.value v = 0) (zeroGate z message) s := by
  rw [Means, run_zeroGate]
  cases z with
  | constant k =>
    by_cases hk : k = 0
    · simp only [hk, if_true]
      exact .ok (R1CS.emits_refl s fun v _ => Int.cast_zero) trivial
    · simp only [hk, if_false]
      exact .error
  | combination z =>
    refine .ok (R1CS.emits_gate (R1CS.grows_addGate hf _) _ rfl ⟨trivial, trivial, hz⟩ ?_) trivial
    intro v _
    have hzero : (Linear.constant 0).value v = 0 := Int.cast_zero
    rw [Gate.Holds, hzero, zero_mul]
    exact eq_comm

/-- A constraint comes to its equation, also where a constant factor turns it into another one. -/
theorem means_gate (hs : s.WellFormed) (hx : x.Within s) (hy : y.Within s) (hz : z.Within s)
    (message : String) (isFlag : Bool) :
    Means (fun _ _ => True) (fun _ v => x.value v * y.value v = z.value v)
      (gate x y z message isFlag) s := by
  rw [Means, run_gate]
  cases haccess : s.access [x, y, z] with
  | error e => exact .error
  | ok u =>
    have hf := not_frozen_of_access haccess
    cases hp : Linear.product? s.tag x y with
    | some p =>
      have hdiff := Linear.within_difference hs.wireCount_pos hz (Linear.within_product? hx hy hp)
      have hzero := means_zeroGate hdiff hf message
      rw [Means] at hzero
      change Meant _ _ s ((zeroGate (Linear.difference s.tag z p) message).run s)
      generalize (zeroGate (Linear.difference s.tag z p) message).run s = q at hzero ⊢
      cases hzero with
      | error => exact .error
      | ok hemits _ =>
        refine .ok (hemits.congr fun v hone => ?_) trivial
        rw [Linear.value_difference hone, Linear.value_product? hp, sub_eq_zero]
        exact eq_comm
    | none =>
      exact .ok (R1CS.emits_gate (R1CS.grows_addGate hf _) _ rfl ⟨hx, hy, hz⟩ fun v _ => Iff.rfl)
        trivial

theorem means_selectScalar (hs : s.WellFormed) (hb : b.Within s) (hx : x.Within s)
    (hy : y.Within s) :
    Means (fun t z => z.Within t)
      (fun z v => z.value v = b.value v * (x.value v - y.value v) + y.value v)
      (selectScalar b x y) s := by
  apply means_bind (fun _ t z => z.Within t)
    (fun d z v => z.value v = b.value v * d.value v + y.value v) (means_sub hs hx hy)
  · intro d t hst hd
    apply means_bind (fun p => Worth fun v => p.value v + y.value v) (fun _ _ _ => True)
      (means_mul (hb.extend hst.extends_) hd.1 _)
    · intro p u htu hp
      exact means_add ((hst.trans htu).wellFormed hs) hp (hy.extend (hst.trans htu).extends_)
    · intro p r t' u hp hr
      refine ⟨hr.1, fun v hone => ?_⟩
      rw [hr.2 v hone, add_left_inj]
      exact and_iff_left trivial
  · intro d r t u hd hr
    refine ⟨hr, fun v hone => ?_⟩
    rw [hd.2 v hone]
    exact and_iff_right trivial

theorem means_assertZero (hs : s.WellFormed) (hx : x.Within s) (message : String) :
    Means (fun _ _ => True) (fun _ v => x.value v = 0) (assertZero x message) s := by
  have hzero : ∀ v, (Linear.constant 0).value v * (Linear.constant 0).value v = x.value v ↔
      x.value v = 0 := by
    intro v
    rw [show (Linear.constant 0).value v = 0 from Int.cast_zero, mul_zero]
    exact eq_comm
  have hgate := means_gate hs (x := .constant 0) (y := .constant 0) trivial trivial hx message false
  simp only [hzero] at hgate
  exact hgate

theorem means_assertBit (hs : s.WellFormed) (hx : x.Within s) (message : String) :
    Means (fun _ _ => True) (fun _ v => x.value v = 0 ∨ x.value v = 1) (assertBit x message) s := by
  have hbit : ∀ v, x.value v * x.value v = x.value v ↔ x.value v = 0 ∨ x.value v = 1 :=
    fun v => IsIdempotentElem.iff_eq_zero_or_one
  have hgate := means_gate hs hx hx hx message false
  simp only [hbit] at hgate
  exact hgate

theorem means_connect (hs : s.WellFormed) (hx : x.Within s) (hy : y.Within s)
    (message : String) :
    Means (fun _ _ => True) (fun _ v => x.value v = y.value v) (connect x y message) s := by
  apply means_bind (fun _ _ _ => True) (fun d _ v => d.value v = 0) (means_sub hs hx hy)
  · intro d t hst hd
    exact means_assertZero (hst.wellFormed hs) hd.1 message
  · intro d _ t u hd _
    refine ⟨trivial, fun v hone => ?_⟩
    rw [hd.2 v hone, sub_eq_zero]
    exact and_iff_right trivial

theorem means_freeze (hs : s.WellFormed) :
    Means (fun _ _ => True) (fun _ _ => True) freeze s := by
  rw [Means, run_freeze]
  refine .ok ⟨R1CS.grows_freeze s, ?_⟩ trivial
  by_cases hf : s.frozen = true
  · rw [R1CS.freeze, if_pos hf]
    exact ⟨[], by simp, by simp, by simp⟩
  · refine ⟨s.entries.map s.bindingGate, by rw [R1CS.freeze, if_neg hf], ?_, ?_⟩
    · intro g hg
      obtain ⟨entry, hentry, rfl⟩ := List.mem_map.mp hg
      have hwire := Linear.within_wireAt (hs.entries_lt entry hentry)
      exact ⟨hwire.extend (R1CS.grows_freeze s).extends_, trivial, trivial⟩
    · intro v _
      refine iff_of_true (fun g hg => ?_) trivial
      obtain ⟨entry, -, rfl⟩ := List.mem_map.mp hg
      have hzero : (Linear.constant 0).value v = 0 := Int.cast_zero
      rw [Gate.Holds, R1CS.bindingGate, hzero, mul_zero]

end Build

end RankOne
