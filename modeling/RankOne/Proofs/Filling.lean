import RankOne.Proofs.Emission

/-!
# Values that satisfy the gates they come with

A system with values goes on to satisfy what it satisfies: later wires change nothing about the
values of earlier expressions. So the gates that an operation adds have to be looked at once, with
the values that the operation itself puts on its wires.
-/

set_option autoImplicit false

namespace RankOne

namespace R1CS
variable {s t u : R1CS}

theorem slot?_natCast {m : ℕ} (hm : m < s.values.length) : s.slot? (m : Int) = s.values[m]? := by
  simp [slot?, placeAmong, hm]

theorem valuation_of_getElem? {m : ℕ} {w : Int} (h : s.values[m]? = some (some w)) :
    s.valuation m = w := by
  have hm : m < s.values.length := (List.getElem?_eq_some_iff.mp h).1
  rw [valuation, slot?_natCast hm, h]

theorem getElem?_push (hs : s.WellFormed) (v : Option Int) (name : Option String) :
    (s.push v name).values[s.wireCount]? = some v := by
  rw [← hs.length_values, push]
  simp

theorem Extends.valuation_eq (h : s.Extends t) (hs : s.WellFormed) {wire : Int} (hlow : 0 ≤ wire)
    (hhigh : wire < s.wireCount) : t.valuation wire = s.valuation wire := by
  obtain ⟨m, rfl⟩ := Int.eq_ofNat_of_zero_le hlow
  have hm : m < s.values.length := by
    rw [hs.length_values]
    exact_mod_cast hhigh
  obtain ⟨rest, hrest⟩ := h.values
  rw [valuation, valuation, slot?_natCast (hm.trans_le h.values.length_le), slot?_natCast hm,
    ← hrest, List.getElem?_append_left hm]

theorem Extends.getElem?_values (h : s.Extends t) {m : ℕ} {v : Option Int}
    (hv : s.values[m]? = some v) : t.values[m]? = some v := by
  obtain ⟨rest, hrest⟩ := h.values
  rw [← hrest, List.getElem?_append_left (List.getElem?_eq_some_iff.mp hv).1, hv]

theorem valuation_zero (hs : s.WellFormed) (hw : s.witnessed = true) : s.valuation 0 = 1 := by
  have hhead := hs.head_values
  rw [hw, if_pos rfl, List.head?_eq_getElem?] at hhead
  exact (valuation_of_getElem? hhead).trans Int.cast_one

end R1CS

theorem Linear.value_wireAt (s : R1CS) (m : ℕ) (v : Int → Scalar) :
    (s.wireAt m).value v = v m := by
  simp [R1CS.wireAt, Linear.value, termsValue]

theorem Linear.Within.value_extend {s t : R1CS} {x : Linear} (hx : x.Within s) (hs : s.WellFormed)
    (h : s.Extends t) : x.value t.valuation = x.value s.valuation := by
  cases x with
  | constant k => rfl
  | combination x =>
    have hterms := hx.2
    simp only [value]
    generalize x.terms = terms at hterms
    induction terms with
    | nil => rfl
    | cons term rest ih =>
      rw [List.forall_mem_cons] at hterms
      rw [termsValue, termsValue, ih hterms.2, h.valuation_eq hs hterms.1.1 hterms.1.2]

theorem Gate.Within.holds_extend {s t : R1CS} {g : Gate} (hg : g.Within s) (hs : s.WellFormed)
    (h : s.Extends t) (hholds : g.Holds s.valuation) : g.Holds t.valuation := by
  rwa [Gate.Holds, hg.1.value_extend hs h, hg.2.1.value_extend hs h, hg.2.2.value_extend hs h]

namespace R1CS
variable {s t u : R1CS} {E : (Int → Scalar) → Prop}

structure Fulfils (s t : R1CS) : Prop where
  grows : s.Grows t
  gates : ∃ new, t.gates = s.gates ++ new ∧ ∀ g ∈ new, g.Within t ∧ g.Holds t.valuation

theorem Fulfils.trans (h : s.Fulfils t) (ht : t.WellFormed) (h' : t.Fulfils u) : s.Fulfils u := by
  obtain ⟨new, hnew, hall⟩ := h.gates
  obtain ⟨new', hnew', hall'⟩ := h'.gates
  refine ⟨h.grows.trans h'.grows, new ++ new', by rw [hnew', hnew, List.append_assoc], ?_⟩
  intro g hg
  rcases List.mem_append.mp hg with hg | hg
  · have hextends := h'.grows.extends_
    exact ⟨(hall g hg).1.extend hextends, (hall g hg).1.holds_extend ht hextends (hall g hg).2⟩
  · exact hall' g hg

theorem Emits.fulfils (h : s.Emits t E) (hone : t.valuation 0 = 1) (hE : E t.valuation) :
    s.Fulfils t := by
  obtain ⟨new, hnew, hwithin, hiff⟩ := h.gates
  exact ⟨h.grows, new, hnew, fun g hg => ⟨hwithin g hg, (hiff _ hone).mpr hE g hg⟩⟩

/-- The other way round, any values that satisfy the new gates solve what these come to. -/
theorem Emits.of_holds_drop (h : s.Emits t E) {v : Int → Scalar} (hone : v 0 = 1)
    (hholds : ∀ g ∈ t.gates.drop s.gates.length, g.Holds v) : E v := by
  obtain ⟨new, hnew, -, hiff⟩ := h.gates
  rw [hnew, List.drop_left] at hholds
  exact (hiff v hone).mp hholds

theorem Emits.of_holds (h : s.Emits t E) (htu : t.Extends u) {v : Int → Scalar} (hone : v 0 = 1)
    (hholds : ∀ g ∈ u.gates, g.Holds v) : E v :=
  h.of_holds_drop hone fun g hg => hholds g (htu.gates.subset (List.mem_of_mem_drop hg))

theorem Fulfils.checkGates_drop (h : s.Fulfils t) (ht : t.WellFormed) (hw : t.witnessed = true) :
    t.checkGates (t.gates.drop s.gates.length) = .ok none := by
  obtain ⟨new, hnew, hall⟩ := h.gates
  rw [hnew, List.drop_left, checkGates_eq_none_iff]
  · exact fun g hg => (hall g hg).2
  · intro g hg
    obtain ⟨hl, hr, ho⟩ := (hall g hg).1
    exact ⟨hl.reads ht hw, hr.reads ht hw, ho.reads ht hw⟩

theorem Fulfils.check_eq (h : s.Fulfils t) (hempty : s.gates = []) (ht : t.WellFormed)
    (hw : t.witnessed = true) : t.check = .ok none := by
  have hdrop := h.checkGates_drop ht hw
  rwa [hempty] at hdrop

theorem fulfils_freeze (hs : s.WellFormed) (hw : s.witnessed = true) : s.Fulfils s.freeze := by
  have hgrows := grows_freeze s
  exact ((Build.means_freeze hs).of_run (Build.run_freeze s)).1.fulfils
    (valuation_zero (hgrows.wellFormed hs) (hgrows.extends_.witnessed.trans hw)) trivial

end R1CS

namespace Build
variable {s t : R1CS} {x y z : Linear}

/-- A product has the value of a product, whether it is folded or gets a wire. -/
theorem value_of_run_mul (hs : s.WellFormed) (hw : s.witnessed = true) (hx : x.Within s)
    (hy : y.Within s) {message : String} (h : (mul x y message).run s = (.ok z, t)) :
    z.value t.valuation = x.value s.valuation * y.value s.valuation := by
  rw [run_mul] at h
  split at h
  · cases (Prod.mk.inj h).1
  · rename_i u haccess
    split at h
    · rename_i p hp
      obtain ⟨hpz, rfl⟩ := Prod.mk.inj h
      obtain rfl := Except.ok.inj hpz
      exact Linear.value_product? hp
    · split at h
      · cases (Prod.mk.inj h).1
      · rename_i v hv
        obtain ⟨hpz, rfl⟩ := Prod.mk.inj h
        obtain rfl := Except.ok.inj hpz
        obtain ⟨a, ha, haval, -⟩ := R1CS.read_eq_ok (hx.reads hs hw)
        obtain ⟨c, hc, hcval, -⟩ := R1CS.read_eq_ok (hy.reads hs hw)
        simp only [R1CS.wireValue, hw, if_true, productValue, ha, hc, Except.ok.injEq] at hv
        subst hv
        have hwire := R1CS.valuation_of_getElem? (s := s.pushGate (some (reduce (a * c)))
          ⟨x, y, s.wireAt s.wireCount, message, false⟩) (R1CS.getElem?_push hs _ none)
        rw [Linear.value_wireAt, hwire, cast_reduce, Int.cast_mul, haval, hcval]

end Build

end RankOne
