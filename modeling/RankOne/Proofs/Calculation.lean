import RankOne.Proofs.Filling
import RankOne.Proofs.Session

/-!
# What a system with values calculates

In a system with values the arithmetic on expressions is arithmetic on the values that are read, for
operands folded as constants and for those that get a wire and a gate alike. All gates that come up
on the way hold of the values, with one exception: a quotient of something by nothing. Calls on a
closed system are refused, so everything is said of both cases at once.
-/

set_option autoImplicit false

namespace RankOne

theorem cast_eq_zero_iff {n : Int} (h : reduce n = n) : (n : Scalar) = 0 ↔ n = 0 := by
  rw [← reduce_eq_zero_iff, h]

structure R1CS.Valued (s : R1CS) : Prop where
  wellFormed : s.WellFormed
  witnessed : s.witnessed = true

namespace R1CS
variable {s t : R1CS}

theorem Valued.extend (h : s.Valued) (hst : s.Grows t) : t.Valued :=
  ⟨hst.wellFormed h.wellFormed, hst.extends_.witnessed.trans h.witnessed⟩

theorem Valued.valuation_zero (h : s.Valued) : s.valuation 0 = 1 :=
  R1CS.valuation_zero h.wellFormed h.witnessed

theorem fulfils_refl (s : R1CS) : s.Fulfils s :=
  ⟨Grows.refl s, [], (List.append_nil _).symm, by simp⟩

/-- An expression is read as any integer that has its value, reduced. -/
theorem Valued.read_eq (h : s.Valued) {x : Linear} (hx : x.Within s) {n : Int}
    (hvalue : x.value s.valuation = n) : s.read x = .ok (reduce n) := by
  obtain ⟨r, hr, hrval, hrange⟩ := read_eq_ok (hx.reads h.wellFormed h.witnessed)
  rw [hr, eq_of_cast_eq hrange ⟨reduce_nonneg n, reduce_lt n⟩ (by rw [hrval, hvalue, cast_reduce])]

theorem Valued.exists_read (h : s.Valued) {x : Linear} (hx : x.Within s) :
    ∃ n, s.read x = .ok n ∧ x.value s.valuation = n ∧ reduce n = n := by
  obtain ⟨n, hn, hval, hlow, hhigh⟩ := read_eq_ok (hx.reads h.wellFormed h.witnessed)
  exact ⟨n, hn, hval.symm, reduce_eq_self hlow hhigh⟩

theorem Valued.read_extend (h : s.Valued) (hst : s.Grows t) {x : Linear} (hx : x.Within s) :
    t.read x = s.read x := by
  obtain ⟨n, hn, hval, hself⟩ := h.exists_read hx
  have hvalue : x.value t.valuation = n := by
    rw [hx.value_extend h.wellFormed hst.extends_, hval]
  rw [(h.extend hst).read_eq (hx.extend hst.extends_) hvalue, hn, hself]

end R1CS

namespace Build
variable {α β : Type} {s : R1CS} {Q : R1CS → α → Prop} {Q' : R1CS → β → Prop}

inductive Yielded (Q : R1CS → α → Prop) (s : R1CS) : Except Fault α × R1CS → Prop
  | frozen (h : s.frozen = true) : Yielded Q s (.error .frozen, s)
  | ok {a t} : s.Fulfils t → t.frozen = s.frozen → Q t a → Yielded Q s (.ok a, t)

def Yields (Q : R1CS → α → Prop) (x : Build α) (s : R1CS) : Prop :=
  Yielded Q s (x.run s)

theorem Yields.of_run {x : Build α} (h : Yields Q x s) {a : α} {t : R1CS}
    (hrun : x.run s = (.ok a, t)) : s.Fulfils t ∧ Q t a := by
  rw [Yields, hrun] at h
  cases h with
  | ok hst _ hQ => exact ⟨hst, hQ⟩

theorem yields_pure {a : α} (hQ : Q s a) : Yields Q (pure a) s :=
  .ok (R1CS.fulfils_refl s) rfl hQ

theorem yields_bind (hs : s.Valued) {x : Build α} {f : α → Build β} (hx : Yields Q x s)
    (hf : ∀ a t, s.Grows t → t.Valued → Q t a → Yields Q' (f a) t) : Yields Q' (x >>= f) s := by
  rw [Yields, run_bind]
  rw [Yields] at hx
  generalize x.run s = p at hx ⊢
  cases hx with
  | frozen h => exact .frozen h
  | @ok a t hst hfrozen hQ =>
    have ht := hs.extend hst.grows
    have hrest := hf a t hst.grows ht hQ
    rw [Yields] at hrest
    change Yielded Q' s ((f a).run t)
    generalize (f a).run t = q at hrest ⊢
    cases hrest with
    | frozen h =>
      obtain rfl := hst.grows.extends_.of_frozen (hfrozen ▸ h)
      exact .frozen h
    | ok htu hfrozen' hQ' =>
      exact .ok (hst.trans ht.wellFormed htu) (hfrozen'.trans hfrozen) hQ'

theorem yields_map (hs : s.Valued) {x : Build α} (g : α → β) (hx : Yields Q x s)
    (h : ∀ t a, t.Valued → Q t a → Q' t (g a)) : Yields Q' (g <$> x) s := by
  rw [map_eq_pure_bind]
  exact yields_bind hs hx fun a t _ ht hQ => yields_pure (h t a ht hQ)

variable {x y z b : Linear}

def Valuing (c : Scalar) (t : R1CS) (z : Linear) : Prop :=
  z.Within t ∧ z.value t.valuation = c

theorem yields_sum (hs : s.Valued) {xs : List Linear} (h : ∀ y ∈ x :: xs, y.Within s) :
    Yields (Valuing ((x :: xs).map (Linear.value s.valuation)).sum) (sum xs x) s := by
  rw [Yields, run_sum, R1CS.access_of_within h]
  split_ifs with hf
  · exact .frozen hf
  · exact .ok (R1CS.fulfils_refl s) rfl ⟨Linear.within_sum hs.wellFormed.wireCount_pos h,
      Linear.value_sum hs.valuation_zero s.tag _⟩

theorem yields_add (hs : s.Valued) (hx : x.Within s) (hy : y.Within s) :
    Yields (Valuing (x.value s.valuation + y.value s.valuation)) (add x y) s := by
  have hall : ∀ z ∈ Linear.constant 0 :: [x, y], z.Within s := by simpa using ⟨trivial, hx, hy⟩
  have hsum := yields_sum hs hall
  have hzero : (Linear.constant 0).value s.valuation = 0 := Int.cast_zero
  rwa [List.map_cons, List.map_cons, List.map_cons, List.map_nil, List.sum_cons, List.sum_cons,
    List.sum_cons, List.sum_nil, hzero, zero_add, add_zero] at hsum

theorem yields_sub (hs : s.Valued) (hx : x.Within s) (hy : y.Within s) :
    Yields (Valuing (x.value s.valuation - y.value s.valuation)) (sub x y) s := by
  rw [Yields, run_sub, R1CS.access_of_within (by simpa using ⟨hx, hy⟩)]
  split_ifs with hf
  · exact .frozen hf
  · exact .ok (R1CS.fulfils_refl s) rfl
      ⟨Linear.within_difference hs.wellFormed.wireCount_pos hx hy,
        Linear.value_difference hs.valuation_zero s.tag x y⟩

theorem exists_run_mul (hs : s.Valued) (hx : x.Within s) (hy : y.Within s) (hf : ¬s.frozen = true)
    (message : String) :
    ∃ z t, (mul x y message).run s = (.ok z, t) ∧ t.frozen = s.frozen := by
  rw [run_mul, R1CS.access_of_within (by simpa using ⟨hx, hy⟩), if_neg hf]
  cases hp : Linear.product? s.tag x y with
  | some p => exact ⟨p, s, rfl, rfl⟩
  | none =>
    obtain ⟨v, hv⟩ := R1CS.productValue_isOk hs.wellFormed hx hy
    simp only [hv]
    exact ⟨_, _, rfl, rfl⟩

theorem yields_mul (hs : s.Valued) (hx : x.Within s) (hy : y.Within s) (message : String) :
    Yields (Valuing (x.value s.valuation * y.value s.valuation)) (mul x y message) s := by
  by_cases hf : s.frozen = true
  · rw [Yields, run_mul, R1CS.access_of_within (by simpa using ⟨hx, hy⟩), if_pos hf]
    exact .frozen hf
  · obtain ⟨z, t, hrun, hfrozen⟩ := exists_run_mul hs hx hy hf message
    obtain ⟨hemits, hz⟩ := (means_mul hx hy message).of_run hrun
    have hextends := hemits.grows.extends_
    have hvalue := value_of_run_mul hs.wellFormed hs.witnessed hx hy hrun
    have hgate : z.value t.valuation = x.value t.valuation * y.value t.valuation := by
      rw [hvalue, hx.value_extend hs.wellFormed hextends, hy.value_extend hs.wellFormed hextends]
    rw [Yields, hrun]
    exact .ok (hemits.fulfils (hs.extend hemits.grows).valuation_zero hgate) hfrozen ⟨hz, hvalue⟩

theorem yields_selectScalar (hs : s.Valued) (hb : b.Within s) (hx : x.Within s)
    (hy : y.Within s) :
    Yields (Valuing (b.value s.valuation * (x.value s.valuation - y.value s.valuation) +
      y.value s.valuation)) (selectScalar b x y) s := by
  apply yields_bind hs (yields_sub hs hx hy)
  rintro d t hst ht ⟨hd, hdval⟩
  apply yields_bind ht (yields_mul ht (hb.extend hst.extends_) hd _)
  rintro p u htu hu ⟨hp, hpval⟩
  have hyu := hy.extend (hst.trans htu).extends_
  have hadd := yields_add hu hp hyu
  rwa [hpval, hdval, hb.value_extend hs.wellFormed hst.extends_,
    hy.value_extend hs.wellFormed (hst.trans htu).extends_] at hadd

theorem exists_quotientValue (hs : s.Valued) (hx : x.Within s) (hy : y.Within s) :
    ∃ q, quotientValue x y s.read = .ok q ∧
      (q : Scalar) = x.value s.valuation / y.value s.valuation := by
  obtain ⟨a, ha, haval, -⟩ := hs.exists_read hx
  obtain ⟨c, hc, hcval, hcself⟩ := hs.exists_read hy
  rw [quotientValue, hc, ha, haval, hcval]
  by_cases hc₀ : c = 0
  · exact ⟨0, if_pos hc₀, by rw [hc₀, Int.cast_zero, div_zero]⟩
  · have hc₁ : (c : Scalar) ≠ 0 := by rwa [Ne, ← reduce_eq_zero_iff, hcself]
    exact ⟨a * inverse c, if_neg hc₀, by rw [Int.cast_mul, cast_inverse hc₁, div_eq_mul_inv]⟩

theorem run_div_zero (hx : x.Within s) {k : Int} (hk : reduce k = 0) (message : String)
    (isFlag : Bool) :
    (div x (.constant k) message isFlag).run s =
      (.error (if s.frozen then .frozen else .unsatisfied message), s) := by
  rw [run_div, R1CS.access_of_within (by simpa using ⟨hx, trivial⟩)]
  by_cases hf : s.frozen = true
  · rw [if_pos hf, if_pos hf]
  · rw [if_neg hf, if_neg hf]
    exact if_pos hk

/-- A quotient is what the field says, in which anything divided by zero is zero. -/
theorem exists_run_div (hs : s.Valued) (hx : x.Within s) (hy : y.Within s)
    (hf : ¬s.frozen = true) (hconstant : ∀ k, y = .constant k → reduce k ≠ 0) (message : String)
    (isFlag : Bool) :
    ∃ z t, (div x y message isFlag).run s = (.ok z, t) ∧
      z.value t.valuation = x.value s.valuation / y.value s.valuation ∧
      ∀ g ∈ t.gates.drop s.gates.length, g.message = message := by
  rw [run_div, R1CS.access_of_within (by simpa using ⟨hx, hy⟩), if_neg hf]
  have hnone : ∀ g ∈ s.gates.drop s.gates.length, g.message = message := by simp
  cases y with
  | constant k =>
    have hk := hconstant k rfl
    have hk₀ : (k : Scalar) ≠ 0 := fun hzero => hk (reduce_eq_zero_iff.mpr hzero)
    refine ⟨Linear.times s.tag (inverse k) x, s, if_neg hk, ?_, hnone⟩
    rw [Linear.value_times, cast_inverse hk₀, div_eq_mul_inv, mul_comm]
    rfl
  | combination y =>
    by_cases hzero : div.isZero x = true
    · refine ⟨.constant 0, s, if_pos hzero, ?_, hnone⟩
      rw [value_of_isZero hzero, zero_div]
      exact Int.cast_zero
    · obtain ⟨q, hq, hqval⟩ := exists_quotientValue hs hx hy
      have hvalue : s.wireValue (quotientValue x (.combination y)) = .ok (some (reduce q)) := by
        rw [R1CS.wireValue, if_pos hs.witnessed, hq]
      simp only [hzero, hvalue]
      refine ⟨_, _, rfl, ?_, ?_⟩
      · have hwire := R1CS.valuation_of_getElem? (s := s.pushGate (some (reduce q))
          ⟨s.wireAt s.wireCount, .combination y, x, message, isFlag⟩)
          (R1CS.getElem?_push hs.wellFormed _ none)
        rw [Linear.value_wireAt, hwire, cast_reduce, hqval]
      · simp [R1CS.pushGate]

end Build

namespace R1CS
variable {s t : R1CS}

/-- Of gates with one message, the check reports this one or none. -/
theorem checkGates_of_message {gates : List Gate} {message : String}
    (hreads : ∀ g ∈ gates, s.ReadsGate g) (h : ∀ g ∈ gates, g.message = message) :
    s.checkGates gates = .ok none ∨ s.checkGates gates = .ok (some message) := by
  induction gates with
  | nil => exact .inl rfl
  | cons g rest ih =>
    rw [List.forall_mem_cons] at h hreads
    rw [checkGates_cons rest hreads.1]
    split_ifs
    · exact ih hreads.2 h.2
    · exact .inr (by rw [h.1])

end R1CS

namespace Build
variable {s : R1CS} {x y z : Linear}

/-- The gate of a quotient is the one that may fail, and does where something is divided by
nothing. -/
theorem checkGates_of_run_div (hs : s.Valued) (hx : x.Within s) (hy : y.Within s)
    {message : String} {isFlag : Bool} {t : R1CS}
    (h : (div x y message isFlag).run s = (.ok z, t))
    (hvalue : z.value t.valuation = x.value s.valuation / y.value s.valuation)
    (hmessage : ∀ g ∈ t.gates.drop s.gates.length, g.message = message) :
    t.checkGates (t.gates.drop s.gates.length) =
      .ok (if y.value s.valuation = 0 ∧ x.value s.valuation ≠ 0 then some message else none) := by
  obtain ⟨hemits, -⟩ := (means_div hx hy message isFlag).of_run h
  have hgrows := hemits.grows
  have ht := hs.extend hgrows
  obtain ⟨new, hnew, hwithin, hiff⟩ := hemits.gates
  rw [hnew, List.drop_left] at hmessage ⊢
  have hreads : ∀ g ∈ new, t.ReadsGate g := fun g hg =>
    ⟨(hwithin g hg).1.reads ht.wellFormed ht.witnessed,
      (hwithin g hg).2.1.reads ht.wellFormed ht.witnessed,
      (hwithin g hg).2.2.reads ht.wellFormed ht.witnessed⟩
  have hnone : t.checkGates new = .ok none ↔
      ¬(y.value s.valuation = 0 ∧ x.value s.valuation ≠ 0) := by
    rw [R1CS.checkGates_eq_none_iff hreads, hiff _ ht.valuation_zero, hvalue,
      hx.value_extend hs.wellFormed hgrows.extends_, hy.value_extend hs.wellFormed hgrows.extends_,
      not_and_not_right]
    constructor
    · intro heq hy₀
      rw [← heq, hy₀, mul_zero]
    · intro himp
      by_cases hy₀ : y.value s.valuation = 0
      · rw [hy₀, mul_zero, himp hy₀]
      · exact div_mul_cancel₀ _ hy₀
  split_ifs with hfails
  · exact (R1CS.checkGates_of_message hreads hmessage).resolve_left fun h => hnone.mp h hfails
  · exact hnone.mpr hfails

end Build

namespace Item

mutual

inductive Alike : Item → Item → Prop
  | leaf {t f : Item} {x y : Linear} (ht : t.linear? = some x) (hf : f.linear? = some y) : Alike t f
  | list {ts fs : List Item} (h : AlikeAll ts fs) : Alike (.list ts) (.list fs)
  | tuple {ts fs : List Item} (h : AlikeAll ts fs) : Alike (.tuple ts) (.tuple fs)

inductive AlikeAll : List Item → List Item → Prop
  | nil : AlikeAll [] []
  | cons {t f : Item} {ts fs : List Item} (h : Alike t f) (hs : AlikeAll ts fs) :
      AlikeAll (t :: ts) (f :: fs)

end

mutual

/-- What is selected from two items by a bit of value `n`: an item of their shape, whose expressions
are read in the later system as `n * (i - j) + j` where the two are read in the earlier one as `i`
and `j`. -/
inductive Chosen (s u : R1CS) (n : Int) : Item → Item → Item → Prop
  | leaf {t f r : Item} {x y z : Linear} {i j : Int} (ht : t.linear? = some x)
      (hf : f.linear? = some y) (hr : r.linear? = some z) (hx : s.read x = .ok i)
      (hy : s.read y = .ok j) (hwithin : z.Within u)
      (hz : u.read z = .ok (reduce (n * (i - j) + j))) : Chosen s u n t f r
  | list {ts fs rs : List Item} (h : ChosenAll s u n ts fs rs) :
      Chosen s u n (.list ts) (.list fs) (.list rs)
  | tuple {ts fs rs : List Item} (h : ChosenAll s u n ts fs rs) :
      Chosen s u n (.tuple ts) (.tuple fs) (.tuple rs)

inductive ChosenAll (s u : R1CS) (n : Int) : List Item → List Item → List Item → Prop
  | nil : ChosenAll s u n [] [] []
  | cons {t f r : Item} {ts fs rs : List Item} (h : Chosen s u n t f r)
      (hs : ChosenAll s u n ts fs rs) : ChosenAll s u n (t :: ts) (f :: fs) (r :: rs)

end

variable {s t u : R1CS} {n : Int}

mutual

theorem Chosen.extend {x y r : Item} (h : Chosen s t n x y r) (ht : t.Valued) (htu : t.Grows u) :
    Chosen s u n x y r := by
  cases h with
  | leaf hx hy hr hread hread' hwithin hz =>
    exact .leaf hx hy hr hread hread' (hwithin.extend htu.extends_)
      ((ht.read_extend htu hwithin).trans hz)
  | list h => exact .list (h.extend ht htu)
  | tuple h => exact .tuple (h.extend ht htu)

theorem ChosenAll.extend {xs ys rs : List Item} (h : ChosenAll s t n xs ys rs) (ht : t.Valued)
    (htu : t.Grows u) : ChosenAll s u n xs ys rs := by
  cases h with
  | nil => exact .nil
  | cons h hs => exact .cons (h.extend ht htu) (hs.extend ht htu)

end

mutual

theorem Alike.chosen {x y : Item} (h : Alike x y) (hs : s.Valued) (hx : x.Within s)
    (hy : y.Within s) : Chosen s s 1 x y x ∧ Chosen s s 0 x y y := by
  cases h with
  | leaf ht hf =>
    have hxs := hx.linear? ht
    have hys := hy.linear? hf
    obtain ⟨i, hi, -, hiself⟩ := hs.exists_read hxs
    obtain ⟨j, hj, -, hjself⟩ := hs.exists_read hys
    refine ⟨.leaf ht hf ht hi hj hxs ?_, .leaf ht hf hf hi hj hys ?_⟩
    · rw [one_mul, sub_add_cancel, hi, hiself]
    · rw [zero_mul, zero_add, hj, hjself]
  | list h => exact ⟨.list (h.chosen hs hx hy).1, .list (h.chosen hs hx hy).2⟩
  | tuple h => exact ⟨.tuple (h.chosen hs hx hy).1, .tuple (h.chosen hs hx hy).2⟩

theorem AlikeAll.chosen {xs ys : List Item} (h : AlikeAll xs ys) (hs : s.Valued)
    (hx : WithinAll s xs) (hy : WithinAll s ys) :
    ChosenAll s s 1 xs ys xs ∧ ChosenAll s s 0 xs ys ys := by
  cases h with
  | nil => exact ⟨.nil, .nil⟩
  | cons h htail =>
    have hhead := h.chosen hs hx.1 hy.1
    have hrest := htail.chosen hs hx.2 hy.2
    exact ⟨.cons hhead.1 hrest.1, .cons hhead.2 hrest.2⟩

end

theorem read_of_bit? {b : Item} {v : Bool} {bit : Linear} (hb : b.bit? = some v)
    (hbit : b.linear? = some bit) (s : R1CS) : s.read bit = .ok (if v then 1 else 0) := by
  rw [bit?, hbit, Option.bind_some] at hb
  cases bit with
  | combination x => cases hb
  | constant k =>
    simp only [Linear.bit?] at hb
    split_ifs at hb with h₀ h₁
    · obtain rfl := Option.some.inj hb
      rw [h₀]
      rfl
    · obtain rfl := Option.some.inj hb
      rw [h₁]
      rfl

theorem isSequence_of_linear? {x : Item} {y : Linear} (h : x.linear? = some y) :
    x.isSequence = false := by
  cases x <;> simp_all [linear?, isSequence]

end Item

namespace Build
variable {s : R1CS} {n : Int} {b : Item} {bit : Linear}

open Item (Alike AlikeAll Chosen ChosenAll WithinAll)

theorem yields_expression {x : Item} {y : Linear} (hxy : x.linear? = some y) (hy : y.Within s) :
    Yields (fun _ z => z = y) (expression x) s := by
  rw [expression, hxy, Yields]
  simp only [run_bind, run_own, R1CS.access_of_within (List.forall_mem_singleton.mpr hy)]
  split_ifs with hf
  · exact .frozen hf
  · exact .ok (R1CS.fulfils_refl s) rfl rfl

/-- Where neither branch can be taken apart the selection is arithmetic. -/
theorem yields_selectBetween {t : R1CS} (hs : s.Valued) (hst : s.Grows t)
    (hbit : b.linear? = some bit) (hb : bit.Within s) (hn : s.read bit = .ok n) {x y : Item}
    {a c : Linear} (hx : x.linear? = some a) (hy : y.linear? = some c) (ha : a.Within s)
    (hc : c.Within s) :
    Yields (fun u r => Chosen s u n x y r) (selectBetween b x y) t := by
  have ht := hs.extend hst
  obtain ⟨i, hi, hival, -⟩ := hs.exists_read ha
  obtain ⟨j, hj, hjval, -⟩ := hs.exists_read hc
  have hnval : bit.value s.valuation = n := by
    obtain ⟨m, hm, hval, -⟩ := hs.exists_read hb
    rw [hval, Except.ok.inj (hm.symm.trans hn)]
  apply yields_bind ht (yields_expression hy (hc.extend hst.extends_))
  rintro _ t₁ h₁ ht₁ rfl
  have hst₁ := hst.trans h₁
  apply yields_bind ht₁ (yields_expression hx (ha.extend hst₁.extends_))
  rintro _ t₂ h₂ ht₂ rfl
  have hst₂ := hst₁.trans h₂
  apply yields_bind ht₂ (yields_expression hbit (hb.extend hst₂.extends_))
  rintro _ t₃ h₃ ht₃ rfl
  have hst₃ := hst₂.trans h₃
  have hextends := hst₃.extends_
  have hselect := yields_selectScalar ht₃ (hb.extend hextends) (ha.extend hextends)
    (hc.extend hextends)
  rw [hb.value_extend hs.wellFormed hextends, ha.value_extend hs.wellFormed hextends,
    hc.value_extend hs.wellFormed hextends, hnval, hival, hjval] at hselect
  refine yields_map ht₃ Item.scalar hselect fun u z hu hz => ?_
  refine .leaf hx hy rfl hi hj hz.1 (hu.read_eq hz.1 ?_)
  rw [hz.2]
  push_cast
  rfl

mutual

/-- A selection by a bit that has to be computed with, from any later state of the system. -/
theorem yields_select_computed {t : R1CS} (hs : s.Valued) (hnone : b.bit? = none)
    (hbit : b.linear? = some bit) (hb : bit.Within s) (hn : s.read bit = .ok n) {x y : Item}
    (h : Alike x y) (hx : x.Within s) (hy : y.Within s) (hst : s.Grows t) :
    Yields (fun u r => Chosen s u n x y r) (select b x y) t := by
  cases h with
  | leaf hxa hyc =>
    rw [select_of_not_isSequence hnone (Item.isSequence_of_linear? hxa)]
    exact yields_selectBetween hs hst hbit hb hn hxa hyc (hx.linear? hxa) (hy.linear? hyc)
  | list h =>
    simp only [select, hnone, Item.entries?]
    exact yields_map (hs.extend hst) Item.list
      (yields_selectAll_computed hs hnone hbit hb hn h hx hy hst) fun _ _ _ h => Chosen.list h
  | tuple h =>
    simp only [select, hnone, Item.entries?]
    exact yields_map (hs.extend hst) Item.tuple
      (yields_selectAll_computed hs hnone hbit hb hn h hx hy hst) fun _ _ _ h => Chosen.tuple h

theorem yields_selectAll_computed {t : R1CS} (hs : s.Valued) (hnone : b.bit? = none)
    (hbit : b.linear? = some bit) (hb : bit.Within s) (hn : s.read bit = .ok n)
    {xs ys : List Item} (h : AlikeAll xs ys) (hx : WithinAll s xs) (hy : WithinAll s ys)
    (hst : s.Grows t) :
    Yields (fun u rs => ChosenAll s u n xs ys rs) (selectAll b xs ys) t := by
  have ht := hs.extend hst
  cases h with
  | nil =>
    rw [selectAll]
    exact yields_pure .nil
  | cons h htail =>
    rw [selectAll]
    apply yields_bind ht (yields_select_computed hs hnone hbit hb hn h hx.1 hy.1 hst)
    intro r t₁ h₁ ht₁ hr
    apply yields_bind ht₁
      (yields_selectAll_computed hs hnone hbit hb hn htail hx.2 hy.2 (hst.trans h₁))
    intro rs t₂ h₂ _ hrs
    exact yields_pure (.cons (hr.extend ht₁ h₂) hrs)

end

theorem yields_select (hs : s.Valued) (hbit : b.linear? = some bit) (hb : bit.Within s)
    (hn : s.read bit = .ok n) {x y : Item} (h : Alike x y) (hx : x.Within s) (hy : y.Within s) :
    Yields (fun u r => Chosen s u n x y r) (select b x y) s := by
  cases hknown : b.bit? with
  | none => exact yields_select_computed hs hknown hbit hb hn h hx hy (R1CS.Grows.refl s)
  | some v =>
    obtain ⟨hone, hzero⟩ := h.chosen hs hx hy
    obtain rfl := Except.ok.inj (hn.symm.trans (Item.read_of_bit? hknown hbit s))
    rw [select_of_bit hknown]
    cases v with
    | true => exact yields_pure hone
    | false => exact yields_pure hzero

end Build

namespace R1CS

inductive Calculated {α : Type} (Q : R1CS → α → Prop) (found : Option String) (s : R1CS) :
    Except Fault α × R1CS → Prop
  | frozen (h : s.frozen = true) : Calculated Q found s (.error .frozen, s)
  | ok {a t} (hst : s.Extends t)
      (hcheck : t.checkGates (t.gates.drop s.gates.length) = .ok found) (hQ : Q t a) :
      Calculated Q found s (.ok a, t)

def Holding (n : Int) (t : R1CS) (z : Linear) : Prop :=
  z.Within t ∧ t.read z = .ok n

/-- What the operations on expressions of a system answer, where each operand is read as some value.
A division by the constant zero is refused; any other one is carried out, and its gate tells where
something has been divided by nothing. -/
structure Calculates (s : R1CS) : Prop where
  sum : ∀ x xs, (∀ y ∈ x :: xs, y.Within s) → ∃ ns, (x :: xs).mapM s.read = .ok ns ∧
    Calculated (Holding (reduce ns.sum)) none s ((Build.sum xs x).run s)
  add : ∀ x y, x.Within s → y.Within s → ∃ a b, s.read x = .ok a ∧ s.read y = .ok b ∧
    Calculated (Holding (reduce (a + b))) none s ((Build.add x y).run s)
  sub : ∀ x y, x.Within s → y.Within s → ∃ a b, s.read x = .ok a ∧ s.read y = .ok b ∧
    Calculated (Holding (reduce (a - b))) none s ((Build.sub x y).run s)
  mul : ∀ x y message, x.Within s → y.Within s → ∃ a b, s.read x = .ok a ∧ s.read y = .ok b ∧
    Calculated (Holding (reduce (a * b))) none s ((Build.mul x y message).run s)
  not : ∀ x, x.Within s → ∃ a, s.read x = .ok a ∧
    Calculated (Holding (reduce (1 - a))) none s ((Build.not x).run s)
  and : ∀ x y, x.Within s → y.Within s → ∃ a b, s.read x = .ok a ∧ s.read y = .ok b ∧
    Calculated (Holding (reduce (a * b))) none s ((Build.and x y).run s)
  div : ∀ x y message isFlag, x.Within s → y.Within s →
    ∃ a b, s.read x = .ok a ∧ s.read y = .ok b ∧
      (b = 0 → ∀ k, y = .constant k → (Build.div x y message isFlag).run s =
        (.error (if s.frozen then .frozen else .unsatisfied message), s)) ∧
      (b = 0 → (∀ k, y ≠ .constant k) → Calculated (Holding 0)
        (if a = 0 then none else some message) s ((Build.div x y message isFlag).run s)) ∧
      (b ≠ 0 → ∃ c, reduce (b * c) = 1 ∧
        Calculated (Holding (reduce (a * c))) none s ((Build.div x y message isFlag).run s))
  select : ∀ b t f bit, b.linear? = some bit → bit.Within s → t.Alike f → t.Within s →
    f.Within s → ∃ n, s.read bit = .ok n ∧
      Calculated (fun u r => Item.Chosen s u n t f r) none s ((Build.select b t f).run s)

variable {s t : R1CS}

theorem Valued.holding (ht : t.Valued) {z : Linear} {n : Int} (hz : Build.Valuing n t z) :
    Holding (reduce n) t z :=
  ⟨hz.1, ht.read_eq hz.1 hz.2⟩

theorem Valued.calculated {α : Type} {Q Q' : R1CS → α → Prop} (hs : s.Valued) {x : Build α}
    (hx : Build.Yields Q x s) (h : ∀ t a, t.Valued → Q t a → Q' t a) :
    Calculated Q' none s (x.run s) := by
  rw [Build.Yields] at hx
  generalize x.run s = p at hx ⊢
  cases hx with
  | frozen hf => exact .frozen hf
  | ok hst _ hQ =>
    have ht := hs.extend hst.grows
    exact .ok hst.grows.extends_ (hst.checkGates_drop ht.wellFormed ht.witnessed) (h _ _ ht hQ)

theorem Valued.mapM_read (hs : s.Valued) {xs : List Linear} (h : ∀ x ∈ xs, x.Within s) :
    ∃ ns, xs.mapM s.read = .ok ns ∧ (xs.map (Linear.value s.valuation)).sum = (ns.sum : Int) := by
  induction xs with
  | nil => exact ⟨[], rfl, by simp⟩
  | cons x xs ih =>
    rw [List.forall_mem_cons] at h
    obtain ⟨n, hn, hval, -⟩ := hs.exists_read h.1
    obtain ⟨ns, hns, hsum⟩ := ih h.2
    refine ⟨n :: ns, by rw [List.mapM_cons, hn, hns]; rfl, ?_⟩
    rw [List.map_cons, List.sum_cons, List.sum_cons, hval, hsum, Int.cast_add]

theorem Valued.calculated_div (hs : s.Valued) {x y : Linear} (hx : x.Within s) (hy : y.Within s)
    {a b : Int} (ha : x.value s.valuation = a) (hb : y.value s.valuation = b)
    (hconstant : ∀ k, y = .constant k → reduce k ≠ 0) (message : String) (isFlag : Bool) {c : Int}
    (hc : (a : Scalar) / b = c) :
    Calculated (Holding (reduce c))
      (if (b : Scalar) = 0 ∧ (a : Scalar) ≠ 0 then some message else none) s
      ((Build.div x y message isFlag).run s) := by
  by_cases hf : s.frozen = true
  · rw [Build.run_div, access_of_within (by simpa using ⟨hx, hy⟩), if_pos hf]
    exact .frozen hf
  · obtain ⟨z, t, hrun, hvalue, hmessage⟩ :=
      Build.exists_run_div hs hx hy hf hconstant message isFlag
    obtain ⟨hemits, hz⟩ := (Build.means_div hx hy message isFlag).of_run hrun
    have hcheck := Build.checkGates_of_run_div hs hx hy hrun hvalue hmessage
    rw [ha, hb] at hcheck hvalue
    rw [hrun]
    exact .ok hemits.grows.extends_ hcheck
      ((hs.extend hemits.grows).holding ⟨hz, hvalue.trans hc⟩)

theorem Valued.calculates_mul (hs : s.Valued) {x y : Linear} (hx : x.Within s) (hy : y.Within s)
    (message : String) : ∃ a b, s.read x = .ok a ∧ s.read y = .ok b ∧
      Calculated (Holding (reduce (a * b))) none s ((Build.mul x y message).run s) := by
  obtain ⟨a, ha, haval, -⟩ := hs.exists_read hx
  obtain ⟨b, hb, hbval, -⟩ := hs.exists_read hy
  have hyields := Build.yields_mul hs hx hy message
  rw [haval, hbval, ← Int.cast_mul] at hyields
  exact ⟨a, b, ha, hb, hs.calculated hyields fun _ _ ht => ht.holding⟩

/-- A system with values calculates, whether it is closed or not. -/
theorem Valued.calculates (hs : s.Valued) : s.Calculates where
  sum x xs h := by
    obtain ⟨ns, hns, hsum⟩ := hs.mapM_read h
    have hyields := Build.yields_sum hs h
    rw [hsum] at hyields
    exact ⟨ns, hns, hs.calculated hyields fun _ _ ht => ht.holding⟩
  add x y hx hy := by
    obtain ⟨a, ha, haval, -⟩ := hs.exists_read hx
    obtain ⟨b, hb, hbval, -⟩ := hs.exists_read hy
    have hyields := Build.yields_add hs hx hy
    rw [haval, hbval, ← Int.cast_add] at hyields
    exact ⟨a, b, ha, hb, hs.calculated hyields fun _ _ ht => ht.holding⟩
  sub x y hx hy := by
    obtain ⟨a, ha, haval, -⟩ := hs.exists_read hx
    obtain ⟨b, hb, hbval, -⟩ := hs.exists_read hy
    have hyields := Build.yields_sub hs hx hy
    rw [haval, hbval, ← Int.cast_sub] at hyields
    exact ⟨a, b, ha, hb, hs.calculated hyields fun _ _ ht => ht.holding⟩
  mul x y message hx hy := hs.calculates_mul hx hy message
  not x hx := by
    obtain ⟨a, ha, haval, -⟩ := hs.exists_read hx
    have hone : (Linear.constant 1).value s.valuation = (1 : Int) := rfl
    have hyields := Build.yields_sub hs (x := .constant 1) trivial hx
    rw [hone, haval, ← Int.cast_sub] at hyields
    exact ⟨a, ha, hs.calculated hyields fun _ _ ht => ht.holding⟩
  and x y hx hy := hs.calculates_mul hx hy _
  div x y message isFlag hx hy := by
    obtain ⟨a, ha, haval, haself⟩ := hs.exists_read hx
    obtain ⟨b, hb, hbval, hbself⟩ := hs.exists_read hy
    refine ⟨a, b, ha, hb, ?_, ?_, ?_⟩
    · rintro rfl k rfl
      exact Build.run_div_zero hx (Except.ok.inj hb) message isFlag
    · rintro rfl hconstant
      have hcalculated := hs.calculated_div hx hy haval hbval (fun k hk => absurd hk (hconstant k))
        message isFlag (c := 0) (by rw [Int.cast_zero, div_zero])
      have hzero : reduce 0 = 0 := rfl
      simpa only [Int.cast_zero, true_and, ne_eq, ite_not, cast_eq_zero_iff haself, hzero]
        using hcalculated
    · intro hb₀
      have hb₁ : (b : Scalar) ≠ 0 := mt (cast_eq_zero_iff hbself).mp hb₀
      have hinverse : (b : Scalar) * Build.inverse b = 1 := by
        rw [cast_inverse hb₁, mul_inv_cancel₀ hb₁]
      have hconstant : ∀ k, y = .constant k → reduce k ≠ 0 := by
        rintro k rfl
        rwa [Except.ok.inj hb]
      have hcalculated := hs.calculated_div hx hy haval hbval hconstant message isFlag
        (c := a * Build.inverse b) (by rw [Int.cast_mul, cast_inverse hb₁, div_eq_mul_inv])
      rw [if_neg fun h => hb₁ h.1] at hcalculated
      refine ⟨Build.inverse b, ?_, hcalculated⟩
      rw [← Int.cast_mul, ← Int.cast_one, cast_eq_cast_iff] at hinverse
      exact hinverse
  select b t f bit hbit hb h ht hf := by
    obtain ⟨n, hn, -⟩ := hs.exists_read hb
    exact ⟨n, hn, hs.calculated (Build.yields_select hs hbit hb hn h ht hf) fun _ _ _ h => h⟩

end R1CS

namespace Session

/-- Every system with values of every session, whatever has been called before. -/
theorem systems_calculate {w : Session} (hw : w.Reachable) {s : R1CS} (hs : s ∈ w.systems)
    (hwitnessed : s.witnessed = true) : s.Calculates := by
  obtain ⟨i, hi⟩ := List.mem_iff_getElem?.mp hs
  exact R1CS.Valued.calculates ⟨(hw.regular.hosts i s hi).regular.wellFormed, hwitnessed⟩

/-- The first of two systems, with the value 5 on its public wire. -/
theorem systems_calculate_opening :
    Square.opening.Reachable ∧ ∃ s ∈ Square.opening.systems,
      s.witnessed = true ∧ s.frozen = false ∧ s.read (.combination Square.x) = .ok 5 ∧
        s.Calculates := by
  have hopening := Square.reachable_opening
  exact ⟨hopening, _, List.mem_cons_self .., rfl, rfl, rfl,
    systems_calculate hopening (List.mem_cons_self ..) rfl⟩

end Session

end RankOne
