import RankOne.Proofs.Emission

/-!
# What a program says

Every step of a program has an equation, and the gates of the closed system hold under an assignment
exactly when all these equations do. The assignment need not be one that any run would compute. An
assertion that is refused on the spot has an equation that no assignment satisfies.
-/

set_option autoImplicit false

namespace RankOne

namespace Item

def value (v : Int → Scalar) (x : Item) : Scalar :=
  match x.linear? with
  | some y => y.value v
  | none => 0

theorem value_of_linear? {x : Item} {y : Linear} (h : x.linear? = some y) (v : Int → Scalar) :
    x.value v = y.value v := by
  rw [value, h]

mutual

/-- Whether `r` is selected from `t` and `f` by `b`: entry by entry the value `b * (t - f) + f`. A
bit that is written down as such takes one of the two as it is. -/
def Selects (v : Int → Scalar) (b : Item) : Item → Item → Item → Prop
  | t, f, r =>
    match b.bit? with
    | some true => r = t
    | some false => r = f
    | none =>
      match t with
      | .list ts => ∃ fs rs, f.entries? = some fs ∧ r = .list rs ∧ SelectsAll v b ts fs rs
      | .tuple ts => ∃ fs rs, f.entries? = some fs ∧ r = .tuple rs ∧ SelectsAll v b ts fs rs
      | t => ∃ bit x y z, b.linear? = some bit ∧ t.linear? = some x ∧ f.linear? = some y ∧
          r = .scalar z ∧ z.value v = bit.value v * (x.value v - y.value v) + y.value v

def SelectsAll (v : Int → Scalar) (b : Item) : List Item → List Item → List Item → Prop
  | [], [], [] => True
  | t :: ts, f :: fs, r :: rs => Selects v b t f r ∧ SelectsAll v b ts fs rs
  | _, _, _ => False

end

mutual

def leaves (v : Int → Scalar) : Item → List Scalar
  | .scalar x => [x.value v]
  | .list items => leavesAll v items
  | .tuple items => leavesAll v items
  | .flag b => [if b then 1 else 0]
  | .bytes value => value.map fun b => (b.toNat : Scalar)
  | .nothing => []
  | .text _ => []

def leavesAll (v : Int → Scalar) : List Item → List Scalar
  | [] => []
  | x :: rest => leaves v x ++ leavesAll v rest

end

variable {v : Int → Scalar}

theorem leaves_of_linear? {x : Item} {y : Linear} (h : x.linear? = some y) :
    x.leaves v = [y.value v] := by
  cases x with
  | scalar x => obtain rfl := Option.some.inj h; rfl
  | flag b =>
    obtain rfl := Option.some.inj h
    cases b <;> simp [leaves, Linear.value]
  | _ => simp [linear?] at h

theorem leaves_of_entries? {x : Item} {items : List Item} (h : x.entries? = some items) :
    x.leaves v = leavesAll v items := by
  cases x with
  | list xs => obtain rfl := Option.some.inj h; rfl
  | tuple xs => obtain rfl := Option.some.inj h; rfl
  | text value =>
    obtain rfl := Option.some.inj h
    have hall : ∀ cs : List Char, leavesAll v (cs.map fun c => .text c.toString) = [] := by
      intro cs
      induction cs with
      | nil => rfl
      | cons c cs ih =>
        rw [List.map_cons, leavesAll, ih]
        rfl
    rw [hall, leaves]
  | bytes value =>
    obtain rfl := Option.some.inj h
    clear h
    rw [leaves]
    induction value with
    | nil => rfl
    | cons b rest ih =>
      rw [List.map_cons, List.map_cons, leavesAll, ← ih]
      simp [integer, leaves, Linear.value]
  | _ => simp [entries?] at h

theorem value_of_bit? {b : Item} {bit : Bool} (h : b.bit? = some bit) (v : Int → Scalar) :
    b.value v = if bit then 1 else 0 := by
  rw [bit?] at h
  cases hb : b.linear? with
  | none => simp [hb] at h
  | some x =>
    rw [value_of_linear? hb]
    cases x with
    | combination x => simp [hb, Linear.bit?] at h
    | constant k =>
      simp only [hb, Option.bind_some, Linear.bit?] at h
      split at h
      · rename_i hk
        obtain rfl := Option.some.inj h
        simp [Linear.value, hk]
      · split at h
        · rename_i hk
          obtain rfl := Option.some.inj h
          simp [Linear.value, hk]
        · simp at h

mutual

/-- Where `b` is 1 what is selected has the values of `t`, and where `b` is 0 those of `f`. -/
theorem Selects.leaves_eq {b t f r : Item} (h : Selects v b t f r) :
    (b.value v = 1 → r.leaves v = t.leaves v) ∧ (b.value v = 0 → r.leaves v = f.leaves v) := by
  rw [Selects.eq_def] at h
  cases hbit : b.bit? with
  | some bit =>
    have hvalue := value_of_bit? hbit v
    cases bit with
    | true =>
      simp only [hbit] at h
      simp [h, hvalue]
    | false =>
      simp only [hbit] at h
      simp [h, hvalue]
  | none =>
    have hscalar : (∃ bit x y z, b.linear? = some bit ∧ t.linear? = some x ∧ f.linear? = some y ∧
        r = .scalar z ∧ z.value v = bit.value v * (x.value v - y.value v) + y.value v) →
        (b.value v = 1 → r.leaves v = t.leaves v) ∧
          (b.value v = 0 → r.leaves v = f.leaves v) := by
      rintro ⟨bit, x, y, z, hb, hx, hy, rfl, hz⟩
      rw [value_of_linear? hb, leaves_of_linear? hx, leaves_of_linear? hy, leaves, hz]
      constructor <;> intro hvalue <;> rw [hvalue] <;> simp
    cases t with
    | list ts =>
      simp only [hbit] at h
      obtain ⟨fs, rs, hf, rfl, hall⟩ := h
      rw [leaves_of_entries? hf, leaves, leaves]
      exact SelectsAll.leaves_eq hall
    | tuple ts =>
      simp only [hbit] at h
      obtain ⟨fs, rs, hf, rfl, hall⟩ := h
      rw [leaves_of_entries? hf, leaves, leaves]
      exact SelectsAll.leaves_eq hall
    | _ =>
      simp only [hbit] at h
      exact hscalar h

theorem SelectsAll.leaves_eq {b : Item} {ts fs rs : List Item} (h : SelectsAll v b ts fs rs) :
    (b.value v = 1 → leavesAll v rs = leavesAll v ts) ∧
      (b.value v = 0 → leavesAll v rs = leavesAll v fs) := by
  cases ts with
  | nil =>
    cases fs <;> cases rs <;> simp_all [SelectsAll]
  | cons t ts =>
    cases fs with
    | nil => simp [SelectsAll] at h
    | cons f fs =>
      cases rs with
      | nil => simp [SelectsAll] at h
      | cons r rs =>
        obtain ⟨hhead, htail⟩ := h
        have ih := Selects.leaves_eq hhead
        have ihs := SelectsAll.leaves_eq htail
        simp only [leavesAll]
        exact ⟨fun hb => by rw [ih.1 hb, ihs.1 hb], fun hb => by rw [ih.2 hb, ihs.2 hb]⟩

end

end Item

namespace Build
variable {s : R1CS}

theorem means_expression {x : Item} (hx : x.Within s) :
    Means (fun t y => y.Within t ∧ x.linear? = some y) (fun _ _ => True) (expression x) s := by
  rw [expression]
  cases hlinear : x.linear? with
  | none => exact means_after (means_own []) fun _ _ _ _ => means_throw _
  | some y =>
    apply means_after (means_own [y])
    intro _ t hst _
    exact means_pure ⟨(hx.linear? hlinear).extend hst.extends_, rfl⟩ fun _ _ => trivial

theorem means_selectBetween (hs : s.WellFormed) {b x y : Item} (hb : b.Within s)
    (hx : x.Within s) (hy : y.Within s) :
    Means (fun t r => r.Within t)
      (fun r v => ∃ bit t f z, b.linear? = some bit ∧ x.linear? = some t ∧ y.linear? = some f ∧
        r = .scalar z ∧ z.value v = bit.value v * (t.value v - f.value v) + f.value v)
      (selectBetween b x y) s := by
  apply means_after (means_expression hy)
  rintro f s₁ h₁ ⟨hf, hyf⟩
  apply means_after (means_expression (hx.extend h₁.extends_))
  rintro t s₂ h₂ ⟨ht, hxt⟩
  have h₁₂ := h₁.trans h₂
  apply means_after (means_expression (hb.extend h₁₂.extends_))
  rintro bit s₃ h₃ ⟨hbit, hbbit⟩
  apply means_map _ (means_selectScalar ((h₁₂.trans h₃).wellFormed hs) hbit
    (ht.extend h₃.extends_) (hf.extend (h₂.trans h₃).extends_))
  intro z u hz
  refine ⟨hz, fun v _ => ?_⟩
  simp only [hyf, hxt, hbbit, Option.some.injEq, Item.scalar.injEq]
  constructor
  · exact fun heq => ⟨bit, t, f, z, rfl, rfl, rfl, rfl, heq⟩
  · rintro ⟨_, _, _, _, rfl, rfl, rfl, rfl, heq⟩
    exact heq

theorem means_wrap {b : Item} {xs ys : List Item} {wrap : List Item → Item}
    (hinj : Function.Injective wrap) (hwithin : ∀ {t rs}, Item.WithinAll t rs → (wrap rs).Within t)
    {x : Build (List Item)} (h : Means (fun t rs => Item.WithinAll t rs)
      (fun rs v => Item.SelectsAll v b xs ys rs) x s) :
    Means (fun t r => r.Within t)
      (fun r v => ∃ fs rs, some ys = some fs ∧ r = wrap rs ∧ Item.SelectsAll v b xs fs rs)
      (wrap <$> x) s := by
  apply means_map _ h
  intro rs t hrs
  refine ⟨hwithin hrs, fun v _ => ?_⟩
  constructor
  · exact fun hall => ⟨ys, rs, rfl, rfl, hall⟩
  · rintro ⟨_, _, hys, hrs, hall⟩
    obtain rfl := Option.some.inj hys
    obtain rfl := hinj hrs
    exact hall

/-- A selection comes to the equations of its entries, however deep they lie. -/
theorem means_select (b : Item) :
    (∀ x y : Item, ∀ s : R1CS, s.WellFormed → b.Within s → x.Within s → y.Within s →
      Means (fun t r => r.Within t) (fun r v => Item.Selects v b x y r) (select b x y) s) ∧
    ∀ xs ys : List Item, ∀ s : R1CS, s.WellFormed → b.Within s → Item.WithinAll s xs →
      Item.WithinAll s ys →
      Means (fun t rs => Item.WithinAll t rs) (fun rs v => Item.SelectsAll v b xs ys rs)
        (selectAll b xs ys) s := by
  apply select.mutual_induct b
  case case1 =>
    intro x y hbit s _ _ hx _
    cases x <;> simp only [select, hbit, Item.Selects] <;> exact means_pure hx fun _ _ => rfl
  case case2 =>
    intro x y hbit s _ _ _ hy
    cases x <;> simp only [select, hbit, Item.Selects] <;> exact means_pure hy fun _ _ => rfl
  case case3 =>
    intro y hbit xs ys hy ih s hs hb hx hys
    simp only [select, hbit, hy, Item.Selects]
    exact means_wrap (fun _ _ => Item.list.inj) id (ih s hs hb hx (hys.entries? hy))
  case case4 =>
    intro y hbit xs hy s _ _ _ _
    simp only [select, hbit, hy]
    exact means_throw _
  case case5 =>
    intro y hbit xs ys hy ih s hs hb hx hys
    simp only [select, hbit, hy, Item.Selects]
    exact means_wrap (fun _ _ => Item.tuple.inj) id (ih s hs hb hx (hys.entries? hy))
  case case6 =>
    intro y hbit xs hy s _ _ _ _
    simp only [select, hbit, hy]
    exact means_throw _
  case case7 =>
    intro y hbit x hlist htuple s hs hb hx hy
    have hbetween := means_selectBetween hs hb hx hy
    cases x with
    | list xs => exact absurd rfl (hlist xs)
    | tuple xs => exact absurd rfl (htuple xs)
    | _ => simpa only [select, hbit, Item.Selects] using hbetween
  case case8 =>
    intro s _ _ _ _
    rw [selectAll]
    exact means_pure trivial fun _ _ => trivial
  case case9 =>
    intro x xs y ys ihx ihxs s hs hb hx hy
    rw [selectAll]
    apply means_bind (fun r t rs => rs = r :: rs.tail ∧ Item.WithinAll t rs)
      (fun _ rs v => Item.SelectsAll v b xs ys rs.tail) (ihx s hs hb hx.1 hy.1)
    · intro r s₁ h₁ hr
      have hext := h₁.extends_
      apply means_bind (fun rest t rs => rs = r :: rest ∧ Item.WithinAll t rs) (fun _ _ _ => True)
        (ihxs s₁ (h₁.wellFormed hs) (hb.extend hext) (hx.2.extend hext) (hy.2.extend hext))
      · intro rest s₂ h₂ hrest
        exact means_pure ⟨rfl, hr.extend h₂.extends_, hrest⟩ fun _ _ => trivial
      · rintro rest _ t u _ ⟨rfl, hall⟩
        exact ⟨⟨rfl, hall⟩, fun _ _ => and_iff_left trivial⟩
    · rintro r rs t u _ ⟨hrs, hall⟩
      refine ⟨hall, fun v _ => ?_⟩
      rw [hrs, Item.SelectsAll, List.tail_cons]
  case case10 =>
    intro xs ys hnil hcons s _ _ _ _
    rw [selectAll_of_mismatch hnil hcons]
    exact means_throw _

end Build

namespace Operand
variable {s : R1CS} {registers : Registers}

def found (registers : Registers) (x : Operand) : Item :=
  match x.resolve registers with
  | .ok item => item
  | .error _ => .nothing

def valueIn (registers : Registers) (v : Int → Scalar) (x : Operand) : Scalar :=
  (x.found registers).value v

open Build

theorem means_item (hr : registers.Within s) {x : Operand} (hx : x.IsPlain) :
    Means (fun t item => item.Within t ∧ x.found registers = item) (fun _ _ => True)
      (x.item registers) s := by
  rw [item, found]
  cases hitem : x.resolve registers with
  | error e => exact means_fail e
  | ok y => exact means_pure ⟨within_resolve hr hx hitem, rfl⟩ fun _ _ => trivial

theorem means_linear (hr : registers.Within s) {x : Operand} (hx : x.IsPlain) :
    Means (fun t a => a.Within t ∧ ∀ v, x.valueIn registers v = a.value v) (fun _ _ => True)
      (x.linear registers) s := by
  apply means_after (means_item hr hx)
  rintro item t - ⟨hitem, rfl⟩
  apply (means_expression hitem).congr
  rintro a u ⟨ha, hlinear⟩
  exact ⟨⟨ha, Item.value_of_linear? hlinear⟩, fun _ _ => Iff.rfl⟩

theorem means_linears (hs : s.WellFormed) (hr : registers.Within s) {xs : List Operand}
    (hxs : ∀ x ∈ xs, x.IsPlain) :
    Means (fun t as => (∀ a ∈ as, a.Within t) ∧
        ∀ v, xs.map (valueIn registers v) = as.map (Linear.value v))
      (fun _ _ => True) (xs.mapM fun x => x.linear registers) s := by
  induction xs generalizing s with
  | nil => exact means_pure ⟨by simp, fun _ => rfl⟩ fun _ _ => trivial
  | cons x rest ih =>
    rw [List.mapM_cons]
    apply means_after (means_linear hr (hxs x (List.mem_cons_self ..)))
    rintro a s₁ h₁ ⟨ha, hvalue⟩
    apply means_after (ih (h₁.wellFormed hs) (hr.extend h₁.extends_)
      fun y hy => hxs y (List.mem_cons_of_mem _ hy))
    rintro as s₂ h₂ ⟨has, hvalues⟩
    refine means_pure ⟨?_, fun v => ?_⟩ fun _ _ => trivial
    · rw [List.forall_mem_cons]
      exact ⟨ha.extend h₂.extends_, has⟩
    · rw [List.map_cons, List.map_cons, hvalue, hvalues]

/-- An operand that is an expression is looked up, and counts with its value from then on. -/
theorem means_bind_linear (hs : s.WellFormed) (hr : registers.Within s) {x : Operand}
    (hx : x.IsPlain) {f : Linear → Build Item} {E : Scalar → Item → (Int → Scalar) → Prop}
    (hf : ∀ {t a}, t.WellFormed → a.Within t → Means (fun t item => item.Within t)
      (fun item v => E (a.value v) item v) (f a) t) :
    Means (fun t item => item.Within t) (fun item v => E (x.valueIn registers v) item v)
      (do let a ← x.linear registers; f a) s := by
  apply means_after (means_linear hr hx)
  rintro a t h ⟨ha, hvalue⟩
  simp only [hvalue]
  exact hf (h.wellFormed hs) ha

theorem means_bind_linear₂ (hs : s.WellFormed) (hr : registers.Within s) {x y : Operand}
    (hx : x.IsPlain) (hy : y.IsPlain) {f : Linear → Linear → Build Item}
    {E : Scalar → Scalar → Item → (Int → Scalar) → Prop}
    (hf : ∀ {t a b}, t.WellFormed → a.Within t → b.Within t →
      Means (fun t item => item.Within t) (fun item v => E (a.value v) (b.value v) item v)
        (f a b) t) :
    Means (fun t item => item.Within t)
      (fun item v => E (x.valueIn registers v) (y.valueIn registers v) item v)
      (do let a ← x.linear registers; let b ← y.linear registers; f a b) s := by
  apply means_after (means_linear hr hx)
  rintro a t h ⟨ha, hvalue⟩
  apply means_after (means_linear (hr.extend h.extends_) hy)
  rintro b u h' ⟨hb, hvalue'⟩
  simp only [hvalue, hvalue']
  exact hf ((h.trans h').wellFormed hs) (ha.extend h'.extends_) hb

end Operand

namespace Instruction

def Equation (registers : Registers) (v : Int → Scalar) (result : Item) : Instruction → Prop
  | .add x y => result.value v = x.valueIn registers v + y.valueIn registers v
  | .sub x y => result.value v = x.valueIn registers v - y.valueIn registers v
  | .mul x y _ => result.value v = x.valueIn registers v * y.valueIn registers v
  | .div x y _ => result.value v * y.valueIn registers v = x.valueIn registers v
  | .not x => result.value v = 1 - x.valueIn registers v
  | .and x y => result.value v = x.valueIn registers v * y.valueIn registers v
  | .sum xs start =>
      result.value v = start.valueIn registers v + (xs.map (Operand.valueIn registers v)).sum
  | .select b t f =>
      Item.Selects v (b.found registers) (t.found registers) (f.found registers) result
  | .gate x y z _ => x.valueIn registers v * y.valueIn registers v = z.valueIn registers v
  | .assertZero x _ => x.valueIn registers v = 0
  | .assertBit x _ => x.valueIn registers v = 0 ∨ x.valueIn registers v = 1
  | .connect x y _ => x.valueIn registers v = y.valueIn registers v
  | _ => True

variable {s : R1CS} {around : Surroundings} {registers : Registers}

open Build

theorem means_asItem {x : Build Linear} {E : Linear → (Int → Scalar) → Prop}
    {E' : Item → (Int → Scalar) → Prop} (h : Means (fun t z => z.Within t) E x s)
    (hE : ∀ z v, E z v ↔ E' (.scalar z) v) :
    Means (fun t item => item.Within t) E' (asItem x) s :=
  means_map _ h fun hz => ⟨hz, fun v _ => hE _ v⟩

theorem means_worth {x : Build Linear} {f : (Int → Scalar) → Scalar}
    (h : Means (Worth f) (fun _ _ => True) x s) :
    Means (fun t item => item.Within t) (fun item v => item.value v = f v) (asItem x) s :=
  means_map _ h fun hz => ⟨hz.1, fun v hone => iff_of_true trivial (hz.2 v hone)⟩

theorem means_asNothing {x : Build Unit} {E : (Int → Scalar) → Prop}
    (h : Means (fun _ _ => True) (fun _ v => E v) x s) :
    Means (fun t item => item.Within t) (fun _ v => E v) (asNothing x) s :=
  means_bind (fun _ t item => item.Within t) (fun _ _ _ => True) h
    (fun _ _ _ _ => means_pure trivial fun _ _ => trivial)
    fun _ hitem => ⟨hitem, fun _ _ => and_iff_left trivial⟩

theorem means_run_div (hr : registers.Within s) {x y : Operand} (hx : x.IsPlain)
    (hy : y.IsPlain) (message : Option String) :
    Means (fun t item => item.Within t)
      (fun item v => Equation registers v item (.div x y message))
      (run around registers (.div x y message)) s := by
  apply means_after (Operand.means_item hr hx)
  rintro dividend s₁ h₁ ⟨hdividend, hfound⟩
  apply means_after (means_expression hdividend)
  rintro a s₂ h₂ ⟨ha, hlinear⟩
  apply means_after (Operand.means_linear (hr.extend (h₁.trans h₂).extends_) hy)
  rintro b s₃ h₃ ⟨hb, hvalue⟩
  apply means_asItem (means_div (ha.extend h₃.extends_) hb _ _)
  intro z v
  have hvalue' : x.valueIn registers v = a.value v := by
    rw [Operand.valueIn, hfound, Item.value_of_linear? hlinear]
  rw [Equation, hvalue', hvalue]
  rfl

theorem means_run_sum (hs : s.WellFormed) (hr : registers.Within s) {xs : List Operand}
    {start : Operand} (hxs : ∀ x ∈ xs, x.IsPlain) (hstart : start.IsPlain) :
    Means (fun t item => item.Within t)
      (fun item v => Equation registers v item (.sum xs start))
      (run around registers (.sum xs start)) s := by
  apply means_after (Operand.means_linear hr hstart)
  rintro first s₁ h₁ ⟨hfirst, hvalue⟩
  apply means_after (Operand.means_linears (h₁.wellFormed hs) (hr.extend h₁.extends_) hxs)
  rintro rest s₂ h₂ ⟨hrest, hvalues⟩
  have hsum := means_worth
    (means_sum ((h₁.trans h₂).wellFormed hs) (hfirst.extend h₂.extends_) hrest)
  simpa only [Equation, hvalue, hvalues, List.map_cons, List.sum_cons] using hsum

theorem means_run_select (hs : s.WellFormed) (hr : registers.Within s) {b t f : Operand}
    (hb : b.IsPlain) (ht : t.IsPlain) (hf : f.IsPlain) :
    Means (fun t item => item.Within t)
      (fun item v => Equation registers v item (.select b t f))
      (run around registers (.select b t f)) s := by
  apply means_after (Operand.means_item hr hb)
  rintro b s₁ h₁ ⟨hb, rfl⟩
  apply means_after (Operand.means_item (hr.extend h₁.extends_) ht)
  rintro t s₂ h₂ ⟨ht, rfl⟩
  have h₁₂ := h₁.trans h₂
  apply means_after (Operand.means_item (hr.extend h₁₂.extends_) hf)
  rintro f s₃ h₃ ⟨hf, rfl⟩
  exact (means_select _).1 _ _ s₃ ((h₁₂.trans h₃).wellFormed hs)
    (hb.extend (h₂.trans h₃).extends_) (ht.extend h₃.extends_) hf

theorem means_run_gate (hs : s.WellFormed) (hr : registers.Within s) {x y z : Operand}
    (hx : x.IsPlain) (hy : y.IsPlain) (hz : z.IsPlain) (message : Option String) :
    Means (fun t item => item.Within t)
      (fun item v => Equation registers v item (.gate x y z message))
      (run around registers (.gate x y z message)) s := by
  apply means_after (Operand.means_item hr hz)
  rintro output s₁ h₁ ⟨houtput, hfound⟩
  apply means_after (Operand.means_linear (hr.extend h₁.extends_) hx)
  rintro a s₂ h₂ ⟨ha, hvalue⟩
  have h₁₂ := h₁.trans h₂
  apply means_after (Operand.means_linear (hr.extend h₁₂.extends_) hy)
  rintro b s₃ h₃ ⟨hb, hvalue'⟩
  apply means_after (means_expression (houtput.extend (h₂.trans h₃).extends_))
  rintro c s₄ h₄ ⟨hc, hlinear⟩
  have hgate := means_asNothing (means_gate (((h₁₂.trans h₃).trans h₄).wellFormed hs)
    (ha.extend (h₃.trans h₄).extends_) (hb.extend h₄.extends_) hc
    (message.getD "assertion error") output.isFlag)
  have hvalue'' : ∀ v, z.valueIn registers v = c.value v := fun v => by
    rw [Operand.valueIn, hfound, Item.value_of_linear? hlinear]
  simpa only [Equation, hvalue, hvalue', hvalue''] using hgate

theorem means_run (hs : s.WellFormed) (hr : registers.Within s) {i : Instruction}
    (hi : i.IsPlain) :
    Means (fun t item => item.Within t) (fun item v => i.Equation registers v item)
      (i.run around registers) s := by
  cases i with
  | add x y =>
    exact Operand.means_bind_linear₂ hs hr (E := fun x y item v => item.value v = x + y) hi.1 hi.2
      fun h ha hb => means_worth (means_add h ha hb)
  | sub x y =>
    exact Operand.means_bind_linear₂ hs hr (E := fun y x item v => item.value v = x - y) hi.2 hi.1
      fun h hb ha => means_worth (means_sub h ha hb)
  | mul x y message =>
    exact Operand.means_bind_linear₂ hs hr (E := fun x y item v => item.value v = x * y) hi.1 hi.2
      fun _ ha hb => means_asItem (means_mul ha hb _) fun _ _ => Iff.rfl
  | div x y message => exact means_run_div hr hi.1 hi.2 message
  | not x =>
    apply Operand.means_bind_linear hs hr (E := fun x item v => item.value v = 1 - x) hi
    intro s' a h ha
    have hvalue : ∀ v, (Linear.constant 1).value v = 1 := fun v => Int.cast_one
    have hsub := means_worth (means_sub h (x := .constant 1) trivial ha)
    simp only [hvalue] at hsub
    exact hsub
  | and x y =>
    exact Operand.means_bind_linear₂ hs hr (E := fun x y item v => item.value v = x * y) hi.1 hi.2
      fun _ ha hb => means_asItem (means_mul ha hb _) fun _ _ => Iff.rfl
  | sum xs start => exact means_run_sum hs hr hi.1 hi.2
  | select b t f => exact means_run_select hs hr hi.1 hi.2.1 hi.2.2
  | gate x y z message => exact means_run_gate hs hr hi.1 hi.2.1 hi.2.2 message
  | assertZero x message =>
    exact Operand.means_bind_linear hs hr (E := fun x _ _ => x = 0) hi
      fun h ha => means_asNothing (means_assertZero h ha _)
  | assertBit x message =>
    exact Operand.means_bind_linear hs hr (E := fun x _ _ => x = 0 ∨ x = 1) hi
      fun h ha => means_asNothing (means_assertBit h ha _)
  | connect x y message =>
    exact Operand.means_bind_linear₂ hs hr (E := fun y x _ _ => x = y) hi.2 hi.1
      fun h hb ha => means_asNothing (means_connect h ha hb _)
  | publicInput name value =>
    exact means_asItem (means_wire _ _) fun _ _ => Iff.rfl
  | privateInput name value =>
    exact means_asItem (means_wire _ _) fun _ _ => Iff.rfl
  | parameter name isPublic given =>
    cases given <;> exact means_asItem (means_wire _ _) fun _ _ => Iff.rfl
  | wire formula name =>
    exact means_asItem (means_wire _ _) fun _ _ => Iff.rfl
  | read x => exact absurd hi id
  | ask query => exact absurd hi id
  | freeze =>
    exact means_asNothing (E := fun _ => True) (means_freeze hs)

end Instruction

namespace Step

def Equations (around : Surroundings) (v : Int → Scalar) : List Step → Registers → R1CS → Prop
  | [], _, _ => True
  | step :: rest, registers, s =>
      match (step.run around registers).run s with
      | (.ok item, t) => step.instruction.Equation registers v item ∧
          Equations around v rest (store registers step.target item) t
      | (.error _, _) => True

variable (around : Surroundings)

open Build

theorem means_run {s : R1CS} {registers : Registers} (hs : s.WellFormed)
    (hr : registers.Within s) {step : Step} (hplain : step.instruction.IsPlain) :
    Means (fun t item => item.Within t)
      (fun item v => step.instruction.Equation registers v item) (step.run around registers) s := by
  rw [run]
  split
  · exact means_fail _
  · exact Instruction.means_run hs hr hplain

variable {around} in
/-- A whole run leaves expressions of the system in the registers, and its gates come to the
equations of the steps. -/
theorem means_runAll {steps : List Step} {registers : Registers} {s : R1CS} (hs : s.WellFormed)
    (hr : registers.Within s) (hplain : ∀ step ∈ steps, step.instruction.IsPlain) :
    Means (fun t registers' => registers'.Within t)
      (fun _ v => Equations around v steps registers s) (runAll around steps registers) s := by
  induction steps generalizing registers s with
  | nil => exact means_pure hr fun _ _ => trivial
  | cons step rest ih =>
    rw [Means, runAll, run_bind]
    have hstep := means_run around hs hr (hplain step (List.mem_cons_self ..))
    rw [Means] at hstep
    simp only [Equations]
    generalize (step.run around registers).run s = p at hstep ⊢
    cases hstep with
    | error => exact .error
    | @ok item t hemits hitem =>
      have hgrows := hemits.grows
      have hrest := ih (hgrows.wellFormed hs)
        ((hr.extend hgrows.extends_).store hitem step.target)
        fun x hx => hplain x (List.mem_cons_of_mem _ hx)
      rw [Means] at hrest
      dsimp only
      generalize (runAll around rest (store registers step.target item)).run t = q at hrest ⊢
      cases hrest with
      | error => exact .error
      | ok hemits' hregisters => exact .ok (hemits.trans hemits') hregisters

variable {around} in
/-- The gates of a whole run come to the equations of its steps. -/
theorem emits_runAll {steps : List Step} {registers registers' : Registers} {s t : R1CS}
    (hs : s.WellFormed) (hr : registers.Within s)
    (hplain : ∀ step ∈ steps, step.instruction.IsPlain)
    (h : (runAll around steps registers).run s = (.ok registers', t)) :
    s.Emits t fun v => Equations around v steps registers s :=
  ((means_runAll hs hr hplain).of_run h).1

end Step

end RankOne
