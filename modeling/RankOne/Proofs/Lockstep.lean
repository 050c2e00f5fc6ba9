import RankOne.Proofs.Parallel

/-!
# Instructions side by side

One instruction of a program, run in two systems that differ in their values and owners alone. The
operands come out of registers that differ in owners alone, selections go down the same lists, and a
wire is made in the same way whatever value it is made with.
-/

set_option autoImplicit false

namespace RankOne

namespace Item

mutual

def withOwner (owner : Option Nat) : Item → Item
  | .scalar x => .scalar (x.withOwner owner)
  | .list items => .list (withOwnerAll owner items)
  | .tuple items => .tuple (withOwnerAll owner items)
  | .nothing => .nothing
  | .flag b => .flag b
  | .text value => .text value
  | .bytes value => .bytes value

def withOwnerAll (owner : Option Nat) : List Item → List Item
  | [] => []
  | x :: rest => withOwner owner x :: withOwnerAll owner rest

end

variable {owner : Option Nat}

mutual

theorem withOwner_withOwner (owner' : Option Nat) (x : Item) :
    (x.withOwner owner').withOwner owner = x.withOwner owner := by
  cases x with
  | scalar x => simp only [withOwner, Linear.withOwner_withOwner]
  | list items => simp only [withOwner, withOwnerAll_withOwnerAll owner' items]
  | tuple items => simp only [withOwner, withOwnerAll_withOwnerAll owner' items]
  | _ => rfl

theorem withOwnerAll_withOwnerAll (owner' : Option Nat) (items : List Item) :
    withOwnerAll owner (withOwnerAll owner' items) = withOwnerAll owner items := by
  cases items with
  | nil => rfl
  | cons x rest =>
    simp only [withOwnerAll, withOwner_withOwner owner' x, withOwnerAll_withOwnerAll owner' rest]

end

theorem withOwnerAll_eq_map (items : List Item) :
    withOwnerAll owner items = items.map (withOwner owner) := by
  induction items with
  | nil => rfl
  | cons x rest ih => rw [withOwnerAll, ih, List.map_cons]

theorem linear?_withOwner (x : Item) :
    (x.withOwner owner).linear? = x.linear?.map (Linear.withOwner owner) := by
  cases x <;> rfl

theorem bit?_withOwner (x : Item) : (x.withOwner owner).bit? = x.bit? := by
  rw [bit?, linear?_withOwner, bit?]
  cases x.linear? with
  | none => rfl
  | some y => exact y.bit?_withOwner

theorem isFlag_withOwner (x : Item) : (x.withOwner owner).isFlag = x.isFlag := by
  cases x <;> rfl

theorem entries?_withOwner (x : Item) :
    (x.withOwner owner).entries? = x.entries?.map (withOwnerAll owner) := by
  cases x with
  | text value =>
    simp only [withOwner, entries?, Option.map_some, withOwnerAll_eq_map, List.map_map]
    rfl
  | bytes value =>
    simp only [withOwner, entries?, Option.map_some, withOwnerAll_eq_map, List.map_map]
    rfl
  | _ => rfl

def Twins (s t : R1CS) (x y : Item) : Prop :=
  x.Within s ∧ y = x.withOwner (some t.tag)

def AllTwins (s t : R1CS) (xs ys : List Item) : Prop :=
  WithinAll s xs ∧ ys = withOwnerAll (some t.tag) xs

theorem Twins.extend {s t s' t' : R1CS} {x y : Item} (h : Item.Twins s t x y)
    (hs : s.Extends s') (ht : t.Extends t') : Item.Twins s' t' x y :=
  ⟨h.1.extend hs, by rw [h.2, ht.tag]⟩

end Item

namespace Build
variable {s t : R1CS}

theorem parallel_expression (h : s.Twins t) {x : Item} (hx : x.Within s) :
    Parallel Linear.Twins (expression x) (expression (x.withOwner (some t.tag))) s t := by
  rw [expression, expression, Item.linear?_withOwner]
  cases hlinear : x.linear? with
  | none =>
    have hnone : ∀ y ∈ ([] : List Linear), y.Within s := by simp
    apply parallel_bind (parallel_own h hnone)
    intro s' t' _ _ h' _ _ _
    exact parallel_throw h' _
  | some y =>
    have hy := hx.linear? hlinear
    have hone : ∀ z ∈ [y], z.Within s := by simpa using hy
    apply parallel_bind (parallel_own h hone)
    intro s' t' _ _ h' hs ht _
    exact parallel_pure h' ⟨hy.extend hs, by rw [ht.tag]⟩

theorem parallel_selectBetween (h : s.Twins t) {b x y : Item} (hb : b.Within s)
    (hx : x.Within s) (hy : y.Within s) :
    Parallel Item.Twins (selectBetween b x y)
      (selectBetween (b.withOwner (some t.tag)) (x.withOwner (some t.tag))
        (y.withOwner (some t.tag))) s t := by
  apply parallel_bind (parallel_expression h hy)
  rintro s₁ t₁ f _ h₁ hs₁ ht₁ ⟨hf, rfl⟩
  rw [← ht₁.tag]
  apply parallel_bind (parallel_expression h₁ (hx.extend hs₁))
  rintro s₂ t₂ a _ h₂ hs₂ ht₂ ⟨ha, rfl⟩
  rw [← ht₂.tag]
  apply parallel_bind (parallel_expression h₂ (hb.extend (hs₁.trans hs₂)))
  rintro s₃ t₃ bit _ h₃ hs₃ ht₃ ⟨hbit, rfl⟩
  rw [← ht₃.tag]
  apply parallel_map
    (parallel_selectScalar h₃ hbit (ha.extend hs₃) (hf.extend (hs₂.trans hs₃)))
  rintro s' t' z _ ⟨hz, rfl⟩
  exact ⟨hz, rfl⟩

theorem parallel_wrap {x y : Build (List Item)} {wrap : List Item → Item}
    (hwithin : ∀ {s xs}, Item.WithinAll s xs → (wrap xs).Within s)
    (howner : ∀ owner xs, (wrap xs).withOwner owner = wrap (Item.withOwnerAll owner xs))
    (h : Parallel Item.AllTwins x y s t) : Parallel Item.Twins (wrap <$> x) (wrap <$> y) s t := by
  apply parallel_map h
  rintro s' t' xs _ ⟨hxs, rfl⟩
  exact ⟨hwithin hxs, (howner _ xs).symm⟩

/-- A selection goes down the same lists in both systems, also where it stops half way. -/
theorem parallel_select (b : Item) :
    (∀ x y : Item, ∀ s t : R1CS, s.Twins t → b.Within s → x.Within s → y.Within s →
      Parallel Item.Twins (select b x y)
        (select (b.withOwner (some t.tag)) (x.withOwner (some t.tag)) (y.withOwner (some t.tag)))
        s t) ∧
    ∀ xs ys : List Item, ∀ s t : R1CS, s.Twins t → b.Within s → Item.WithinAll s xs →
      Item.WithinAll s ys →
      Parallel Item.AllTwins (selectAll b xs ys)
        (selectAll (b.withOwner (some t.tag)) (Item.withOwnerAll (some t.tag) xs)
          (Item.withOwnerAll (some t.tag) ys)) s t := by
  have hsame : ∀ (owner : Option Nat) {r : Option Bool}, b.bit? = r →
      (b.withOwner owner).bit? = r := fun owner r h => b.bit?_withOwner.trans h
  apply select.mutual_induct b
  case case1 =>
    intro x y hbit s t h _ hx _
    have hbit' := hsame (some t.tag) hbit
    cases x <;> simp only [Item.withOwner, select, hbit, hbit'] <;> exact parallel_pure h ⟨hx, rfl⟩
  case case2 =>
    intro x y hbit s t h _ _ hy
    have hbit' := hsame (some t.tag) hbit
    cases x <;> simp only [Item.withOwner, select, hbit, hbit'] <;> exact parallel_pure h ⟨hy, rfl⟩
  case case3 =>
    intro y hbit xs ys hy ih s t h hb hx hys
    have hbit' := hsame (some t.tag) hbit
    simp only [Item.withOwner, select, hbit, hbit', hy, Item.entries?_withOwner, Option.map_some]
    exact parallel_wrap id (fun _ _ => rfl) (ih s t h hb hx (hys.entries? hy))
  case case4 =>
    intro y hbit xs hy s t h _ _ _
    have hbit' := hsame (some t.tag) hbit
    simp only [Item.withOwner, select, hbit, hbit', hy, Item.entries?_withOwner, Option.map_none]
    exact parallel_throw h _
  case case5 =>
    intro y hbit xs ys hy ih s t h hb hx hys
    have hbit' := hsame (some t.tag) hbit
    simp only [Item.withOwner, select, hbit, hbit', hy, Item.entries?_withOwner, Option.map_some]
    exact parallel_wrap id (fun _ _ => rfl) (ih s t h hb hx (hys.entries? hy))
  case case6 =>
    intro y hbit xs hy s t h _ _ _
    have hbit' := hsame (some t.tag) hbit
    simp only [Item.withOwner, select, hbit, hbit', hy, Item.entries?_withOwner, Option.map_none]
    exact parallel_throw h _
  case case7 =>
    intro y hbit x hlist htuple s t h hb hx hy
    have hbit' := hsame (some t.tag) hbit
    have hbetween := parallel_selectBetween h hb hx hy
    cases x with
    | list xs => exact absurd rfl (hlist xs)
    | tuple xs => exact absurd rfl (htuple xs)
    | _ => simpa only [Item.withOwner, select, hbit, hbit'] using hbetween
  case case8 =>
    intro s t h _ _ _
    simp only [Item.withOwnerAll, selectAll]
    exact parallel_pure h ⟨trivial, rfl⟩
  case case9 =>
    intro x xs y ys ihx ihxs s t h hb hx hy
    simp only [Item.withOwnerAll, selectAll]
    apply parallel_bind (ihx s t h hb hx.1 hy.1)
    rintro s₁ t₁ z _ h₁ hs₁ ht₁ hz
    rw [← ht₁.tag]
    apply parallel_bind (ihxs s₁ t₁ h₁ (hb.extend hs₁) (hx.2.extend hs₁) (hy.2.extend hs₁))
    rintro s₂ t₂ zs _ h₂ hs₂ ht₂ ⟨hzs, rfl⟩
    obtain ⟨hwithin, rfl⟩ := hz.extend hs₂ ht₂
    exact parallel_pure h₂ ⟨⟨hwithin, hzs⟩, rfl⟩
  case case10 =>
    intro xs ys hnil hcons s t h _ _ _
    cases xs with
    | nil =>
      cases ys with
      | nil => exact absurd rfl (hnil rfl)
      | cons y ys => exact parallel_throw h _
    | cons x xs =>
      cases ys with
      | nil => exact parallel_throw h _
      | cons y ys => exact absurd rfl (hcons x xs y ys rfl)

end Build

namespace Item

mutual

theorem Within.withOwner {s t : R1CS} (h : s.Twins t) {x : Item} (hx : x.Within s) :
    (x.withOwner (some t.tag)).Within t := by
  cases x with
  | scalar x => exact h.within_withOwner hx
  | list items => exact WithinAll.withOwnerAll h hx
  | tuple items => exact WithinAll.withOwnerAll h hx
  | _ => trivial

theorem WithinAll.withOwnerAll {s t : R1CS} (h : s.Twins t) {items : List Item}
    (hx : WithinAll s items) : WithinAll t (Item.withOwnerAll (some t.tag) items) := by
  cases items with
  | nil => trivial
  | cons x rest => exact ⟨Within.withOwner h hx.1, WithinAll.withOwnerAll h hx.2⟩

end

end Item

namespace Registers
variable {owner : Option Nat} {registers : Registers}

def withOwner (owner : Option Nat) (registers : Registers) : Registers :=
  registers.map fun entry => (entry.1, entry.2.withOwner owner)

theorem Within.withOwner {s t : R1CS} (h : s.Twins t) (hr : Within s registers) :
    Within t (registers.withOwner (some t.tag)) := by
  intro entry hentry
  obtain ⟨source, hsource, rfl⟩ := List.mem_map.mp hentry
  exact (hr source hsource).withOwner h

theorem withOwner_cons (name : String) (item : Item) (rest : Registers) :
    withOwner owner ((name, item) :: rest) = (name, item.withOwner owner) :: withOwner owner rest :=
  rfl

theorem get?_withOwner (name : String) :
    Entries.get? name (registers.withOwner owner) =
      (Entries.get? name registers).map (Item.withOwner owner) := by
  induction registers with
  | nil => rfl
  | cons entry rest ih =>
    obtain ⟨key, value⟩ := entry
    rw [withOwner_cons, Entries.get?, Entries.get?, ih]
    split <;> rfl

theorem put_withOwner (name : String) (item : Item) :
    withOwner owner (Entries.put name item registers) =
      Entries.put name (item.withOwner owner) (registers.withOwner owner) := by
  induction registers with
  | nil => rfl
  | cons entry rest ih =>
    obtain ⟨key, value⟩ := entry
    rw [withOwner_cons, Entries.put, Entries.put]
    split
    · rfl
    · rw [withOwner_cons, ih]

theorem store_withOwner (target : Option String) (item : Item) :
    withOwner owner (Step.store registers target item) =
      Step.store (registers.withOwner owner) target (item.withOwner owner) := by
  cases target with
  | none => rfl
  | some name => exact put_withOwner name item

def Twins (s t : R1CS) (registers registers' : Registers) : Prop :=
  registers.Within s ∧ registers' = registers.withOwner (some t.tag)

end Registers

namespace Operand
variable {owner : Option Nat} {registers : Registers}

mutual

theorem resolve_withOwner {x : Operand} (hx : x.IsPlain) :
    x.resolve (registers.withOwner owner) = (x.resolve registers).map (Item.withOwner owner) := by
  cases x with
  | constant value => rfl
  | register name =>
    simp only [resolve, Registers.get?_withOwner]
    cases Entries.get? name registers <;> rfl
  | raw x => exact absurd hx id
  | list items =>
    have hitems : AllPlain items := hx
    simp only [resolve, resolveAll_withOwner hitems]
    cases resolveAll registers items <;> rfl
  | tuple items =>
    have hitems : AllPlain items := hx
    simp only [resolve, resolveAll_withOwner hitems]
    cases resolveAll registers items <;> rfl
  | nothing => rfl

theorem resolveAll_withOwner {xs : List Operand} (hxs : AllPlain xs) :
    resolveAll (registers.withOwner owner) xs =
      (resolveAll registers xs).map (Item.withOwnerAll owner) := by
  cases xs with
  | nil => rfl
  | cons x rest =>
    simp only [resolveAll, resolve_withOwner (x := x) hxs.1, resolveAll_withOwner hxs.2]
    cases x.resolve registers with
    | error e => rfl
    | ok item => cases resolveAll registers rest <;> rfl

end

open Build

variable {s t : R1CS} {n : Nat} {x : Operand}

theorem parallel_item (h : s.Twins t) (hr : registers.Within s) (hx : x.IsPlain)
    (hn : t.tag = n) :
    Parallel Item.Twins (x.item registers) (x.item (registers.withOwner (some n))) s t := by
  rw [item, item, resolve_withOwner hx]
  cases hitem : x.resolve registers with
  | error e => exact parallel_fail h e
  | ok y => exact parallel_pure h ⟨within_resolve hr hx hitem, by rw [hn]⟩

theorem parallel_linear (h : s.Twins t) (hr : registers.Within s) (hx : x.IsPlain)
    (hn : t.tag = n) :
    Parallel Linear.Twins (x.linear registers) (x.linear (registers.withOwner (some n))) s t := by
  apply parallel_bind (parallel_item h hr hx hn)
  rintro s' t' y _ h' hs ht ⟨hy, rfl⟩
  exact parallel_expression h' hy

/-- An operand is looked up in both systems, and what follows finds it in both. -/
theorem parallel_bind_linear (h : s.Twins t) (hr : registers.Within s) {x : Operand}
    (hx : x.IsPlain) {f f' : Linear → Build Item}
    (hf : ∀ {s' t' a}, s'.Twins t' → a.Within s' →
      Parallel Item.Twins (f a) (f' (a.withOwner (some t'.tag))) s' t') :
    Parallel Item.Twins (do let a ← x.linear registers; f a)
      (do let a ← x.linear (registers.withOwner (some t.tag)); f' a) s t := by
  apply parallel_bind (parallel_linear h hr hx rfl)
  rintro s₁ t₁ a _ h₁ - - ⟨ha, rfl⟩
  exact hf h₁ ha

theorem parallel_bind_linear₂ (h : s.Twins t) (hr : registers.Within s) {x y : Operand}
    (hx : x.IsPlain) (hy : y.IsPlain) {f f' : Linear → Linear → Build Item}
    (hf : ∀ {s' t' a b}, s'.Twins t' → a.Within s' → b.Within s' →
      Parallel Item.Twins (f a b)
        (f' (a.withOwner (some t'.tag)) (b.withOwner (some t'.tag))) s' t') :
    Parallel Item.Twins
      (do let a ← x.linear registers; let b ← y.linear registers; f a b)
      (do let a ← x.linear (registers.withOwner (some t.tag))
          let b ← y.linear (registers.withOwner (some t.tag)); f' a b) s t := by
  apply parallel_bind (parallel_linear h hr hx rfl)
  rintro s₁ t₁ a _ h₁ hs₁ ht₁ ⟨ha, rfl⟩
  apply parallel_bind (parallel_linear h₁ (hr.extend hs₁) hy ht₁.tag)
  rintro s₂ t₂ b _ h₂ hs₂ ht₂ ⟨hb, rfl⟩
  rw [← ht₂.tag]
  exact hf h₂ (ha.extend hs₂) hb

def IsValue : Operand → Prop
  | .constant _ => True
  | .nothing => True
  | _ => False

theorem IsValue.reads_eq_nil (h : x.IsValue) : x.reads = [] := by
  cases x with
  | constant value => rfl
  | nothing => rfl
  | _ => exact absurd h id

end Operand

namespace Formula

mutual

def ReadsLinear (registers : Registers) : Formula → Prop
  | .leaf x => ∃ item y, x.resolve registers = .ok item ∧ item.linear? = some y
  | .sum terms => AllReadLinear registers terms
  | .product factors => AllReadLinear registers factors
  | .negative x => ReadsLinear registers x
  | .apply _ arguments => AllReadLinear registers arguments

def AllReadLinear (registers : Registers) : List Formula → Prop
  | [] => True
  | x :: rest => ReadsLinear registers x ∧ AllReadLinear registers rest

end

variable {s : R1CS} {registers : Registers}

mutual

/-- A function of values of expressions that the system owns has a value itself. -/
theorem eval_isOk (hs : s.WellFormed) (hw : s.witnessed = true) (hr : registers.Within s)
    {x : Formula} (hplain : x.IsPlain) (hx : x.ReadsLinear registers) :
    ∃ v, x.eval registers s.read = .ok v := by
  cases x with
  | leaf x =>
    obtain ⟨item, y, hitem, hy⟩ := hx
    have hwithin := (Operand.within_resolve hr hplain hitem).linear? hy
    cases y with
    | constant k => exact ⟨k, by simp only [eval, hitem, hy]⟩
    | combination c =>
      obtain ⟨v, hv, -⟩ := R1CS.read_eq_ok (hwithin.reads hs hw)
      exact ⟨v, by simp only [eval, hitem, hy, hv]⟩
  | sum terms =>
    obtain ⟨vs, hvs⟩ := evalAll_isOk hs hw hr hplain hx
    exact ⟨_, by rw [eval, hvs]; rfl⟩
  | product factors =>
    obtain ⟨vs, hvs⟩ := evalAll_isOk hs hw hr hplain hx
    exact ⟨_, by rw [eval, hvs]; rfl⟩
  | negative x =>
    obtain ⟨v, hv⟩ := eval_isOk hs hw hr (x := x) hplain hx
    exact ⟨_, by rw [eval, hv]; rfl⟩
  | apply function arguments =>
    obtain ⟨vs, hvs⟩ := evalAll_isOk hs hw hr hplain hx
    exact ⟨_, by rw [eval, hvs]; rfl⟩

theorem evalAll_isOk (hs : s.WellFormed) (hw : s.witnessed = true) (hr : registers.Within s)
    {xs : List Formula} (hplain : AllPlain xs) (hxs : AllReadLinear registers xs) :
    ∃ vs, evalAll registers s.read xs = .ok vs := by
  cases xs with
  | nil => exact ⟨[], rfl⟩
  | cons x rest =>
    obtain ⟨v, hv⟩ := eval_isOk hs hw hr hplain.1 hxs.1
    obtain ⟨vs, hvs⟩ := evalAll_isOk hs hw hr hplain.2 hxs.2
    exact ⟨v :: vs, by simp only [evalAll, hv, hvs]⟩

end

variable {read : Reader}

mutual

theorem readsLinear_of_eval {x : Formula} {v : Int} (h : x.eval registers read = .ok v) :
    x.ReadsLinear registers := by
  cases x with
  | leaf x =>
    rw [eval] at h
    split at h
    · simp at h
    · rename_i item hitem
      cases hy : item.linear? with
      | none => simp [hy] at h
      | some y => exact ⟨item, y, hitem, hy⟩
  | sum terms =>
    rw [eval] at h
    cases hvs : evalAll registers read terms with
    | error e => simp [hvs, Except.map] at h
    | ok vs => exact allReadLinear_of_evalAll hvs
  | product factors =>
    rw [eval] at h
    cases hvs : evalAll registers read factors with
    | error e => simp [hvs, Except.map] at h
    | ok vs => exact allReadLinear_of_evalAll hvs
  | negative x =>
    rw [eval] at h
    cases hv : eval registers read x with
    | error e => simp [hv, Except.map] at h
    | ok v => exact readsLinear_of_eval (x := x) hv
  | apply function arguments =>
    rw [eval] at h
    cases hvs : evalAll registers read arguments with
    | error e => simp [hvs, Except.map] at h
    | ok vs => exact allReadLinear_of_evalAll hvs

theorem allReadLinear_of_evalAll {xs : List Formula} {vs : List Int}
    (h : evalAll registers read xs = .ok vs) : AllReadLinear registers xs := by
  cases xs with
  | nil => trivial
  | cons x rest =>
    rw [evalAll] at h
    split at h
    · simp at h
    · rename_i v hv
      split at h
      · rename_i us hus
        exact ⟨readsLinear_of_eval hv, allReadLinear_of_evalAll hus⟩
      · simp at h

end

end Formula

namespace Build

theorem isOk_of_wire {s t : R1CS} (hw : s.witnessed = true)
    {value : Reader → Except Fault Int} {name : Option String} {item : Item}
    (h : (Instruction.asItem (wire value name)).run s = (.ok item, t)) :
    ∃ v, value s.read = .ok v := by
  rw [Instruction.asItem, run_map, run_wire] at h
  cases hv : value s.read with
  | ok v => exact ⟨v, rfl⟩
  | error e =>
    cases hf : s.frozen with
    | true =>
      simp only [hf, if_true] at h
      cases (Prod.mk.inj h).1
    | false =>
      simp only [hf, R1CS.wireValue, hw, hv, Bool.false_eq_true, if_true, if_false] at h
      cases (Prod.mk.inj h).1

end Build

namespace Instruction

inductive Alike : Instruction → Instruction → Prop
  | same (instruction : Instruction) : Alike instruction instruction
  | publicInput (name : String) {x y : Operand} : x.IsValue → y.IsValue →
      Alike (.publicInput name x) (.publicInput name y)
  | privateInput (name : String) {x y : Operand} : x.IsValue → y.IsValue →
      Alike (.privateInput name x) (.privateInput name y)
  | parameter (name : String) (isPublic : Bool) {given given' : Option (List (String × Operand))} :
      (∀ table ∈ given, ∀ entry ∈ table, entry.2.IsValue) →
      (∀ table ∈ given', ∀ entry ∈ table, entry.2.IsValue) →
      Alike (.parameter name isPublic given) (.parameter name isPublic given')

/-- Whether there is an integer for the wire that an instruction allocates. The function of a wire
has to read expressions only; that it has a value then is not assumed. -/
def Supplied (around : Surroundings) (registers : Registers) : Instruction → Prop
  | .publicInput _ value => ∃ v, value.value registers = .ok (some v)
  | .privateInput _ value => ∃ v, value.value registers = .ok (some v)
  | .parameter name _ none => ∃ v, around.parameters name = .ok v
  | .parameter name _ (some given) => ∃ v, givenValue registers given name = .ok (some v)
  | .wire formula _ => formula.ReadsLinear registers
  | _ => True

variable {s t : R1CS} {around around' : Surroundings} {registers : Registers}

theorem supply_isOk (hw : s.witnessed = true) {name : String} {isPublic : Bool}
    {x : Except Fault (Option Int)} {item : Item}
    (h : (asItem (supply name isPublic x)).run s = (.ok item, t)) : ∃ v, x = .ok (some v) := by
  obtain ⟨v, hv⟩ := Build.isOk_of_wire hw h
  cases x with
  | error e => simp [Except.bind] at hv
  | ok value =>
    cases value with
    | none => simp [Except.bind, Build.known] at hv
    | some v => exact ⟨v, rfl⟩

theorem supplied_of_run (hw : s.witnessed = true) {i : Instruction} {item : Item}
    (h : (i.run around registers).run s = (.ok item, t)) : i.Supplied around registers := by
  cases i with
  | publicInput name value => exact supply_isOk hw h
  | privateInput name value => exact supply_isOk hw h
  | parameter name isPublic given =>
    cases given with
    | none =>
      obtain ⟨v, hv⟩ := supply_isOk hw h
      cases hx : around.parameters name with
      | error e => simp [hx, Except.map] at hv
      | ok v => exact ⟨v, hx⟩
    | some table => exact supply_isOk hw h
  | wire formula name =>
    obtain ⟨v, hv⟩ := Build.isOk_of_wire hw h
    exact Formula.readsLinear_of_eval hv
  | _ => trivial

theorem readsAll_eq_nil {given : List (String × Operand)} (h : ∀ entry ∈ given, entry.2.IsValue) :
    Operand.readsAll (given.map Prod.snd) = [] := by
  induction given with
  | nil => rfl
  | cons entry rest ih =>
    rw [List.map_cons, Operand.readsAll, (h entry (List.mem_cons_self ..)).reads_eq_nil,
      ih fun e he => h e (List.mem_cons_of_mem _ he)]
    rfl

theorem Alike.reads_eq {i j : Instruction} (h : Alike i j) : i.reads = j.reads := by
  have hgiven : ∀ (name : String) (isPublic : Bool) (given : Option (List (String × Operand))),
      (∀ table ∈ given, ∀ entry ∈ table, entry.2.IsValue) →
        (Instruction.parameter name isPublic given).reads = [] := by
    intro name isPublic given h
    cases given with
    | none => rfl
    | some table => exact readsAll_eq_nil (h table rfl)
  cases h with
  | same => rfl
  | publicInput name hx hy => simp only [reads, hx.reads_eq_nil, hy.reads_eq_nil]
  | privateInput name hx hy => simp only [reads, hx.reads_eq_nil, hy.reads_eq_nil]
  | parameter name isPublic hx hy => rw [hgiven _ _ _ hx, hgiven _ _ _ hy]

open Build

theorem parallel_asItem {x y : Build Linear} (h : Parallel Linear.Twins x y s t) :
    Parallel Item.Twins (asItem x) (asItem y) s t := by
  apply parallel_map h
  rintro s' t' z _ ⟨hz, rfl⟩
  exact ⟨hz, rfl⟩

theorem parallel_asNothing {x y : Build Unit} (h : Parallel (fun _ _ _ _ => True) x y s t) :
    Parallel Item.Twins (asNothing x) (asNothing y) s t := by
  apply parallel_bind h
  intro s' t' _ _ h' _ _ _
  exact parallel_pure h' ⟨trivial, rfl⟩

/-- A wire for a value is made in the same way whatever the value is, as long as there is one where
values are kept. -/
theorem parallel_supply (h : s.Twins t) (name : String) (isPublic : Bool)
    {x y : Except Fault (Option Int)} (hx : s.witnessed = true → ∃ v, x = .ok (some v))
    (hy : t.witnessed = true → ∃ v, y = .ok (some v)) :
    Parallel Item.Twins (asItem (supply name isPublic x)) (asItem (supply name isPublic y))
      s t := by
  apply parallel_asItem
  apply parallel_wire h
  · apply R1CS.wireValue_isOk
    intro hw
    obtain ⟨v, rfl⟩ := hx hw
    exact ⟨v, rfl⟩
  · apply R1CS.wireValue_isOk
    intro hw
    obtain ⟨v, rfl⟩ := hy hw
    exact ⟨v, rfl⟩

theorem run_parameter (around : Surroundings) (registers : Registers) (name : String)
    (isPublic : Bool) (given : Option (List (String × Operand))) :
    ∃ x, run around registers (.parameter name isPublic given) = asItem (supply name isPublic x) ∧
      (Supplied around registers (.parameter name isPublic given) → ∃ v, x = .ok (some v)) := by
  cases given with
  | none =>
    refine ⟨_, rfl, ?_⟩
    rintro ⟨v, hv⟩
    exact ⟨v, by rw [hv]; rfl⟩
  | some table => exact ⟨_, rfl, id⟩

theorem parallel_parameter (h : s.Twins t) (name : String) (isPublic : Bool)
    {given given' : Option (List (String × Operand))} {registers' : Registers}
    (hs : s.witnessed = true → Supplied around registers (.parameter name isPublic given))
    (ht : t.witnessed = true → Supplied around' registers' (.parameter name isPublic given')) :
    Parallel Item.Twins (run around registers (.parameter name isPublic given))
      (run around' registers' (.parameter name isPublic given')) s t := by
  obtain ⟨x, hrun, hx⟩ := run_parameter around registers name isPublic given
  obtain ⟨y, hrun', hy⟩ := run_parameter around' registers' name isPublic given'
  rw [hrun, hrun']
  exact parallel_supply h name isPublic (fun hw => hx (hs hw)) fun hw => hy (ht hw)

/-- The function of a wire is the same in both systems, and has a value in each that keeps any. -/
theorem parallel_formula (h : s.Twins t) (hr : registers.Within s) {formula : Formula}
    (hplain : formula.IsPlain) (name : Option String)
    (hs : s.witnessed = true → formula.ReadsLinear registers)
    (ht : t.witnessed = true → formula.ReadsLinear (registers.withOwner (some t.tag))) :
    Parallel Item.Twins (asItem (Build.wire (fun read => formula.eval registers read) name))
      (asItem (Build.wire (fun read => formula.eval (registers.withOwner (some t.tag)) read) name))
      s t := by
  apply parallel_asItem
  apply parallel_wire h
  · apply R1CS.wireValue_isOk
    exact fun hw => Formula.eval_isOk h.left hw hr hplain (hs hw)
  · apply R1CS.wireValue_isOk
    exact fun hw => Formula.eval_isOk h.right hw (hr.withOwner h) hplain (ht hw)

theorem parallel_run_div (h : s.Twins t) (hr : registers.Within s) {x y : Operand}
    (hx : x.IsPlain) (hy : y.IsPlain) (message : Option String) :
    Parallel Item.Twins (run around registers (.div x y message))
      (run around' (registers.withOwner (some t.tag)) (.div x y message)) s t := by
  apply parallel_bind (Operand.parallel_item h hr hx rfl)
  rintro s₁ t₁ dividend _ h₁ hs₁ ht₁ ⟨hdividend, rfl⟩
  apply parallel_bind (parallel_expression h₁ hdividend)
  rintro s₂ t₂ a _ h₂ hs₂ ht₂ ⟨ha, rfl⟩
  apply parallel_bind (Operand.parallel_linear h₂ (hr.extend (hs₁.trans hs₂)) hy
    (ht₂.tag.trans ht₁.tag))
  rintro s₃ t₃ b _ h₃ hs₃ ht₃ ⟨hb, rfl⟩
  rw [Item.isFlag_withOwner, ← ht₃.tag]
  exact parallel_asItem (parallel_div h₃ (ha.extend hs₃) hb _ _)

theorem parallel_run_sum (h : s.Twins t) (hr : registers.Within s) {xs : List Operand}
    {start : Operand} (hxs : ∀ x ∈ xs, x.IsPlain) (hstart : start.IsPlain) :
    Parallel Item.Twins (run around registers (.sum xs start))
      (run around' (registers.withOwner (some t.tag)) (.sum xs start)) s t := by
  apply parallel_bind (Operand.parallel_linear h hr hstart rfl)
  rintro s₁ t₁ first _ h₁ hs₁ ht₁ ⟨hfirst, rfl⟩
  apply parallel_bind (parallel_mapM xs (fun hab hs' ht' _ => hab.extend hs' ht')
    (fun x hx {_ _} h' hs' ht' => Operand.parallel_linear h' (hr.extend (hs₁.trans hs'))
      (hxs x hx) (ht'.tag.trans ht₁.tag)) h₁)
  intro s₂ t₂ rest rest' h₂ hs₂ ht₂ hrest
  obtain ⟨hwithin, hmap⟩ := Linear.forall₂_twins hrest
  rw [hmap, ← ht₂.tag]
  exact parallel_asItem (parallel_sum h₂ (hfirst.extend hs₂) hwithin)

theorem parallel_run_select (h : s.Twins t) (hr : registers.Within s) {b x y : Operand}
    (hb : b.IsPlain) (hx : x.IsPlain) (hy : y.IsPlain) :
    Parallel Item.Twins (run around registers (.select b x y))
      (run around' (registers.withOwner (some t.tag)) (.select b x y)) s t := by
  apply parallel_bind (Operand.parallel_item h hr hb rfl)
  rintro s₁ t₁ b _ h₁ hs₁ ht₁ ⟨hb, rfl⟩
  apply parallel_bind (Operand.parallel_item h₁ (hr.extend hs₁) hx ht₁.tag)
  rintro s₂ t₂ x _ h₂ hs₂ ht₂ ⟨hx, rfl⟩
  apply parallel_bind (Operand.parallel_item h₂ (hr.extend (hs₁.trans hs₂)) hy
    (ht₂.tag.trans ht₁.tag))
  rintro s₃ t₃ y _ h₃ hs₃ ht₃ ⟨hy, rfl⟩
  rw [← ht₂.tag, ← ht₃.tag]
  exact (parallel_select b).1 x y s₃ t₃ h₃ (hb.extend (hs₂.trans hs₃)) (hx.extend hs₃) hy

theorem parallel_run_gate (h : s.Twins t) (hr : registers.Within s) {x y z : Operand}
    (hx : x.IsPlain) (hy : y.IsPlain) (hz : z.IsPlain) (message : Option String) :
    Parallel Item.Twins (run around registers (.gate x y z message))
      (run around' (registers.withOwner (some t.tag)) (.gate x y z message)) s t := by
  apply parallel_bind (Operand.parallel_item h hr hz rfl)
  rintro s₁ t₁ output _ h₁ hs₁ ht₁ ⟨houtput, rfl⟩
  apply parallel_bind (Operand.parallel_linear h₁ (hr.extend hs₁) hx ht₁.tag)
  rintro s₂ t₂ a _ h₂ hs₂ ht₂ ⟨ha, rfl⟩
  apply parallel_bind (Operand.parallel_linear h₂ (hr.extend (hs₁.trans hs₂)) hy
    (ht₂.tag.trans ht₁.tag))
  rintro s₃ t₃ b _ h₃ hs₃ ht₃ ⟨hb, rfl⟩
  rw [Item.isFlag_withOwner, ← ht₂.tag, ← ht₃.tag]
  apply parallel_bind (parallel_expression h₃ (houtput.extend (hs₂.trans hs₃)))
  rintro s₄ t₄ c _ h₄ hs₄ ht₄ ⟨hc, rfl⟩
  rw [← ht₄.tag]
  exact parallel_asNothing
    (parallel_gate h₄ (ha.extend (hs₃.trans hs₄)) (hb.extend hs₄) hc _ _)

theorem parallel_same (h : s.Twins t) (hr : registers.Within s) (i : Instruction) (hi : i.IsPlain)
    (hs : s.witnessed = true → i.Supplied around registers)
    (ht : t.witnessed = true → i.Supplied around' (registers.withOwner (some t.tag))) :
    Parallel Item.Twins (i.run around registers)
      (i.run around' (registers.withOwner (some t.tag))) s t := by
  cases i with
  | publicInput name value => exact parallel_supply h name true hs ht
  | privateInput name value => exact parallel_supply h name false hs ht
  | parameter name isPublic given => exact parallel_parameter h name isPublic hs ht
  | wire formula name => exact parallel_formula h hr hi name hs ht
  | add x y =>
    exact Operand.parallel_bind_linear₂ h hr hi.1 hi.2
      fun h' ha hb => parallel_asItem (parallel_add h' ha hb)
  | sub x y =>
    exact Operand.parallel_bind_linear₂ h hr hi.2 hi.1
      fun h' hb ha => parallel_asItem (parallel_sub h' ha hb)
  | mul x y message =>
    exact Operand.parallel_bind_linear₂ h hr hi.1 hi.2
      fun h' ha hb => parallel_asItem (parallel_mul h' ha hb _)
  | div x y message => exact parallel_run_div h hr hi.1 hi.2 message
  | not x =>
    exact Operand.parallel_bind_linear h hr hi
      fun h' ha => parallel_asItem (parallel_sub h' (x := .constant 1) trivial ha)
  | and x y =>
    exact Operand.parallel_bind_linear₂ h hr hi.1 hi.2
      fun h' ha hb => parallel_asItem (parallel_mul h' ha hb _)
  | sum xs start => exact parallel_run_sum h hr hi.1 hi.2
  | select b x y => exact parallel_run_select h hr hi.1 hi.2.1 hi.2.2
  | gate x y z message => exact parallel_run_gate h hr hi.1 hi.2.1 hi.2.2 message
  | assertZero x message =>
    exact Operand.parallel_bind_linear h hr hi
      fun h' ha => parallel_asNothing
        (parallel_gate h' (x := .constant 0) (y := .constant 0) trivial trivial ha _ false)
  | assertBit x message =>
    exact Operand.parallel_bind_linear h hr hi
      fun h' ha => parallel_asNothing (parallel_gate h' ha ha ha _ false)
  | connect x y message =>
    exact Operand.parallel_bind_linear₂ h hr hi.2 hi.1
      fun h' hb ha => parallel_asNothing (parallel_connect h' ha hb _)
  | read x => exact absurd hi id
  | ask query => exact absurd hi id
  | freeze =>
    apply parallel_asNothing
    exact parallel_of_ok (run_freeze s) (run_freeze t) h.freeze (R1CS.grows_freeze s).extends_
      (R1CS.grows_freeze t).extends_ trivial

theorem parallel_run (h : s.Twins t) (hr : registers.Within s) {i j : Instruction}
    (halike : Alike i j) (hi : i.IsPlain)
    (hs : s.witnessed = true → i.Supplied around registers)
    (ht : t.witnessed = true → j.Supplied around' (registers.withOwner (some t.tag))) :
    Parallel Item.Twins (i.run around registers)
      (j.run around' (registers.withOwner (some t.tag))) s t := by
  cases halike with
  | same => exact parallel_same h hr i hi hs ht
  | publicInput name hx hy => exact parallel_supply h name true hs ht
  | privateInput name hx hy => exact parallel_supply h name false hs ht
  | parameter name isPublic hx hy => exact parallel_parameter h name isPublic hs ht

end Instruction

end RankOne
