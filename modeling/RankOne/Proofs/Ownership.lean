import RankOne.Proofs.Growth

/-!
# Expressions that a system has made

What operations answer is over wires that the system has, and is owned by the system. Programs that
write no combination down by hand therefore never meet one that is foreign, and in a system with
values each of their expressions can be read.
-/

set_option autoImplicit false

namespace RankOne

def Linear.Within (s : R1CS) : Linear → Prop
  | .constant _ => True
  | .combination x => x.owner = some s.tag ∧ ∀ term ∈ x.terms, 0 ≤ term.1 ∧ term.1 < s.wireCount

theorem R1CS.WellFormed.wireCount_pos {s : R1CS} (h : s.WellFormed) : 0 < s.wireCount := by
  have hhead := h.head_values
  rw [← h.length_values]
  cases hvalues : s.values with
  | nil => simp [hvalues] at hhead
  | cons v rest => exact Nat.succ_pos _

namespace Linear
variable {s t : R1CS} {x y : Linear}

theorem Within.extend (h : x.Within s) (hst : s.Extends t) : x.Within t := by
  cases x with
  | constant k => trivial
  | combination x =>
    obtain ⟨howner, hterms⟩ := h
    refine ⟨by rw [howner, hst.tag], fun term hterm => ?_⟩
    have hle := hst.wireCount
    have hlt := hterms term hterm
    omega

theorem Within.owns (h : x.Within s) : s.owns x = true := by
  cases x with
  | constant k => rfl
  | combination x =>
    obtain ⟨howner, hterms⟩ := h
    exact R1CS.owns_combination.mpr ⟨howner, fun term hterm => (hterms term hterm).2⟩

/-- In a system with values an expression of its own can be read. -/
theorem Within.reads (h : x.Within s) (hs : s.WellFormed) (hw : s.witnessed = true) :
    s.Reads x := by
  cases x with
  | constant k => trivial
  | combination x =>
    intro term hterm
    obtain ⟨hlow, hhigh⟩ := h.2 term hterm
    have hlt : term.1.toNat < s.values.length := by
      rw [hs.length_values]
      omega
    have hplace : placeAmong s.values.length term.1 = some term.1.toNat := by
      rw [placeAmong, if_pos hlow, if_pos hlt]
    have hsome := hs.isSome_values _ (List.getElem_mem hlt)
    rw [hw] at hsome
    obtain ⟨v, hv⟩ := Option.isSome_iff_exists.mp hsome
    exact ⟨v, by rw [R1CS.slot?, hplace, Option.bind_some, List.getElem?_eq_getElem hlt, hv]⟩

/-- Values for all wires make an expression of the system readable, whatever they are. -/
theorem Within.reads_assign (h : x.Within s) {w : List Int} (hlen : w.length = s.wireCount) :
    (s.assign w).Reads x := by
  cases x with
  | constant k => trivial
  | combination x =>
    intro term hterm
    obtain ⟨hlow, hhigh⟩ := h.2 term hterm
    have hlt : term.1.toNat < (w.map some).length := by
      rw [List.length_map, hlen]
      omega
    have hplace : placeAmong (w.map some).length term.1 = some term.1.toNat := by
      rw [placeAmong, if_pos hlow, if_pos hlt]
    have hlt' : term.1.toNat < w.length := by rwa [List.length_map] at hlt
    refine ⟨w[term.1.toNat], ?_⟩
    rw [R1CS.slot?, R1CS.assign, hplace, Option.bind_some, List.getElem?_map,
      List.getElem?_eq_getElem hlt', Option.map_some]

theorem within_wireAt {m : ℕ} (hm : m < s.wireCount) : (s.wireAt m).Within s := by
  refine ⟨rfl, fun term hterm => ?_⟩
  obtain rfl := List.mem_singleton.mp hterm
  exact ⟨Int.natCast_nonneg m, Int.ofNat_lt.mpr hm⟩

theorem Within.key_range (h : x.Within s) (hpos : 0 < s.wireCount) {k : Int}
    (hk : k ∈ x.terms.map Prod.fst) : 0 ≤ k ∧ k < s.wireCount := by
  cases x with
  | constant a =>
    obtain rfl : k = 0 := by simpa [terms] using hk
    exact ⟨le_refl _, Int.ofNat_lt.mpr hpos⟩
  | combination x =>
    obtain ⟨term, hterm, rfl⟩ := List.mem_map.mp hk
    exact h.2 term hterm

theorem within_sum (hpos : 0 < s.wireCount) {xs : List Linear} (h : ∀ x ∈ xs, x.Within s) :
    (sum s.tag xs).Within s := by
  simp only [sum, ofTerms]
  split
  · trivial
  · refine ⟨rfl, fun term hterm => ?_⟩
    have hkey := (keys_normalTerms_sublist (collect xs)).subset (List.mem_map_of_mem hterm)
    obtain ⟨x, hx, hk⟩ := mem_keys_collect hkey
    exact (h x hx).key_range hpos hk

theorem within_multiple {x : Combination} (h : (combination x).Within s) (k : Int) :
    (multiple s.tag x k).Within s := by
  simp only [multiple]
  split
  · trivial
  · refine ⟨rfl, fun term hterm => ?_⟩
    obtain ⟨term', hterm', rfl⟩ := List.mem_map.mp hterm
    exact h.2 term' hterm'

theorem within_times (h : x.Within s) (k : Int) : (times s.tag k x).Within s := by
  cases x with
  | constant a => trivial
  | combination x => exact within_multiple h k

theorem within_product? (hx : x.Within s) (hy : y.Within s) {p : Linear}
    (h : product? s.tag x y = some p) : p.Within s := by
  cases x with
  | constant a =>
    cases y with
    | constant b => obtain rfl := Option.some.inj h; trivial
    | combination y => obtain rfl := Option.some.inj h; exact within_multiple hy a
  | combination x =>
    cases y with
    | constant b => obtain rfl := Option.some.inj h; exact within_multiple hx b
    | combination y => simp [product?] at h

theorem within_difference (hpos : 0 < s.wireCount) (hx : x.Within s) (hy : y.Within s) :
    (difference s.tag x y).Within s := by
  apply within_sum hpos
  intro z hz
  simp only [List.mem_cons, List.not_mem_nil, or_false] at hz
  rcases hz with rfl | rfl | rfl
  · trivial
  · exact hx
  · exact within_times hy _

end Linear

namespace R1CS
variable {s : R1CS}

theorem access_of_within {xs : List Linear} (h : ∀ x ∈ xs, x.Within s) :
    s.access xs = if s.frozen then .error .frozen else .ok () := by
  rw [access]
  split
  · rfl
  · exact if_pos (List.all_eq_true.mpr fun x hx => (h x hx).owns)

theorem access_eq_ok (hf : s.frozen = false) {xs : List Linear} (h : ∀ x ∈ xs, x.Within s) :
    s.access xs = .ok () := by
  rw [access_of_within h, hf]
  rfl

/-- A value is computed where none is kept, and where its function succeeds. -/
theorem wireValue_isOk {value : Reader → Except Fault Int}
    (h : s.witnessed = true → ∃ w, value s.read = .ok w) : ∃ v, s.wireValue value = .ok v := by
  by_cases hw : s.witnessed = true
  · obtain ⟨w, hw'⟩ := h hw
    exact ⟨some (reduce w), by rw [wireValue, if_pos hw, hw']⟩
  · exact ⟨none, by rw [wireValue, if_neg hw]⟩

theorem productValue_isOk (hs : s.WellFormed) {x y : Linear} (hx : x.Within s) (hy : y.Within s) :
    ∃ v, s.wireValue (Build.productValue x y) = .ok v := by
  apply wireValue_isOk
  intro hw
  obtain ⟨a, ha, -⟩ := read_eq_ok (hx.reads hs hw)
  obtain ⟨b, hb, -⟩ := read_eq_ok (hy.reads hs hw)
  exact ⟨a * b, by simp only [Build.productValue, ha, hb]⟩

theorem quotientValue_isOk (hs : s.WellFormed) {x y : Linear} (hx : x.Within s)
    (hy : y.Within s) : ∃ v, s.wireValue (Build.quotientValue x y) = .ok v := by
  apply wireValue_isOk
  intro hw
  obtain ⟨a, ha, -⟩ := read_eq_ok (hx.reads hs hw)
  obtain ⟨b, hb, -⟩ := read_eq_ok (hy.reads hs hw)
  by_cases hzero : b = 0
  · exact ⟨0, by simp only [Build.quotientValue, hb, hzero, if_true]⟩
  · exact ⟨a * Build.inverse b, by simp only [Build.quotientValue, hb, hzero, if_false, ha]⟩

end R1CS

def Gate.Within (s : R1CS) (g : Gate) : Prop :=
  g.left.Within s ∧ g.right.Within s ∧ g.output.Within s

theorem Gate.Within.extend {s t : R1CS} {g : Gate} (h : g.Within s) (hst : s.Extends t) :
    g.Within t :=
  ⟨h.1.extend hst, h.2.1.extend hst, h.2.2.extend hst⟩

namespace Item

mutual

def combinations : Item → List Combination
  | .scalar (.combination x) => [x]
  | .list items => combinationsAll items
  | .tuple items => combinationsAll items
  | _ => []

def combinationsAll : List Item → List Combination
  | [] => []
  | x :: rest => combinations x ++ combinationsAll rest

end

variable {K K' : Combination → Prop} {x : Item}

def Over (K : Combination → Prop) (x : Item) : Prop := ∀ c ∈ x.combinations, K c

def AllOver (K : Combination → Prop) (xs : List Item) : Prop := ∀ c ∈ combinationsAll xs, K c

theorem allOver_cons {xs : List Item} : AllOver K (x :: xs) ↔ x.Over K ∧ AllOver K xs := by
  rw [AllOver, combinationsAll, List.forall_mem_append]
  rfl

theorem allOver_iff {xs : List Item} : AllOver K xs ↔ ∀ x ∈ xs, x.Over K := by
  induction xs with
  | nil => simp [AllOver, combinationsAll]
  | cons x rest ih => rw [allOver_cons, ih, List.forall_mem_cons]

theorem over_list {xs : List Item} (h : ∀ x ∈ xs, x.Over K) : (list xs).Over K :=
  allOver_iff.mpr h

theorem over_tuple {xs : List Item} (h : ∀ x ∈ xs, x.Over K) : (tuple xs).Over K :=
  allOver_iff.mpr h

theorem Over.mono (h : x.Over K) (hK : ∀ c, K c → K' c) : x.Over K' :=
  fun c hc => hK c (h c hc)

theorem over_integer (n : Int) : (integer n).Over K := by
  simp [Over, integer, combinations]

theorem over_scalar {y : Linear} (h : ∀ c, y = .combination c → K c) : (scalar y).Over K := by
  cases y with
  | constant k => simp [Over, combinations]
  | combination y => simpa [Over, combinations] using h y rfl

theorem Over.linear? (h : x.Over K) {c : Combination} (hc : x.linear? = some (.combination c)) :
    K c := by
  cases x with
  | scalar y =>
    obtain rfl := Option.some.inj hc
    exact h c (List.mem_singleton_self c)
  | flag b => cases Option.some.inj hc
  | _ => simp [Item.linear?] at hc

theorem Over.entries? (h : x.Over K) {items : List Item} (hx : x.entries? = some items) :
    AllOver K items := by
  cases x with
  | list xs => obtain rfl := Option.some.inj hx; exact h
  | tuple xs => obtain rfl := Option.some.inj hx; exact h
  | text value =>
    obtain rfl := Option.some.inj hx
    simp [allOver_iff, Over, combinations]
  | bytes value =>
    obtain rfl := Option.some.inj hx
    simp [allOver_iff, over_integer]
  | _ => simp [Item.entries?] at hx

mutual

def Within (s : R1CS) : Item → Prop
  | .scalar x => x.Within s
  | .list items => WithinAll s items
  | .tuple items => WithinAll s items
  | _ => True

def WithinAll (s : R1CS) : List Item → Prop
  | [] => True
  | x :: rest => Within s x ∧ WithinAll s rest

end

variable {s t : R1CS}

mutual

theorem within_iff_over {x : Item} :
    x.Within s ↔ x.Over fun c => (Linear.combination c).Within s := by
  cases x with
  | scalar y => cases y <;> simp [Within, Linear.Within, Over, combinations]
  | list items => exact withinAll_iff_allOver
  | tuple items => exact withinAll_iff_allOver
  | _ => simp [Within, Over, combinations]

theorem withinAll_iff_allOver {items : List Item} :
    WithinAll s items ↔ AllOver (fun c => (Linear.combination c).Within s) items := by
  cases items with
  | nil => simp [WithinAll, AllOver, combinationsAll]
  | cons x rest => rw [WithinAll, allOver_cons, within_iff_over, withinAll_iff_allOver]

end

theorem Within.extend {x : Item} (h : x.Within s) (hst : s.Extends t) : x.Within t :=
  within_iff_over.mpr ((within_iff_over.mp h).mono fun _ hc => hc.extend hst)

theorem WithinAll.extend {items : List Item} (h : WithinAll s items) (hst : s.Extends t) :
    WithinAll t items :=
  withinAll_iff_allOver.mpr fun c hc => (withinAll_iff_allOver.mp h c hc).extend hst

theorem Within.linear? {x : Item} (h : x.Within s) {y : Linear} (hy : x.linear? = some y) :
    y.Within s := by
  cases y with
  | constant k => trivial
  | combination c => exact (within_iff_over.mp h).linear? hy

theorem Within.entries? {x : Item} (h : x.Within s) {items : List Item}
    (hx : x.entries? = some items) : WithinAll s items :=
  withinAll_iff_allOver.mpr ((within_iff_over.mp h).entries? hx)

end Item

namespace Registers
variable {s t : R1CS} {registers : Registers}

def Within (s : R1CS) (registers : Registers) : Prop :=
  ∀ entry ∈ registers, entry.2.Within s

theorem Within.extend (h : Within s registers) (hst : s.Extends t) : Within t registers :=
  fun entry hentry => (h entry hentry).extend hst

theorem Within.put (h : Within s registers) {item : Item} (hitem : item.Within s)
    (name : String) : Within s (Entries.put name item registers) :=
  Entries.forall_put h name hitem

theorem Within.store (h : Within s registers) {item : Item} (hitem : item.Within s)
    (target : Option String) : Within s (Step.store registers target item) := by
  cases target with
  | none => exact h
  | some name => exact h.put hitem name

end Registers

namespace Step

def start (one : String) (s : R1CS) : Registers :=
  [(one, .scalar (s.wireAt 0))]

theorem within_start {s : R1CS} (one : String) (hs : s.WellFormed) : (start one s).Within s := by
  intro entry hentry
  obtain rfl := List.mem_singleton.mp hentry
  exact Linear.within_wireAt hs.wireCount_pos

end Step

namespace Operand

mutual

def IsPlain : Operand → Prop
  | .raw _ => False
  | .list items => AllPlain items
  | .tuple items => AllPlain items
  | _ => True

def AllPlain : List Operand → Prop
  | [] => True
  | x :: rest => IsPlain x ∧ AllPlain rest

end

variable {K : Combination → Prop} {s : R1CS} {registers : Registers}

mutual

theorem over_resolve (hr : ∀ entry ∈ registers, entry.2.Over K) {x : Operand}
    (hx : x.IsPlain) {item : Item} (h : x.resolve registers = .ok item) : item.Over K := by
  cases x with
  | constant value => obtain rfl := Except.ok.inj h; exact Item.over_integer value
  | register name =>
    simp only [resolve] at h
    split at h
    · rename_i found hget
      obtain rfl := Except.ok.inj h
      exact hr (name, found) (Entries.mem_of_get? hget)
    · simp at h
  | raw x => exact absurd hx id
  | list items =>
    simp only [resolve] at h
    split at h
    · rename_i found hall
      obtain rfl := Except.ok.inj h
      exact over_resolveAll hr hx hall
    · simp at h
  | tuple items =>
    simp only [resolve] at h
    split at h
    · rename_i found hall
      obtain rfl := Except.ok.inj h
      exact over_resolveAll hr hx hall
    · simp at h
  | nothing =>
    obtain rfl := Except.ok.inj h
    simp [Item.Over, Item.combinations]

theorem over_resolveAll (hr : ∀ entry ∈ registers, entry.2.Over K) {xs : List Operand}
    (hxs : AllPlain xs) {items : List Item} (h : resolveAll registers xs = .ok items) :
    Item.AllOver K items := by
  cases xs with
  | nil =>
    obtain rfl := Except.ok.inj h
    simp [Item.AllOver, Item.combinationsAll]
  | cons x rest =>
    simp only [resolveAll] at h
    split at h
    · simp at h
    · rename_i item hitem
      split at h
      · rename_i found hall
        obtain rfl := Except.ok.inj h
        exact Item.allOver_cons.mpr
          ⟨over_resolve hr hxs.1 hitem, over_resolveAll hr hxs.2 hall⟩
      · simp at h

end

theorem within_resolve (hr : Registers.Within s registers) {x : Operand} (hx : x.IsPlain)
    {item : Item} (h : x.resolve registers = .ok item) : item.Within s :=
  Item.within_iff_over.mpr
    (over_resolve (fun entry hentry => Item.within_iff_over.mp (hr entry hentry)) hx h)

end Operand

namespace Formula

mutual

def IsPlain : Formula → Prop
  | .leaf x => x.IsPlain
  | .sum terms => AllPlain terms
  | .product factors => AllPlain factors
  | .negative x => IsPlain x
  | .apply _ arguments => AllPlain arguments

def AllPlain : List Formula → Prop
  | [] => True
  | x :: rest => IsPlain x ∧ AllPlain rest

end

end Formula

/-- Whether an instruction builds, with operands that are constants or earlier results. Reading a
value and asking the system about itself do not count as building. -/
def Instruction.IsPlain : Instruction → Prop
  | .publicInput _ value => value.IsPlain
  | .privateInput _ value => value.IsPlain
  | .parameter _ _ given => ∀ table ∈ given, ∀ entry ∈ table, entry.2.IsPlain
  | .wire formula _ => formula.IsPlain
  | .add x y => x.IsPlain ∧ y.IsPlain
  | .sub x y => x.IsPlain ∧ y.IsPlain
  | .mul x y _ => x.IsPlain ∧ y.IsPlain
  | .div x y _ => x.IsPlain ∧ y.IsPlain
  | .not x => x.IsPlain
  | .and x y => x.IsPlain ∧ y.IsPlain
  | .sum xs start => (∀ x ∈ xs, x.IsPlain) ∧ start.IsPlain
  | .select b t f => b.IsPlain ∧ t.IsPlain ∧ f.IsPlain
  | .gate x y z _ => x.IsPlain ∧ y.IsPlain ∧ z.IsPlain
  | .assertZero x _ => x.IsPlain
  | .assertBit x _ => x.IsPlain
  | .connect x y _ => x.IsPlain ∧ y.IsPlain
  | .read _ => False
  | .ask _ => False
  | .freeze => True

namespace Factorization

def steps : List Step :=
  [⟨.parameter "N" true none, some "N"⟩, ⟨.parameter "p" false none, some "p"⟩,
    ⟨.parameter "q" false none, some "q"⟩,
    ⟨.gate (.register "p") (.register "q") (.register "N") (some "p * q = N"), none⟩]

def factors : Witness Unit :=
  [("N", .number 391), ("p", .number 17), ("q", .number 23)]

theorem isPlain_steps : ∀ step ∈ steps, step.instruction.IsPlain := by
  simp [steps, Instruction.IsPlain, Operand.IsPlain]

end Factorization

end RankOne
