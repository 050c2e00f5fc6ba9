import RankOne.Proofs.Regular

/-!
# Calls with operands from anywhere

The operands of a call are integers and combinations that some system has handed out, this one or
another. What a call answers is over wires of the system, unless it is an operand handed back or a
part of a layout, which has lost its owner. So no call brings a combination into the world that
belongs to a system but is not over its wires.
-/

set_option autoImplicit false

namespace RankOne

namespace Item
variable {K : Combination → Prop} {s t : R1CS}

def Source (K : Combination → Prop) (t : R1CS) (c : Combination) : Prop :=
  K c ∨ (Linear.combination c).Within t ∨ c.owner = none

theorem Source.extend {c : Combination} (h : Source K s c) (hst : s.Extends t) : Source K t c :=
  h.imp id fun h => h.imp (fun h => h.extend hst) id

theorem over_source_of_within {y : Linear} (h : y.Within s) : (scalar y).Over (Source K s) :=
  over_scalar fun _ hc => .inr (.inl (hc ▸ h))

end Item

section
open Build Item
variable {K : Combination → Prop} {s : R1CS} {β : Type} {Q : R1CS → β → Prop}

theorem Build.safe_expression_bind (h : s.Hosts K) {x : Item} (hx : x.Over K)
    {f : Linear → Build β} (hf : ∀ y, y.Within s → Safe Q (f y) s) :
    Safe Q (expression x >>= f) s := by
  apply safe_look (still_expression x) h.regular
  intro y hy
  apply hf
  rw [expression] at hy
  split at hy
  · rename_i z hz
    rw [run_bind, run_own] at hy
    cases haccess : s.access [z] with
    | error e => rw [haccess] at hy; cases hy
    | ok u =>
      rw [haccess] at hy
      obtain rfl : z = y := Except.ok.inj hy
      have howns := (R1CS.access_eq_ok_iff.mp haccess).2 z (List.mem_singleton_self z)
      cases z with
      | constant k => trivial
      | combination c =>
        have howner : c.owner = some s.tag := by
          simp only [R1CS.owns, Bool.and_eq_true, beq_iff_eq] at howns
          exact howns.1
        exact h.within c (hx.linear? hz) howner
  · rw [run_bind, run_own] at hy
    cases haccess : s.access [] with
    | error e => rw [haccess] at hy; cases hy
    | ok u => rw [haccess] at hy; cases hy

variable {registers : Registers}

theorem Operand.safe_item_bind (h : s.Regular) (hr : ∀ entry ∈ registers, entry.2.Over K)
    {x : Operand} (hx : x.IsPlain) {f : Item → Build β}
    (hf : ∀ item, item.Over K → Safe Q (f item) s) : Safe Q (x.item registers >>= f) s := by
  apply safe_look (x.still_item registers) h
  intro item hitem
  apply hf
  rw [Operand.item] at hitem
  split at hitem
  · rename_i found hfound
    obtain rfl : found = item := Except.ok.inj hitem
    exact over_resolve hr hx hfound
  · cases hitem

theorem Operand.safe_linear_bind (h : s.Hosts K) (hr : ∀ entry ∈ registers, entry.2.Over K)
    {x : Operand} (hx : x.IsPlain) {f : Linear → Build β}
    (hf : ∀ y, y.Within s → Safe Q (f y) s) : Safe Q (x.linear registers >>= f) s := by
  rw [Operand.linear, bind_assoc]
  exact safe_item_bind h.regular hr hx fun item hitem => safe_expression_bind h hitem hf

theorem Operand.safe_mapM_linear (h : s.Hosts K) (hr : ∀ entry ∈ registers, entry.2.Over K)
    {xs : List Operand} (hxs : ∀ x ∈ xs, x.IsPlain) :
    Safe (fun t ys => ∀ y ∈ ys, y.Within t) (xs.mapM fun x => x.linear registers) s := by
  induction xs with
  | nil => exact safe_pure h.regular (by simp)
  | cons x rest ih =>
    rw [List.forall_mem_cons] at hxs
    rw [List.mapM_cons]
    apply safe_linear_bind h hr hxs.1
    intro y hy
    apply safe_bind (ih hxs.2)
    intro ys t hst ht hys
    exact safe_pure ht (List.forall_mem_cons.mpr ⟨hy.extend hst.extends_, hys⟩)

theorem Build.safe_asItem {x : Build Linear} (hx : Safe Own x s) :
    Safe (fun t item => item.Over (Source K t)) (Instruction.asItem x) s :=
  safe_map hx _ fun _ _ hy => over_source_of_within hy

theorem Build.safe_asNothing {x : Build Unit} (hx : Safe (fun _ _ => True) x s) :
    Safe (fun t item => item.Over (Source K t)) (Instruction.asNothing x) s :=
  safe_bind hx fun _ _ _ ht _ => safe_pure ht (by simp [Over, combinations])

theorem Build.safe_selectBetween (h : s.Hosts K) {b t f : Item} (hb : b.Over K) (ht : t.Over K)
    (hf : f.Over K) :
    Safe (fun u item => item.Over (Source K u)) (selectBetween b t f) s :=
  safe_expression_bind h hf fun _ hy => safe_expression_bind h ht fun _ hx =>
    safe_expression_bind h hb fun _ hbit =>
      safe_asItem (safe_selectScalar h.regular hbit hx hy)

theorem Build.safe_select {b : Item} (hb : b.Over K) :
    (∀ t f : Item, ∀ s : R1CS, s.Hosts K → t.Over K → f.Over K →
      Safe (fun u item => item.Over (Source K u)) (select b t f) s) ∧
    ∀ ts fs : List Item, ∀ s : R1CS, s.Hosts K → AllOver K ts → AllOver K fs →
      Safe (fun u items => AllOver (Source K u) items) (selectAll b ts fs) s := by
  apply select.mutual_induct b
    (fun t f => ∀ s : R1CS, s.Hosts K → t.Over K → f.Over K →
      Safe (fun u item => item.Over (Source K u)) (select b t f) s)
    (fun ts fs => ∀ s : R1CS, s.Hosts K → AllOver K ts → AllOver K fs →
      Safe (fun u items => AllOver (Source K u) items) (selectAll b ts fs) s)
  case case1 =>
    intro t f hbit s h ht _
    rw [select_of_bit hbit]
    exact safe_pure h.regular (ht.mono fun c => .inl)
  case case2 =>
    intro t f hbit s h _ hf
    rw [select_of_bit hbit]
    exact safe_pure h.regular (hf.mono fun c => .inl)
  case case3 =>
    intro f hbit ts fs hfs ih s h ht hf
    simp only [select, hbit, hfs]
    exact safe_map (ih s h ht (hf.entries? hfs)) _ fun _ _ hitems => hitems
  case case4 =>
    intro f hbit ts hfs s h _ _
    simp only [select, hbit, hfs]
    exact safe_throw h.regular _
  case case5 =>
    intro f hbit ts fs hfs ih s h ht hf
    simp only [select, hbit, hfs]
    exact safe_map (ih s h ht (hf.entries? hfs)) _ fun _ _ hitems => hitems
  case case6 =>
    intro f hbit ts hfs s h _ _
    simp only [select, hbit, hfs]
    exact safe_throw h.regular _
  case case7 =>
    intro f hbit t hlist htuple s h ht hf
    rw [select_of_not_isSequence hbit (isSequence_eq_false hlist htuple)]
    exact safe_selectBetween h hb ht hf
  case case8 =>
    intro s h _ _
    rw [selectAll]
    exact safe_pure h.regular (by simp [AllOver, combinationsAll])
  case case9 =>
    intro t ts f fs iht ihts s h hts hfs
    rw [allOver_cons] at hts hfs
    rw [selectAll]
    apply safe_bind (iht s h hts.1 hfs.1)
    intro x u hsu hu hx
    apply safe_bind (ihts u (h.grow hsu hu) hts.2 hfs.2)
    intro xs v huv hv hxs
    exact safe_pure hv
      (allOver_cons.mpr ⟨hx.mono fun c hc => hc.extend huv.extends_, hxs⟩)
  case case10 =>
    intro ts fs hnil hcons s h _ _
    rw [selectAll_of_mismatch hnil hcons]
    exact safe_throw h.regular _

end

namespace Item
variable {K : Combination → Prop} {s : R1CS}

theorem over_text (value : String) : (text value).Over K := by
  simp [Over, combinations]

theorem over_flagged {z : Item} (hz : z.Over K) (y : Linear) (isFlag : Bool) :
    ((ofFlag? y isFlag).getD z).Over K := by
  cases y with
  | constant k => cases isFlag <;> simp_all [ofFlag?, Over, combinations]
  | combination y => exact hz

theorem over_ofGate {g : Gate} (hg : g.Within s) : (ofGate g).Over (Source K s) := by
  apply over_tuple
  simp only [List.forall_mem_cons, List.not_mem_nil, false_implies, implies_true, and_true]
  exact ⟨over_source_of_within hg.1, over_source_of_within hg.2.1,
    over_flagged (over_source_of_within hg.2.2) _ _, over_text _⟩

theorem over_ofPart (p : Shape.Part) : (ofPart p).Over (Source K s) := by
  cases p with
  | constant value => exact over_integer value
  | terms terms => exact over_scalar fun c hc => .inr (.inr (by cases hc; rfl))
  | label message => exact over_text message

theorem over_partsOf (g : Gate) : ∀ x ∈ partsOf g, x.Over (Source K s) := by
  simp only [partsOf, List.forall_mem_cons, List.not_mem_nil, false_implies, implies_true,
    and_true]
  exact ⟨over_ofPart _, over_ofPart _, over_flagged (over_ofPart _) _ _, over_text _⟩

end Item

/-- A shape reads back from whatever form it was stored in, and answers for itself. -/
theorem Query.answer_roundTrip [ShapeCoding] (shapes : List Shape) (s : R1CS) :
    roundTrip.answer shapes s = .ok (Item.ofCopy s.shape s.shape) := by
  rw [answer, ShapeCoding.parse_toBytes]

/-- What a system tells of itself has in it combinations of its own, or such as no system owns. -/
theorem Query.over_answer {K : Combination → Prop} {s : R1CS} (hs : s.Regular)
    (shapes : List Shape) {query : Query} {item : Item} (h : query.answer shapes s = .ok item) :
    item.Over (Item.Source K s) := by
  cases query with
  | inputs =>
    simp only [answer] at h
    split at h
    · obtain rfl := Except.ok.inj h
      exact Item.over_list (List.forall_mem_map.mpr fun v _ => Item.over_integer v)
    · cases h
  | check =>
    simp only [answer] at h
    split at h
    · rename_i message _
      obtain rfl := Except.ok.inj h
      cases message <;> simp [Item.Over, Item.ofMessage, Item.combinations]
    · cases h
  | values =>
    obtain rfl := Except.ok.inj h
    refine Item.over_list (List.forall_mem_map.mpr fun v _ => ?_)
    cases v <;> simp [Item.Over, Item.ofValue, Item.integer, Item.combinations]
  | entries =>
    obtain rfl := Except.ok.inj h
    refine Item.over_list (List.forall_mem_map.mpr fun entry _ => ?_)
    simp [Item.Over, Item.ofEntry, Item.integer, Item.combinations, Item.combinationsAll]
  | gates =>
    obtain rfl := Except.ok.inj h
    exact Item.over_list (List.forall_mem_map.mpr fun g hg => Item.over_ofGate (hs.within g hg))
  | counts =>
    obtain rfl := Except.ok.inj h
    simp [Item.Over, Item.ofCounts, Item.integer, Item.combinations, Item.combinationsAll]
  | names =>
    obtain rfl := Except.ok.inj h
    exact Item.over_list (List.forall_mem_map.mpr fun name _ => Item.over_text name)
  | layout =>
    obtain rfl := Except.ok.inj h
    apply Item.over_list
    intro x hx
    obtain ⟨g, -, hx⟩ := List.mem_flatMap.mp hx
    exact Item.over_partsOf g x hx
  | digest =>
    obtain rfl := Except.ok.inj h
    simp [Item.Over, Item.combinations]
  | roundTrip =>
    obtain rfl := Except.ok.inj ((answer_roundTrip shapes s).symm.trans h)
    simp [Item.Over, Item.ofCopy, Item.ofCounts, Item.integer, Item.combinations,
      Item.combinationsAll]
  | same other =>
    simp only [answer] at h
    split at h
    · obtain rfl := Except.ok.inj h
      simp [Item.Over, Item.combinations]
    · cases h

def Instruction.IsQuestion : Instruction → Prop
  | .read _ => True
  | .ask _ => True
  | _ => False

section
open Build
variable {K : Combination → Prop} {s : R1CS} {registers : Registers}

/-- One call: the system stays regular, also where the call fails, and the answer brings in no
combination of another system that was not around before. -/
theorem Instruction.safe_run (h : s.Hosts K) (around : Surroundings)
    (hr : ∀ entry ∈ registers, entry.2.Over K) {i : Instruction}
    (hi : i.IsPlain ∨ i.IsQuestion) :
    Safe (fun t item => item.Over (Item.Source K t)) (i.run around registers) s := by
  have hs := h.regular
  cases i with
  | publicInput name value => exact safe_asItem (safe_wire hs _ _)
  | privateInput name value => exact safe_asItem (safe_wire hs _ _)
  | parameter name isPublic given => cases given <;> exact safe_asItem (safe_wire hs _ _)
  | wire formula name => exact safe_asItem (safe_wire hs _ _)
  | add x y =>
    obtain ⟨hx, hy⟩ := hi.resolve_right id
    exact x.safe_linear_bind h hr hx fun a ha => y.safe_linear_bind h hr hy fun b hb =>
      safe_asItem (safe_sum hs (by simpa using ⟨trivial, ha, hb⟩))
  | sub x y =>
    obtain ⟨hx, hy⟩ := hi.resolve_right id
    exact y.safe_linear_bind h hr hy fun b hb => x.safe_linear_bind h hr hx fun a ha =>
      safe_asItem (safe_sub hs ha hb)
  | mul x y message =>
    obtain ⟨hx, hy⟩ := hi.resolve_right id
    exact x.safe_linear_bind h hr hx fun a ha => y.safe_linear_bind h hr hy fun b hb =>
      safe_asItem (safe_mul hs ha hb _)
  | div x y message =>
    obtain ⟨hx, hy⟩ := hi.resolve_right id
    exact x.safe_item_bind hs hr hx fun item hitem => safe_expression_bind h hitem fun a ha =>
      y.safe_linear_bind h hr hy fun b hb => safe_asItem (safe_div hs ha hb _ _)
  | not x =>
    have hx : x.IsPlain := hi.resolve_right id
    exact x.safe_linear_bind h hr hx fun a ha =>
      safe_asItem (safe_sub hs (x := .constant 1) trivial ha)
  | and x y =>
    obtain ⟨hx, hy⟩ := hi.resolve_right id
    exact x.safe_linear_bind h hr hx fun a ha => y.safe_linear_bind h hr hy fun b hb =>
      safe_asItem (safe_mul hs ha hb _)
  | sum xs start =>
    obtain ⟨hxs, hstart⟩ := hi.resolve_right id
    apply start.safe_linear_bind h hr hstart
    intro a ha
    apply safe_bind (Operand.safe_mapM_linear h hr hxs)
    intro ys t hst ht hys
    exact safe_asItem (safe_sum ht (List.forall_mem_cons.mpr ⟨ha.extend hst.extends_, hys⟩))
  | select b t f =>
    obtain ⟨hb, ht, hf⟩ := hi.resolve_right id
    exact b.safe_item_bind hs hr hb fun x hx => t.safe_item_bind hs hr ht fun y hy =>
      f.safe_item_bind hs hr hf fun z hz => (safe_select hx).1 y z s h hy hz
  | gate x y z message =>
    obtain ⟨hx, hy, hz⟩ := hi.resolve_right id
    exact z.safe_item_bind hs hr hz fun item hitem => x.safe_linear_bind h hr hx fun a ha =>
      y.safe_linear_bind h hr hy fun b hb => safe_expression_bind h hitem fun c hc =>
        safe_asNothing (safe_gate hs ha hb hc _ _)
  | assertZero x message =>
    have hx : x.IsPlain := hi.resolve_right id
    exact x.safe_linear_bind h hr hx fun a ha => safe_asNothing
      (safe_gate hs (x := .constant 0) (y := .constant 0) trivial trivial ha _ _)
  | assertBit x message =>
    have hx : x.IsPlain := hi.resolve_right id
    exact x.safe_linear_bind h hr hx fun a ha => safe_asNothing (safe_gate hs ha ha ha _ _)
  | connect x y message =>
    obtain ⟨hx, hy⟩ := hi.resolve_right id
    exact y.safe_linear_bind h hr hy fun b hb => x.safe_linear_bind h hr hx fun a ha =>
      safe_asNothing (safe_connect hs ha hb _)
  | read x =>
    apply safe_look (x.still_item registers) hs
    intro item _
    apply safe_look still_get hs
    intro u _
    split
    · split
      · exact safe_pure hs (Item.over_integer _)
      · exact safe_fail hs _
    · exact safe_fail hs _
  | ask query =>
    apply safe_look still_get hs
    intro u hu
    obtain rfl : s = u := Except.ok.inj hu
    split
    · rename_i item hitem
      exact safe_pure hs (Query.over_answer hs _ hitem)
    · exact safe_fail hs _
  | freeze =>
    exact safe_asNothing (.ok (R1CS.grows_freeze s) hs.freeze trivial)

end

namespace Call
variable {K : Combination → Prop} {s : R1CS}

def Uses (K : Combination → Prop) : Call → Prop
  | .wire _ _ => True
  | .instruction _ registers i =>
      (i.IsPlain ∨ i.IsQuestion) ∧ ∀ entry ∈ registers, entry.2.Over K

theorem safe_run (h : s.Hosts K) {call : Call} (hcall : call.Uses K) :
    Build.Safe (fun t item => item.Over (Item.Source K t)) call.run s := by
  cases call with
  | wire value name => exact Build.safe_asItem (Build.safe_wire h.regular value name)
  | instruction around registers i => exact Instruction.safe_run h around hcall.2 hcall.1

end Call

end RankOne
