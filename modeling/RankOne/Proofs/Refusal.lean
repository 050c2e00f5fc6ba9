import RankOne.Proofs.Growth

/-!
# Calls that fail

A call on a system checks its operands before it changes anything, and computes the value of a new
wire before there is a wire. So a call that fails leaves the system as it was, whatever its operands
are and wherever they come from. A selection between lists is many selections between scalars in a
row, and stops at the first of them that fails: what the ones before it have added stays.
-/

set_option autoImplicit false

namespace RankOne

namespace Build
variable {α β : Type}

inductive Settled (s : R1CS) : Except Fault α × R1CS → Prop
  | ok (a : α) (t : R1CS) : Settled s (.ok a, t)
  | error (e : Fault) : Settled s (.error e, s)

def Atomic (x : Build α) : Prop :=
  ∀ s : R1CS, Settled s (x.run s)

variable {x : Build α} {f : α → Build β}

theorem Atomic.state_eq (hx : x.Atomic) {s t : R1CS} {e : Fault} (h : x.run s = (.error e, t)) :
    t = s := by
  have hs := hx s
  rw [h] at hs
  cases hs
  rfl

theorem Still.atomic (hx : x.Still) : x.Atomic := by
  intro s
  have hs := hx s
  generalize x.run s = p at hs
  obtain ⟨r, t⟩ := p
  obtain rfl : t = s := hs
  cases r with
  | error e => exact .error e
  | ok a => exact .ok a t

theorem Still.atomic_bind (hx : x.Still) (hf : ∀ a, (f a).Atomic) : (x >>= f).Atomic := by
  intro s
  have hs := hx s
  rw [run_bind]
  generalize x.run s = p at hs ⊢
  obtain ⟨r, t⟩ := p
  obtain rfl : t = s := hs
  cases r with
  | error e => exact .error e
  | ok a => exact hf a t

theorem Atomic.map (hx : x.Atomic) (g : α → β) : (g <$> x).Atomic := by
  intro s
  rw [run_map]
  have hs := hx s
  generalize x.run s = p at hs ⊢
  cases hs with
  | error e => exact .error e
  | ok a t => exact .ok _ t

theorem Atomic.asNothing {x : Build Unit} (hx : x.Atomic) : (Instruction.asNothing x).Atomic := by
  have hmap : Instruction.asNothing x = (fun _ => Item.nothing) <$> x := by
    rw [map_eq_pure_bind]
    rfl
  rw [hmap]
  exact hx.map _

theorem atomic_wire (value : Reader → Except Fault Int) (name : Option String) :
    (wire value name).Atomic := by
  intro s
  rw [run_wire]
  split
  · exact .error _
  · split
    · exact .error _
    · exact .ok _ _

theorem atomic_mul (x y : Linear) (message : String) : (mul x y message).Atomic := by
  intro s
  rw [run_mul]
  split
  · exact .error _
  · split
    · exact .ok _ _
    · split
      · exact .error _
      · exact .ok _ _

theorem atomic_div (x y : Linear) (message : String) (isFlag : Bool) :
    (div x y message isFlag).Atomic := by
  intro s
  rw [run_div]
  split
  · exact .error _
  · split
    · split
      · exact .error _
      · exact .ok _ _
    · split
      · exact .ok _ _
      · split
        · exact .error _
        · exact .ok _ _

theorem atomic_zeroGate (z : Linear) (message : String) : (zeroGate z message).Atomic := by
  intro s
  rw [run_zeroGate]
  split
  · split
    · exact .ok _ _
    · exact .error _
  · exact .ok _ _

theorem atomic_gate (x y z : Linear) (message : String) (isFlag : Bool) :
    (gate x y z message isFlag).Atomic := by
  intro s
  rw [run_gate]
  split
  · exact .error _
  · split
    · exact atomic_zeroGate _ message s
    · exact .ok _ _

theorem atomic_connect (x y : Linear) (message : String) : (connect x y message).Atomic :=
  (still_sub x y).atomic_bind fun d => atomic_gate _ _ d message false

end Build

namespace R1CS
variable {s t : R1CS} {x : Linear}

theorem Extends.owns (h : s.Extends t) (hx : s.owns x = true) : t.owns x = true := by
  cases x with
  | constant k => rfl
  | combination x =>
    obtain ⟨howner, hterms⟩ := owns_combination.mp hx
    refine owns_combination.mpr ⟨by rw [howner, h.tag], fun term hterm => ?_⟩
    exact (hterms term hterm).trans_le (Int.ofNat_le.mpr h.wireCount)

end R1CS

namespace Build

/-- A product is an expression that the system can go on with at once. -/
theorem owns_of_run_mul {x y p : Linear} {message : String} {s t : R1CS}
    (h : (mul x y message).run s = (.ok p, t)) : t.frozen = false ∧ t.owns p = true := by
  rw [run_mul] at h
  split at h
  · cases (Prod.mk.inj h).1
  · rename_i u haccess
    obtain ⟨hf, howns⟩ := R1CS.access_eq_ok_iff.mp haccess
    split at h
    · rename_i q hq
      obtain ⟨hqp, rfl⟩ := Prod.mk.inj h
      obtain rfl := Except.ok.inj hqp
      exact ⟨hf, R1CS.owns_product? (howns x (by simp)) (howns y (by simp)) hq⟩
    · split at h
      · cases (Prod.mk.inj h).1
      · rename_i v hv
        obtain ⟨hqp, rfl⟩ := Prod.mk.inj h
        obtain rfl := Except.ok.inj hqp
        exact ⟨hf, R1CS.owns_wireAt (s := s.pushGate v _) (Nat.lt_succ_self _)⟩

/-- What was owned before a product is owned after it, so the sum that comes next cannot fail. -/
theorem exists_run_add_of_run_mul {x y p z : Linear} {message : String} {s t : R1CS}
    (h : (mul x y message).run s = (.ok p, t)) (hz : s.owns z = true) :
    ∃ r, (add p z).run t = (.ok r, t) := by
  have hgrows := keeps_mul R1CS.isOpenFrame_grows.toIsFrame x y message s
  rw [h] at hgrows
  obtain ⟨hf, hp⟩ := owns_of_run_mul h
  have hz' : t.owns z = true := hgrows.extends_.owns hz
  have haccess : t.access [.constant 0, p, z] = .ok () :=
    R1CS.access_eq_ok_iff.mpr ⟨hf, R1CS.owns_summands hp hz'⟩
  exact ⟨Linear.sum t.tag [.constant 0, p, z], by simp only [add, run_sum, haccess]⟩

/-- The product of a scalar selection may add a wire, but what comes after it cannot fail. -/
theorem atomic_selectScalar (b t f : Linear) : (selectScalar b t f).Atomic := by
  intro s
  rw [selectScalar, run_bind, run_sub]
  cases haccess : s.access [t, f] with
  | error e => exact .error e
  | ok u =>
    simp only [run_bind]
    have hmul := atomic_mul b (Linear.difference s.tag t f) "multiplication error" s
    cases hrun : (mul b (Linear.difference s.tag t f) "multiplication error").run s with
    | mk r s' =>
      rw [hrun] at hmul
      cases hmul with
      | error e => exact .error e
      | ok p =>
        have hbranch := (R1CS.access_eq_ok_iff.mp haccess).2 f (by simp)
        obtain ⟨z, hz⟩ := exists_run_add_of_run_mul hrun hbranch
        simp only [hz]
        exact .ok z s'

theorem atomic_selectBetween (b t f : Item) : (selectBetween b t f).Atomic :=
  (still_expression f).atomic_bind fun y => (still_expression t).atomic_bind fun x =>
    (still_expression b).atomic_bind fun bit => (atomic_selectScalar bit x y).map _

end Build

namespace Item

mutual

def places : Item → Item → List (Except Fault (Item × Item))
  | .list ts, f =>
      match f.entries? with
      | some fs => placesAll ts fs
      | none => [.error .wrongKind]
  | .tuple ts, f =>
      match f.entries? with
      | some fs => placesAll ts fs
      | none => [.error .wrongKind]
  | t, f => [.ok (t, f)]

def placesAll : List Item → List Item → List (Except Fault (Item × Item))
  | [], [] => []
  | t :: ts, f :: fs => places t f ++ placesAll ts fs
  | _, _ => [.error (.unusable .unequalLengths)]

end

theorem places_of_not_isSequence {t : Item} (ht : t.isSequence = false) (f : Item) :
    t.places f = [.ok (t, f)] := by
  cases t <;> simp_all [isSequence, places]

end Item

namespace Build

def visit (b : Item) : Except Fault (Item × Item) → Build Unit
  | .ok place => (fun _ => ()) <$> selectBetween b place.1 place.2
  | .error e => throw e

theorem atomic_visit (b : Item) (place : Except Fault (Item × Item)) : (visit b place).Atomic := by
  cases place with
  | error e => exact (still_throw e).atomic
  | ok place => exact (atomic_selectBetween b place.1 place.2).map _

/-- But for its answer, a selection is a visit to all of its places. -/
theorem select_eq_forM {b : Item} (hb : b.bit? = none) :
    (∀ t f, (fun _ => ()) <$> select b t f = forM (t.places f) (visit b)) ∧
    ∀ ts fs, (fun _ => ()) <$> selectAll b ts fs = forM (Item.placesAll ts fs) (visit b) := by
  apply select.mutual_induct b
    (fun t f => (fun _ => ()) <$> select b t f = forM (t.places f) (visit b))
    (fun ts fs => (fun _ => ()) <$> selectAll b ts fs = forM (Item.placesAll ts fs) (visit b))
  case case1 => intro t f hbit; simp [hb] at hbit
  case case2 => intro t f hbit; simp [hb] at hbit
  case case3 =>
    intro f _ ts fs hf ih
    simp only [select, hb, hf, Item.places, ← ih, Functor.map_map]
  case case4 =>
    intro f _ ts hf
    simp [select, hb, hf, Item.places, visit]
  case case5 =>
    intro f _ ts fs hf ih
    simp only [select, hb, hf, Item.places, ← ih, Functor.map_map]
  case case6 =>
    intro f _ ts hf
    simp [select, hb, hf, Item.places, visit]
  case case7 =>
    intro f _ t hlist htuple
    have ht := Item.isSequence_eq_false hlist htuple
    simp [Item.places_of_not_isSequence ht, select_of_not_isSequence hb ht, visit]
  case case8 => simp [selectAll, Item.placesAll]
  case case9 =>
    intro t ts f fs iht ihts
    rw [Item.placesAll, List.forM_append, ← iht, ← ihts]
    simp [selectAll]
  case case10 =>
    intro ts fs hnil hcons
    rw [selectAll_of_mismatch hnil hcons]
    cases ts with
    | nil =>
      cases fs with
      | nil => exact absurd rfl (hnil rfl)
      | cons f fs => simp [Item.placesAll, visit]
    | cons t ts =>
      cases fs with
      | nil => simp [Item.placesAll, visit]
      | cons f fs => exact absurd rfl (hcons t ts f fs rfl)

theorem run_map_unit {α : Type} (x : Build α) (s : R1CS) :
    ((fun _ => ()) <$> x).run s = ((x.run s).1.map fun _ => (), (x.run s).2) := by
  rw [run_map]
  generalize x.run s = p
  obtain ⟨r, t⟩ := p
  cases r <;> rfl

/-- Whether the scalar selections at the first places succeed, one after the other, and lead from
`s` to `u`, where the next place fails and changes nothing. -/
def StopsAt (b : Item) (places : List (Except Fault (Item × Item))) (s u : R1CS) (e : Fault) :
    Prop :=
  ∃ (done : List (Item × Item)) (place : Except Fault (Item × Item)) (rest : _) (xs : List Item),
    places = done.map .ok ++ place :: rest ∧
    (done.mapM fun p => selectBetween b p.1 p.2).run s = (.ok xs, u) ∧
    (visit b place).run u = (.error e, u)

theorem stopsAt_of_forM {b : Item} {places : List (Except Fault (Item × Item))} {s u : R1CS}
    {e : Fault} (h : (forM places (visit b)).run s = (.error e, u)) : StopsAt b places s u e := by
  induction places generalizing s with
  | nil => cases (Prod.mk.inj h).1
  | cons place rest ih =>
    rw [List.forM_cons, run_bind] at h
    split at h
    · rename_i a t hplace
      obtain ⟨done, next, rest', xs, hrest, hdone, hnext⟩ := ih h
      cases place with
      | error e => cases (Prod.mk.inj hplace).1
      | ok place =>
        obtain ⟨x, hx⟩ : ∃ x, (selectBetween b place.1 place.2).run s = (.ok x, t) := by
          rw [visit, run_map_unit] at hplace
          generalize (selectBetween b place.1 place.2).run s = p at hplace ⊢
          obtain ⟨r, t'⟩ := p
          obtain ⟨hr, rfl⟩ := Prod.mk.inj hplace
          cases r with
          | error e => cases hr
          | ok x => exact ⟨x, rfl⟩
        refine ⟨place :: done, next, rest', x :: xs, by rw [hrest]; rfl, ?_, hnext⟩
        rw [List.mapM_cons, run_bind_of_ok hx, run_bind_of_ok hdone]
        rfl
    · rename_i e' t hplace
      obtain rfl := (atomic_visit b place).state_eq hplace
      obtain ⟨he, rfl⟩ := Prod.mk.inj h
      obtain rfl := Except.error.inj he
      exact ⟨[], place, rest, [], rfl, rfl, hplace⟩

theorem stopsAt_of_select {b t f : Item} {s u : R1CS} {e : Fault}
    (h : (select b t f).run s = (.error e, u)) : StopsAt b (t.places f) s u e := by
  cases hb : b.bit? with
  | some bit =>
    rw [select_of_bit hb] at h
    cases (Prod.mk.inj h).1
  | none =>
    apply stopsAt_of_forM
    rw [← (select_eq_forM hb).1, run_map_unit, h]
    rfl

theorem atomic_select {t : Item} (ht : t.isSequence = false) (b f : Item) :
    (select b t f).Atomic := by
  cases hb : b.bit? with
  | some bit =>
    rw [select_of_bit hb]
    exact (still_pure _).atomic
  | none =>
    rw [select_of_not_isSequence hb ht]
    exact atomic_selectBetween b t f

end Build

section
open Build

theorem Operand.atomic_item_bind {β : Type} {registers : Registers} {x : Operand}
    {f : Item → Build β} (hf : ∀ item, x.resolve registers = .ok item → (f item).Atomic) :
    (x.item registers >>= f).Atomic := by
  rw [Operand.item]
  cases hitem : x.resolve registers with
  | error e =>
    intro s
    rw [run_bind]
    exact .error e
  | ok item => simpa using hf item hitem

def Instruction.IsScalar (registers : Registers) : Instruction → Prop
  | .select _ t _ => ∀ item, t.resolve registers = .ok item → item.isSequence = false
  | _ => True

theorem Instruction.atomic_run (around : Surroundings) {registers : Registers} {i : Instruction}
    (h : i.IsScalar registers) : (i.run around registers).Atomic := by
  have hlinear := fun x : Operand => x.still_linear registers
  have hitem := fun x : Operand => x.still_item registers
  cases i with
  | publicInput name value => exact (atomic_wire _ _).map _
  | privateInput name value => exact (atomic_wire _ _).map _
  | parameter name isPublic given => cases given <;> exact (atomic_wire _ _).map _
  | wire formula name => exact (atomic_wire _ _).map _
  | add x y =>
    exact (hlinear x).atomic_bind fun _ => (hlinear y).atomic_bind fun _ =>
      (still_sum _ _).atomic.map _
  | sub x y =>
    exact (hlinear y).atomic_bind fun _ => (hlinear x).atomic_bind fun _ =>
      (still_sub _ _).atomic.map _
  | mul x y message =>
    exact (hlinear x).atomic_bind fun _ => (hlinear y).atomic_bind fun _ =>
      (atomic_mul _ _ _).map _
  | div x y message =>
    exact (hitem x).atomic_bind fun _ => (still_expression _).atomic_bind fun _ =>
      (hlinear y).atomic_bind fun _ => (atomic_div _ _ _ _).map _
  | not x => exact (hlinear x).atomic_bind fun _ => (still_sub _ _).atomic.map _
  | and x y =>
    exact (hlinear x).atomic_bind fun _ => (hlinear y).atomic_bind fun _ =>
      (atomic_mul _ _ _).map _
  | sum xs start =>
    exact (hlinear start).atomic_bind fun _ => (still_mapM _ xs hlinear).atomic_bind fun _ =>
      (still_sum _ _).atomic.map _
  | select b t f =>
    exact (hitem b).atomic_bind fun _ => Operand.atomic_item_bind fun item ht =>
      (hitem f).atomic_bind fun _ => atomic_select (h item ht) _ _
  | gate x y z message =>
    exact (hitem z).atomic_bind fun _ => (hlinear x).atomic_bind fun _ =>
      (hlinear y).atomic_bind fun _ => (still_expression _).atomic_bind fun _ =>
        (atomic_gate _ _ _ _ _).asNothing
  | assertZero x message => exact (hlinear x).atomic_bind fun _ => (atomic_gate _ _ _ _ _).asNothing
  | assertBit x message => exact (hlinear x).atomic_bind fun _ => (atomic_gate _ _ _ _ _).asNothing
  | connect x y message =>
    exact (hlinear y).atomic_bind fun _ => (hlinear x).atomic_bind fun _ =>
      (atomic_connect _ _ _).asNothing
  | read x => exact (still_run_read around registers x).atomic
  | ask query => exact (still_run_ask around registers query).atomic
  | freeze => exact Atomic.asNothing fun s => .ok () s.freeze

end

/-- A call on a system: an instruction with whatever its operands refer to, or a wire whose value is
any function of values that are read. -/
inductive Call
  | wire (value : Reader → Except Fault Int) (name : Option String)
  | instruction (around : Surroundings) (registers : Registers) (i : Instruction)

namespace Call

def run : Call → Build Item
  | .wire value name => Item.scalar <$> Build.wire value name
  | .instruction around registers i => i.run around registers

def IsScalar : Call → Prop
  | .wire _ _ => True
  | .instruction _ registers i => i.IsScalar registers

def after (calls : List Call) (s : R1CS) : R1CS :=
  calls.foldl (fun s call => (call.run.run s).2) s

theorem atomic_run {call : Call} (h : call.IsScalar) : call.run.Atomic := by
  cases call with
  | wire value name => exact (Build.atomic_wire value name).map _
  | instruction around registers i => exact Instruction.atomic_run around h

theorem keeps_run {R : R1CS → R1CS → Prop} (hR : R1CS.IsOpenFrame R) (call : Call) :
    call.run.Keeps R := by
  cases call with
  | wire value name =>
    exact Build.keeps_map hR.toIsFrame _ (Build.keeps_wire hR.toIsFrame _ (.inr hR))
  | instruction around registers i =>
    exact i.keeps_run hR.toIsFrame around registers (.inr hR)

theorem after_of_frozen (calls : List Call) {s : R1CS} (hf : s.frozen = true) :
    after calls s = s := by
  induction calls with
  | nil => rfl
  | cons call rest ih =>
    have hcall := (call.keeps_run R1CS.isOpenFrame_grows s).extends_.of_frozen hf
    rw [after, List.foldl_cons, hcall]
    exact ih

/-- Of every call on every system, whatever it has been through: a call on scalars that fails
changes nothing. A selection between lists that fails has made the scalar selections before the
place where it stops, and has changed nothing else. No calls change a frozen system. -/
theorem failures_confined :
    (∀ (call : Call) (s t : R1CS) (e : Fault), call.IsScalar →
      call.run.run s = (.error e, t) → t = s) ∧
    (∀ (b t f : Item) (s u : R1CS) (e : Fault), (Build.select b t f).run s = (.error e, u) →
      Build.StopsAt b (t.places f) s u e) ∧
    ∀ (calls : List Call) (s : R1CS), s.frozen = true → after calls s = s :=
  ⟨fun _ _ _ _ hscalar h => (atomic_run hscalar).state_eq h,
    fun _ _ _ _ _ _ h => Build.stopsAt_of_select h,
    fun calls _ hf => after_of_frozen calls hf⟩

/-- A selection between lists has a wire of the system at the first place and a foreign one at the
second: the product of the first place stays, also when the system is closed. -/
theorem failures_confined_halfway :
    let s := (R1CS.fresh 0 false).push none none
    let own := Item.scalar (s.wireAt 1)
    let t := Item.list [own, .scalar ((R1CS.fresh 1 false).wireAt 0)]
    let f := Item.tuple [Item.integer 0, Item.integer 0]
    let u := ((Build.select own t f).run s).2
    let refused := Call.instruction ⟨fun _ => .ok 0, fun _ => []⟩ []
      (.assertZero (.constant 1) none)
    (Build.select own t f).run s = (.error (.mismatch .foreignVariable), u) ∧
      u.wireCount = s.wireCount + 1 ∧ u.gates.length = s.gates.length + 1 ∧
      Build.StopsAt own (t.places f) s u (.mismatch .foreignVariable) ∧
      (refused.run.run u).2 = u ∧ after [refused] u.freeze = u.freeze := by
  refine ⟨rfl, rfl, rfl, failures_confined.2.1 _ _ _ _ _ _ rfl, ?_,
    failures_confined.2.2 _ _ rfl⟩
  exact failures_confined.1 (.instruction ⟨fun _ => .ok 0, fun _ => []⟩ []
    (.assertZero (.constant 1) none)) _ _ (.unsatisfied "EQZ assertion failed") trivial rfl

end Call

end RankOne
