import RankOne.Proofs.Run

/-!
# What operations keep

Every operation is put together from a few changes: a private wire or a gate is added, a wire is
made public, the system is closed. What holds between the state before each of these changes and
the state after it holds between the ends of a whole program, also of one that fails. A program
that names nothing public and closes nothing needs only the first two.
-/

set_option autoImplicit false

namespace RankOne

structure R1CS.IsFrame (R : R1CS → R1CS → Prop) : Prop where
  refl : ∀ s, R s s
  trans : ∀ {s t u}, R s t → R t u → R s u
  push : ∀ {s value v}, s.frozen = false → s.wireValue value = .ok v → R s (s.push v none)
  addGate : ∀ {s} (g : Gate), s.frozen = false → (0 < s.wireCount → s.OwnsGate g) →
    R s { s with gates := s.gates ++ [g] }

structure R1CS.IsOpenFrame (R : R1CS → R1CS → Prop) : Prop extends R1CS.IsFrame R where
  publish : ∀ {s value v} (name : String), s.frozen = false → s.wireValue value = .ok v →
    R s (s.push v (some name))
  freeze : ∀ s, R s s.freeze

def Instruction.IsPrivate : Instruction → Prop
  | .publicInput _ _ => False
  | .parameter _ isPublic _ => isPublic = false
  | .wire _ name => name = none
  | .freeze => False
  | _ => True

namespace Build
variable {α β : Type} {R : R1CS → R1CS → Prop}

def Still (x : Build α) : Prop :=
  ∀ s : R1CS, (x.run s).2 = s

theorem still_bind {x : Build α} {f : α → Build β} (hx : x.Still) (hf : ∀ a, (f a).Still) :
    (x >>= f).Still := by
  intro s
  have hs := hx s
  rw [run_bind]
  split
  · rename_i a t heq
    rw [heq] at hs
    exact (hf a t).trans hs
  · rename_i e t heq
    rwa [heq] at hs

theorem still_pure (a : α) : (pure a : Build α).Still := fun _ => rfl

theorem still_throw (e : Fault) : (throw e : Build α).Still := fun _ => rfl

theorem still_fail (e : Fault) : (fail e : Build α).Still := fun _ => rfl

theorem still_get : (get : Build R1CS).Still := fun _ => rfl

theorem still_own (xs : List Linear) : (own xs).Still := fun s => by rw [run_own]

theorem still_sum (xs : List Linear) (start : Linear) : (sum xs start).Still :=
  fun s => by rw [run_sum]; split <;> rfl

theorem still_sub (x y : Linear) : (sub x y).Still :=
  fun s => by rw [run_sub]; split <;> rfl

theorem still_expression (x : Item) : (expression x).Still := by
  rw [expression]
  split
  · exact still_bind (still_own _) fun _ => still_pure _
  · exact still_bind (still_own _) fun _ => still_throw _

theorem still_mapM {γ : Type} (f : γ → Build α) (xs : List γ) (h : ∀ x, (f x).Still) :
    (xs.mapM f).Still := by
  induction xs with
  | nil => exact still_pure _
  | cons x rest ih =>
    rw [List.mapM_cons]
    exact still_bind (h x) fun _ => still_bind ih fun _ => still_pure _

def Keeps (R : R1CS → R1CS → Prop) (x : Build α) : Prop :=
  ∀ s : R1CS, R s (x.run s).2

theorem Keeps.of_run {R : R1CS → R1CS → Prop} {x : Build α} (hx : x.Keeps R) {s t : R1CS} {a : α}
    (h : x.run s = (.ok a, t)) : R s t := by
  have hs := hx s
  rwa [h] at hs

section
variable (hR : R1CS.IsFrame R)
include hR

theorem keeps_of_still {x : Build α} (hx : x.Still) : x.Keeps R := by
  intro s
  rw [hx s]
  exact hR.refl s

theorem keeps_bind {x : Build α} {f : α → Build β} (hx : x.Keeps R) (hf : ∀ a, (f a).Keeps R) :
    (x >>= f).Keeps R := by
  intro s
  have hs := hx s
  rw [run_bind]
  split
  · rename_i a t heq
    rw [heq] at hs
    exact hR.trans hs (hf a t)
  · rename_i e t heq
    rwa [heq] at hs

theorem keeps_pure (a : α) : (pure a : Build α).Keeps R := keeps_of_still hR (still_pure a)

theorem keeps_map (g : α → β) {x : Build α} (hx : x.Keeps R) : (g <$> x).Keeps R := by
  rw [map_eq_pure_bind]
  exact keeps_bind hR hx fun a => keeps_pure hR (g a)

theorem keeps_throw (e : Fault) : (throw e : Build α).Keeps R := keeps_of_still hR (still_throw e)

theorem keeps_fail (e : Fault) : (fail e : Build α).Keeps R := keeps_of_still hR (still_fail e)

theorem keeps_wire (value : Reader → Except Fault Int) {name : Option String}
    (h : name = none ∨ R1CS.IsOpenFrame R) : (wire value name).Keeps R := by
  intro s
  rw [run_wire]
  split
  · exact hR.refl s
  · rename_i hf
    rw [Bool.not_eq_true] at hf
    split
    · exact hR.refl s
    · rename_i v hv
      cases name with
      | none => exact hR.push hf hv
      | some text =>
        rcases h with h | h
        · simp at h
        · exact h.publish text hf hv

theorem keeps_sum (xs : List Linear) (start : Linear) : (sum xs start).Keeps R :=
  keeps_of_still hR (still_sum xs start)

theorem keeps_sub (x y : Linear) : (sub x y).Keeps R := keeps_of_still hR (still_sub x y)

theorem pushGate_of_isFrame {s : R1CS} {value : Reader → Except Fault Int} {v : Option Int}
    (hf : s.frozen = false) (hv : s.wireValue value = .ok v) (g : Gate)
    (hg : (s.push v none).OwnsGate g) : R s (s.pushGate v g) :=
  hR.trans (hR.push hf hv) (hR.addGate (s := s.push v none) g hf fun _ => hg)

theorem keeps_mul (x y : Linear) (message : String) : (mul x y message).Keeps R := by
  intro s
  rw [run_mul]
  split
  · exact hR.refl s
  · rename_i u haccess
    split
    · exact hR.refl s
    · split
      · exact hR.refl s
      · rename_i v hv
        obtain ⟨hf, howns⟩ := R1CS.access_eq_ok_iff.mp haccess
        refine pushGate_of_isFrame hR hf hv _ ⟨?_, ?_, ?_⟩
        · exact R1CS.owns_push (howns x (by simp)) v none
        · exact R1CS.owns_push (howns y (by simp)) v none
        · exact R1CS.owns_wireAt (s := s.push v none) (Nat.lt_succ_self _)

theorem keeps_div (x y : Linear) (message : String) (isFlag : Bool) :
    (div x y message isFlag).Keeps R := by
  intro s
  rw [run_div]
  split
  · exact hR.refl s
  · rename_i u haccess
    split
    · split <;> exact hR.refl s
    · split
      · exact hR.refl s
      · split
        · exact hR.refl s
        · rename_i v hv
          obtain ⟨hf, howns⟩ := R1CS.access_eq_ok_iff.mp haccess
          refine pushGate_of_isFrame hR hf hv _ ⟨?_, ?_, ?_⟩
          · exact R1CS.owns_wireAt (s := s.push v none) (Nat.lt_succ_self _)
          · exact R1CS.owns_push (howns _ (by simp)) v none
          · exact R1CS.owns_push (howns x (by simp)) v none

theorem keeps_gate (x y z : Linear) (message : String) (isFlag : Bool) :
    (gate x y z message isFlag).Keeps R := by
  intro s
  rw [run_gate]
  split
  · exact hR.refl s
  · rename_i u haccess
    obtain ⟨hf, howns⟩ := R1CS.access_eq_ok_iff.mp haccess
    have hx := howns x (by simp)
    have hy := howns y (by simp)
    have hz := howns z (by simp)
    split
    · rename_i p hp
      rw [run_zeroGate]
      split
      · split <;> exact hR.refl s
      · refine hR.addGate _ hf fun hpos => ⟨rfl, rfl, ?_⟩
        exact R1CS.owns_difference hpos hz (R1CS.owns_product? hx hy hp)
    · exact hR.addGate _ hf fun _ => ⟨hx, hy, hz⟩

theorem keeps_selectScalar (b t f : Linear) : (selectScalar b t f).Keeps R :=
  keeps_bind hR (keeps_sub hR t f) fun d => keeps_bind hR (keeps_mul hR b d _) fun p =>
    keeps_sum hR [p, f] _

theorem keeps_connect (x y : Linear) (message : String) : (connect x y message).Keeps R :=
  keeps_bind hR (keeps_sub hR x y) fun d => keeps_gate hR _ _ d message false

theorem keeps_expression (x : Item) : (expression x).Keeps R :=
  keeps_of_still hR (still_expression x)

theorem keeps_selectBetween (b t f : Item) : (selectBetween b t f).Keeps R :=
  keeps_bind hR (keeps_expression hR f) fun y => keeps_bind hR (keeps_expression hR t) fun x =>
    keeps_bind hR (keeps_expression hR b) fun bit => keeps_map hR _ (keeps_selectScalar hR bit x y)

theorem keeps_select (b : Item) :
    (∀ t f, (select b t f).Keeps R) ∧ ∀ ts fs, (selectAll b ts fs).Keeps R := by
  apply select.mutual_induct b (fun t f => (select b t f).Keeps R)
    (fun ts fs => (selectAll b ts fs).Keeps R)
  case case1 => intro t f hb; rw [select_of_bit hb]; exact keeps_pure hR _
  case case2 => intro t f hb; rw [select_of_bit hb]; exact keeps_pure hR _
  case case3 => intro f hb ts fs hf ih; simp only [select, hb, hf]; exact keeps_map hR _ ih
  case case4 => intro f hb ts hf; simp only [select, hb, hf]; exact keeps_throw hR _
  case case5 => intro f hb ts fs hf ih; simp only [select, hb, hf]; exact keeps_map hR _ ih
  case case6 => intro f hb ts hf; simp only [select, hb, hf]; exact keeps_throw hR _
  case case7 =>
    intro f hb t hlist htuple
    rw [select_of_not_isSequence hb (Item.isSequence_eq_false hlist htuple)]
    exact keeps_selectBetween hR _ _ _
  case case8 => rw [selectAll]; exact keeps_pure hR _
  case case9 =>
    intro t ts f fs iht ihts
    rw [selectAll]
    exact keeps_bind hR iht fun x => keeps_bind hR ihts fun xs => keeps_pure hR _
  case case10 =>
    intro ts fs hnil hcons
    rw [selectAll_of_mismatch hnil hcons]
    exact keeps_throw hR _

end

end Build

namespace Operand
open Build

theorem still_item (registers : Registers) (x : Operand) : (x.item registers).Still := by
  rw [item]
  split
  · exact still_pure _
  · exact still_fail _

theorem still_linear (registers : Registers) (x : Operand) : (x.linear registers).Still :=
  still_bind (x.still_item registers) fun _ => still_expression _

end Operand

namespace Instruction
open Build

theorem still_run_read (around : Surroundings) (registers : Registers) (x : Operand) :
    ((read x).run around registers).Still := by
  refine still_bind (x.still_item registers) fun item => still_bind still_get fun s => ?_
  split
  · split
    · exact still_pure _
    · exact still_fail _
  · exact still_fail _

theorem still_run_ask (around : Surroundings) (registers : Registers) (query : Query) :
    ((ask query).run around registers).Still := by
  refine still_bind still_get fun s => ?_
  split
  · exact still_pure _
  · exact still_fail _

end Instruction

section
variable {R : R1CS → R1CS → Prop} (hR : R1CS.IsFrame R)
include hR
open Build

theorem Operand.keeps_item (registers : Registers) (x : Operand) :
    (x.item registers).Keeps R :=
  keeps_of_still hR (x.still_item registers)

theorem Operand.keeps_linear (registers : Registers) (x : Operand) :
    (x.linear registers).Keeps R :=
  keeps_of_still hR (x.still_linear registers)

theorem Instruction.keeps_supply (name : String) {isPublic : Bool}
    (h : isPublic = false ∨ R1CS.IsOpenFrame R) (value : Except Fault (Option Int)) :
    (supply name isPublic value).Keeps R := by
  apply keeps_wire hR
  rcases h with rfl | h
  · exact .inl rfl
  · exact .inr h

theorem Instruction.keeps_run (around : Surroundings) (registers : Registers)
    (instruction : Instruction) (h : instruction.IsPrivate ∨ R1CS.IsOpenFrame R) :
    (instruction.run around registers).Keeps R := by
  have hlinear := fun x : Operand => x.keeps_linear hR registers
  have hitem := fun x : Operand => x.keeps_item hR registers
  cases instruction with
  | publicInput name value =>
    exact keeps_map hR _ (keeps_supply hR name (.inr (h.resolve_left id)) _)
  | privateInput name value => exact keeps_map hR _ (keeps_supply hR name (.inl rfl) _)
  | parameter name isPublic given =>
    cases given <;> exact keeps_map hR _ (keeps_supply hR name h _)
  | wire formula name => exact keeps_map hR _ (keeps_wire hR _ h)
  | add x y =>
    exact keeps_bind hR (hlinear x) fun _ => keeps_bind hR (hlinear y) fun _ =>
      keeps_map hR _ (keeps_sum hR _ _)
  | sub x y =>
    exact keeps_bind hR (hlinear y) fun _ => keeps_bind hR (hlinear x) fun _ =>
      keeps_map hR _ (keeps_sub hR _ _)
  | mul x y message =>
    exact keeps_bind hR (hlinear x) fun _ => keeps_bind hR (hlinear y) fun _ =>
      keeps_map hR _ (keeps_mul hR _ _ _)
  | div x y message =>
    exact keeps_bind hR (hitem x) fun _ => keeps_bind hR (keeps_expression hR _) fun _ =>
      keeps_bind hR (hlinear y) fun _ => keeps_map hR _ (keeps_div hR _ _ _ _)
  | not x => exact keeps_bind hR (hlinear x) fun _ => keeps_map hR _ (keeps_sub hR _ _)
  | and x y =>
    exact keeps_bind hR (hlinear x) fun _ => keeps_bind hR (hlinear y) fun _ =>
      keeps_map hR _ (keeps_mul hR _ _ _)
  | sum xs start =>
    have hrest := still_mapM (fun x : Operand => x.linear registers) xs
      fun x => x.still_linear registers
    exact keeps_bind hR (hlinear start) fun _ => keeps_bind hR (keeps_of_still hR hrest)
      fun _ => keeps_map hR _ (keeps_sum hR _ _)
  | select b t f =>
    exact keeps_bind hR (hitem b) fun _ => keeps_bind hR (hitem t) fun _ =>
      keeps_bind hR (hitem f) fun _ => (keeps_select hR _).1 _ _
  | gate x y z message =>
    exact keeps_bind hR (hitem z) fun _ => keeps_bind hR (hlinear x) fun _ =>
      keeps_bind hR (hlinear y) fun _ => keeps_bind hR (keeps_expression hR _) fun _ =>
        keeps_bind hR (keeps_gate hR _ _ _ _ _) fun _ => keeps_pure hR _
  | assertZero x message =>
    exact keeps_bind hR (hlinear x) fun _ => keeps_bind hR (keeps_gate hR _ _ _ _ _) fun _ =>
      keeps_pure hR _
  | assertBit x message =>
    exact keeps_bind hR (hlinear x) fun _ => keeps_bind hR (keeps_gate hR _ _ _ _ _) fun _ =>
      keeps_pure hR _
  | connect x y message =>
    exact keeps_bind hR (hlinear y) fun _ => keeps_bind hR (hlinear x) fun _ =>
      keeps_bind hR (keeps_connect hR _ _ _) fun _ => keeps_pure hR _
  | read x => exact keeps_of_still hR (still_run_read around registers x)
  | ask query => exact keeps_of_still hR (still_run_ask around registers query)
  | freeze =>
    have hopen : R1CS.IsOpenFrame R := h.resolve_left id
    exact keeps_bind hR (fun s => hopen.freeze s) fun _ => keeps_pure hR _

theorem Step.keeps_run (around : Surroundings) (registers : Registers) (step : Step)
    (h : step.instruction.IsPrivate ∨ R1CS.IsOpenFrame R) :
    (step.run around registers).Keeps R := by
  rw [Step.run]
  split
  · exact keeps_fail hR _
  · exact step.instruction.keeps_run hR around registers h

/-- A whole program keeps what its changes keep, also where a step of it fails. -/
theorem Step.keeps_runAll (around : Surroundings) (steps : List Step) (registers : Registers)
    (h : ∀ step ∈ steps, step.instruction.IsPrivate ∨ R1CS.IsOpenFrame R) :
    (runAll around steps registers).Keeps R := by
  induction steps generalizing registers with
  | nil => exact keeps_pure hR _
  | cons step rest ih =>
    rw [runAll]
    exact keeps_bind hR (step.keeps_run hR around registers (h step (List.mem_cons_self ..)))
      fun item => ih _ fun step hstep => h step (List.mem_cons_of_mem _ hstep)

end

end RankOne
