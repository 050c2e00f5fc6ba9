import RankOne.Proofs.Ownership

/-!
# Two systems side by side

The same operation in two systems that differ in their values and owners alone. It ends alike in
both: wires, coefficients, gates, messages and refusals are the same. Values are read by nothing but
the function of a new wire, and the functions of the operations succeed on what a system owns.
-/

set_option autoImplicit false

namespace RankOne

def Linear.withOwner (owner : Option Nat) : Linear → Linear
  | .constant k => .constant k
  | .combination x => .combination ⟨x.terms, owner⟩

def Gate.withOwner (owner : Option Nat) (g : Gate) : Gate where
  left := g.left.withOwner owner
  right := g.right.withOwner owner
  output := g.output.withOwner owner
  message := g.message
  outputIsFlag := g.outputIsFlag

namespace Linear
variable {owner : Option Nat}

theorem withOwner_combination (x : Combination) :
    (combination x).withOwner owner = combination ⟨x.terms, owner⟩ := rfl

theorem withOwner_withOwner (owner' : Option Nat) (x : Linear) :
    (x.withOwner owner').withOwner owner = x.withOwner owner := by
  cases x <;> rfl

theorem terms_withOwner (x : Linear) : (x.withOwner owner).terms = x.terms := by
  cases x <;> rfl

theorem bit?_withOwner (x : Linear) : (x.withOwner owner).bit? = x.bit? := by
  cases x <;> rfl

theorem collect_withOwner (xs : List Linear) :
    collect (xs.map (withOwner owner)) = collect xs := by
  rw [collect, collect, List.foldl_map]
  simp only [terms_withOwner]

variable (tag tag' : Nat)

variable (owner) in
/-- Arithmetic looks at the terms alone, and the answer belongs to whoever computes it. -/
theorem sum_withOwner (xs : List Linear) :
    sum tag' (xs.map (withOwner owner)) = (sum tag xs).withOwner (some tag') := by
  simp only [sum, collect_withOwner, ofTerms]
  split <;> rfl

theorem multiple_withOwner (x : Combination) (k : Int) :
    multiple tag' ⟨x.terms, owner⟩ k = (multiple tag x k).withOwner (some tag') := by
  simp only [multiple]
  split <;> rfl

theorem times_withOwner (k : Int) (x : Linear) :
    times tag' k (x.withOwner owner) = (times tag k x).withOwner (some tag') := by
  cases x with
  | constant a => rfl
  | combination x => exact multiple_withOwner tag tag' x k

theorem product?_withOwner (x y : Linear) :
    product? tag' (x.withOwner owner) (y.withOwner owner) =
      (product? tag x y).map (withOwner (some tag')) := by
  cases x with
  | constant a =>
    cases y with
    | constant b => rfl
    | combination y => exact congrArg some (multiple_withOwner tag tag' y a)
  | combination x =>
    cases y with
    | constant b => exact congrArg some (multiple_withOwner tag tag' x b)
    | combination y => rfl

theorem difference_withOwner (x y : Linear) :
    difference tag' (x.withOwner (some tag')) (y.withOwner (some tag')) =
      (difference tag x y).withOwner (some tag') := by
  rw [difference, times_withOwner tag tag', difference]
  exact sum_withOwner (some tag') tag tag' [.constant 0, x, times tag (order - 1) y]

end Linear

structure R1CS.Twins (s t : R1CS) : Prop where
  wireCount : t.wireCount = s.wireCount
  entries : t.entries = s.entries
  gates : t.gates = s.gates.map (Gate.withOwner (some t.tag))
  frozen : t.frozen = s.frozen
  relationCount : t.relationCount = s.relationCount
  left : s.WellFormed
  right : t.WellFormed

def Linear.Twins (s t : R1CS) (x y : Linear) : Prop :=
  x.Within s ∧ y = x.withOwner (some t.tag)

namespace R1CS.Twins
variable {s t : R1CS}

theorem fresh (tag tag' : Nat) (witnessed witnessed' : Bool) :
    Twins (R1CS.fresh tag witnessed) (R1CS.fresh tag' witnessed') where
  wireCount := rfl
  entries := rfl
  gates := rfl
  frozen := rfl
  relationCount := rfl
  left := wellFormed_fresh tag witnessed
  right := wellFormed_fresh tag' witnessed'

theorem within_withOwner (h : Twins s t) {x : Linear} (hx : x.Within s) :
    (x.withOwner (some t.tag)).Within t := by
  cases x with
  | constant k => trivial
  | combination x =>
    refine ⟨rfl, fun term hterm => ?_⟩
    rw [h.wireCount]
    exact hx.2 term hterm

theorem access_eq (h : Twins s t) {xs : List Linear} (hxs : ∀ x ∈ xs, x.Within s) :
    t.access (xs.map (Linear.withOwner (some t.tag))) = s.access xs := by
  have hall : xs.all s.owns = true := List.all_eq_true.mpr fun x hx => (hxs x hx).owns
  have hall' : (xs.map (Linear.withOwner (some t.tag))).all t.owns = true := by
    rw [List.all_map, List.all_eq_true]
    exact fun x hx => (h.within_withOwner (hxs x hx)).owns
  rw [access, access, hall, hall', h.frozen]

theorem push (h : Twins s t) (hf : s.frozen = false) {f g : Reader → Except Fault Int}
    {v u : Option Int} (hv : s.wireValue f = .ok v) (hu : t.wireValue g = .ok u)
    (name : Option String) : Twins (s.push v name) (t.push u name) where
  wireCount := congrArg (· + 1) h.wireCount
  entries := by simp only [R1CS.push, h.entries, h.wireCount]
  gates := h.gates
  frozen := h.frozen
  relationCount := h.relationCount
  left := (grows_push hv hf name).wellFormed h.left
  right := (grows_push hu (h.frozen.trans hf) name).wellFormed h.right

theorem addGate (h : Twins s t) (hf : s.frozen = false) (g : Gate) :
    Twins { s with gates := s.gates ++ [g] }
      { t with gates := t.gates ++ [g.withOwner (some t.tag)] } where
  wireCount := h.wireCount
  entries := h.entries
  gates := by simp only [h.gates, List.map_append, List.map_cons, List.map_nil]
  frozen := h.frozen
  relationCount := h.relationCount
  left := (grows_addGate hf g).wellFormed h.left
  right := (grows_addGate (h.frozen.trans hf) _).wellFormed h.right

theorem pushGate (h : Twins s t) (hf : s.frozen = false) {f g : Reader → Except Fault Int}
    {v u : Option Int} (hv : s.wireValue f = .ok v) (hu : t.wireValue g = .ok u) (gate : Gate) :
    Twins (s.pushGate v gate) (t.pushGate u (gate.withOwner (some t.tag))) :=
  (h.push hf hv hu none).addGate hf gate

theorem freeze (h : Twins s t) : Twins s.freeze t.freeze := by
  by_cases hf : s.frozen = true
  · rwa [R1CS.freeze, if_pos hf, R1CS.freeze, if_pos (h.frozen.trans hf)]
  · have hleft := (grows_freeze s).wellFormed h.left
    have hright := (grows_freeze t).wellFormed h.right
    rw [R1CS.freeze, if_neg hf] at hleft ⊢
    rw [R1CS.freeze, if_neg (by rwa [h.frozen])] at hright ⊢
    exact
      { wireCount := h.wireCount
        entries := h.entries
        gates := by
          simp only [h.gates, h.entries, List.map_append, List.map_map]
          rfl
        frozen := rfl
        relationCount := by simp only [h.gates, List.length_map]
        left := hleft
        right := hright }

end R1CS.Twins

namespace Build
variable {α β γ ε : Type} {s t : R1CS}

/-- Two ends of computations that agree: related answers or the same fault, in systems that have
grown and differ in values and owners alone. -/
inductive Ends (R : R1CS → R1CS → α → β → Prop) (s t : R1CS) :
    Except Fault α × R1CS → Except Fault β × R1CS → Prop
  | ok {a b s' t'} : s'.Twins t' → s.Extends s' → t.Extends t' → R s' t' a b →
      Ends R s t (.ok a, s') (.ok b, t')
  | error {e s' t'} : s'.Twins t' → s.Extends s' → t.Extends t' →
      Ends R s t (.error e, s') (.error e, t')

def Parallel (R : R1CS → R1CS → α → β → Prop) (x : Build α) (y : Build β) (s t : R1CS) : Prop :=
  Ends R s t (x.run s) (y.run t)

variable {R : R1CS → R1CS → α → β → Prop} {S : R1CS → R1CS → γ → ε → Prop}

theorem Ends.after {s' t' : R1CS} {p : Except Fault α × R1CS} {q : Except Fault β × R1CS}
    (hs : s.Extends s') (ht : t.Extends t') (h : Ends R s' t' p q) : Ends R s t p q := by
  cases h with
  | ok htwins hs' ht' hR => exact .ok htwins (hs.trans hs') (ht.trans ht') hR
  | error htwins hs' ht' => exact .error htwins (hs.trans hs') (ht.trans ht')

theorem Parallel.twins {x : Build α} {y : Build β} (h : Parallel R x y s t) :
    (x.run s).2.Twins (y.run t).2 := by
  rw [Parallel] at h
  generalize x.run s = p at h ⊢
  generalize y.run t = q at h ⊢
  cases h <;> assumption

theorem Parallel.error_iff {x : Build α} {y : Build β} (h : Parallel R x y s t) (e : Fault) :
    (x.run s).1 = .error e ↔ (y.run t).1 = .error e := by
  rw [Parallel] at h
  generalize x.run s = p at h ⊢
  generalize y.run t = q at h ⊢
  cases h <;> simp

theorem Parallel.of_run {x : Build α} {y : Build β} (h : Parallel R x y s t) {b : β} {t' : R1CS}
    (hy : y.run t = (.ok b, t')) :
    ∃ a s', x.run s = (.ok a, s') ∧ s'.Twins t' ∧ s.Extends s' ∧ R s' t' a b := by
  rw [Parallel, hy] at h
  generalize x.run s = p at h ⊢
  cases h with
  | ok htwins hs _ hR => exact ⟨_, _, rfl, htwins, hs, hR⟩

/-- What the first computation keeps is known of the systems that the two leave behind. -/
theorem Parallel.and_keeps {x : Build α} {y : Build β} (h : Parallel R x y s t)
    {Q : R1CS → R1CS → Prop} (hx : x.Keeps Q) :
    Parallel (fun s' t' a b => R s' t' a b ∧ Q s s') x y s t := by
  have hQ := hx s
  rw [Parallel] at h ⊢
  generalize x.run s = p at h hQ ⊢
  generalize y.run t = q at h ⊢
  cases h with
  | ok htwins hs ht hR => exact .ok htwins hs ht ⟨hR, hQ⟩
  | error htwins hs ht => exact .error htwins hs ht

theorem parallel_of_ok {x : Build α} {y : Build β} {a : α} {b : β} {s' t' : R1CS}
    (hx : x.run s = (.ok a, s')) (hy : y.run t = (.ok b, t')) (ht : s'.Twins t')
    (hs : s.Extends s') (ht' : t.Extends t') (h : R s' t' a b) : Parallel R x y s t := by
  rw [Parallel, hx, hy]
  exact .ok ht hs ht' h

theorem parallel_of_error {x : Build α} {y : Build β} {e : Fault} (h : s.Twins t)
    (hx : x.run s = (.error e, s)) (hy : y.run t = (.error e, t)) : Parallel R x y s t := by
  rw [Parallel, hx, hy]
  exact .error h (.refl s) (.refl t)

theorem parallel_pure (h : s.Twins t) {a : α} {b : β} (hR : R s t a b) :
    Parallel R (pure a) (pure b) s t :=
  parallel_of_ok rfl rfl h (.refl s) (.refl t) hR

theorem parallel_fail (h : s.Twins t) (e : Fault) :
    Parallel R (fail e : Build α) (fail e : Build β) s t :=
  parallel_of_error h rfl rfl

theorem parallel_throw (h : s.Twins t) (e : Fault) :
    Parallel R (throw e : Build α) (throw e : Build β) s t :=
  parallel_of_error h rfl rfl

theorem parallel_bind {x : Build α} {y : Build β} {f : α → Build γ} {g : β → Build ε}
    (h : Parallel R x y s t)
    (hfg : ∀ {s' t' a b}, s'.Twins t' → s.Extends s' → t.Extends t' → R s' t' a b →
      Parallel S (f a) (g b) s' t') :
    Parallel S (x >>= f) (y >>= g) s t := by
  rw [Parallel, run_bind, run_bind]
  rw [Parallel] at h
  generalize x.run s = p at h ⊢
  generalize y.run t = q at h ⊢
  cases h with
  | error htwins hs ht => exact .error htwins hs ht
  | ok htwins hs ht hR =>
    exact Ends.after hs ht (hfg htwins hs ht hR)

theorem parallel_map {x : Build α} {y : Build β} {f : α → γ} {g : β → ε}
    (h : Parallel R x y s t) (hfg : ∀ {s' t' a b}, R s' t' a b → S s' t' (f a) (g b)) :
    Parallel S (f <$> x) (g <$> y) s t := by
  rw [Parallel, run_map, run_map]
  rw [Parallel] at h
  generalize x.run s = p at h ⊢
  generalize y.run t = q at h ⊢
  cases h with
  | error htwins hs ht => exact .error htwins hs ht
  | ok htwins hs ht hR => exact .ok htwins hs ht (hfg hR)

theorem parallel_mapM {ι : Type} {f : ι → Build α} {g : ι → Build β} (xs : List ι)
    (hmono : ∀ {s t s' t' a b}, R s t a b → s.Extends s' → t.Extends t' → s'.Twins t' →
      R s' t' a b)
    (hfg : ∀ x ∈ xs, ∀ {s' t'}, s'.Twins t' → s.Extends s' → t.Extends t' →
      Parallel R (f x) (g x) s' t') (h : s.Twins t) :
    Parallel (fun s t => List.Forall₂ (R s t)) (xs.mapM f) (xs.mapM g) s t := by
  induction xs generalizing s t with
  | nil => exact parallel_pure h .nil
  | cons x rest ih =>
    rw [List.mapM_cons, List.mapM_cons]
    apply parallel_bind (hfg x (List.mem_cons_self ..) h (.refl s) (.refl t))
    intro s' t' a b h' hs ht hab
    apply parallel_bind (ih (fun y hy {_ _} h'' hs' ht' =>
      hfg y (List.mem_cons_of_mem _ hy) h'' (hs.trans hs') (ht.trans ht')) h')
    intro s'' t'' as bs h'' hs' ht' hall
    exact parallel_pure h'' (.cons (hmono hab hs' ht' h'') hall)

end Build

theorem Linear.Twins.extend {s t s' t' : R1CS} {x y : Linear} (h : Linear.Twins s t x y)
    (hs : s.Extends s') (ht : t.Extends t') : Linear.Twins s' t' x y :=
  ⟨h.1.extend hs, by rw [h.2, ht.tag]⟩

theorem Linear.forall₂_twins {s t : R1CS} {xs ys : List Linear}
    (h : List.Forall₂ (Linear.Twins s t) xs ys) :
    (∀ x ∈ xs, x.Within s) ∧ ys = xs.map (Linear.withOwner (some t.tag)) := by
  induction h with
  | nil => simp
  | cons hxy _ ih =>
    rw [List.forall_mem_cons, List.map_cons, hxy.2, ih.2]
    exact ⟨⟨hxy.1, ih.1⟩, rfl⟩

namespace Build
variable {s t : R1CS} {x y z : Linear}

theorem parallel_own (h : s.Twins t) {xs : List Linear} (hxs : ∀ x ∈ xs, x.Within s) :
    Parallel (fun _ _ _ _ => True) (own xs) (own (xs.map (Linear.withOwner (some t.tag)))) s t := by
  rw [Parallel, run_own, run_own, h.access_eq hxs]
  cases s.access xs with
  | error e => exact .error h (.refl s) (.refl t)
  | ok u => exact .ok h (.refl s) (.refl t) trivial

theorem parallel_wire (h : s.Twins t) {f g : Reader → Except Fault Int} (name : Option String)
    (hf : ∃ v, s.wireValue f = .ok v) (hg : ∃ v, t.wireValue g = .ok v) :
    Parallel Linear.Twins (wire f name) (wire g name) s t := by
  obtain ⟨v, hv⟩ := hf
  obtain ⟨u, hu⟩ := hg
  rw [Parallel, run_wire, run_wire, h.frozen]
  by_cases hfrozen : s.frozen = true
  · rw [if_pos hfrozen, if_pos hfrozen]
    exact .error h (.refl s) (.refl t)
  · rw [if_neg hfrozen, if_neg hfrozen, hv, hu]
    rw [Bool.not_eq_true] at hfrozen
    have hs := (R1CS.grows_push hv hfrozen name).extends_
    have ht := (R1CS.grows_push hu (h.frozen.trans hfrozen) name).extends_
    refine .ok (h.push hfrozen hv hu name) hs ht ⟨?_, ?_⟩
    · exact Linear.within_wireAt (s := s.push v name) (Nat.lt_succ_self _)
    · rw [h.wireCount]
      rfl

theorem parallel_sum (h : s.Twins t) {xs : List Linear} (hx : x.Within s)
    (hxs : ∀ y ∈ xs, y.Within s) :
    Parallel Linear.Twins (sum xs x)
      (sum (xs.map (Linear.withOwner (some t.tag))) (x.withOwner (some t.tag))) s t := by
  have hall : ∀ y ∈ x :: xs, y.Within s := by
    intro y hy
    rcases List.mem_cons.mp hy with rfl | hy
    · exact hx
    · exact hxs y hy
  rw [Parallel, run_sum, run_sum, ← List.map_cons, h.access_eq hall]
  cases s.access (x :: xs) with
  | error e => exact .error h (.refl s) (.refl t)
  | ok u =>
    exact .ok h (.refl s) (.refl t)
      ⟨Linear.within_sum h.left.wireCount_pos hall, Linear.sum_withOwner _ s.tag t.tag _⟩

theorem parallel_add (h : s.Twins t) (hx : x.Within s) (hy : y.Within s) :
    Parallel Linear.Twins (add x y)
      (add (x.withOwner (some t.tag)) (y.withOwner (some t.tag))) s t :=
  parallel_sum h (x := .constant 0) trivial (by simpa using ⟨hx, hy⟩)

theorem parallel_sub (h : s.Twins t) (hx : x.Within s) (hy : y.Within s) :
    Parallel Linear.Twins (sub x y)
      (sub (x.withOwner (some t.tag)) (y.withOwner (some t.tag))) s t := by
  have hboth : ∀ z ∈ [x, y], z.Within s := by simpa using ⟨hx, hy⟩
  have haccess := h.access_eq hboth
  simp only [List.map_cons, List.map_nil] at haccess
  rw [Parallel, run_sub, run_sub, haccess]
  cases s.access [x, y] with
  | error e => exact .error h (.refl s) (.refl t)
  | ok u =>
    exact .ok h (.refl s) (.refl t)
      ⟨Linear.within_difference h.left.wireCount_pos hx hy,
        Linear.difference_withOwner s.tag t.tag x y⟩

/-- A wire with the gate that fixes it, where both functions of the value succeed. -/
theorem parallel_pushGate (h : s.Twins t) (hf : s.frozen = false)
    {f g : Reader → Except Fault Int} {v u : Option Int} (hv : s.wireValue f = .ok v)
    (hu : t.wireValue g = .ok u) (gate : Gate) :
    Ends Linear.Twins s t (.ok (s.wireAt s.wireCount), s.pushGate v gate)
      (.ok (t.wireAt t.wireCount), t.pushGate u (gate.withOwner (some t.tag))) := by
  have hs := (R1CS.grows_pushGate hv hf gate).extends_
  have ht := (R1CS.grows_pushGate hu (h.frozen.trans hf) (gate.withOwner (some t.tag))).extends_
  refine .ok (h.pushGate hf hv hu gate) hs ht ⟨?_, ?_⟩
  · exact Linear.within_wireAt (s := s.pushGate v gate) (Nat.lt_succ_self _)
  · rw [h.wireCount]
    rfl

theorem parallel_mul (h : s.Twins t) (hx : x.Within s) (hy : y.Within s) (message : String) :
    Parallel Linear.Twins (mul x y message)
      (mul (x.withOwner (some t.tag)) (y.withOwner (some t.tag)) message) s t := by
  have hboth : ∀ z ∈ [x, y], z.Within s := by simpa using ⟨hx, hy⟩
  have haccess := h.access_eq hboth
  simp only [List.map_cons, List.map_nil] at haccess
  rw [Parallel, run_mul, run_mul, haccess, Linear.product?_withOwner s.tag t.tag]
  cases hok : s.access [x, y] with
  | error e => exact .error h (.refl s) (.refl t)
  | ok u =>
    cases hp : Linear.product? s.tag x y with
    | some p => exact .ok h (.refl s) (.refl t) ⟨Linear.within_product? hx hy hp, rfl⟩
    | none =>
      obtain ⟨v, hv⟩ := R1CS.productValue_isOk h.left hx hy
      obtain ⟨u, hu⟩ :=
        R1CS.productValue_isOk h.right (h.within_withOwner hx) (h.within_withOwner hy)
      simp only [Option.map_none, hv, hu]
      have hgate : (⟨x, y, s.wireAt s.wireCount, message, false⟩ : Gate).withOwner (some t.tag) =
          ⟨x.withOwner (some t.tag), y.withOwner (some t.tag), t.wireAt t.wireCount, message,
            false⟩ := by
        rw [h.wireCount]
        rfl
      rw [← hgate]
      exact parallel_pushGate h (not_frozen_of_access hok) hv hu _

theorem isZero_withOwner (owner : Option Nat) (x : Linear) :
    div.isZero (x.withOwner owner) = div.isZero x := by
  cases x <;> rfl

theorem parallel_div (h : s.Twins t) (hx : x.Within s) (hy : y.Within s) (message : String)
    (isFlag : Bool) :
    Parallel Linear.Twins (div x y message isFlag)
      (div (x.withOwner (some t.tag)) (y.withOwner (some t.tag)) message isFlag) s t := by
  have hboth : ∀ z ∈ [x, y], z.Within s := by simpa using ⟨hx, hy⟩
  have haccess := h.access_eq hboth
  simp only [List.map_cons, List.map_nil] at haccess
  rw [Parallel, run_div, run_div, haccess]
  cases hok : s.access [x, y] with
  | error e => exact .error h (.refl s) (.refl t)
  | ok u =>
    cases y with
    | constant k =>
      simp only [Linear.withOwner]
      by_cases hzero : reduce k = 0
      · rw [if_pos hzero, if_pos hzero]
        exact .error h (.refl s) (.refl t)
      · rw [if_neg hzero, if_neg hzero]
        exact .ok h (.refl s) (.refl t)
          ⟨Linear.within_times hx _, Linear.times_withOwner s.tag t.tag _ x⟩
    | combination y =>
      obtain ⟨v, hv⟩ := R1CS.quotientValue_isOk h.left hx hy
      obtain ⟨u, hu⟩ :=
        R1CS.quotientValue_isOk h.right (h.within_withOwner hx) (h.within_withOwner hy)
      simp only [Linear.withOwner_combination, isZero_withOwner] at hu ⊢
      by_cases hzero : div.isZero x = true
      · rw [if_pos hzero, if_pos hzero]
        exact .ok h (.refl s) (.refl t) ⟨trivial, rfl⟩
      · rw [if_neg hzero, if_neg hzero, hv, hu]
        have hgate : (⟨s.wireAt s.wireCount, .combination y, x, message, isFlag⟩ : Gate).withOwner
            (some t.tag) = ⟨t.wireAt t.wireCount, .combination ⟨y.terms, some t.tag⟩,
              x.withOwner (some t.tag), message, isFlag⟩ := by
          rw [h.wireCount]
          rfl
        simp only
        rw [← hgate]
        exact parallel_pushGate h (not_frozen_of_access hok) hv hu _

theorem parallel_zeroGate (h : s.Twins t) (hf : s.frozen = false) (z : Linear)
    (message : String) :
    Parallel (fun _ _ _ _ => True) (zeroGate z message)
      (zeroGate (z.withOwner (some t.tag)) message) s t := by
  rw [Parallel, run_zeroGate, run_zeroGate]
  cases z with
  | constant k =>
    simp only [Linear.withOwner]
    split
    · exact .ok h (.refl s) (.refl t) trivial
    · exact .error h (.refl s) (.refl t)
  | combination z =>
    exact .ok (h.addGate hf _) (R1CS.grows_addGate hf _).extends_
      (R1CS.grows_addGate (h.frozen.trans hf) _).extends_ trivial

theorem parallel_gate (h : s.Twins t) (hx : x.Within s) (hy : y.Within s) (hz : z.Within s)
    (message : String) (isFlag : Bool) :
    Parallel (fun _ _ _ _ => True) (gate x y z message isFlag)
      (gate (x.withOwner (some t.tag)) (y.withOwner (some t.tag)) (z.withOwner (some t.tag)) message
        isFlag) s t := by
  have hall : ∀ u ∈ [x, y, z], u.Within s := by simpa using ⟨hx, hy, hz⟩
  have haccess := h.access_eq hall
  simp only [List.map_cons, List.map_nil] at haccess
  rw [Parallel, run_gate, run_gate, haccess, Linear.product?_withOwner s.tag t.tag]
  cases hok : s.access [x, y, z] with
  | error e => exact .error h (.refl s) (.refl t)
  | ok u =>
    have hf := not_frozen_of_access hok
    cases Linear.product? s.tag x y with
    | some p =>
      simp only [Option.map_some, Linear.difference_withOwner s.tag t.tag]
      exact parallel_zeroGate h hf _ message
    | none =>
      exact .ok (h.addGate hf _) (R1CS.grows_addGate hf _).extends_
        (R1CS.grows_addGate (h.frozen.trans hf) _).extends_ trivial

theorem parallel_selectScalar {b : Linear} (h : s.Twins t) (hb : b.Within s) (hx : x.Within s)
    (hy : y.Within s) :
    Parallel Linear.Twins (selectScalar b x y)
      (selectScalar (b.withOwner (some t.tag)) (x.withOwner (some t.tag))
        (y.withOwner (some t.tag))) s t := by
  apply parallel_bind (parallel_sub h hx hy)
  rintro s' t' d _ h' hs ht ⟨hd, rfl⟩
  rw [← ht.tag]
  apply parallel_bind (parallel_mul h' (hb.extend hs) hd _)
  rintro s'' t'' p _ h'' hs' ht' ⟨hp, rfl⟩
  rw [← ht'.tag]
  exact parallel_add h'' hp (hy.extend (hs.trans hs'))

theorem parallel_connect (h : s.Twins t) (hx : x.Within s) (hy : y.Within s)
    (message : String) :
    Parallel (fun _ _ _ _ => True) (connect x y message)
      (connect (x.withOwner (some t.tag)) (y.withOwner (some t.tag)) message) s t := by
  apply parallel_bind (parallel_sub h hx hy)
  rintro s' t' d _ h' - - ⟨hd, rfl⟩
  exact parallel_gate h' (x := .constant 0) (y := .constant 0) trivial trivial hd message false

end Build

end RankOne
