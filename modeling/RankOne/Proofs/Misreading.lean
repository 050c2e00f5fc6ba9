import Mathlib.Data.List.TakeDrop
import Mathlib.Data.List.TakeWhile
import RankOne.Proofs.Wording

/-!
# How reading fails

Whatever the bytes are, the binary readers fail by calling them malformed. So do the readers of the
exchange forms, but for two limits that they run into as resources and not as rules of the format: a
text that opens too many containers, and a number with too many digits, be it a number of the text
or a field element among the public inputs.
-/

set_option autoImplicit false

namespace RankOne

def Fault.IsMalformed (e : Fault) : Prop := ∃ cause, e = .malformed cause

def FailsWith {α : Type} (P : Fault → Prop) (r : Except Fault α) : Prop := ∀ e, r = .error e → P e

namespace FailsWith
variable {α β : Type} {P Q : Fault → Prop} {r : Except Fault α}

theorem ok (a : α) : FailsWith P (.ok a) := nofun

theorem error {e : Fault} (h : P e) : FailsWith P (.error e : Except Fault α) := by
  rintro _ ⟨⟩
  exact h

theorem malformed (cause : Malformed) :
    FailsWith Fault.IsMalformed (.error (.malformed cause) : Except Fault α) :=
  error ⟨cause, rfl⟩

theorem mono (h : FailsWith P r) (hPQ : ∀ e, P e → Q e) : FailsWith Q r :=
  fun e he => hPQ e (h e he)

theorem bind_of_ok {f : α → Except Fault β} (h : FailsWith P r)
    (hf : ∀ a, r = .ok a → FailsWith P (f a)) : FailsWith P (r >>= f) := by
  cases r with
  | error e => exact error (h e rfl)
  | ok a => exact hf a rfl

theorem bind {f : α → Except Fault β} (h : FailsWith P r) (hf : ∀ a, FailsWith P (f a)) :
    FailsWith P (r >>= f) :=
  h.bind_of_ok fun a _ => hf a

theorem mapM {f : α → Except Fault β} {xs : List α} (hf : ∀ x ∈ xs, FailsWith P (f x)) :
    FailsWith P (xs.mapM f) := by
  induction xs with
  | nil => exact ok []
  | cons x xs ih =>
    rw [List.forall_mem_cons] at hf
    rw [List.mapM_cons]
    exact hf.1.bind fun y => (ih hf.2).bind fun ys => ok (y :: ys)

end FailsWith

open FailsWith (malformed)

namespace Bytes

theorem fails_chunk (n : ℕ) (data : Bytes) : FailsWith Fault.IsMalformed (chunk n data) := by
  rw [chunk]
  split
  · exact malformed _
  · exact .ok _

theorem fails_count (data : Bytes) : FailsWith Fault.IsMalformed (count data) := by
  have h := fails_chunk countWidth data
  rw [count]
  cases hchunk : chunk countWidth data with
  | ok parts => exact .ok _
  | error e => exact .error (h e hchunk)

theorem fails_element (G : Type) [CodedGroup G] (invalid : Malformed) (data : Bytes) :
    FailsWith Fault.IsMalformed (element G invalid data) := by
  have h := fails_chunk (CodedGroup.width G) data
  rw [element]
  cases hchunk : chunk (CodedGroup.width G) data with
  | error e => exact .error (h e hchunk)
  | ok parts =>
    obtain ⟨bytes, rest⟩ := parts
    cases hdecode : (CodedGroup.decode? bytes : Option G) with
    | none => simpa only [hdecode] using malformed invalid
    | some x => simpa only [hdecode] using .ok _

theorem fails_many {α : Type} {one : Parse α}
    (h : ∀ data, FailsWith Fault.IsMalformed (one data)) (n : ℕ) (data : Bytes) :
    FailsWith Fault.IsMalformed (many one n data) := by
  induction n generalizing data with
  | zero => exact .ok _
  | succ n ih =>
    rw [many]
    cases hone : one data with
    | error e => exact .error (h data e hone)
    | ok parts =>
      obtain ⟨x, rest⟩ := parts
      cases hmany : many one n rest with
      | error e => simpa only [hmany] using .error (ih rest e hmany)
      | ok parts => simpa only [hmany] using .ok _

end Bytes

section Binary
variable {G₁ G₂ : Type} [CodedGroup G₁] [CodedGroup G₂]

open Bytes

theorem fails_first (data : Bytes) : FailsWith Fault.IsMalformed (first G₁ data) :=
  fails_element G₁ _ data

theorem fails_second (data : Bytes) : FailsWith Fault.IsMalformed (second G₂ data) :=
  fails_element G₂ _ data

theorem ProvingKey.fails_parse (data : Bytes) :
    FailsWith Fault.IsMalformed
      (parse data : Except Fault (ProvingKey G₁ G₂ × Bytes)) := by
  refine (fails_count data).bind fun ⟨wires, data⟩ => ?_
  refine (fails_count data).bind fun ⟨gates, data⟩ => ?_
  refine (fails_count data).bind fun ⟨entries, data⟩ => ?_
  refine (fails_chunk _ data).bind fun ⟨digest, data⟩ => ?_
  refine (fails_first data).bind fun ⟨alpha₁, data⟩ => ?_
  refine (fails_first data).bind fun ⟨beta₁, data⟩ => ?_
  refine (fails_first data).bind fun ⟨delta₁, data⟩ => ?_
  refine (fails_second data).bind fun ⟨beta₂, data⟩ => ?_
  refine (fails_second data).bind fun ⟨delta₂, data⟩ => ?_
  refine (fails_many fails_first _ data).bind fun ⟨privateColumns, data⟩ => ?_
  refine (fails_many fails_first _ data).bind fun ⟨powers₁, data⟩ => ?_
  refine (fails_many fails_second _ data).bind fun ⟨powers₂, data⟩ => ?_
  exact (fails_many fails_first _ data).bind fun ⟨quotients, data⟩ => .ok _

theorem VerifyingKey.fails_parse (data : Bytes) :
    FailsWith Fault.IsMalformed
      (parse data : Except Fault (VerifyingKey G₁ G₂ × Bytes)) := by
  refine (fails_count data).bind fun ⟨entryCount, data⟩ => ?_
  refine (fails_first data).bind fun ⟨alpha₁, data⟩ => ?_
  refine (fails_second data).bind fun ⟨beta₂, data⟩ => ?_
  refine (fails_second data).bind fun ⟨gamma₂, data⟩ => ?_
  refine (fails_second data).bind fun ⟨delta₂, data⟩ => ?_
  exact (fails_many fails_first _ data).bind fun ⟨publicColumns, data⟩ => .ok _

theorem Key.fails_parse (data : Bytes) :
    FailsWith Fault.IsMalformed (parse data : Except Fault (Key G₁ G₂ × Bytes)) := by
  refine (ProvingKey.fails_parse data).bind fun ⟨pk, data⟩ => ?_
  refine (VerifyingKey.fails_parse data).bind fun ⟨vk, data⟩ => ?_
  by_cases hcount : vk.entryCount ≠ pk.counts.entries
  · simp only [if_pos hcount]
    exact (malformed .keysDisagree).bind fun _ => .ok _
  · simp only [if_neg hcount]
    exact .ok _

theorem Proof.fails_parse (data : Bytes) :
    FailsWith Fault.IsMalformed (parse data : Except Fault (Proof G₁ G₂ × Bytes)) := by
  refine (fails_first data).bind fun ⟨a, data⟩ => ?_
  refine (fails_second data).bind fun ⟨b, data⟩ => ?_
  exact (fails_first data).bind fun ⟨c, data⟩ => .ok _

theorem Proof.fails_ofBytes (data : Bytes) :
    FailsWith Fault.IsMalformed (ofBytes data : Except Fault (Proof G₁ G₂)) := by
  have h : FailsWith Fault.IsMalformed (parse data : Except Fault (Proof G₁ G₂ × Bytes)) :=
    fails_parse data
  rw [ofBytes]
  split
  · exact malformed _
  · cases hparse : (parse data : Except Fault (Proof G₁ G₂ × Bytes)) with
    | error e => exact .error (h e hparse)
    | ok parts =>
      obtain ⟨p, rest⟩ := parts
      cases rest with
      | nil => exact .ok _
      | cons b rest => exact malformed _

end Binary

namespace Json

def Token.isOpening : Token → Bool
  | .openList => true
  | .openObject => true
  | _ => false

def State.depth : State → ℕ
  | .wantValue stack => stack.length
  | .firstItem stack => stack.length + 1
  | .firstField stack => stack.length + 1
  | .wantName _ stack => stack.length + 1
  | .wantColon _ _ stack => stack.length + 1
  | .complete _ stack => stack.length

inductive Obstacle (depth : ℕ) (tokens : List Token) : Fault → Prop
  | malformed (cause : Malformed) : Obstacle depth tokens (.malformed cause)
  | tooDeep (h : nestingLimit < depth + tokens.countP Token.isOpening) :
      Obstacle depth tokens .tooDeep
  | overlong (h : .overlong ∈ tokens) : Obstacle depth tokens (.unusable .digitLimit)

theorem Obstacle.cons {depth depth' : ℕ} {token : Token} {tokens : List Token} {e : Fault}
    (h : Obstacle depth' tokens e)
    (hdepth : depth' ≤ depth + [token].countP Token.isOpening) :
    Obstacle depth (token :: tokens) e := by
  have hcount : (token :: tokens).countP Token.isOpening =
      [token].countP Token.isOpening + tokens.countP Token.isOpening := by
    rw [← List.countP_append, List.singleton_append]
  cases h with
  | malformed cause => exact .malformed cause
  | tooDeep h => exact .tooDeep (by omega)
  | overlong h => exact .overlong (List.mem_cons_of_mem _ h)

inductive Stepped (depth : ℕ) (token : Token) : Except Fault State → Prop
  | ok {s : State} (h : s.depth ≤ depth + [token].countP Token.isOpening) :
      Stepped depth token (.ok s)
  | error {e : Fault} (h : Obstacle depth [token] e) : Stepped depth token (.error e)

theorem stepped_notJson (depth : ℕ) (token : Token) : Stepped depth token notJson :=
  .error (.malformed _)

theorem stepped_beginValue (stack : List Frame) (token : Token) :
    Stepped stack.length token (beginValue stack token) := by
  have henter : ∀ next : State, next.depth = stack.length + 1 → token.isOpening = true →
      Stepped stack.length token (enter stack next) := by
    intro next hnext hopening
    have hcount : [token].countP Token.isOpening = 1 := by simp [hopening]
    rw [enter]
    split
    · exact .error (.tooDeep (by omega))
    · exact .ok (by omega)
  cases token with
  | openList => exact henter _ rfl rfl
  | openObject => exact henter _ rfl rfl
  | scalar value => exact .ok (Nat.le_refl _)
  | overlong => exact .error (.overlong (List.mem_singleton_self _))
  | _ => exact stepped_notJson _ _

theorem stepped_beginName (before : List (Unicode.Codes × Json)) (stack : List Frame)
    (token : Token) : Stepped (stack.length + 1) token (beginName before stack token) := by
  rw [beginName.eq_def]
  split
  · exact .ok (Nat.le_refl _)
  · exact stepped_notJson _ _

theorem stepped_afterValue (value : Json) (stack : List Frame) (token : Token) :
    Stepped stack.length token (afterValue value stack token) := by
  rw [afterValue.eq_def]
  split
  · exact .ok (Nat.le_refl _)
  · exact .ok (by simp only [State.depth, List.length_cons]; omega)
  · exact .ok (Nat.le_refl _)
  · exact .ok (by simp only [State.depth, List.length_cons]; omega)
  · exact stepped_notJson _ _

theorem State.stepped_next (s : State) (token : Token) :
    Stepped s.depth token (s.next token) := by
  rw [next.eq_def]
  split
  · exact stepped_beginValue _ _
  · exact .ok (by simp only [depth]; omega)
  · exact stepped_beginValue (_ :: _) _
  · exact .ok (by simp only [depth]; omega)
  · exact stepped_beginName _ _ _
  · exact stepped_beginName _ _ _
  · exact .ok (Nat.le_refl _)
  · exact stepped_notJson _ _
  · exact stepped_afterValue _ _ _

theorem State.fails_run (s : State) (tokens : List Token) :
    FailsWith (Obstacle s.depth tokens) (s.run tokens) := by
  induction tokens generalizing s with
  | nil => exact .ok _
  | cons token tokens ih =>
    have hstep := s.stepped_next token
    rw [run]
    generalize s.next token = r at hstep ⊢
    cases hstep with
    | ok hdepth => exact (ih _).mono fun e h => h.cons hdepth
    | error h =>
      refine .error ?_
      cases h with
      | malformed cause => exact .malformed cause
      | tooDeep h => exact .tooDeep (by simp only [List.countP_cons, List.countP_nil] at h ⊢; omega)
      | overlong h => exact .overlong (List.mem_cons.mpr (.inl (List.mem_singleton.mp h)))

open Unicode (Codes)

theorem suffix_of_fourDigits? {cs rest : Codes} {u : ℕ} (h : fourDigits? cs = some (u, rest)) :
    rest <:+ cs := by
  rw [fourDigits?.eq_def] at h
  split at h
  · rename_i a b c d tail
    obtain ⟨v, -, hv⟩ := Option.map_eq_some_iff.mp h
    obtain ⟨-, rfl⟩ := Prod.mk.inj hv
    exact ⟨[a, b, c, d], rfl⟩
  · cases h

theorem suffix_joinNext (u : ℕ) (rest : Codes) : (joinNext u rest).2 <:+ rest := by
  rw [joinNext.eq_def]
  split
  · rename_i a b more
    split
    · split
      · rename_i v tail hv
        split
        · exact (suffix_of_fourDigits? hv).trans ⟨[a, b], rfl⟩
        · exact List.suffix_refl _
      · exact List.suffix_refl _
    · exact List.suffix_refl _
  · exact List.suffix_refl _

theorem suffix_of_escape? {cs rest : Codes} {c : ℕ} (h : escape? cs = some (c, rest)) :
    rest <:+ cs := by
  cases cs with
  | nil => cases h
  | cons d cs =>
    rw [escape?] at h
    split at h
    · obtain ⟨⟨u, tail⟩, hu, hv⟩ := Option.map_eq_some_iff.mp h
      have hjoin := suffix_joinNext u tail
      rw [hv] at hjoin
      exact (hjoin.trans (suffix_of_fourDigits? hu)).trans (List.suffix_cons d cs)
    · obtain ⟨v, -, hv⟩ := Option.map_eq_some_iff.mp h
      obtain ⟨-, rfl⟩ := Prod.mk.inj hv
      exact List.suffix_cons d cs

theorem suffix_of_scanText {cs t tail : Codes} (h : scanText cs = some (t, tail)) :
    tail <:+ cs := by
  have hmap : ∀ {v : ℕ} {t tail more : Codes},
      (scanText more).map (fun r => (v :: r.1, r.2)) = some (t, tail) →
        ∃ t', scanText more = some (t', tail) := by
    intro v t tail more hmore
    obtain ⟨⟨t', tail'⟩, hscan, heq⟩ := Option.map_eq_some_iff.mp hmore
    obtain ⟨-, rfl⟩ := Prod.mk.inj heq
    exact ⟨t', hscan⟩
  induction cs using scanText.induct generalizing t tail with
  | case1 => simp [scanText] at h
  | case2 rest =>
    rw [scanText, if_pos rfl] at h
    obtain ⟨-, rfl⟩ := Prod.mk.inj (Option.some.inj h)
    exact List.suffix_cons 34 rest
  | case3 rest hescape hquote =>
    rw [scanText, if_neg hquote, if_pos rfl] at h
    split at h <;> simp_all
  | case4 rest v more hescape _ hquote ih =>
    rw [scanText, if_neg hquote, if_pos rfl] at h
    split at h
    · cases h
    · rename_i hescape'
      obtain ⟨-, rfl⟩ := Prod.mk.inj (Option.some.inj (hescape.symm.trans hescape'))
      obtain ⟨t', hscan⟩ := hmap h
      have hmore := ih hscan
      exact (hmore.trans (suffix_of_escape? hescape)).trans (List.suffix_cons 92 rest)
  | case5 c rest hquote hslash hc =>
    rw [scanText, if_neg hquote, if_neg hslash, if_pos hc] at h
    cases h
  | case6 c rest hquote hslash hc ih =>
    rw [scanText, if_neg hquote, if_neg hslash, if_neg hc] at h
    obtain ⟨t', hscan⟩ := hmap h
    exact (ih hscan).trans (List.suffix_cons c rest)

theorem suffix_of_literal? {cs tail : Codes} {value : Json} (h : literal? cs = some (value, tail)) :
    tail <:+ cs := by
  obtain ⟨entry, -, hentry⟩ := List.exists_of_findSome?_eq_some h
  split at hentry
  · obtain ⟨-, rfl⟩ := Prod.mk.inj (Option.some.inj hentry)
    exact List.drop_suffix _ _
  · cases hentry

theorem suffix_span (p : ℕ → Bool) (cs : Codes) : (cs.span p).2 <:+ cs := by
  rw [List.span_eq_takeWhile_dropWhile]
  exact List.dropWhile_suffix p

theorem append_integerPart (cs : Codes) :
    (integerPart cs).1 ++ (integerPart cs).2 = cs := by
  rw [integerPart.eq_def]
  split
  · rfl
  · rw [List.span_eq_takeWhile_dropWhile]
    exact List.takeWhile_append_dropWhile

theorem suffix_fractionPart (cs : Codes) : (fractionPart cs).2 <:+ cs := by
  rw [fractionPart.eq_def]
  split
  · rename_i rest
    have hspan := suffix_span isDigit rest
    split
    · exact List.suffix_refl _
    · rename_i ds tail _ heq
      rw [heq] at hspan
      exact hspan.trans (List.suffix_cons 46 rest)
  · exact List.suffix_refl _

theorem suffix_signedDigits (cs : Codes) : (signedDigits cs).2.2 <:+ cs := by
  rw [signedDigits.eq_def]
  split
  · exact (suffix_span isDigit _).trans (List.suffix_cons _ _)
  · exact (suffix_span isDigit _).trans (List.suffix_cons _ _)
  · exact suffix_span isDigit _

theorem suffix_exponentPart (cs : Codes) : (exponentPart cs).2 <:+ cs := by
  rw [exponentPart.eq_def]
  split
  · rename_i c rest
    have hsigned := suffix_signedDigits rest
    split
    · split
      · exact List.suffix_refl _
      · rename_i heq
        rw [heq] at hsigned
        exact hsigned.trans (List.suffix_cons c rest)
      · rename_i heq
        rw [heq] at hsigned
        exact hsigned.trans (List.suffix_cons c rest)
    · exact List.suffix_refl _
  · exact List.suffix_refl _

theorem isDigit_of_mem_integerPart {cs : Codes} {c : ℕ} (h : c ∈ (integerPart cs).1) :
    isDigit c = true := by
  rw [integerPart.eq_def] at h
  split at h
  · obtain rfl := List.mem_singleton.mp h
    rfl
  · rw [List.span_eq_takeWhile_dropWhile] at h
    exact List.mem_takeWhile_imp h

def HasLongNumber (cs : Codes) : Prop :=
  ∃ digits, digits <:+: cs ∧ (∀ c ∈ digits, isDigit c = true) ∧ digitLimit < digits.length

theorem HasLongNumber.mono {cs cs' : Codes} (h : HasLongNumber cs) (hcs : cs <:+: cs') :
    HasLongNumber cs' := by
  obtain ⟨digits, hdigits, h⟩ := h
  exact ⟨digits, hdigits.trans hcs, h⟩

theorem integerToken_eq_overlong_iff {negative : Bool} {digits : Codes} :
    integerToken negative digits = .overlong ↔ digitLimit < digits.length := by
  rw [integerToken]
  split
  · simp [*]
  · simp [*]

/-- A number ends in the text, and is too long only where the text has too many digits. -/
theorem numberToken_spec (negative : Bool) (cs : Codes) :
    (numberToken negative cs).2 <:+ cs ∧
      ((numberToken negative cs).1 = .overlong → HasLongNumber cs) := by
  have happend := append_integerPart cs
  have hdigits : ∀ c ∈ (integerPart cs).1, isDigit c = true := fun _ => isDigit_of_mem_integerPart
  rw [numberToken.eq_def]
  generalize integerPart cs = parts at happend hdigits
  obtain ⟨whole, rest⟩ := parts
  obtain rfl : whole ++ rest = cs := happend
  have hfraction := suffix_fractionPart rest
  have hexponent := suffix_exponentPart (fractionPart rest).2
  have htail := (hexponent.trans hfraction).trans (List.suffix_append whole rest)
  cases whole with
  | nil => exact ⟨List.suffix_refl _, nofun⟩
  | cons d whole =>
    dsimp only
    split
    · refine ⟨htail, fun h => ⟨d :: whole, List.infix_append [] _ _, hdigits, ?_⟩⟩
      exact integerToken_eq_overlong_iff.mp h
    · exact ⟨htail, nofun⟩

theorem nextToken_spec (c : ℕ) (rest : Codes) :
    (nextToken c rest).2 <:+ c :: rest ∧
      ((nextToken c rest).1 = .overlong → HasLongNumber (c :: rest)) := by
  have hrest := List.suffix_cons c rest
  rw [nextToken]
  repeat' split
  iterate 6 exact ⟨hrest, by simp⟩
  · rename_i hscan
    exact ⟨(suffix_of_scanText hscan).trans hrest, by simp⟩
  · exact ⟨hrest, by simp⟩
  · rename_i hliteral
    exact ⟨suffix_of_literal? hliteral, by simp⟩
  · obtain ⟨hsuffix, hlong⟩ := numberToken_spec true rest
    exact ⟨hsuffix.trans hrest, fun h => (hlong h).mono hrest.isInfix⟩
  · exact numberToken_spec false (c :: rest)

theorem hasLongNumber_of_overlong_mem {fuel : ℕ} {cs : Codes}
    (h : .overlong ∈ tokensFrom fuel cs) : HasLongNumber cs := by
  induction fuel generalizing cs with
  | zero => cases cs <;> simp [tokensFrom] at h
  | succ fuel ih =>
    cases cs with
    | nil => simp [tokensFrom] at h
    | cons c rest =>
      have hrest := (List.suffix_cons c rest).isInfix
      obtain ⟨htail, hlong⟩ := nextToken_spec c rest
      rw [tokensFrom] at h
      split at h
      · exact (ih h).mono hrest
      · split at h
        · simp at h
        · rename_i heq
          exact hlong (by rw [heq])
        · rename_i token tail _ hoverlong heq
          rcases List.mem_cons.mp h with rfl | h
          · exact absurd rfl hoverlong
          · rw [heq] at htail
            exact (ih h).mono htail.isInfix

theorem fails_parse (cs : Codes) : FailsWith (Obstacle 0 (tokens cs)) (parse cs) := by
  have h := (State.wantValue []).fails_run (tokens cs)
  rw [parse]
  cases hrun : (State.wantValue []).run (tokens cs) with
  | error e => exact .error (h e hrun)
  | ok s =>
    rcases s with _ | _ | _ | _ | _ | ⟨value, stack⟩
    · exact .error (.malformed _)
    · exact .error (.malformed _)
    · exact .error (.malformed _)
    · exact .error (.malformed _)
    · exact .error (.malformed _)
    · cases stack with
      | nil => exact .ok _
      | cons frame stack => exact .error (.malformed _)

inductive Unread (data : Bytes) : Fault → Prop
  | malformed (cause : Malformed) : Unread data (.malformed cause)
  | tooDeep {cs : Codes} (hcs : Unicode.decode? data = some cs)
      (h : nestingLimit < (tokens cs).countP Token.isOpening) : Unread data .tooDeep
  | overlong {cs : Codes} (hcs : Unicode.decode? data = some cs) (h : HasLongNumber cs) :
      Unread data (.unusable .digitLimit)

theorem fails_ofBytes (data : Bytes) : FailsWith (Unread data) (ofBytes data) := by
  rw [ofBytes]
  cases hcs : Unicode.decode? data with
  | none => exact .error (.malformed _)
  | some cs =>
    refine (fails_parse cs).mono fun e h => ?_
    cases h with
    | malformed cause => exact .malformed cause
    | tooDeep h => exact .tooDeep hcs (by omega)
    | overlong h => exact .overlong hcs (hasLongNumber_of_overlong_mem h)

end Json

namespace Exchange

open Unicode (Codes)
open Json (Unread)

variable {G₁ G₂ : Type} [CodedGroup G₁] [CodedGroup G₂]

theorem fails_field (x : Json) (name : String) : FailsWith Fault.IsMalformed (field x name) := by
  rw [field.eq_def]
  split
  · split
    · exact .ok _
    · exact malformed _
  · exact malformed _

theorem fails_point (G : Type) [CodedGroup G] (invalid : Malformed) (x : Json) :
    FailsWith Fault.IsMalformed (point G invalid x) := by
  rw [point.eq_def]
  split
  · split
    · exact malformed _
    · split
      · exact .ok _
      · exact malformed _
  · exact malformed _

theorem fails_verifyingKey (x : Json) :
    FailsWith Fault.IsMalformed (verifyingKey x : Except Fault (VerifyingKey G₁ G₂)) := by
  refine (fails_field x _).bind fun columns => ?_
  split
  · refine (fails_field x _).bind fun alpha => (fails_point _ _ alpha).bind fun _ => ?_
    refine (fails_field x _).bind fun beta => (fails_point _ _ beta).bind fun _ => ?_
    refine (fails_field x _).bind fun gamma => (fails_point _ _ gamma).bind fun _ => ?_
    refine (fails_field x _).bind fun delta => (fails_point _ _ delta).bind fun _ => ?_
    exact (FailsWith.mapM fun column _ => fails_point _ _ column).bind fun _ => .ok _
  · exact malformed _

theorem fails_proof (x : Json) :
    FailsWith Fault.IsMalformed (proof x : Except Fault (Proof G₁ G₂)) := by
  refine (fails_field x _).bind fun a => (fails_point _ _ a).bind fun _ => ?_
  refine (fails_field x _).bind fun b => (fails_point _ _ b).bind fun _ => ?_
  exact (fails_field x _).bind fun c => (fails_point _ _ c).bind fun _ => .ok _

def IsLongScalar (x : Json) : Prop :=
  ∃ t, x = .text t ∧ t.all Json.isDigit = true ∧ Json.digitLimit < t.length

theorem fails_scalar (x : Json) :
    FailsWith (fun e => e.IsMalformed ∨ e = .unusable .digitLimit ∧ IsLongScalar x) (scalar x) := by
  rw [scalar.eq_def]
  split
  · rename_i t
    split
    · exact .error (.inl ⟨_, rfl⟩)
    · rename_i hdigits
      split
      · rename_i hlong
        exact .error (.inr ⟨rfl, t, rfl, by simp_all, hlong⟩)
      · dsimp only
        split
        · exact .error (.inl ⟨_, rfl⟩)
        · exact .ok _
  · exact .error (.inl ⟨_, rfl⟩)

inductive UnreadInputs (data : Bytes) : Fault → Prop
  | text {e : Fault} (h : Unread data e) : UnreadInputs data e
  | longScalar {fields : List (Codes × Json)} (hdata : Json.ofBytes data = .ok (.object fields))
      {field : Codes × Json} (hfield : field ∈ fields) (h : IsLongScalar field.2) :
      UnreadInputs data (.unusable .digitLimit)

theorem fails_inputs (data : Bytes) :
    FailsWith (UnreadInputs data) (Json.ofBytes data >>= inputs) := by
  have hdata := Json.fails_ofBytes data
  cases hread : Json.ofBytes data with
  | error e => exact .error (.text (hdata e hread))
  | ok x =>
    change FailsWith _ (inputs x)
    rw [inputs.eq_def]
    split
    · rename_i fields
      have hvalues : FailsWith (UnreadInputs data) (fields.mapM fun field => scalar field.2) := by
        refine FailsWith.mapM fun field hfield => (fails_scalar field.2).mono fun e he => ?_
        rcases he with ⟨cause, rfl⟩ | ⟨rfl, hlong⟩
        · exact .text (.malformed cause)
        · exact .longScalar hread hfield hlong
      split
      · exact .ok _
      · rename_i e he
        exact .error (hvalues e he)
    · exact .error (.text (.malformed _))

theorem fails_ofBytes_bind {α : Type} {read : Json → Except Fault α}
    (h : ∀ x, FailsWith Fault.IsMalformed (read x)) (data : Bytes) :
    FailsWith (Unread data) (Json.ofBytes data >>= read) :=
  (Json.fails_ofBytes data).bind fun x => (h x).mono fun _ ⟨cause, he⟩ => he ▸ .malformed cause

/-- Any bytes at all, for every reader. The binary ones give a value or call the data malformed. So
do the readers of exchange forms, unless more containers are opened than the nesting limit, or there
are more digits than the digit limit, in a number of the text or in a public input. -/
theorem reading_fails (G₁ G₂ : Type) [CodedGroup G₁] [CodedGroup G₂] (data : Bytes) :
    FailsWith Fault.IsMalformed (Proof.ofBytes data : Except Fault (Proof G₁ G₂)) ∧
    FailsWith Fault.IsMalformed (Proof.parse data : Except Fault (Proof G₁ G₂ × Bytes)) ∧
    FailsWith Fault.IsMalformed (ProvingKey.parse data : Except Fault (ProvingKey G₁ G₂ × Bytes)) ∧
    FailsWith Fault.IsMalformed
      (VerifyingKey.parse data : Except Fault (VerifyingKey G₁ G₂ × Bytes)) ∧
    FailsWith Fault.IsMalformed (Key.parse data : Except Fault (Key G₁ G₂ × Bytes)) ∧
    FailsWith (Unread data) (Json.ofBytes data >>= (proof : Json → Except Fault (Proof G₁ G₂))) ∧
    FailsWith (Unread data)
      (Json.ofBytes data >>= (verifyingKey : Json → Except Fault (VerifyingKey G₁ G₂))) ∧
    FailsWith (UnreadInputs data) (Json.ofBytes data >>= inputs) :=
  ⟨Proof.fails_ofBytes data, Proof.fails_parse data, ProvingKey.fails_parse data,
    VerifyingKey.fails_parse data, Key.fails_parse data, fails_ofBytes_bind fails_proof data,
    fails_ofBytes_bind fails_verifyingKey data, fails_inputs data⟩

theorem tokens_openLists (n : ℕ) :
    Json.tokens (List.replicate n 91) = List.replicate n .openList := by
  rw [Json.tokens, List.length_replicate]
  induction n with
  | zero => rfl
  | succ n ih =>
    rw [List.replicate_succ, Json.tokensFrom, if_neg (by decide), List.replicate_succ]
    exact congrArg (Json.Token.openList :: ·) ih

theorem run_openLists {stack : List Json.Frame} {n : ℕ} (hpos : 0 < n)
    (h : Json.nestingLimit ≤ stack.length + n) :
    (Json.State.firstItem stack).run (List.replicate n .openList) = .error .tooDeep := by
  induction n generalizing stack with
  | zero => exact absurd hpos (Nat.lt_irrefl 0)
  | succ n ih =>
    by_cases hlimit : Json.nestingLimit ≤ stack.length + 1
    · simp [List.replicate_succ, Json.State.run, Json.State.next, Json.beginValue, Json.enter,
        hlimit]
    · have hnext : (Json.State.firstItem stack).next .openList =
          .ok (.firstItem (.list [] :: stack)) := by
        simp [Json.State.next, Json.beginValue, Json.enter, Nat.lt_of_not_le hlimit]
      rw [List.replicate_succ, Json.State.run_cons hnext]
      exact ih (by omega) (by rw [List.length_cons]; omega)

theorem ofBytes_openLists {n : ℕ} (h : Json.nestingLimit < n) :
    Json.ofBytes (List.replicate n 91) = .error .tooDeep := by
  have hascii : ∀ c ∈ List.replicate n '[', Unicode.IsAscii c := by
    intro c hc
    obtain rfl := List.eq_of_mem_replicate hc
    decide
  have hdecode := Unicode.decode?_ascii hascii
  rw [List.map_replicate, Unicode.ofChars, List.map_replicate] at hdecode
  change Unicode.decode? (List.replicate n 91) = some (List.replicate n 91) at hdecode
  obtain ⟨n, rfl⟩ : ∃ m, n = m + 1 := ⟨n - 1, by omega⟩
  have hfirst : (Json.State.wantValue []).next .openList = .ok (.firstItem []) := rfl
  have hrun : (Json.State.firstItem []).run (List.replicate n .openList) = .error .tooDeep := by
    simp only [Json.nestingLimit] at h
    exact run_openLists (by omega) (by simp only [Json.nestingLimit, List.length_nil]; omega)
  rw [Json.ofBytes, hdecode]
  simp only [Json.parse, tokens_openLists]
  rw [List.replicate_succ, Json.State.run_cons hfirst, hrun]

theorem inputs_overlong {n : ℕ} (h : Json.digitLimit < n) (name : Codes) :
    inputs (.object [(name, .text (List.replicate n 49))]) = .error (.unusable .digitLimit) := by
  have hpos : n ≠ 0 := by omega
  have hdigits : (List.replicate n 49).all Json.isDigit = true := by
    rw [List.all_replicate]
    simp [show Json.isDigit 49 = true by decide]
  have hscalar : scalar (.text (List.replicate n 49)) = .error (.unusable .digitLimit) := by
    rw [scalar, if_neg (by simp [hpos, hdigits]), if_pos (by rw [List.length_replicate]; exact h)]
  rw [inputs, List.mapM_cons, hscalar]
  rfl

theorem ofBytes_overlong {n : ℕ} (h : Json.digitLimit < n) :
    (Json.ofBytes (Json.object [([], .text (List.replicate n 49))]).toBytes >>= inputs) =
      .error (.unusable .digitLimit) := by
  have hsound := Unicode.isSound_ofChars (List.replicate n '1')
  rw [Unicode.ofChars, List.map_replicate] at hsound
  have hwritten : Json.Written 1 (.object [([], .text (List.replicate n 49))]) :=
    .object rfl (List.forall_mem_singleton.mpr ⟨List.forall_mem_nil _, .nil⟩)
      (List.forall_mem_singleton.mpr (.text hsound))
  rw [Json.ofBytes_toBytes hwritten (by decide)]
  exact inputs_overlong h []

/-- Both limits are reached by bytes that are a text, and neither fault says that it is
malformed. -/
theorem inputs_past_limits :
    (Json.ofBytes (List.replicate 991 91) >>= inputs) = .error .tooDeep ∧
    (Json.ofBytes (Json.object [([], .text (List.replicate 4301 49))]).toBytes >>= inputs) =
      .error (.unusable .digitLimit) ∧
    ¬Fault.IsMalformed .tooDeep ∧ ¬Fault.IsMalformed (.unusable .digitLimit) := by
  refine ⟨?_, ofBytes_overlong (by decide), nofun, nofun⟩
  rw [ofBytes_openLists (by decide)]
  rfl

end Exchange

end RankOne
