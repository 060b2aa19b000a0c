import SignalFlow.Proofs.Reader.Unique

/-!
# The first token that cannot stand

A list of symbols is viable if the grammar derives a list that begins with it. The automaton that decides whether tokens
are read is a run of steps through situations (`Situation.next?`, `outcome_cons`): a list is viable just when the steps
go through it (`viable_iff`), since in every situation an operand and the open ends of groups can still complete it.

So an error of reading is at the first token with which the list is no longer viable; or, if there is none, at the end
of the text where an operand must follow, or else at the innermost beginning of a group that has no end (`SyntaxFault`).
-/

namespace SignalFlow.Reader

variable {α : Type}

/-! ## Viable lists -/

/-- **The beginning of a list that the grammar derives.** -/
def Viable (u : List (Symbol α)) : Prop := ∃ v, Derives .sequence (u ++ v)

/-- **An operand must follow**: every way to go on begins with a sign or a factor. -/
def OperandMustFollow (u : List (Symbol α)) : Prop :=
  ∀ v, Derives .sequence (u ++ v) → ∃ x v', v = x :: v' ∧ (x.isSign = true ∨ x.startsAtom = true)

/-- Why a token cannot stand where it does. -/
def Symbol.fault : Symbol α → ReadFault
  | .closing => .unbalancedParen
  | _ => .unexpectedToken

/-- Whether a symbol begins or ends a group. -/
def Symbol.isParen : Symbol α → Bool
  | .opening | .closing => true
  | _ => false

/-- **Every group that begins in the list ends in it**, and the other way around. -/
inductive Balanced : List (Symbol α) → Prop
  | nil : Balanced []
  | symbol {x u} (hx : x.isParen = false) (hu : Balanced u) : Balanced (x :: u)
  | group {u v} (hu : Balanced u) (hv : Balanced v) : Balanced (.opening :: (u ++ .closing :: v))

/-- **What is wrong with the tokens** of a text that ends at `stop`. -/
inductive SyntaxFault (stop : Nat) (toks : List (Token α)) : ReadError → Prop
  /-- The first token that cannot stand where it does. -/
  | impossible {before x o after} (htoks : toks = before ++ ⟨x, o⟩ :: after) (hbefore : Viable (symbols before))
      (hx : ¬Viable (symbols before ++ [x])) : SyntaxFault stop toks ⟨o, x.fault⟩
  /-- All tokens can stand where they do, and an operand is missing. -/
  | unfinished (hviable : Viable (symbols toks)) (hend : toks = [] ∨ OperandMustFollow (symbols toks)) :
      SyntaxFault stop toks ⟨stop, .unexpectedEnd⟩
  /-- All tokens can stand where they do, and no operand is missing: the innermost group has no end. -/
  | unclosed {before o inside} (hviable : Viable (symbols toks))
      (hend : ¬(toks = [] ∨ OperandMustFollow (symbols toks))) (htoks : toks = before ++ ⟨.opening, o⟩ :: inside)
      (hinside : Balanced (symbols inside)) : SyntaxFault stop toks ⟨o, .unbalancedParen⟩

/-! ## Situations -/

/-- What the automaton knows before a token: whether an operand must come, and the offsets of the open groups. -/
structure Situation where
  awaits : Bool
  opens : List Nat

namespace Situation

/-- **The situation after a token**, if it can stand. -/
def next? (s : Situation) (t : Token α) : Option Situation :=
  match s.awaits, t.symbol with
  | _, .number _ | _, .name _ | _, .infinity => some ⟨false, s.opens⟩
  | _, .opening => some ⟨true, t.offset :: s.opens⟩
  | _, .plus | _, .minus => some ⟨true, s.opens⟩
  | true, _ => none
  | false, .closing =>
    match s.opens with
    | [] => none
    | _ :: opens => some ⟨false, opens⟩
  | false, _ => some ⟨true, s.opens⟩

/-- The situation after tokens. -/
def after? (s : Situation) (toks : List (Token α)) : Option Situation := toks.foldlM next? s

/-- Before the first token an operand must come. -/
def start : Situation := ⟨true, []⟩

/-- What the automaton answers from a situation on. -/
def outcome (stop : Nat) (s : Situation) (toks : List (Token α)) : Except ReadError Unit :=
  if s.awaits then awaiting stop s.opens toks else following stop s.opens toks

variable {stop : Nat} {s s' : Situation} {t : Token α} {toks before after : List (Token α)}

/-- **One step of the automaton.** -/
theorem outcome_cons (s : Situation) (t : Token α) (toks : List (Token α)) : outcome stop s (t :: toks) =
    match s.next? t with
    | some s' => outcome stop s' toks
    | none => .error ⟨t.offset, t.symbol.fault⟩ := by
  obtain ⟨awaits, opens⟩ := s
  obtain ⟨x, o⟩ := t
  cases awaits with
  | true => cases x <;> rfl
  | false =>
    cases x with
    | closing => cases opens <;> rfl
    | _ => rfl

theorem outcome_nil (s : Situation) : outcome stop s ([] : List (Token α)) =
    match s.awaits, s.opens with
    | true, _ => .error ⟨stop, .unexpectedEnd⟩
    | false, [] => .ok ()
    | false, o :: _ => .error ⟨o, .unbalancedParen⟩ := by
  obtain ⟨awaits, opens⟩ := s
  cases awaits with
  | true => rfl
  | false => cases opens <;> rfl

theorem after?_append (s : Situation) (before after : List (Token α)) :
    s.after? (before ++ after) = (s.after? before).bind (·.after? after) := List.foldlM_append

theorem after?_cons (s : Situation) (t : Token α) (toks : List (Token α)) :
    s.after? (t :: toks) = (s.next? t).bind (·.after? toks) := List.foldlM_cons

theorem outcome_append (h : s.after? before = some s') (after : List (Token α)) :
    outcome stop s (before ++ after) = outcome stop s' after := by
  induction before generalizing s with
  | nil =>
    cases h
    rfl
  | cons t before ih =>
    rw [after?_cons] at h
    obtain ⟨r, hr, h⟩ := Option.bind_eq_some_iff.mp h
    rw [List.cons_append, outcome_cons, hr]
    exact ih h

/-- Where the steps do not go through, there is a first token that cannot stand. -/
theorem exists_impossible (h : s.after? toks = none) : ∃ before t after r, toks = before ++ t :: after ∧
    s.after? before = some r ∧ r.next? t = none := by
  induction toks generalizing s with
  | nil => cases h
  | cons t toks ih =>
    rw [after?_cons] at h
    cases hr : s.next? t with
    | none => exact ⟨[], t, toks, s, rfl, rfl, hr⟩
    | some r =>
      rw [hr] at h
      obtain ⟨before, u, after, r', rfl, hbefore, hu⟩ := ih h
      refine ⟨t :: before, u, after, r', rfl, ?_, hu⟩
      rw [after?_cons, hr]
      exact hbefore

end Situation

/-! ## Viability -/

section Viability

variable {stop : Nat} {s : Situation} {toks : List (Token α)} {u : List (Symbol α)}

open Situation (start)

theorem symbols_append (toks rest : List (Token α)) : symbols (toks ++ rest) = symbols toks ++ symbols rest :=
  List.map_append

/-- Tokens with given symbols. -/
theorem exists_symbols_eq (u : List (Symbol α)) : ∃ toks : List (Token α), symbols toks = u :=
  ⟨u.map fun x => ⟨x, 0⟩, by simp [symbols, Function.comp_def]⟩

/-- What completes a list: an operand if one must come, and the ends of the open groups. -/
def Situation.completion (s : Situation) : List (Symbol α) :=
  (if s.awaits then [.infinity] else []) ++ List.replicate s.opens.length .closing

theorem following_closings {opens : List Nat} (htoks : symbols toks = List.replicate opens.length .closing) :
    following stop opens toks = .ok () := by
  induction opens generalizing toks with
  | nil =>
    rw [List.map_eq_nil_iff.mp htoks]
    rfl
  | cons o opens ih =>
    obtain ⟨c, rest, rfl, hrest⟩ := symbols_eq_cons htoks
    exact ih hrest

/-- **Every situation can be completed.** -/
theorem Situation.outcome_completion (htoks : symbols toks = s.completion) : s.outcome stop toks = .ok () := by
  obtain ⟨awaits, opens⟩ := s
  cases awaits with
  | true =>
    obtain ⟨o, rest, rfl, hrest⟩ := symbols_eq_cons htoks
    exact following_closings hrest
  | false => exact following_closings htoks

variable [Scalar α]

/-- The grammar derives what the automaton goes through. -/
theorem derives_iff_outcome (stop : Nat) (toks : List (Token α)) :
    Derives .sequence (symbols toks) ↔ start.outcome stop toks = .ok () := by
  have hmap : (ofTokens stop toks).map (fun _ => ()) = start.outcome stop toks := map_ofTokens toks
  have hread : (∃ t, ofTokens stop toks = .ok t) ↔ Derives .sequence (symbols toks) := exists_ofTokens_iff
  rw [← hread, ← hmap]
  constructor
  · rintro ⟨t, ht⟩
    rw [ht]
    rfl
  · intro h
    obtain ⟨t, ht, -⟩ := map_eq_ok h
    exact ⟨t, ht⟩

theorem derives_completion (h : start.after? toks = some s) : Derives .sequence (symbols toks ++ s.completion) := by
  obtain ⟨rest, hrest⟩ := exists_symbols_eq (α := α) s.completion
  have hok : start.outcome 0 (toks ++ rest) = .ok () :=
    (Situation.outcome_append h rest).trans (s.outcome_completion hrest)
  rw [← hrest, ← symbols_append]
  exact (derives_iff_outcome 0 (toks ++ rest)).mpr hok

/-- **A list is viable just when the automaton goes through it.** -/
theorem viable_iff : Viable (symbols toks) ↔ ∃ s, start.after? toks = some s := by
  constructor
  · rintro ⟨v, hv⟩
    obtain ⟨rest, rfl⟩ := exists_symbols_eq v
    rw [← symbols_append, derives_iff_outcome 0] at hv
    refine Option.ne_none_iff_exists'.mp fun hnone => ?_
    obtain ⟨before, t, after, r, rfl, hbefore, ht⟩ := Situation.exists_impossible hnone
    rw [List.append_assoc, Situation.outcome_append hbefore, List.cons_append, Situation.outcome_cons, ht] at hv
    cases hv
  · rintro ⟨s, hs⟩
    exact ⟨s.completion, derives_completion hs⟩

/-- With a token that the automaton does not take, the list is no longer viable. -/
theorem viable_append_iff {before : List (Token α)} {x : Symbol α} {o : Nat} (h : start.after? before = some s) :
    Viable (symbols before ++ [x]) ↔ ∃ r, s.next? ⟨x, o⟩ = some r := by
  have hsymbols : symbols before ++ [x] = symbols (before ++ [⟨x, o⟩]) := (symbols_append before [⟨x, o⟩]).symm
  have hstep : start.after? (before ++ [⟨x, o⟩]) = s.next? ⟨x, o⟩ := by
    rw [Situation.after?_append, h, Option.bind_some, Situation.after?_cons]
    exact Option.bind_fun_some _
  rw [hsymbols, viable_iff, hstep]

/-- **An operand must follow** just where the automaton awaits one. -/
theorem operandMustFollow_iff (h : start.after? toks = some s) :
    OperandMustFollow (symbols toks) ↔ s.awaits = true := by
  obtain ⟨awaits, opens⟩ := s
  constructor
  · intro hmust
    obtain ⟨x, v, hv, hx⟩ := hmust _ (derives_completion h)
    cases awaits with
    | true => rfl
    | false =>
      cases opens with
      | nil => cases hv
      | cons o opens =>
        cases hv
        rcases hx with hx | hx <;> cases hx
  · rintro rfl v hv
    obtain ⟨rest, rfl⟩ := exists_symbols_eq v
    rw [← symbols_append, derives_iff_outcome 0, Situation.outcome_append h] at hv
    match rest with
    | [] => cases hv
    | ⟨x, o⟩ :: rest =>
      refine ⟨x, symbols rest, rfl, ?_⟩
      cases x with
      | plus | minus => exact .inl rfl
      | number | name | infinity | opening => exact .inr rfl
      | _ => cases hv

end Viability

/-! ## Open groups -/

namespace Balanced

variable {u v : List (Symbol α)}

theorem append (hu : Balanced u) (hv : Balanced v) : Balanced (u ++ v) := by
  induction hu with
  | nil => exact hv
  | symbol hx _ ih => exact .symbol hx ih
  | @group u w hu _ _ ih =>
    rw [List.cons_append, List.append_assoc, List.cons_append]
    exact .group hu ih

end Balanced

/-- The situation keeps its open groups where no parenthesis stands. -/
theorem Situation.opens_of_next? {s r : Situation} {t : Token α} (h : s.next? t = some r)
    (ht : t.symbol.isParen = false) : r.opens = s.opens := by
  obtain ⟨awaits, opens⟩ := s
  obtain ⟨x, o⟩ := t
  cases awaits <;> cases x <;> first | (cases h; rfl) | (cases h; done) | cases ht

theorem Situation.next?_opening (s : Situation) (o : Nat) :
    s.next? (⟨.opening, o⟩ : Token α) = some ⟨true, o :: s.opens⟩ := by
  obtain ⟨awaits, opens⟩ := s
  cases awaits <;> rfl

theorem Situation.opens_of_closing {s r : Situation} {o : Nat} (h : s.next? (⟨.closing, o⟩ : Token α) = some r) :
    ∃ opened, s.opens = opened :: r.opens := by
  obtain ⟨awaits, opens⟩ := s
  cases awaits with
  | true => cases h
  | false =>
    cases opens with
    | nil => cases h
    | cons opened opens =>
      cases h
      exact ⟨opened, rfl⟩

/-- **What is balanced keeps the open groups.** -/
theorem Situation.opens_of_balanced {u : List (Symbol α)} (hu : Balanced u) {s r : Situation} {toks : List (Token α)}
    (htoks : symbols toks = u) (h : s.after? toks = some r) : r.opens = s.opens := by
  induction hu generalizing s r toks with
  | nil =>
    rw [List.map_eq_nil_iff.mp htoks] at h
    cases h
    rfl
  | symbol hx _ ih =>
    obtain ⟨o, rest, rfl, hrest⟩ := symbols_eq_cons htoks
    rw [after?_cons] at h
    obtain ⟨q, hq, h⟩ := Option.bind_eq_some_iff.mp h
    rw [ih hrest h, opens_of_next? hq hx]
  | group _ _ ihu ihv =>
    obtain ⟨o, rest, rfl, hrest⟩ := symbols_eq_cons htoks
    obtain ⟨inside, rest, rfl, hinside, hrest⟩ := symbols_eq_append hrest
    obtain ⟨c, rest, rfl, htail⟩ := symbols_eq_cons hrest
    rw [after?_cons, next?_opening, Option.bind_some, after?_append] at h
    obtain ⟨p, hp, h⟩ := Option.bind_eq_some_iff.mp h
    rw [after?_cons] at h
    obtain ⟨q, hq, h⟩ := Option.bind_eq_some_iff.mp h
    obtain ⟨opened, hopens⟩ := opens_of_closing hq
    rw [ihu hinside hp] at hopens
    rw [ihv htail h, ← (List.cons.inj hopens).2]

/-- **The open groups of a list**, the innermost first: what stands after the beginning of each is balanced. -/
inductive Unclosed : List (Token α) → List Nat → Prop
  | nil {toks} (htoks : Balanced (symbols toks)) : Unclosed toks []
  | cons {before opens o inside} (hbefore : Unclosed before opens) (hinside : Balanced (symbols inside)) :
      Unclosed (before ++ ⟨.opening, o⟩ :: inside) (o :: opens)

namespace Unclosed

variable {toks rest : List (Token α)} {opens : List Nat}

theorem append (h : Unclosed toks opens) (hrest : Balanced (symbols rest)) : Unclosed (toks ++ rest) opens := by
  cases h with
  | nil htoks =>
    refine .nil ?_
    rw [symbols_append]
    exact htoks.append hrest
  | cons hbefore hinside =>
    rw [List.append_assoc, List.cons_append]
    refine .cons hbefore ?_
    rw [symbols_append]
    exact hinside.append hrest

/-- A step keeps track of the open groups. -/
theorem step {s r : Situation} {t : Token α} (h : Unclosed toks s.opens) (ht : s.next? t = some r) :
    Unclosed (toks ++ [t]) r.opens := by
  by_cases hparen : t.symbol.isParen = true
  case neg =>
    have hparen := Bool.eq_false_iff.mpr hparen
    rw [Situation.opens_of_next? ht hparen]
    exact h.append (.symbol hparen .nil)
  obtain ⟨x, o⟩ := t
  cases x with
  | opening =>
    rw [Situation.next?_opening] at ht
    cases ht
    exact .cons h .nil
  | closing =>
    obtain ⟨opened, hopens⟩ := Situation.opens_of_closing ht
    rw [hopens] at h
    cases h with
    | cons hbefore hinside =>
      rw [List.append_assoc, List.cons_append]
      refine hbefore.append ?_
      rw [symbols_cons, symbols_append]
      exact .group hinside .nil
  | _ => cases hparen

theorem of_after? {s r : Situation} (h : Unclosed toks s.opens) (hrest : s.after? rest = some r) :
    Unclosed (toks ++ rest) r.opens := by
  induction rest generalizing s toks with
  | nil =>
    cases hrest
    rwa [List.append_nil]
  | cons t rest ih =>
    rw [Situation.after?_cons] at hrest
    obtain ⟨q, hq, hrest⟩ := Option.bind_eq_some_iff.mp hrest
    rw [List.append_cons]
    exact ih (h.step hq) hrest

end Unclosed

/-! ## Errors of reading -/

section Errors

variable [Scalar α] {stop : Nat} {toks : List (Token α)} {e : ReadError}

open Situation (start)

/-- Where the automaton goes through to its end, an operand is missing just when it awaits one. -/
theorem missing_iff {s : Situation} (h : start.after? toks = some s) :
    (toks = [] ∨ OperandMustFollow (symbols toks)) ↔ s.awaits = true := by
  rw [operandMustFollow_iff h, or_iff_right_iff_imp]
  rintro rfl
  cases h
  rfl

/-- **An error of the automaton is what is wrong with the tokens.** -/
theorem syntaxFault_of_outcome (h : start.outcome stop toks = .error e) : SyntaxFault stop toks e := by
  cases hafter : start.after? toks with
  | none =>
    obtain ⟨before, ⟨x, o⟩, after, r, rfl, hbefore, hx⟩ := Situation.exists_impossible hafter
    rw [Situation.outcome_append hbefore, Situation.outcome_cons, hx] at h
    cases h
    refine .impossible rfl (viable_iff.mpr ⟨r, hbefore⟩) ?_
    rw [viable_append_iff hbefore, hx]
    exact nofun
  | some s =>
    have hviable : Viable (symbols toks) := viable_iff.mpr ⟨s, hafter⟩
    have hmissing := missing_iff hafter
    have hstart : Unclosed ([] : List (Token α)) start.opens := .nil .nil
    have hunclosed : Unclosed toks s.opens := hstart.of_after? hafter
    rw [← List.append_nil toks, Situation.outcome_append hafter, Situation.outcome_nil] at h
    obtain ⟨awaits, opens⟩ := s
    cases awaits with
    | true =>
      cases h
      exact .unfinished hviable (hmissing.mpr rfl)
    | false =>
      cases hunclosed with
      | nil => cases h
      | cons hbefore hinside =>
        cases h
        exact .unclosed hviable (fun hend => Bool.false_ne_true (hmissing.mp hend)) rfl hinside

/-- **What is wrong with the tokens is an error of the automaton.** -/
theorem outcome_of_syntaxFault (h : SyntaxFault stop toks e) : start.outcome stop toks = .error e := by
  cases h with
  | @impossible before x o after htoks hbefore hx =>
    obtain ⟨s, hs⟩ := viable_iff.mp hbefore
    rw [viable_append_iff (o := o) hs] at hx
    have hnone : s.next? ⟨x, o⟩ = none := Option.eq_none_iff_forall_ne_some.mpr fun r hr => hx ⟨r, hr⟩
    rw [htoks, Situation.outcome_append hs, Situation.outcome_cons, hnone]
  | unfinished hviable hend =>
    obtain ⟨s, hs⟩ := viable_iff.mp hviable
    have hawaits := (missing_iff hs).mp hend
    rw [← List.append_nil toks, Situation.outcome_append hs, Situation.outcome_nil, hawaits]
  | @unclosed before o inside hviable hend htoks hinside =>
    obtain ⟨s, hs⟩ := viable_iff.mp hviable
    have hawaits : s.awaits = false := Bool.eq_false_iff.mpr fun h => hend ((missing_iff hs).mpr h)
    have hopens : ∃ opens, s.opens = o :: opens := by
      rw [htoks, Situation.after?_append] at hs
      obtain ⟨p, -, hs⟩ := Option.bind_eq_some_iff.mp hs
      rw [Situation.after?_cons, Situation.next?_opening] at hs
      exact ⟨p.opens, Situation.opens_of_balanced hinside rfl hs⟩
    obtain ⟨opens, hopens⟩ := hopens
    rw [← List.append_nil toks, Situation.outcome_append hs, Situation.outcome_nil, hawaits, hopens]

/-- A text with tokens ends in an error of reading just where the automaton does. -/
theorem ofText_error_iff_outcome {text : String} (htoks : tokenize text = .ok toks) (e : ReadError) :
    (Expr.ofText text : Except ExprError (Expr α)) = .error (.read e) ↔
      start.outcome text.utf8ByteSize toks = .error e := by
  have hmap : (ofTokens text.utf8ByteSize toks).map (fun _ => ()) = start.outcome text.utf8ByteSize toks :=
    map_ofTokens toks
  rw [ofText_eq_read_error_iff, readTerm_of_tokenize htoks, ← hmap]
  cases ofTokens text.utf8ByteSize toks with
  | error f =>
    show Except.error f = Except.error e ↔ Except.error f = Except.error e
    rw [Except.error.injEq, Except.error.injEq]
  | ok t => exact ⟨nofun, nofun⟩

/-- **Errors of reading are at the first token that cannot stand.** Reading a text with tokens ends in an error of
reading just when the grammar does not derive their symbols, and the error tells what is wrong with the tokens. -/
theorem ofText_error_iff_syntaxFault {text : String} (htoks : tokenize text = .ok toks) :
    ((∃ e, (Expr.ofText text : Except ExprError (Expr α)) = .error (.read e)) ↔ ¬Derives .sequence (symbols toks)) ∧
      ∀ e, (Expr.ofText text : Except ExprError (Expr α)) = .error (.read e) ↔
        SyntaxFault text.utf8ByteSize toks e := by
  refine ⟨?_, fun e => ?_⟩
  · simp only [ofText_error_iff_outcome htoks, derives_iff_outcome text.utf8ByteSize]
    cases start.outcome text.utf8ByteSize toks with
    | error e => exact ⟨fun _ => nofun, fun _ => ⟨e, rfl⟩⟩
    | ok => exact ⟨fun ⟨e, he⟩ => absurd he nofun, fun h => absurd rfl h⟩
  · rw [ofText_error_iff_outcome htoks]
    exact ⟨syntaxFault_of_outcome, outcome_of_syntaxFault⟩

/-- An operator where an operand must come, before a group that has no end. -/
theorem ofText_error_iff_syntaxFault_star : ∃ toks : List (Token Double), tokenize "a+*(b" = .ok toks ∧
    symbols toks = [.name "a", .plus, .star, .opening, .name "b"] ∧ ¬Derives .sequence (symbols toks) ∧
    (∃ e, (Expr.ofText "a+*(b" : Except ExprError (Expr Double)) = .error (.read e)) ∧
    ∀ e, (Expr.ofText "a+*(b" : Except ExprError (Expr Double)) = .error (.read e) ↔
      SyntaxFault "a+*(b".utf8ByteSize toks e := by
  have hlexes : Lexes "a+*(b".toList [(.name "a" : Symbol Double), .plus, .star, .opening, .name "b"] :=
    .letter rfl (.cons rfl rfl) <| .sign rfl <| .sign rfl <| .sign rfl <| .letter rfl boundary_nil .nil
  obtain ⟨toks, htoks, hsymbols⟩ := hlexes 0
  have hnot : ¬Derives .sequence (symbols toks) := by
    obtain ⟨o, rest, rfl, hplus⟩ := symbols_eq_cons hsymbols
    obtain ⟨p, rest, rfl, hstar⟩ := symbols_eq_cons hplus
    obtain ⟨q, rest, rfl, -⟩ := symbols_eq_cons hstar
    rw [derives_iff_outcome 0]
    exact nofun
  obtain ⟨hexists, hiff⟩ := ofText_error_iff_syntaxFault htoks
  exact ⟨toks, htoks, hsymbols, hnot, hexists.mpr hnot, hiff⟩

end Errors

end SignalFlow.Reader
