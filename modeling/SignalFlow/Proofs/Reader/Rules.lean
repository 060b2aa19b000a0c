import SignalFlow.Reader.OfText
import SignalFlow.Proofs.Reader.Derivation

/-!
# The rules without lengths

Every rule of the reader answers with the fact that it has used up tokens. `plain` forgets this fact. What is left are
the equations that a rule satisfies: which rules it calls on what, and which tree it makes.
-/

namespace SignalFlow

/-! ## Successes -/

section Successes

variable {ε β γ : Type} {x : Except ε β} {c : γ}

/-- A step that succeeds, and the one after it. -/
theorem bind_eq_ok {f : β → Except ε γ} (h : x >>= f = .ok c) : ∃ b, x = .ok b ∧ f b = .ok c := by
  cases x with
  | error e => cases h
  | ok b => exact ⟨b, rfl, h⟩

theorem map_eq_ok {f : β → γ} (h : x.map f = .ok c) : ∃ b, x = .ok b ∧ f b = c := by
  cases x with
  | error e => cases h
  | ok b => exact ⟨b, rfl, Except.ok.inj h⟩

end Successes

/-! ## The rules -/

namespace Reader

variable {α : Type} {n m : Nat}

/-- What a rule answers, without the bound on what is left. -/
def plain (x : Except ReadError (Reading α n)) : Except ReadError (Term α × List (Token α)) := x.map (·.1)

theorem length_lt_of_plain {x : Except ReadError (Reading α n)} {p : Term α × List (Token α)} (h : plain x = .ok p) :
    p.2.length < n := by
  obtain ⟨r, -, rfl⟩ := map_eq_ok h
  exact r.2

/-- Reading a first part, then the rest of a repetition. -/
theorem plain_continue (x : Except ReadError (Reading α n))
    (k : Term α → (rest : List (Token α)) → Except ReadError (Reading α (rest.length + 1)))
    (h : ∀ rest : List (Token α), rest.length < n → rest.length + 1 ≤ m) :
    plain (do let r ← x; return (← k r.1.1 r.1.2).weaken (h _ r.2)) = plain x >>= fun p => plain (k p.1 p.2) := by
  cases x with
  | error e => rfl
  | ok r =>
    show plain ((k r.1.1 r.1.2).map _) = plain (k r.1.1 r.1.2)
    cases k r.1.1 r.1.2 <;> rfl

/-- Reading a part and making a tree of it. -/
theorem plain_make (x : Except ReadError (Reading α n)) (f : Term α → Term α) (h : n ≤ m) :
    plain (do let r ← x; return (r.withTree (f r.1.1)).weaken h) = plain x >>= fun p => .ok (f p.1, p.2) := by
  cases x <;> rfl

/-- After a sign and the operand that follows it. -/
theorem length_after_sign {rest : List (Token α)} :
    ∀ rest' : List (Token α), rest'.length < rest.length → rest'.length + 1 ≤ rest.length + 1 + 1 := by
  intro rest' h
  omega

variable [Scalar α] {stop : Nat}

theorem plain_additive (toks : List (Token α)) :
    plain (additive stop toks) = plain (term stop toks) >>= fun p => plain (additiveTail stop p.1 p.2) := by
  rw [additive]
  exact plain_continue (term stop toks) (additiveTail stop) fun _ h => h

theorem plain_term (toks : List (Token α)) :
    plain (term stop toks) = plain (signed stop toks) >>= fun p => plain (termTail stop p.1 p.2) := by
  rw [term]
  exact plain_continue (signed stop toks) (termTail stop) fun _ h => h

theorem plain_signed (toks : List (Token α)) : plain (signed stop toks) =
    plain (power stop (signRun toks).2) >>= fun p => .ok (negatedTimes p.1 (signRun toks).1, p.2) := by
  rw [signed]
  exact plain_make (power stop (signRun toks).2) (negatedTimes · (signRun toks).1) (length_signRun_le toks)

theorem plain_exponent (toks : List (Token α)) : plain (exponent stop toks) =
    plain (power stop (signRun toks).2) >>= fun p => plain (exponentTail stop p.1 p.2) >>= fun q =>
      .ok (negatedTimes q.1 (signRun toks).1, q.2) := by
  have hs := length_signRun_le toks
  rw [exponent]
  cases power stop (signRun toks).2 with
  | error e => rfl
  | ok r =>
    have hr : r.1.2.length + 1 ≤ toks.length := Nat.le_trans r.2 hs
    exact plain_make (exponentTail stop r.1.1 r.1.2) (negatedTimes · (signRun toks).1) hr

theorem plain_power (toks : List (Token α)) : plain (power stop toks) = plain (atom stop toks) >>= fun p =>
    match p.2 with
    | ⟨.caret, _⟩ :: rest => plain (exponent stop rest) >>= fun q => .ok (.binary () .pow p.1 q.1, q.2)
    | rest => .ok (p.1, rest) := by
  rw [power]
  cases atom stop toks with
  | error e => rfl
  | ok r =>
    obtain ⟨⟨base, rest⟩, h⟩ := r
    match rest, h with
    | [], h => rfl
    | ⟨x, o⟩ :: rest, h =>
      cases x with
      | caret =>
        have hr : rest.length ≤ toks.length := Nat.le_of_lt (Nat.lt_of_succ_lt h)
        exact plain_make (exponent stop rest) (.binary () .pow base) hr
      | _ => rfl

theorem plain_additiveTail_nil (left : Term α) : plain (additiveTail stop left []) = .ok (left, []) := by
  rw [additiveTail.eq_def]
  rfl

theorem plain_additiveTail_cons (left : Term α) (x : Symbol α) (o : Nat) (rest : List (Token α)) :
    plain (additiveTail stop left (⟨x, o⟩ :: rest)) = match sumOp? x with
      | some op => plain (term stop rest) >>= fun p => plain (additiveTail stop (.binary () op left p.1) p.2)
      | none => .ok (left, ⟨x, o⟩ :: rest) := by
  rw [additiveTail.eq_def]
  cases x with
  | plus =>
    exact plain_continue (term stop rest) (fun t => additiveTail stop (.binary () .add left t)) length_after_sign
  | minus =>
    exact plain_continue (term stop rest) (fun t => additiveTail stop (.binary () .sub left t)) length_after_sign
  | _ => rfl

theorem plain_termTail_nil (left : Term α) : plain (termTail stop left []) = .ok (left, []) := by
  rw [termTail]
  rfl

theorem plain_termTail_cons (left : Term α) (x : Symbol α) (o : Nat) (rest : List (Token α)) :
    plain (termTail stop left (⟨x, o⟩ :: rest)) = match factorOp? x with
      | some op => plain (signed stop rest) >>= fun p => plain (termTail stop (.binary () op left p.1) p.2)
      | none =>
        if x.startsAtom then
          plain (power stop (⟨x, o⟩ :: rest)) >>= fun p => plain (termTail stop (.binary () .mul left p.1) p.2)
        else .ok (left, ⟨x, o⟩ :: rest) := by
  rw [termTail]
  cases factorOp? x with
  | some op => exact plain_continue (signed stop rest) (fun t => termTail stop (.binary () op left t)) length_after_sign
  | none =>
    dsimp only
    split
    case isTrue =>
      exact plain_continue (power stop (⟨x, o⟩ :: rest)) (fun t => termTail stop (.binary () .mul left t))
        fun _ h => Nat.le_succ_of_le h
    case isFalse => rfl

theorem plain_exponentTail_nil (left : Term α) : plain (exponentTail stop left []) = .ok (left, []) := by
  rw [exponentTail]
  rfl

theorem plain_exponentTail_cons (left : Term α) (x : Symbol α) (o : Nat) (rest : List (Token α)) :
    plain (exponentTail stop left (⟨x, o⟩ :: rest)) =
      if x.startsAtom then
        plain (power stop (⟨x, o⟩ :: rest)) >>= fun p => plain (exponentTail stop (.binary () .mul left p.1) p.2)
      else .ok (left, ⟨x, o⟩ :: rest) := by
  rw [exponentTail]
  split
  case isTrue =>
    exact plain_continue (power stop (⟨x, o⟩ :: rest)) (fun t => exponentTail stop (.binary () .mul left t))
      fun _ h => Nat.le_succ_of_le h
  case isFalse => rfl

theorem plain_atom_nil : plain (atom stop ([] : List (Token α))) = .error ⟨stop, .unexpectedEnd⟩ := by
  rw [atom.eq_def]
  rfl

theorem plain_atom_cons (x : Symbol α) (o : Nat) (rest : List (Token α)) :
    plain (atom stop (⟨x, o⟩ :: rest)) = match x with
      | .number v => .ok (.literal () v, rest)
      | .name x => .ok (.var () x, rest)
      | .infinity => .ok (.infinity (), rest)
      | .opening => plain (additive stop rest) >>= fun p => plain (items stop o [p.1] p.2)
      | .closing => .error ⟨o, .unbalancedParen⟩
      | _ => .error ⟨o, .unexpectedToken⟩ := by
  rw [atom.eq_def]
  cases x with
  | opening => exact plain_continue (additive stop rest) (fun t => items stop o [t]) fun _ h => Nat.le_succ_of_le h
  | _ => rfl

theorem plain_items_nil (opened : Nat) (before : List (Term α)) :
    plain (items stop opened before []) = .error ⟨opened, .unbalancedParen⟩ := by
  rw [items.eq_def]
  rfl

theorem plain_items_cons (opened : Nat) (before : List (Term α)) (x : Symbol α) (o : Nat) (rest : List (Token α)) :
    plain (items stop opened before (⟨x, o⟩ :: rest)) = match x with
      | .comma => plain (additive stop rest) >>= fun p => plain (items stop opened (p.1 :: before) p.2)
      | .closing => .ok (.list () before.reverse, rest)
      | _ => .error ⟨o, .unexpectedToken⟩ := by
  rw [items.eq_def]
  cases x with
  | comma => exact plain_continue (additive stop rest) (fun t => items stop opened (t :: before)) length_after_sign
  | _ => rfl

theorem sequence_eq (toks : List (Token α)) :
    sequence stop toks = plain (additive stop toks) >>= fun p => sequenceTail stop p.1 p.2 := by
  rw [sequence]
  cases additive stop toks <;> rfl

theorem sequenceTail_nil (left : Term α) : sequenceTail stop left [] = .ok (left, []) := by
  rw [sequenceTail.eq_def]
  rfl

theorem sequenceTail_cons (left : Term α) (x : Symbol α) (o : Nat) (rest : List (Token α)) :
    sequenceTail stop left (⟨x, o⟩ :: rest) = match x with
      | .comma => plain (additive stop rest) >>= fun p => sequenceTail stop (.binary () .comma left p.1) p.2
      | _ => .ok (left, ⟨x, o⟩ :: rest) := by
  rw [sequenceTail.eq_def]
  cases x with
  | comma =>
    dsimp only
    cases additive stop rest <;> rfl
  | _ => rfl

end Reader

end SignalFlow
