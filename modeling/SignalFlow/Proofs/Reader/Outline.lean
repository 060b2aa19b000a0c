import SignalFlow.Proofs.Reader.Rules

/-!
# Where reading fails

Whether a list of tokens can be read does not depend on which rule takes which token. All rules together go through the
tokens like one automaton, which knows the offsets of the groups that are open, the innermost one first, and whether an
operand must come next (`awaiting`) or has just come (`following`).

Every rule takes the automaton from a place where an operand must come to one where it has come, or fails where the
automaton fails and with the same error (`answers_additive` and its siblings). So a list of tokens is read exactly if
the automaton goes through (`map_ofTokens`), and the automaton goes through all that the grammar derives
(`passes_of_derives`).
-/

namespace SignalFlow.Reader

variable {α : Type}

/-! ## The automaton -/

mutual

/-- **The outcome for tokens where an operand must come.** -/
def awaiting (stop : Nat) (opens : List Nat) : List (Token α) → Except ReadError Unit
  | [] => .error ⟨stop, .unexpectedEnd⟩
  | ⟨x, o⟩ :: rest =>
    match x with
    | .number _ | .name _ | .infinity => following stop opens rest
    | .plus | .minus => awaiting stop opens rest
    | .opening => awaiting stop (o :: opens) rest
    | .closing => .error ⟨o, .unbalancedParen⟩
    | _ => .error ⟨o, .unexpectedToken⟩

/-- **The outcome for tokens after an operand.** -/
def following (stop : Nat) (opens : List Nat) : List (Token α) → Except ReadError Unit
  | [] =>
    match opens with
    | [] => .ok ()
    | opened :: _ => .error ⟨opened, .unbalancedParen⟩
  | ⟨x, o⟩ :: rest =>
    match x with
    | .number _ | .name _ | .infinity => following stop opens rest
    | .opening => awaiting stop (o :: opens) rest
    | .closing =>
      match opens with
      | [] => .error ⟨o, .unbalancedParen⟩
      | _ :: opens => following stop opens rest
    | _ => awaiting stop opens rest

end

variable {stop o : Nat} {opens : List Nat} {x : Symbol α} {rest toks : List (Token α)}

/-- The beginning of a factor side by side with another is the beginning of an operand. -/
theorem following_startsAtom (hx : x.startsAtom = true) :
    following stop opens (⟨x, o⟩ :: rest) = awaiting stop opens (⟨x, o⟩ :: rest) := by
  cases x <;> first | rfl | exact absurd hx Bool.false_ne_true

theorem following_factorOp {op : BinaryOp} (hx : factorOp? x = some op) :
    following stop opens (⟨x, o⟩ :: rest) = awaiting stop opens rest := by
  cases x <;> first | rfl | cases hx

theorem following_sumOp {op : BinaryOp} (hx : sumOp? x = some op) :
    following stop opens (⟨x, o⟩ :: rest) = awaiting stop opens rest := by
  cases x <;> first | rfl | cases hx

theorem awaiting_isSign (hx : x.isSign = true) :
    awaiting stop opens (⟨x, o⟩ :: rest) = awaiting stop opens rest := by
  cases x <;> first | rfl | exact absurd hx Bool.false_ne_true

theorem awaiting_signRun (toks : List (Token α)) :
    awaiting stop opens (signRun toks).2 = awaiting stop opens toks := by
  fun_induction signRun toks with
  | case1 o rest ih => exact ih
  | case2 o rest ih => exact ih
  | case3 toks => rfl

/-- The tokens begin with no sign. -/
def Unsigned (toks : List (Token α)) : Prop := ∀ x ∈ (symbols toks).head?, x.isSign = false

theorem unsigned_nil : Unsigned ([] : List (Token α)) := nofun

theorem unsigned_cons : Unsigned (⟨x, o⟩ :: rest) ↔ x.isSign = false := by
  simp [Unsigned]

theorem unsigned_signRun (toks : List (Token α)) : Unsigned (signRun toks).2 := by
  fun_induction signRun toks with
  | case1 o rest ih => exact ih
  | case2 o rest ih => exact ih
  | case3 toks hminus hplus =>
    cases toks with
    | nil => exact unsigned_nil
    | cons head rest =>
      obtain ⟨x, o⟩ := head
      refine unsigned_cons.mpr ?_
      cases x with
      | minus => exact absurd rfl (hminus o rest)
      | plus => exact absurd rfl (hplus o rest)
      | _ => rfl

theorem unsigned_of_startsAtom (hx : x.startsAtom = true) : Unsigned (⟨x, o⟩ :: rest) := by
  refine unsigned_cons.mpr ?_
  cases x <;> first | rfl | exact absurd hx Bool.false_ne_true

/-! ## Answers -/

/-- **An answer fits the automaton**, which starts in some way whatever groups are open: on success it has the property
`post` and the automaton goes on with the tokens left over; on failure the automaton fails with the same error. -/
def Answers (stop : Nat) (start : List Nat → Except ReadError Unit) (post : Term α → List (Token α) → Prop) :
    Except ReadError (Term α × List (Token α)) → Prop
  | .ok p => post p.1 p.2 ∧ ∀ opens, start opens = following stop opens p.2
  | .error e => ∀ opens, start opens = .error e

namespace Answers

variable {start start' : List Nat → Except ReadError Unit} {post post' : Term α → List (Token α) → Prop}
  {y : Except ReadError (Term α × List (Token α))}

/-- An answer, and another one on the tokens that it leaves, with other groups around both. -/
theorem bindIn (f : List Nat → List Nat)
    {k : Term α × List (Token α) → Except ReadError (Term α × List (Token α))} (h : Answers stop start post y)
    (hk : ∀ p, y = .ok p → post p.1 p.2 → Answers stop (fun opens => following stop (f opens) p.2) post' (k p)) :
    Answers stop (fun opens => start (f opens)) post' (y >>= k) := by
  cases y with
  | error e => exact fun opens => h (f opens)
  | ok p =>
    have hstart : (fun opens => start (f opens)) = fun opens => following stop (f opens) p.2 :=
      funext fun opens => h.2 (f opens)
    rw [hstart]
    exact hk p rfl h.1

/-- An answer, and another one on the tokens that it leaves. -/
theorem bind {k : Term α × List (Token α) → Except ReadError (Term α × List (Token α))} (h : Answers stop start post y)
    (hk : ∀ p, y = .ok p → post p.1 p.2 → Answers stop (following stop · p.2) post' (k p)) :
    Answers stop start post' (y >>= k) :=
  h.bindIn id hk

/-- An automaton that starts in another way with the same outcome. -/
theorem of_start (h : Answers stop start post y) (hstart : ∀ opens, start' opens = start opens) :
    Answers stop start' post y := by
  rw [show start' = start from funext hstart]
  exact h

theorem done {t : Term α} (h : post t rest) : Answers stop (following stop · rest) post (.ok (t, rest)) :=
  ⟨h, fun _ => rfl⟩

/-- Another tree is made of what is read. -/
theorem map (f : Term α → Term α) (h : Answers stop start post y) (hf : ∀ t rest, post t rest → post' (f t) rest) :
    Answers stop start post' (y >>= fun p => .ok (f p.1, p.2)) :=
  h.bind fun p _ hp => done (hf p.1 p.2 hp)

end Answers

/-! ## The rules -/

section Rules

variable [Scalar α] {n : Nat}

/-- What a rule has read: the tree, and what follows takes hold less strongly than `k`. -/
def HasRead (R : Rule) (k : Nat) (s : List (Symbol α)) (t : Term α) (rest : List (Token α)) : Prop :=
  Reads R s t (symbols rest) ∧ Below k (symbols rest)

/-- A rule that reads an operand from tokens. -/
abbrev ReadsOperand (stop : Nat) (R : Rule) (k : Nat) (toks : List (Token α))
    (y : Except ReadError (Term α × List (Token α))) : Prop :=
  Answers stop (awaiting stop · toks) (HasRead R k (symbols toks)) y

/-- Fewer than `n` tokens are read as they should be. The rules use each other on fewer tokens through these two. -/
structure ReadsBelow (α : Type) [Scalar α] (stop n : Nat) : Prop where
  power : ∀ toks : List (Token α), Unsigned toks → toks.length < n →
    ReadsOperand stop .power 4 toks (plain (power stop toks))
  additive : ∀ toks : List (Token α), toks.length < n → ReadsOperand stop .additive 2 toks (plain (additive stop toks))

variable {s : List (Symbol α)} {left : Term α}

omit [Scalar α] in
/-- Before a symbol that neither joins factors nor begins one, a product is over. -/
theorem below_term (hbelow : Below 4 (symbols (⟨x, o⟩ :: rest))) (hop : factorOp? x = none)
    (hx : ¬x.startsAtom = true) : Below 3 (symbols (⟨x, o⟩ :: rest)) := by
  rw [symbols_cons, below_cons] at hbelow ⊢
  cases x <;> simp_all [Symbol.strength, factorOp?, Symbol.startsAtom]

omit [Scalar α] in
/-- Before a symbol that is no sign, a sum is over. -/
theorem below_additive (hbelow : Below 3 (symbols (⟨x, o⟩ :: rest))) (hop : sumOp? x = none) :
    Below 2 (symbols (⟨x, o⟩ :: rest)) := by
  rw [symbols_cons, below_cons] at hbelow ⊢
  cases x <;> simp_all [Symbol.strength, sumOp?]

/-- The minus signs of a run, in front of what is read after them. -/
theorem reads_signRun {R : Rule}
    (hminus : ∀ (s : List (Symbol α)) t r, Reads R s t r → Reads R (.minus :: s) (negated t) r)
    (hplus : ∀ (s : List (Symbol α)) t r, Reads R s t r → Reads R (.plus :: s) t r) {toks : List (Token α)}
    {t : Term α} {r : List (Symbol α)} (h : Reads R (symbols (signRun toks).2) t r) :
    Reads R (symbols toks) (negatedTimes t (signRun toks).1) r := by
  fun_induction signRun toks with
  | case1 o rest ih => exact hminus _ _ _ (ih h)
  | case2 o rest ih => exact hplus _ _ _ (ih h)
  | case3 toks => exact h

theorem answers_items (h : ReadsBelow α stop n) {opened : Nat} {before : List (Term α)} {rest : List (Token α)}
    (hbefore : Reads .items s (.list () before.reverse) (symbols rest)) (hbelow : Below 2 (symbols rest))
    (hn : rest.length ≤ n) :
    Answers stop (fun opens => following stop (opened :: opens) rest)
      (fun t rest' => Reads .atom (.opening :: s) t (symbols rest')) (plain (items stop opened before rest)) := by
  match rest with
  | [] =>
    rw [plain_items_nil]
    exact fun _ => rfl
  | ⟨x, o⟩ :: rest =>
    rw [plain_items_cons]
    rw [List.length_cons] at hn
    cases x with
    | comma =>
      refine (h.additive rest hn).bindIn (opened :: ·) fun p hp hread => ?_
      have hlen : p.2.length < rest.length := length_lt_of_plain hp
      refine answers_items h ?_ hread.2 (by omega)
      rw [List.reverse_cons]
      exact .itemsMore hbefore hread.1
    | closing => exact ⟨.group hbefore, fun opens => rfl⟩
    | _ => exact absurd (below_cons.mp hbelow) (by simp [Symbol.strength])
termination_by rest.length

theorem answers_atom (h : ReadsBelow α stop n) (hunsigned : Unsigned toks) (hn : toks.length ≤ n) :
    Answers stop (awaiting stop · toks) (fun t rest => Reads .atom (symbols toks) t (symbols rest))
      (plain (atom stop toks)) := by
  match toks with
  | [] =>
    rw [plain_atom_nil]
    exact fun _ => rfl
  | ⟨x, o⟩ :: rest =>
    rw [plain_atom_cons]
    rw [List.length_cons] at hn
    cases x with
    | number v => exact .done (.number v _)
    | name x => exact .done (.name x _)
    | infinity => exact .done (.infinity _)
    | opening =>
      refine (h.additive rest hn).bindIn (o :: ·) fun p hp hread => ?_
      have hlen : p.2.length < rest.length := length_lt_of_plain hp
      exact answers_items h (.itemsOne hread.1) hread.2 (by omega)
    | plus | minus => exact absurd (unsigned_cons.mp hunsigned) Bool.noConfusion
    | _ => exact fun _ => rfl

theorem answers_exponentTail (h : ReadsBelow α stop n) {left : Term α} {rest : List (Token α)}
    (hleft : Reads .run s left (symbols rest)) (hbelow : Below 4 (symbols rest)) (hn : rest.length < n) :
    Answers stop (following stop · rest) (HasRead .exponent 4 s) (plain (exponentTail stop left rest)) := by
  match rest with
  | [] =>
    rw [plain_exponentTail_nil]
    exact .done ⟨.exponentOne hleft nofun, hbelow⟩
  | ⟨x, o⟩ :: rest =>
    rw [plain_exponentTail_cons]
    split
    case isTrue hx =>
      have hpower := (h.power _ (unsigned_of_startsAtom hx) hn).of_start fun opens => following_startsAtom hx
      refine hpower.bind fun p hp hread => ?_
      have hlen : p.2.length < rest.length + 1 := length_lt_of_plain hp
      rw [List.length_cons] at hn
      exact answers_exponentTail h (.runMore hleft hread.1) hread.2 (by omega)
    case isFalse hx =>
      have hstop : ∀ y ∈ (symbols (⟨x, o⟩ :: rest)).head?, y.startsAtom = false := by
        intro y hy
        cases hy
        exact Bool.eq_false_iff.mpr hx
      exact .done ⟨.exponentOne hleft hstop, hbelow⟩
termination_by rest.length

theorem answers_exponent (h : ReadsBelow α stop n) (hn : toks.length < n) :
    ReadsOperand stop .exponent 4 toks (plain (exponent stop toks)) := by
  have hlen := length_signRun_le toks
  rw [plain_exponent]
  have hpower := (h.power _ (unsigned_signRun toks) (by omega)).of_start fun opens => (awaiting_signRun toks).symm
  refine hpower.bind fun p hp hread => ?_
  have hlt : p.2.length < (signRun toks).2.length := length_lt_of_plain hp
  refine (answers_exponentTail h (.runOne hread.1) hread.2 (by omega)).map (negatedTimes · _) fun t rest hread => ?_
  exact ⟨reads_signRun (fun _ _ _ => .exponentMinus) (fun _ _ _ => .exponentPlus) hread.1, hread.2⟩

theorem answers_power (h : ReadsBelow α stop n) (hunsigned : Unsigned toks) (hn : toks.length ≤ n) :
    ReadsOperand stop .power 4 toks (plain (power stop toks)) := by
  rw [plain_power]
  refine (answers_atom h hunsigned hn).bind fun ⟨base, rest⟩ hp hatom => ?_
  have hlen : rest.length < toks.length := length_lt_of_plain hp
  match rest with
  | [] => exact .done ⟨.powerOne hatom, below_nil⟩
  | ⟨x, o⟩ :: rest =>
    rw [List.length_cons] at hlen
    cases x with
    | caret =>
      have hexponent : Answers stop (following stop · (⟨.caret, o⟩ :: rest)) (HasRead .exponent 4 (symbols rest))
          (plain (exponent stop rest)) :=
        (answers_exponent h (by omega)).of_start fun opens => rfl
      exact hexponent.map (.binary () .pow base) fun t rest hread => ⟨.powerMore hatom hread.1, hread.2⟩
    | _ => exact .done ⟨.powerOne hatom, below_cons.mpr (by simp [Symbol.strength])⟩

theorem answers_signed (h : ReadsBelow α stop n) (hn : toks.length ≤ n) :
    ReadsOperand stop .signed 4 toks (plain (signed stop toks)) := by
  have hlen := length_signRun_le toks
  rw [plain_signed]
  refine ((answers_power h (unsigned_signRun toks) (by omega)).of_start fun opens =>
    (awaiting_signRun toks).symm).map (negatedTimes · _) fun t rest hread => ?_
  exact ⟨reads_signRun (fun _ _ _ => .signedMinus) (fun _ _ _ => .signedPlus) (.signedOne hread.1), hread.2⟩

theorem answers_termTail (h : ReadsBelow α stop n) {left : Term α} {rest : List (Token α)}
    (hleft : Reads .term s left (symbols rest)) (hbelow : Below 4 (symbols rest)) (hn : rest.length ≤ n) :
    Answers stop (following stop · rest) (HasRead .term 3 s) (plain (termTail stop left rest)) := by
  match rest with
  | [] =>
    rw [plain_termTail_nil]
    exact .done ⟨hleft, below_nil⟩
  | ⟨x, o⟩ :: rest =>
    rw [plain_termTail_cons]
    split
    case h_1 op hop =>
      rw [List.length_cons] at hn
      refine ((answers_signed h (by omega)).of_start fun opens => following_factorOp hop).bind fun p hp hread => ?_
      have hlen : p.2.length < rest.length := length_lt_of_plain hp
      exact answers_termTail h (.termMore hleft hop hread.1) hread.2 (by omega)
    case h_2 hop =>
      split
      case isTrue hx =>
        have hpower := (answers_power h (unsigned_of_startsAtom hx) hn).of_start fun opens => following_startsAtom hx
        refine hpower.bind fun p hp hread => ?_
        have hlen : p.2.length < rest.length + 1 := length_lt_of_plain hp
        rw [List.length_cons] at hn
        exact answers_termTail h (.termBeside hleft hread.1) hread.2 (by omega)
      case isFalse hx => exact .done ⟨hleft, below_term hbelow hop hx⟩
termination_by rest.length

theorem answers_term (h : ReadsBelow α stop n) (hn : toks.length ≤ n) :
    ReadsOperand stop .term 3 toks (plain (term stop toks)) := by
  rw [plain_term]
  refine (answers_signed h hn).bind fun p hp hread => ?_
  have hlen : p.2.length < toks.length := length_lt_of_plain hp
  exact answers_termTail h (.termOne hread.1) hread.2 (by omega)

theorem answers_additiveTail (h : ReadsBelow α stop n) {left : Term α} {rest : List (Token α)}
    (hleft : Reads .additive s left (symbols rest)) (hbelow : Below 3 (symbols rest)) (hn : rest.length ≤ n) :
    Answers stop (following stop · rest) (HasRead .additive 2 s) (plain (additiveTail stop left rest)) := by
  match rest with
  | [] =>
    rw [plain_additiveTail_nil]
    exact .done ⟨hleft, below_nil⟩
  | ⟨x, o⟩ :: rest =>
    rw [plain_additiveTail_cons]
    split
    case h_1 op hop =>
      rw [List.length_cons] at hn
      refine ((answers_term h (by omega)).of_start fun opens => following_sumOp hop).bind fun p hp hread => ?_
      have hlen : p.2.length < rest.length := length_lt_of_plain hp
      exact answers_additiveTail h (.additiveMore hleft hop hread.1) hread.2 (by omega)
    case h_2 hop => exact .done ⟨hleft, below_additive hbelow hop⟩
termination_by rest.length

theorem answers_additive_of_readsBelow (h : ReadsBelow α stop n) (hn : toks.length ≤ n) :
    ReadsOperand stop .additive 2 toks (plain (additive stop toks)) := by
  rw [plain_additive]
  refine (answers_term h hn).bind fun p hp hread => ?_
  have hlen : p.2.length < toks.length := length_lt_of_plain hp
  exact answers_additiveTail h (.additiveOne hread.1) hread.2 (by omega)

/-- By induction on the number of tokens, all tokens are read as they should be. -/
theorem readsBelow (α : Type) [Scalar α] (stop n : Nat) : ReadsBelow α stop n := by
  induction n with
  | zero => exact ⟨fun _ _ h => absurd h (Nat.not_lt_zero _), fun _ h => absurd h (Nat.not_lt_zero _)⟩
  | succ n ih =>
    exact ⟨fun _ hunsigned h => answers_power ih hunsigned (Nat.le_of_lt_succ h), fun _ h =>
      answers_additive_of_readsBelow ih (Nat.le_of_lt_succ h)⟩

theorem answers_additive (toks : List (Token α)) :
    ReadsOperand stop .additive 2 toks (plain (additive stop toks)) :=
  (readsBelow α stop _).additive toks (Nat.lt_succ_self _)

theorem answers_sequenceTail {left : Term α} {rest : List (Token α)} (hleft : Reads .sequence s left (symbols rest))
    (hbelow : Below 2 (symbols rest)) :
    Answers stop (following stop · rest) (HasRead .sequence 1 s) (sequenceTail stop left rest) := by
  match rest with
  | [] =>
    rw [sequenceTail_nil]
    exact .done ⟨hleft, below_nil⟩
  | ⟨x, o⟩ :: rest =>
    rw [sequenceTail_cons]
    cases x with
    | comma =>
      have hadditive : Answers stop (following stop · (⟨.comma, o⟩ :: rest)) (HasRead .additive 2 (symbols rest))
          (plain (additive stop rest)) :=
        (answers_additive rest).of_start fun opens => rfl
      refine hadditive.bind fun p hp hread => ?_
      have hlen : p.2.length < rest.length := length_lt_of_plain hp
      exact answers_sequenceTail (.sequenceMore hleft hread.1) hread.2
    | closing => exact .done ⟨hleft, below_cons.mpr (by simp [Symbol.strength])⟩
    | _ => exact absurd (below_cons.mp hbelow) (by simp [Symbol.strength])
termination_by rest.length

theorem answers_sequence (toks : List (Token α)) :
    ReadsOperand stop .sequence 1 toks (sequence stop toks) := by
  rw [sequence_eq]
  exact (answers_additive toks).bind fun p _ hread => answers_sequenceTail (.sequenceOne hread.1) hread.2

/-- **Reading ends as the automaton does**, with the same error if there is one. -/
theorem map_ofTokens (toks : List (Token α)) : (ofTokens stop toks).map (fun _ => ()) = awaiting stop [] toks := by
  have h : ReadsOperand stop .sequence 1 toks (sequence stop toks) := answers_sequence toks
  rw [ofTokens]
  cases hseq : sequence stop toks with
  | error e =>
    rw [hseq] at h
    exact (h []).symm
  | ok p =>
    rw [hseq] at h
    obtain ⟨t, rest⟩ := p
    obtain ⟨⟨hread, hbelow⟩, houtcome⟩ := h
    refine Eq.trans ?_ (houtcome []).symm
    match rest with
    | [] => rfl
    | ⟨x, o⟩ :: rest =>
      cases x with
      | closing => rfl
      | _ => exact absurd (below_cons.mp hbelow) (by simp [Symbol.strength])

/-- **What is read from tokens is what the grammar reads.** -/
theorem reads_of_ofTokens {t : Term α} (h : ofTokens stop toks = .ok t) : Reads .sequence (symbols toks) t [] := by
  obtain ⟨⟨u, rest⟩, hseq, h⟩ := bind_eq_ok h
  have hread : ReadsOperand stop .sequence 1 toks (sequence stop toks) := answers_sequence toks
  rw [hseq] at hread
  match rest with
  | [] =>
    cases h
    exact hread.1.1
  | ⟨x, o⟩ :: rest => cases x <;> cases h

end Rules

/-! ## Derivations -/

/-- The rules that derive factors without a sign in front. -/
def Rule.isFactor : Rule → Bool
  | .power | .run | .atom => true
  | _ => false

theorem startsAtom_of_derives {R : Rule} {u : List (Symbol α)} (h : Derives R u) (hR : R.isFactor = true) :
    ∃ x v, u = x :: v ∧ x.startsAtom = true := by
  induction h with
  | number v => exact ⟨_, _, rfl, rfl⟩
  | name x => exact ⟨_, _, rfl, rfl⟩
  | infinity => exact ⟨_, _, rfl, rfl⟩
  | group _ => exact ⟨_, _, rfl, rfl⟩
  | powerOne _ ih | runOne _ ih => exact ih rfl
  | powerMore _ _ ih _ | runMore _ _ ih _ =>
    obtain ⟨x, w, rfl, hx⟩ := ih rfl
    exact ⟨x, _, rfl, hx⟩
  | _ => cases hR

theorem symbols_eq_append {u v : List (Symbol α)} (h : symbols toks = u ++ v) :
    ∃ p q, toks = p ++ q ∧ symbols p = u ∧ symbols q = v := List.map_eq_append_iff.mp h

theorem symbols_eq_cons {v : List (Symbol α)} (h : symbols toks = x :: v) :
    ∃ o q, toks = ⟨x, o⟩ :: q ∧ symbols q = v := by
  obtain ⟨⟨y, o⟩, q, rfl, rfl, rfl⟩ := List.map_eq_cons_iff.mp h
  exact ⟨o, q, rfl, rfl⟩

/-- **Symbols that make one operand**, whatever follows. -/
def Passes (stop : Nat) (opens : List Nat) (u : List (Symbol α)) : Prop :=
  ∀ toks rest : List (Token α), symbols toks = u → awaiting stop opens (toks ++ rest) = following stop opens rest

namespace Passes

variable {u v : List (Symbol α)}

theorem leaf (hx : ∀ o rest, awaiting stop opens (⟨x, o⟩ :: rest) = following stop opens rest) :
    Passes stop opens [x] := by
  intro toks rest htoks
  obtain ⟨o, q, rfl, hq⟩ := symbols_eq_cons htoks
  rw [List.map_eq_nil_iff.mp hq]
  exact hx o rest

theorem signed (hx : x.isSign = true) (hu : Passes stop opens u) : Passes stop opens (x :: u) := by
  intro toks rest htoks
  obtain ⟨o, q, rfl, hq⟩ := symbols_eq_cons htoks
  rw [List.cons_append, awaiting_isSign hx]
  exact hu q rest hq

/-- Two operands with a symbol between them after which an operand must come. -/
theorem join (hu : Passes stop opens u) (hv : Passes stop opens v)
    (hx : ∀ o rest, following stop opens (⟨x, o⟩ :: rest) = awaiting stop opens rest) :
    Passes stop opens (u ++ x :: v) := by
  intro toks rest htoks
  obtain ⟨p, xq, rfl, hp, hxq⟩ := symbols_eq_append htoks
  obtain ⟨o, q, rfl, hq⟩ := symbols_eq_cons hxq
  rw [List.append_assoc, hu p _ hp, List.cons_append, hx]
  exact hv q rest hq

/-- Two operands side by side. -/
theorem beside {R : Rule} (hu : Passes stop opens u) (hv : Passes stop opens v) (hR : R.isFactor = true)
    (hderives : Derives R v) : Passes stop opens (u ++ v) := by
  intro toks rest htoks
  obtain ⟨p, q, rfl, hp, hq⟩ := symbols_eq_append htoks
  have hfollowing : following stop opens (q ++ rest) = awaiting stop opens (q ++ rest) := by
    obtain ⟨x, w, rfl, hx⟩ := startsAtom_of_derives hderives hR
    obtain ⟨o, q, rfl, -⟩ := symbols_eq_cons hq
    exact following_startsAtom hx
  rw [List.append_assoc, hu p _ hp, hfollowing]
  exact hv q rest hq

/-- What is an operand in a group makes the group an operand. -/
theorem group (hu : ∀ opened, Passes stop (opened :: opens) u) :
    Passes stop opens (.opening :: (u ++ [.closing])) := by
  intro toks rest htoks
  obtain ⟨o, inner, rfl, hinner⟩ := symbols_eq_cons htoks
  obtain ⟨p, last, rfl, hp, hlast⟩ := symbols_eq_append hinner
  obtain ⟨c, q, rfl, hq⟩ := symbols_eq_cons hlast
  obtain rfl := List.map_eq_nil_iff.mp hq
  have hpasses := hu o p (⟨.closing, c⟩ :: rest) hp
  rw [List.cons_append, List.append_assoc]
  exact hpasses

end Passes

/-- **The automaton goes through what the grammar derives**, whatever groups are open and whatever follows. -/
theorem passes_of_derives {R : Rule} {u : List (Symbol α)} (h : Derives R u) (opens : List Nat) :
    Passes stop opens u := by
  induction h generalizing opens with
  | sequenceOne _ ih | additiveOne _ ih | termOne _ ih | signedOne _ ih | powerOne _ ih | exponentOne _ ih
  | runOne _ ih | itemsOne _ ih => exact ih opens
  | number | name | infinity => exact .leaf fun _ _ => rfl
  | group _ ih => exact .group fun opened => ih (opened :: opens)
  | signedMore hx _ ih | exponentMore hx _ ih => exact .signed hx (ih opens)
  | termBeside _ hv ihu ihv | runMore _ hv ihu ihv => exact (ihu opens).beside (ihv opens) rfl hv
  | sequenceMore _ _ ihu ihv | itemsMore _ _ ihu ihv | powerMore _ _ ihu ihv =>
    exact (ihu opens).join (ihv opens) fun _ _ => rfl
  | additiveMore _ hx _ ihu ihv =>
    obtain ⟨op, hop⟩ := Option.isSome_iff_exists.mp hx
    exact (ihu opens).join (ihv opens) fun _ _ => following_sumOp hop
  | termMore _ hx _ ihu ihv =>
    obtain ⟨op, hop⟩ := Option.isSome_iff_exists.mp hx
    exact (ihu opens).join (ihv opens) fun _ _ => following_factorOp hop

/-- **Exactly the lists that the grammar derives are read.** -/
theorem exists_ofTokens_iff [Scalar α] {toks : List (Token α)} :
    (∃ t : Term α, ofTokens stop toks = .ok t) ↔ Derives .sequence (symbols toks) := by
  constructor
  · rintro ⟨t, ht⟩
    obtain ⟨u, hu, hderives⟩ := derives_of_reads (reads_of_ofTokens ht)
    rw [hu, List.append_nil]
    exact hderives
  · intro h
    have hpasses : Passes stop [] (symbols toks) := passes_of_derives h []
    have hok := hpasses toks [] rfl
    rw [List.append_nil] at hok
    obtain ⟨t, ht, -⟩ := map_eq_ok ((map_ofTokens toks).trans hok)
    exact ⟨t, ht⟩

end SignalFlow.Reader
