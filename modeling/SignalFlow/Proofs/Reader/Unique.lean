import SignalFlow.Double
import SignalFlow.Proofs.Reader.Lexing
import SignalFlow.Proofs.Reader.Outline

/-!
# The tree that is read

`Reads` is ambiguous about where to stop: after a power, what follows side by side may be left to the rule around it.
But where nothing follows that takes hold of what was read, the reader reads this and goes on from there (`replays`),
one case for every rule. So of all ways to read a list of tokens to its end there is one only, and it is the reader's
(`ofTokens_eq_ok_iff`); and what can be derived as one additive expression is read as one (`reads_of_derives_additive`).
-/

namespace SignalFlow.Reader

variable {α : Type} [Scalar α] {stop : Nat}

/-! ## Signs and the ends of repetitions -/

section Ends

variable {toks rest : List (Token α)} {t left : Term α}

omit [Scalar α] in
theorem signRun_of_unsigned (h : Unsigned toks) : signRun toks = (0, toks) := by
  match toks with
  | [] => rfl
  | ⟨x, o⟩ :: rest => cases x <;> first | rfl | exact absurd (unsigned_cons.mp h) Bool.noConfusion

theorem plain_signed_of_unsigned (h : Unsigned toks) : plain (signed stop toks) = plain (power stop toks) := by
  rw [plain_signed, signRun_of_unsigned h]
  cases plain (power stop toks) <;> rfl

theorem plain_exponent_of_unsigned (h : Unsigned toks) : plain (exponent stop toks) =
    plain (power stop toks) >>= fun p => plain (exponentTail stop p.1 p.2) := by
  rw [plain_exponent, signRun_of_unsigned h]
  refine bind_congr fun p => ?_
  cases plain (exponentTail stop p.1 p.2) <;> rfl

theorem plain_signed_minus (o : Nat) (h : plain (signed stop toks) = .ok (t, rest)) :
    plain (signed stop (⟨.minus, o⟩ :: toks)) = .ok (negated t, rest) := by
  rw [plain_signed] at h ⊢
  obtain ⟨p, hp, h⟩ := bind_eq_ok h
  cases h
  rw [signRun, hp]
  rfl

theorem plain_exponent_minus (o : Nat) (h : plain (exponent stop toks) = .ok (t, rest)) :
    plain (exponent stop (⟨.minus, o⟩ :: toks)) = .ok (negated t, rest) := by
  rw [plain_exponent] at h ⊢
  obtain ⟨p, hp, h⟩ := bind_eq_ok h
  obtain ⟨q, hq, h⟩ := bind_eq_ok h
  cases h
  rw [signRun, hp]
  show (plain (exponentTail stop p.1 p.2) >>= _) = _
  rw [hq]
  rfl

theorem plain_signed_plus (o : Nat) : plain (signed stop (⟨.plus, o⟩ :: toks)) = plain (signed stop toks) := by
  rw [plain_signed, plain_signed, signRun]

theorem plain_exponent_plus (o : Nat) : plain (exponent stop (⟨.plus, o⟩ :: toks)) = plain (exponent stop toks) := by
  rw [plain_exponent, plain_exponent, signRun]

theorem plain_exponentTail_of_not_startsAtom (h : ∀ x ∈ (symbols rest).head?, x.startsAtom = false) :
    plain (exponentTail stop left rest) = .ok (left, rest) := by
  match rest with
  | [] => exact plain_exponentTail_nil left
  | ⟨x, o⟩ :: rest => rw [plain_exponentTail_cons, if_neg (Bool.eq_false_iff.mp (h x rfl))]

theorem plain_termTail_of_below (h : Below 3 (symbols rest)) : plain (termTail stop left rest) = .ok (left, rest) := by
  match rest with
  | [] => exact plain_termTail_nil left
  | ⟨x, o⟩ :: rest =>
    rw [plain_termTail_cons]
    cases x <;> first | rfl | exact absurd (below_cons.mp h) (by simp [Symbol.strength])

theorem plain_additiveTail_of_below (h : Below 2 (symbols rest)) :
    plain (additiveTail stop left rest) = .ok (left, rest) := by
  match rest with
  | [] => exact plain_additiveTail_nil left
  | ⟨x, o⟩ :: rest =>
    rw [plain_additiveTail_cons]
    cases x <;> first | rfl | exact absurd (below_cons.mp h) (by simp [Symbol.strength])

end Ends

/-! ## Replaying -/

/-- How strongly a symbol may at most take hold of what a rule has read, for the rule to stop there. -/
def Rule.reach : Rule → Nat
  | .sequence | .items => 2
  | .additive => 3
  | .term | .signed | .power | .exponent | .run => 4
  | .atom => 5

/-- **The reader reads `t` by a rule and goes on with `rest`**, for a repetition with `t` as what it has so far. -/
def Replays (stop : Nat) (toks : List (Token α)) (t : Term α) (rest : List (Token α)) : Rule → Prop
  | .sequence => sequence stop toks = sequenceTail stop t rest
  | .additive => plain (additive stop toks) = plain (additiveTail stop t rest)
  | .term => plain (term stop toks) = plain (termTail stop t rest)
  | .signed => plain (signed stop toks) = .ok (t, rest)
  | .power => plain (power stop toks) = .ok (t, rest)
  | .exponent => plain (exponent stop toks) = .ok (t, rest)
  | .run => (plain (power stop toks) >>= fun p => plain (exponentTail stop p.1 p.2)) = plain (exponentTail stop t rest)
  | .atom => plain (atom stop toks) = .ok (t, rest)
  | .items => ∀ opened ts, t = .list () ts →
      (plain (additive stop toks) >>= fun p => plain (items stop opened [p.1] p.2)) =
        plain (items stop opened ts.reverse rest)

section Replays

variable {toks rest : List (Token α)} {t : Term α} {x : Symbol α} {s r : List (Symbol α)}

/-- A sum is over where no sign follows. -/
theorem Replays.additive_done (h : Replays stop toks t rest .additive) (hbelow : Below 2 (symbols rest)) :
    plain (additive stop toks) = .ok (t, rest) :=
  h.trans (plain_additiveTail_of_below hbelow)

/-- A product is over where no factor follows. -/
theorem Replays.term_done (h : Replays stop toks t rest .term) (hbelow : Below 3 (symbols rest)) :
    plain (term stop toks) = .ok (t, rest) :=
  h.trans (plain_termTail_of_below hbelow)

theorem startsAtom_of_reads {R : Rule} (h : Reads R s t r) (hR : R.isFactor = true) :
    ∃ x v, s = x :: v ∧ x.startsAtom = true := by
  obtain ⟨u, rfl, hu⟩ := derives_of_reads h
  obtain ⟨x, v, rfl, hx⟩ := startsAtom_of_derives hu hR
  exact ⟨x, _, rfl, hx⟩

/-- What a factor is read from begins with no sign. -/
theorem unsigned_of_reads {R : Rule} (h : Reads R (symbols toks) t r) (hR : R.isFactor = true) : Unsigned toks := by
  obtain ⟨x, v, hv, hx⟩ := startsAtom_of_reads h hR
  obtain ⟨o, q, rfl, -⟩ := symbols_eq_cons hv
  exact unsigned_of_startsAtom hx

/-- What a factor is read from takes hold like a factor. -/
theorem below_of_reads {R : Rule} (h : Reads R s t r) (hR : R.isFactor = true) : Below 4 s := by
  obtain ⟨x, v, rfl, hx⟩ := startsAtom_of_reads h hR
  refine below_cons.mpr ?_
  cases x <;> first | exact Nat.lt_succ_self 3 | exact absurd hx Bool.false_ne_true

/-- A product goes on with a power side by side. -/
theorem plain_termTail_beside {left : Term α} (h : Reads .power (symbols toks) t r) : plain (termTail stop left toks) =
    plain (power stop toks) >>= fun p => plain (termTail stop (.binary () .mul left p.1) p.2) := by
  obtain ⟨x, v, hv, hx⟩ := startsAtom_of_reads h rfl
  obtain ⟨o, q, rfl, -⟩ := symbols_eq_cons hv
  rw [plain_termTail_cons]
  cases x <;> first | rfl | exact absurd hx Bool.false_ne_true

/-- An exponent goes on with a power side by side. -/
theorem plain_exponentTail_beside {left : Term α} (h : Reads .power (symbols toks) t r) :
    plain (exponentTail stop left toks) =
      plain (power stop toks) >>= fun p => plain (exponentTail stop (.binary () .mul left p.1) p.2) := by
  obtain ⟨x, v, hv, hx⟩ := startsAtom_of_reads h rfl
  obtain ⟨o, q, rfl, -⟩ := symbols_eq_cons hv
  rw [plain_exponentTail_cons, if_pos hx]

omit [Scalar α] in
theorem strength_of_sumOp {op : BinaryOp} (hop : sumOp? x = some op) : x.strength < 3 := by
  cases x <;> first | exact Nat.lt_succ_self 2 | cases hop

omit [Scalar α] in
theorem strength_of_factorOp {op : BinaryOp} (hop : factorOp? x = some op) : x.strength < 4 := by
  cases x <;> first | exact Nat.lt_succ_self 3 | cases hop

/-- A power without an exponent. -/
theorem plain_power_of_atom (h : plain (atom stop toks) = .ok (t, rest)) (hbelow : Below 4 (symbols rest)) :
    plain (power stop toks) = .ok (t, rest) := by
  rw [plain_power, h]
  match rest with
  | [] => rfl
  | ⟨x, o⟩ :: rest => cases x <;> first | rfl | exact absurd (below_cons.mp hbelow) (Nat.lt_irrefl 4)

namespace Replays

variable {behind : List (Token α)} {o : Nat} {a b : Term α} {op : BinaryOp}

/-- A sequence of one sum. -/
theorem sequence_one (h : Replays stop toks t rest .additive) (hbelow : Below 2 (symbols rest)) :
    Replays stop toks t rest .sequence := by
  rw [Replays, sequence_eq, h.additive_done hbelow]
  rfl

/-- A sequence goes on with a sum behind a comma. -/
theorem sequence_more (ha : Replays stop toks a (⟨.comma, o⟩ :: behind) .sequence)
    (hb : Replays stop behind b rest .additive) (hbelow : Below 2 (symbols rest)) :
    Replays stop toks (.binary () .comma a b) rest .sequence := by
  refine ha.trans ?_
  rw [sequenceTail_cons, hb.additive_done hbelow]
  rfl

/-- A sum of one product. -/
theorem additive_one (h : Replays stop toks t rest .term) (hbelow : Below 3 (symbols rest)) :
    Replays stop toks t rest .additive := by
  rw [Replays, plain_additive, h.term_done hbelow]
  rfl

/-- A sum goes on with a product behind a sign. -/
theorem additive_more (hop : sumOp? x = some op) (ha : Replays stop toks a (⟨x, o⟩ :: behind) .additive)
    (hb : Replays stop behind b rest .term) (hbelow : Below 3 (symbols rest)) :
    Replays stop toks (.binary () op a b) rest .additive := by
  refine ha.trans ?_
  rw [plain_additiveTail_cons, hop]
  show (plain (term stop behind) >>= _) = _
  rw [hb.term_done hbelow]
  rfl

/-- A product of one factor. -/
theorem term_one (h : Replays stop toks t rest .signed) : Replays stop toks t rest .term := by
  have hsigned : plain (signed stop toks) = .ok (t, rest) := h
  rw [Replays, plain_term, hsigned]
  rfl

/-- A product goes on with a factor behind an operator. -/
theorem term_more (hop : factorOp? x = some op) (ha : Replays stop toks a (⟨x, o⟩ :: behind) .term)
    (hb : Replays stop behind b rest .signed) : Replays stop toks (.binary () op a b) rest .term := by
  have hsigned : plain (signed stop behind) = .ok (b, rest) := hb
  refine ha.trans ?_
  rw [plain_termTail_cons, hop]
  show (plain (signed stop behind) >>= _) = _
  rw [hsigned]
  rfl

/-- A product goes on with a power side by side. -/
theorem term_beside (hpower : Reads .power (symbols behind) b r) (ha : Replays stop toks a behind .term)
    (hb : Replays stop behind b rest .power) : Replays stop toks (.binary () .mul a b) rest .term := by
  have hright : plain (power stop behind) = .ok (b, rest) := hb
  refine ha.trans ?_
  rw [plain_termTail_beside hpower, hright]
  rfl

/-- A power with an exponent. -/
theorem power_more (ha : Replays stop toks a (⟨.caret, o⟩ :: behind) .atom)
    (hb : Replays stop behind b rest .exponent) : Replays stop toks (.binary () .pow a b) rest .power := by
  have hbase : plain (atom stop toks) = .ok (a, ⟨.caret, o⟩ :: behind) := ha
  have hexponent : plain (exponent stop behind) = .ok (b, rest) := hb
  rw [Replays, plain_power, hbase]
  show (plain (exponent stop behind) >>= _) = _
  rw [hexponent]
  rfl

/-- A run without a sign is an exponent where no further power follows. -/
theorem exponent_one (hunsigned : Unsigned toks) (h : Replays stop toks t rest .run)
    (hstop : ∀ x ∈ (symbols rest).head?, x.startsAtom = false) : Replays stop toks t rest .exponent :=
  (plain_exponent_of_unsigned hunsigned).trans (h.trans (plain_exponentTail_of_not_startsAtom hstop))

/-- A run of one power. -/
theorem run_one (h : Replays stop toks t rest .power) : Replays stop toks t rest .run := by
  have hpower : plain (power stop toks) = .ok (t, rest) := h
  rw [Replays, hpower]
  rfl

/-- A run goes on with a power side by side. -/
theorem run_beside (hpower : Reads .power (symbols behind) b r) (ha : Replays stop toks a behind .run)
    (hb : Replays stop behind b rest .power) : Replays stop toks (.binary () .mul a b) rest .run := by
  have hright : plain (power stop behind) = .ok (b, rest) := hb
  refine Eq.trans ha ?_
  rw [plain_exponentTail_beside hpower, hright]
  rfl

/-- A group is over where it is closed. -/
theorem group {c : Nat} {ts : List (Term α)} (h : Replays stop toks (.list () ts) (⟨.closing, c⟩ :: rest) .items) :
    Replays stop (⟨.opening, o⟩ :: toks) (.list () ts) rest .atom := by
  refine (plain_atom_cons ..).trans ((h o ts rfl).trans ?_)
  rw [plain_items_cons, List.reverse_reverse]

/-- A list of one item. -/
theorem items_one (h : Replays stop toks t rest .additive) (hbelow : Below 2 (symbols rest)) :
    Replays stop toks (.list () [t]) rest .items := by
  intro opened ts hts
  cases hts
  rw [h.additive_done hbelow]
  rfl

/-- A list goes on with an item behind a comma. -/
theorem items_more {ts : List (Term α)} (ha : Replays stop toks (.list () ts) (⟨.comma, o⟩ :: behind) .items)
    (hb : Replays stop behind b rest .additive) (hbelow : Below 2 (symbols rest)) :
    Replays stop toks (.list () (ts ++ [b])) rest .items := by
  intro opened us hus
  cases hus
  rw [ha opened ts rfl, plain_items_cons, List.reverse_append]
  show (plain (additive stop behind) >>= _) = _
  rw [hb.additive_done hbelow]
  rfl

/-- Two rules of which the second goes on behind the symbol where the first stops. -/
theorem exists_join {R R₁ R₂ : Rule} {m : List (Symbol α)}
    (ha : ∃ rest, symbols rest = x :: m ∧ Replays stop toks a rest R₁)
    (hb : ∀ {behind : List (Token α)}, symbols behind = m →
      ∃ rest, symbols rest = r ∧ Replays stop behind b rest R₂)
    (hjoin : ∀ {o : Nat} {behind rest : List (Token α)}, Replays stop toks a (⟨x, o⟩ :: behind) R₁ →
      Replays stop behind b rest R₂ → symbols rest = r → Replays stop toks t rest R) :
    ∃ rest, symbols rest = r ∧ Replays stop toks t rest R := by
  obtain ⟨middle, hmiddle, ha⟩ := ha
  obtain ⟨o, behind, rfl, hbehind⟩ := symbols_eq_cons hmiddle
  obtain ⟨rest, hrest, hb⟩ := hb hbehind
  exact ⟨rest, hrest, hjoin ha hb hrest⟩

/-- A rule that goes on behind a symbol. -/
theorem exists_behind {R R₁ : Rule} (htoks : symbols toks = x :: s)
    (h : ∀ {behind : List (Token α)}, symbols behind = s → ∃ rest, symbols rest = r ∧ Replays stop behind b rest R₁)
    (hbehind : ∀ {o : Nat} {behind rest : List (Token α)}, Replays stop behind b rest R₁ →
      Replays stop (⟨x, o⟩ :: behind) t rest R) :
    ∃ rest, symbols rest = r ∧ Replays stop toks t rest R := by
  obtain ⟨o, behind, rfl, hs⟩ := symbols_eq_cons htoks
  obtain ⟨rest, hrest, h⟩ := h hs
  exact ⟨rest, hrest, hbehind h⟩

end Replays

/-- **What the grammar can read, the reader reads**, where nothing follows that takes hold of it. -/
theorem replays {R : Rule} (h : Reads R s t r) (hr : Below R.reach r) (stop : Nat) {toks : List (Token α)}
    (htoks : symbols toks = s) : ∃ rest, symbols rest = r ∧ Replays stop toks t rest R := by
  induction h generalizing toks with
  | sequenceOne _ ih =>
    obtain ⟨rest, rfl, h⟩ := ih (hr.mono (by decide)) htoks
    exact ⟨rest, rfl, h.sequence_one hr⟩
  | sequenceMore _ _ iha ihb =>
    have hcomma := iha (below_cons.mpr (Nat.lt_succ_self 1)) htoks
    exact Replays.exists_join hcomma (ihb (hr.mono (by decide))) fun ha hb hrest => ha.sequence_more hb (hrest ▸ hr)
  | additiveOne _ ih =>
    obtain ⟨rest, rfl, h⟩ := ih (hr.mono (by decide)) htoks
    exact ⟨rest, rfl, h.additive_one hr⟩
  | additiveMore _ hop _ iha ihb =>
    have hsign := iha (below_cons.mpr (strength_of_sumOp hop)) htoks
    exact Replays.exists_join hsign (ihb (hr.mono (by decide))) fun ha hb hrest => .additive_more hop ha hb (hrest ▸ hr)
  | termOne _ ih =>
    obtain ⟨rest, rfl, h⟩ := ih hr htoks
    exact ⟨rest, rfl, h.term_one⟩
  | termMore _ hop _ iha ihb =>
    have hsign := iha (below_cons.mpr (strength_of_factorOp hop)) htoks
    exact Replays.exists_join hsign (ihb hr) fun ha hb _ => .term_more hop ha hb
  | termBeside _ hpower iha ihb =>
    obtain ⟨behind, rfl, ha⟩ := iha (below_of_reads hpower rfl) htoks
    obtain ⟨rest, rfl, hb⟩ := ihb hr rfl
    exact ⟨rest, rfl, .term_beside hpower ha hb⟩
  | signedOne hpower ih =>
    obtain ⟨rest, rfl, h⟩ := ih hr htoks
    subst htoks
    exact ⟨rest, rfl, (plain_signed_of_unsigned (unsigned_of_reads hpower rfl)).trans h⟩
  | signedMinus _ ih => exact Replays.exists_behind htoks (ih hr) fun h => plain_signed_minus _ h
  | signedPlus _ ih => exact Replays.exists_behind htoks (ih hr) fun h => (plain_signed_plus _).trans h
  | powerOne _ ih =>
    obtain ⟨rest, rfl, h⟩ := ih (hr.mono (by decide)) htoks
    exact ⟨rest, rfl, plain_power_of_atom h hr⟩
  | powerMore _ _ iha ihb =>
    have hcaret := iha (below_cons.mpr (Nat.lt_succ_self 4)) htoks
    exact Replays.exists_join hcaret (ihb hr) fun ha hb _ => ha.power_more hb
  | exponentOne hrun hstop ih =>
    obtain ⟨rest, rfl, h⟩ := ih hr htoks
    subst htoks
    exact ⟨rest, rfl, .exponent_one (unsigned_of_reads hrun rfl) h hstop⟩
  | exponentMinus _ ih => exact Replays.exists_behind htoks (ih hr) fun h => plain_exponent_minus _ h
  | exponentPlus _ ih => exact Replays.exists_behind htoks (ih hr) fun h => (plain_exponent_plus _).trans h
  | runOne _ ih =>
    obtain ⟨rest, rfl, h⟩ := ih hr htoks
    exact ⟨rest, rfl, h.run_one⟩
  | runMore _ hpower iha ihb =>
    obtain ⟨behind, rfl, ha⟩ := iha (below_of_reads hpower rfl) htoks
    obtain ⟨rest, rfl, hb⟩ := ihb hr rfl
    exact ⟨rest, rfl, .run_beside hpower ha hb⟩
  | number | name | infinity =>
    obtain ⟨o, rest, rfl, rfl⟩ := symbols_eq_cons htoks
    exact ⟨rest, rfl, plain_atom_cons ..⟩
  | group _ ih =>
    obtain ⟨o, inner, rfl, hinner⟩ := symbols_eq_cons htoks
    obtain ⟨closing, hclosing, h⟩ := ih (below_cons.mpr Nat.two_pos) hinner
    obtain ⟨c, rest, rfl, hrest⟩ := symbols_eq_cons hclosing
    exact ⟨rest, hrest, h.group⟩
  | itemsOne _ ih =>
    obtain ⟨rest, rfl, h⟩ := ih (hr.mono (by decide)) htoks
    exact ⟨rest, rfl, h.items_one hr⟩
  | itemsMore _ _ iha ihb =>
    have hcomma := iha (below_cons.mpr (Nat.lt_succ_self 1)) htoks
    exact Replays.exists_join hcomma (ihb (hr.mono (by decide))) fun ha hb hrest => ha.items_more hb (hrest ▸ hr)

end Replays

/-! ## Lists of tokens -/

/-- **A list of tokens is read as the grammar reads it to its end.** -/
theorem ofTokens_eq_ok_iff {toks : List (Token α)} {t : Term α} :
    ofTokens stop toks = .ok t ↔ Reads .sequence (symbols toks) t [] := by
  refine ⟨reads_of_ofTokens, fun h => ?_⟩
  obtain ⟨rest, hrest, hreplays⟩ := replays h below_nil stop rfl
  obtain rfl := List.map_eq_nil_iff.mp hrest
  have hsequence : sequence stop toks = .ok (t, []) := Eq.trans hreplays (sequenceTail_nil t)
  rw [ofTokens, hsequence]
  rfl

/-- There is one tree that the grammar reads from a list of symbols to its end. -/
theorem Reads.unique {toks : List (Token α)} {t u : Term α} (ht : Reads .sequence (symbols toks) t [])
    (hu : Reads .sequence (symbols toks) u []) : t = u := by
  have htree : ofTokens 0 toks = .ok t := ofTokens_eq_ok_iff.mpr ht
  rw [ofTokens_eq_ok_iff.mpr hu] at htree
  exact (Except.ok.inj htree).symm

/-- There is one atom that the grammar reads from a list of symbols. -/
theorem Reads.unique_atom {s r r' : List (Symbol α)} {t t' : Term α} (h : Reads .atom s t r)
    (h' : Reads .atom s t' r') :
    t = t' ∧ r = r' := by
  have hbelow : ∀ r : List (Symbol α), Below 5 r := fun r x _ => by
    cases x <;> simp [Symbol.strength]
  have htoks : symbols (s.map fun x => (⟨x, 0⟩ : Token α)) = s := by simp [symbols, Function.comp_def]
  obtain ⟨rest, rfl, hatom⟩ := replays h (hbelow r) 0 htoks
  obtain ⟨rest', rfl, hatom'⟩ := replays h' (hbelow r') 0 htoks
  cases Except.ok.inj (Eq.trans (Eq.symm hatom) hatom')
  exact ⟨rfl, rfl⟩

/-! ## What one expression derives -/

/-- The number of open groups after symbols, from `d` on; nothing if a comma or the end of a group stands outside. -/
def depthAfter (d : Nat) : List (Symbol α) → Option Nat
  | [] => some d
  | .opening :: s => depthAfter (d + 1) s
  | .closing :: s => if d = 0 then none else depthAfter (d - 1) s
  | .comma :: s => if d = 0 then none else depthAfter d s
  | _ :: s => depthAfter d s

/-- The rules that put commas between what they join. -/
def Rule.hasCommas : Rule → Bool
  | .sequence | .items => true
  | _ => false

section Depth

variable {d : Nat} {u v : List (Symbol α)}

omit [Scalar α] in
theorem depthAfter_append (d : Nat) (u v : List (Symbol α)) :
    depthAfter d (u ++ v) = (depthAfter d u).bind (depthAfter · v) := by
  induction u generalizing d with
  | nil => rfl
  | cons x u ih =>
    cases x with
    | closing | comma =>
      by_cases hd : d = 0
      · simp [depthAfter, hd]
      · simp [depthAfter, hd, ih]
    | _ => exact ih _

omit [Scalar α] in
/-- Two parts side by side, each of which leaves the groups as they are. -/
theorem depthAfter_beside (hu : depthAfter d u = some d) (hv : depthAfter d v = some d) :
    depthAfter d (u ++ v) = some d := by
  rw [depthAfter_append, hu]
  exact hv

omit [Scalar α] in
/-- **What is derived leaves the groups as they are**, and its commas stand in groups unless the rule puts them. -/
theorem depthAfter_of_derives {R : Rule} (h : Derives R u) (hd : R.hasCommas = true → d ≠ 0) :
    depthAfter d u = some d := by
  induction h generalizing d with
  | sequenceOne _ ih | additiveOne _ ih | termOne _ ih | signedOne _ ih | powerOne _ ih | exponentOne _ ih
  | runOne _ ih | itemsOne _ ih => exact ih nofun
  | number | name | infinity => rfl
  | sequenceMore _ _ iha ihb | itemsMore _ _ iha ihb =>
    exact depthAfter_beside (iha hd) ((if_neg (hd rfl)).trans (ihb nofun))
  | powerMore _ _ iha ihb => exact depthAfter_beside (iha nofun) (ihb nofun)
  | termBeside _ _ iha ihb | runMore _ _ iha ihb => exact depthAfter_beside (iha nofun) (ihb nofun)
  | @additiveMore _ x _ _ hx _ iha ihb =>
    refine depthAfter_beside (iha nofun) ?_
    cases x <;> first | exact ihb nofun | cases hx
  | @termMore _ x _ _ hx _ iha ihb =>
    refine depthAfter_beside (iha nofun) ?_
    cases x <;> first | exact ihb nofun | cases hx
  | @signedMore x _ hx _ ih | @exponentMore x _ hx _ ih => cases x <;> first | exact ih nofun | cases hx
  | group _ ih =>
    show depthAfter (d + 1) (_ ++ _) = _
    rw [depthAfter_append, ih fun _ => Nat.succ_ne_zero d]
    rfl

/-- **What is derived as one expression is read as one**, to its end. -/
theorem reads_of_derives_additive (h : Derives .additive u) : ∃ t : Term α, Reads .additive u t [] := by
  have htoks : symbols (u.map fun x => (⟨x, 0⟩ : Token α)) = u := by simp [symbols, Function.comp_def]
  have hanswers : ReadsOperand 0 .additive 2 (u.map fun x => (⟨x, 0⟩ : Token α)) _ := answers_additive _
  have hpasses : awaiting 0 [] ((u.map fun x => (⟨x, 0⟩ : Token α)) ++ []) = following 0 [] [] :=
    passes_of_derives h [] _ [] htoks
  rw [List.append_nil] at hpasses
  cases hread : plain (additive 0 (u.map fun x => (⟨x, 0⟩ : Token α))) with
  | error e =>
    rw [hread] at hanswers
    exact absurd ((hanswers []).symm.trans hpasses) nofun
  | ok p =>
    rw [hread] at hanswers
    obtain ⟨⟨hreads, hbelow⟩, -⟩ := hanswers
    rw [htoks] at hreads
    -- what is left begins with no comma and no end of a group, so nothing is left
    obtain ⟨v, hv, hderives⟩ := derives_of_reads hreads
    have hdepth : depthAfter 0 (symbols p.2) = some 0 := by
      have hall := depthAfter_of_derives h (d := 0) nofun
      rw [hv, depthAfter_append, depthAfter_of_derives hderives nofun] at hall
      exact hall
    match hrest : symbols p.2 with
    | [] =>
      rw [hrest] at hreads
      exact ⟨p.1, hreads⟩
    | x :: rest =>
      rw [hrest] at hdepth hbelow
      cases x with
      | closing | comma => cases hdepth
      | _ => exact absurd (below_cons.mp hbelow) (by simp [Symbol.strength])

end Depth

/-! ## Texts -/

section Texts

variable {text : String} {toks : List (Token α)}

theorem readTerm_of_tokenize (h : tokenize text = .ok toks) :
    (readTerm text : Except ReadError (Term α)) = ofTokens text.utf8ByteSize toks := by
  rw [readTerm, h]
  rfl

/-- Only reading ends with an error of reading. -/
theorem ofText_eq_read_error_iff {e : ReadError} :
    (Expr.ofText text : Except ExprError (Expr α)) = .error (.read e) ↔
      (readTerm text : Except ReadError (Term α)) = .error e := by
  rw [Expr.ofText]
  cases (readTerm text : Except ReadError (Term α)) with
  | error e' => simp
  | ok t =>
    refine ⟨fun h => ?_, nofun⟩
    change Expr.settle (t.place {}).1 (t.place {}).2 = .error (.read e) at h
    rw [Expr.settle] at h
    split at h <;> cases h

/-- **The reader accepts exactly its grammar.** A text with tokens ends without an error of reading if and only if the
grammar derives their symbols; and then the tree, before calls are expanded and groups dissolved, is the one that
`Reads` describes. -/
theorem accepts_exactly_grammar (h : tokenize text = .ok toks) :
    ((∀ e, (Expr.ofText text : Except ExprError (Expr α)) ≠ .error (.read e)) ↔ Derives .sequence (symbols toks)) ∧
      ∀ t : Term α, readTerm text = .ok t ↔ Reads .sequence (symbols toks) t [] := by
  refine ⟨?_, fun t => ?_⟩
  · have hderives : (∃ t : Term α, ofTokens text.utf8ByteSize toks = .ok t) ↔ Derives .sequence (symbols toks) :=
      exists_ofTokens_iff
    rw [← hderives, ← readTerm_of_tokenize h]
    constructor
    · intro hnone
      cases hread : (readTerm text : Except ReadError (Term α)) with
      | error e => exact absurd (ofText_eq_read_error_iff.mpr hread) (hnone e)
      | ok t => exact ⟨t, rfl⟩
    · rintro ⟨t, ht⟩ e he
      rw [ofText_eq_read_error_iff, ht] at he
      cases he
  · rw [readTerm_of_tokenize h]
    exact ofTokens_eq_ok_iff

end Texts

/-- A sign, an exponent that takes two powers, and a comma. -/
theorem accepts_exactly_grammar_signs : ∃ toks : List (Token Double), tokenize "-2 a^-b c,x" = .ok toks ∧
    symbols toks = [.minus, .number (Scalar.ofDecimal 2 0), .name "a", .caret, .minus, .name "b", .name "c", .comma,
      .name "x"] ∧
    ((∀ e, (Expr.ofText "-2 a^-b c,x" : Except ExprError (Expr Double)) ≠ .error (.read e)) ↔
      Derives .sequence (symbols toks)) ∧
    ∀ t : Term Double, readTerm "-2 a^-b c,x" = .ok t ↔ Reads .sequence (symbols toks) t [] := by
  have hlexes : Lexes ['-', '2', ' ', 'a', '^', '-', 'b', ' ', 'c', ',', 'x'] [.minus,
      .number (Scalar.ofDecimal 2 0 : Double), .name "a", .caret, .minus, .name "b", .name "c", .comma, .name "x"] :=
    .sign rfl <| .number ['2'] [] nofun (List.all_eq_true.mp rfl) nofun (.cons rfl rfl) <|
    .blank rfl <| .letter rfl (.cons rfl rfl) <| .sign rfl <| .sign rfl <|
    .letter rfl (.cons rfl rfl) <| .blank rfl <| .letter rfl (.cons rfl rfl) <|
    .sign rfl <| .letter rfl boundary_nil .nil
  obtain ⟨toks, htoks, hsymbols⟩ := hlexes 0
  exact ⟨toks, htoks, hsymbols, accepts_exactly_grammar htoks⟩

end SignalFlow.Reader
