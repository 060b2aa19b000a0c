import SignalFlow.Reader.Grammar

/-!
# Derivations of expressions

`Derives` is the grammar of expressions as rules that derive lists of symbols. It is ambiguous: a power that follows an
exponent side by side may belong to the exponent or to the product around it. `Reads` says which tree is meant. It has
the same rules, each with the tree that it makes and with what it leaves of the list; an exponent may end only where no
further power follows, so it takes as many as there are. What is read in this way is derived (`derives_of_reads`).
-/

namespace SignalFlow.Reader

variable {α : Type}

/-- The symbols of tokens. -/
def symbols (toks : List (Token α)) : List (Symbol α) := toks.map Token.symbol

@[simp] theorem symbols_nil : symbols ([] : List (Token α)) = [] := rfl

@[simp] theorem symbols_cons (x : Symbol α) (o : Nat) (toks : List (Token α)) :
    symbols (⟨x, o⟩ :: toks) = x :: symbols toks := rfl

/-- The operator of a sign between terms. -/
def sumOp? : Symbol α → Option BinaryOp
  | .plus => some .add
  | .minus => some .sub
  | _ => none

/-- Whether a symbol is a sign. -/
def Symbol.isSign (x : Symbol α) : Bool := (sumOp? x).isSome

theorem isSign_of_sumOp {x : Symbol α} {op : BinaryOp} (hop : sumOp? x = some op) : x.isSign = true := by
  rw [Symbol.isSign, hop]
  rfl

/-- **The rules of the grammar.** A run is a list of powers side by side, items are what stands between parentheses. -/
inductive Rule where
  | sequence
  | additive
  | term
  | signed
  | power
  | exponent
  | run
  | atom
  | items

/-! ## The grammar -/

/-- **The lists of symbols that a rule derives.** -/
inductive Derives : Rule → List (Symbol α) → Prop
  | sequenceOne {u} : Derives .additive u → Derives .sequence u
  | sequenceMore {u v} : Derives .sequence u → Derives .additive v → Derives .sequence (u ++ .comma :: v)
  | additiveOne {u} : Derives .term u → Derives .additive u
  | additiveMore {u x v} : Derives .additive u → x.isSign = true → Derives .term v → Derives .additive (u ++ x :: v)
  | termOne {u} : Derives .signed u → Derives .term u
  | termMore {u x v} : Derives .term u → (factorOp? x).isSome = true → Derives .signed v → Derives .term (u ++ x :: v)
  | termBeside {u v} : Derives .term u → Derives .power v → Derives .term (u ++ v)
  | signedOne {u} : Derives .power u → Derives .signed u
  | signedMore {x u} : x.isSign = true → Derives .signed u → Derives .signed (x :: u)
  | powerOne {u} : Derives .atom u → Derives .power u
  | powerMore {u v} : Derives .atom u → Derives .exponent v → Derives .power (u ++ .caret :: v)
  | exponentOne {u} : Derives .run u → Derives .exponent u
  | exponentMore {x u} : x.isSign = true → Derives .exponent u → Derives .exponent (x :: u)
  | runOne {u} : Derives .power u → Derives .run u
  | runMore {u v} : Derives .run u → Derives .power v → Derives .run (u ++ v)
  | number (v) : Derives .atom [.number v]
  | name (x) : Derives .atom [.name x]
  | infinity : Derives .atom [.infinity]
  | group {u} : Derives .items u → Derives .atom (.opening :: (u ++ [.closing]))
  | itemsOne {u} : Derives .additive u → Derives .items u
  | itemsMore {u v} : Derives .items u → Derives .additive v → Derives .items (u ++ .comma :: v)

/-! ## The trees -/

section Trees

variable [Scalar α]

/-- **The tree that a rule reads off the head of a list of symbols**, and what it leaves. Operators take what was read
before as their left operand. Signs stand around the whole operand, in an exponent around the whole run. -/
inductive Reads : Rule → List (Symbol α) → Term α → List (Symbol α) → Prop
  | sequenceOne {s t r} : Reads .additive s t r → Reads .sequence s t r
  | sequenceMore {s a b m r} : Reads .sequence s a (.comma :: m) → Reads .additive m b r →
      Reads .sequence s (.binary () .comma a b) r
  | additiveOne {s t r} : Reads .term s t r → Reads .additive s t r
  | additiveMore {s a x op b m r} : Reads .additive s a (x :: m) → sumOp? x = some op → Reads .term m b r →
      Reads .additive s (.binary () op a b) r
  | termOne {s t r} : Reads .signed s t r → Reads .term s t r
  | termMore {s a x op b m r} : Reads .term s a (x :: m) → factorOp? x = some op → Reads .signed m b r →
      Reads .term s (.binary () op a b) r
  | termBeside {s a b m r} : Reads .term s a m → Reads .power m b r → Reads .term s (.binary () .mul a b) r
  | signedOne {s t r} : Reads .power s t r → Reads .signed s t r
  | signedMinus {s t r} : Reads .signed s t r → Reads .signed (.minus :: s) (negated t) r
  | signedPlus {s t r} : Reads .signed s t r → Reads .signed (.plus :: s) t r
  | powerOne {s t r} : Reads .atom s t r → Reads .power s t r
  | powerMore {s a b m r} : Reads .atom s a (.caret :: m) → Reads .exponent m b r →
      Reads .power s (.binary () .pow a b) r
  /-- An exponent goes on as long as powers follow. -/
  | exponentOne {s t r} : Reads .run s t r → (∀ x ∈ r.head?, x.startsAtom = false) → Reads .exponent s t r
  | exponentMinus {s t r} : Reads .exponent s t r → Reads .exponent (.minus :: s) (negated t) r
  | exponentPlus {s t r} : Reads .exponent s t r → Reads .exponent (.plus :: s) t r
  | runOne {s t r} : Reads .power s t r → Reads .run s t r
  | runMore {s a b m r} : Reads .run s a m → Reads .power m b r → Reads .run s (.binary () .mul a b) r
  | number (v r) : Reads .atom (.number v :: r) (.literal () v) r
  | name (x r) : Reads .atom (.name x :: r) (.var () x) r
  | infinity (r) : Reads .atom (.infinity :: r) (.infinity ()) r
  /-- A group is an argument list. -/
  | group {s ts r} : Reads .items s (.list () ts) (.closing :: r) → Reads .atom (.opening :: s) (.list () ts) r
  | itemsOne {s t r} : Reads .additive s t r → Reads .items s (.list () [t]) r
  | itemsMore {s ts t m r} : Reads .items s (.list () ts) (.comma :: m) → Reads .additive m t r →
      Reads .items s (.list () (ts ++ [t])) r

section Derived

variable {R R₁ R₂ : Rule} {s m r : List (Symbol α)}

omit [Scalar α] in
/-- Two rules that read one after the other, the second behind the symbols `mid`. -/
theorem exists_derives_join (mid : List (Symbol α)) (ha : ∃ u, s = u ++ (mid ++ m) ∧ Derives R₁ u)
    (hb : ∃ v, m = v ++ r ∧ Derives R₂ v)
    (hjoin : ∀ {u v}, Derives R₁ u → Derives R₂ v → Derives R (u ++ (mid ++ v))) : ∃ w, s = w ++ r ∧ Derives R w := by
  obtain ⟨u, rfl, hu⟩ := ha
  obtain ⟨v, rfl, hv⟩ := hb
  exact ⟨u ++ (mid ++ v), by simp, hjoin hu hv⟩

omit [Scalar α] in
/-- A rule that reads behind a symbol. -/
theorem exists_derives_behind (x : Symbol α) (h : ∃ u, s = u ++ r ∧ Derives R₁ u)
    (hbehind : ∀ {u}, Derives R₁ u → Derives R (x :: u)) : ∃ w, x :: s = w ++ r ∧ Derives R w := by
  obtain ⟨u, rfl, hu⟩ := h
  exact ⟨x :: u, rfl, hbehind hu⟩

end Derived

/-- **What is read is derived.** -/
theorem derives_of_reads {R : Rule} {s r : List (Symbol α)} {t : Term α} (h : Reads R s t r) :
    ∃ u, s = u ++ r ∧ Derives R u := by
  induction h with
  | sequenceOne _ ih => exact ih.imp fun _ hu => ⟨hu.1, .sequenceOne hu.2⟩
  | additiveOne _ ih => exact ih.imp fun _ hu => ⟨hu.1, .additiveOne hu.2⟩
  | termOne _ ih => exact ih.imp fun _ hu => ⟨hu.1, .termOne hu.2⟩
  | signedOne _ ih => exact ih.imp fun _ hu => ⟨hu.1, .signedOne hu.2⟩
  | powerOne _ ih => exact ih.imp fun _ hu => ⟨hu.1, .powerOne hu.2⟩
  | exponentOne _ _ ih => exact ih.imp fun _ hu => ⟨hu.1, .exponentOne hu.2⟩
  | runOne _ ih => exact ih.imp fun _ hu => ⟨hu.1, .runOne hu.2⟩
  | itemsOne _ ih => exact ih.imp fun _ hu => ⟨hu.1, .itemsOne hu.2⟩
  | sequenceMore _ _ iha ihb => exact exists_derives_join [.comma] iha ihb .sequenceMore
  | @additiveMore _ _ x _ _ _ _ _ hop _ iha ihb =>
    have hsign : x.isSign = true := isSign_of_sumOp hop
    exact exists_derives_join [x] iha ihb fun hu hv => .additiveMore hu hsign hv
  | @termMore _ _ x _ _ _ _ _ hop _ iha ihb =>
    have hfactor : (factorOp? x).isSome = true := Option.isSome_of_mem hop
    exact exists_derives_join [x] iha ihb fun hu hv => .termMore hu hfactor hv
  | termBeside _ _ iha ihb => exact exists_derives_join [] iha ihb .termBeside
  | powerMore _ _ iha ihb => exact exists_derives_join [.caret] iha ihb .powerMore
  | runMore _ _ iha ihb => exact exists_derives_join [] iha ihb .runMore
  | itemsMore _ _ iha ihb => exact exists_derives_join [.comma] iha ihb .itemsMore
  | signedMinus _ ih | signedPlus _ ih => exact exists_derives_behind _ ih (.signedMore rfl)
  | exponentMinus _ ih | exponentPlus _ ih => exact exists_derives_behind _ ih (.exponentMore rfl)
  | number v r => exact ⟨[.number v], rfl, .number v⟩
  | name x r => exact ⟨[.name x], rfl, .name x⟩
  | infinity r => exact ⟨[.infinity], rfl, .infinity⟩
  | group _ ih =>
    obtain ⟨u, rfl, hu⟩ := ih
    exact ⟨.opening :: (u ++ [.closing]), by simp, .group hu⟩

end Trees

/-! ## What may follow -/

/-- **How strongly a symbol takes hold of the operand in front of it.** Symbols that begin a factor multiply. -/
def Symbol.strength : Symbol α → Nat
  | .closing => 0
  | .comma => 1
  | .plus | .minus => 2
  | .star | .slash | .percent | .number _ | .name _ | .infinity | .opening => 3
  | .caret => 4

/-- What follows takes hold less strongly than `k`. -/
def Below (k : Nat) (r : List (Symbol α)) : Prop := ∀ x ∈ r.head?, x.strength < k

@[simp] theorem below_nil {k : Nat} : Below k ([] : List (Symbol α)) := nofun

@[simp] theorem below_cons {k : Nat} {x : Symbol α} {r : List (Symbol α)} : Below k (x :: r) ↔ x.strength < k := by
  simp [Below]

theorem Below.mono {k m : Nat} {r : List (Symbol α)} (h : Below k r) (hkm : k ≤ m) : Below m r :=
  fun x hx => Nat.lt_of_lt_of_le (h x hx) hkm

end SignalFlow.Reader
