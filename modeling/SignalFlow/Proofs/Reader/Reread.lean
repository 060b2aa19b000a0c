import SignalFlow.Proofs.Reader.Bare
import SignalFlow.Proofs.Reader.Spelling
import SignalFlow.Proofs.Reader.Unique

/-!
# Reading what is written

`reading` is the tree that is read off the text of a tree: a list of one item wherever there are parentheses, and a
number wherever a minus stands in front of a literal. Every level of precedence has a rule of the grammar (`ruleAt`),
and a tree that is written in a place of some level is read there by the rule of this level (`reads_spelling`); so the
text of a tree without misplaced commas is read as `reading` says (`readTerm_text`).

A negative zero binds like a name although it is written with a sign. As the base of a power it is read as a sign in
front of the power.
-/

namespace SignalFlow.Reader

open SignalFlow.Tree

variable {ι α : Type} [Scalar α]

/-! ## The tree that is read -/

/-- A tree in parentheses if it binds more weakly than `level`. -/
def grouped (level precedence : Nat) (t : Term α) : Term α := if precedence < level then .list () [t] else t

/-- Whether a number is zero with a minus sign. -/
def isNegativeZero (v : α) : Bool := Scalar.isSigned v && Scalar.isZero v

/-- What is read where a power is written. -/
def powerOf : Term α → Term α → Term α
  | .literal _ v, b =>
    if isNegativeZero v then .negate () (.binary () .pow (.literal () (magnitude v)) b)
    else .binary () .pow (.literal () v) b
  | a, b => .binary () .pow a b

/-- What is read where an operator is written. -/
def joined : BinaryOp → Term α → Term α → Term α
  | .pow, a, b => powerOf a b
  | op, a, b => .binary () op a b

/-- A power is read as it is written, unless its base is a negative zero. -/
theorem powerOf_eq {a : Term α} (ha : ∀ v, a.literal? = some v → isNegativeZero v = false) (b : Term α) :
    powerOf a b = .binary () .pow a b := by
  cases a with
  | literal l v => rw [powerOf, ha v rfl, if_neg Bool.false_ne_true]
  | _ => rfl

theorem literal?_joined (op : BinaryOp) (a b : Term α) : (joined op a b).literal? = none := by
  cases op with
  | pow =>
    rw [joined]
    unfold powerOf
    split
    · split <;> rfl
    · rfl
  | _ => rfl

mutual

/-- **The tree that is read off the text of a tree** in a place that demands `level`. -/
def reading (level : Nat) : Tree ι α → Term α
  | .literal l v => grouped level (precedence (.literal l v : Tree ι α)) (.literal () v)
  | .var _ x => .var () x
  | .infinity _ => .infinity ()
  | .negate _ t => grouped level negationPrecedence (negated (reading negationPrecedence t))
  | .binary _ op a b =>
    grouped level op.precedence (joined op (reading (operandLevels op).1 a) (reading (operandLevels op).2 b))
  | .list _ items => .list () (readingAll items)

/-- The trees that are read off the items of a list. -/
def readingAll : List (Tree ι α) → List (Term α)
  | [] => []
  | t :: ts => reading 1 t :: readingAll ts

end

/-! ## Levels -/

/-- The rule that reads in places that demand a level. -/
def ruleAt : Nat → Rule
  | 0 => .sequence
  | 1 => .additive
  | 2 => .term
  | 3 => .signed
  | 4 => .exponent
  | _ => .atom

/-- No power follows side by side. -/
def Ends (r : List (Symbol α)) : Prop := ∀ x ∈ r.head?, x.startsAtom = false

omit [Scalar α] in
theorem ends_cons {x : Symbol α} {r : List (Symbol α)} : Ends (x :: r) ↔ x.startsAtom = false := by
  simp [Ends]

section Levels

variable {s r : List (Symbol α)} {t : Term α} {k level p : Nat}

theorem reads_of_additive (h : Reads .additive s t r) (hk : k ≤ 1) : Reads (ruleAt k) s t r := by
  match k, hk with
  | 0, _ => exact .sequenceOne h
  | 1, _ => exact h

theorem reads_of_term (h : Reads .term s t r) (hk : k ≤ 2) : Reads (ruleAt k) s t r := by
  match k, hk with
  | 0, _ | 1, _ => exact reads_of_additive (.additiveOne h) (by decide)
  | 2, _ => exact h

theorem reads_of_signed (h : Reads .signed s t r) (hk : k ≤ 3) : Reads (ruleAt k) s t r := by
  match k, hk with
  | 0, _ | 1, _ | 2, _ => exact reads_of_term (.termOne h) (by decide)
  | 3, _ => exact h

theorem reads_of_power (h : Reads .power s t r) (hr : Ends r) (hk : k ≤ 4) : Reads (ruleAt k) s t r := by
  match k, hk with
  | 0, _ | 1, _ | 2, _ | 3, _ => exact reads_of_signed (.signedOne h) (by decide)
  | 4, _ => exact .exponentOne (.runOne h) hr

theorem reads_of_atom (h : Reads .atom s t r) (hr : Ends r) (k : Nat) : Reads (ruleAt k) s t r := by
  match k with
  | 0 | 1 | 2 | 3 | 4 => exact reads_of_power (.powerOne h) hr (by decide)
  | _ + 5 => exact h

/-- A minus in front of a power. -/
theorem reads_of_minus (h : Reads .power s t r) (hr : Ends r) (hk : k ≤ 4) :
    Reads (ruleAt k) (.minus :: s) (negated t) r := by
  match k, hk with
  | 0, _ | 1, _ | 2, _ | 3, _ => exact reads_of_signed (.signedMinus (.signedOne h)) (by decide)
  | 4, _ => exact .exponentMinus (.exponentOne (.runOne h) hr)

/-- What is read at every level up to its precedence is read at every level, in parentheses above. -/
theorem reads_enclosed (hp : 1 ≤ p) (h : ∀ k ≤ p, ∀ r, Ends r → Reads (ruleAt k) (s ++ r) t r) (hr : Ends r) :
    Reads (ruleAt level) (enclosed level p s ++ r) (grouped level p t) r := by
  rw [enclosed, grouped]
  split
  case isTrue =>
    have hinner : Reads .additive (s ++ .closing :: r) t (.closing :: r) := h 1 hp _ (ends_cons.mpr rfl)
    have hgroup := reads_of_atom (.group (.itemsOne hinner)) hr level
    simpa using hgroup
  case isFalse hlt => exact h level (Nat.le_of_not_lt hlt) r hr

end Levels

/-! ## Trees -/

/-- A node that is read back where no comma is meant: no comma, no empty list, and a literal that reads back. -/
def Readable : Tree ι α → Prop
  | .literal _ v => ReadsBack v
  | .binary _ op _ _ => op ≠ .comma
  | .list _ items => items ≠ []
  | _ => True

section Trees

variable {r : List (Symbol α)} {level : Nat}

theorem reads_literal (l : ι) {v : α} (h : ReadsBack v) (hzero : isNegativeZero v = true → level ≤ 4) (hr : Ends r) :
    Reads (ruleAt level) (spelling level (.literal l v) ++ r) (reading level (.literal l v)) r := by
  have hnumber : ∀ r, Reads .power (.number (magnitude v) :: r) (.literal () (magnitude v)) r :=
    fun r => .powerOne (.number _ r)
  rw [spelling, reading, precedence]
  by_cases hsigned : Scalar.isSigned v = true
  · have hv : negated (.literal () (magnitude v)) = (.literal () v : Term α) := by
      rw [negated, ← show v = Scalar.neg (magnitude v) from h.value.trans (if_pos hsigned)]
    rw [if_pos hsigned]
    by_cases hz : Scalar.isZero v = true
    · have hlevel := hzero (by rw [isNegativeZero, hsigned, hz]; rfl)
      have hnot : ¬atomPrecedence < level := by
        rw [atomPrecedence]
        omega
      rw [hsigned, hz, ← hv]
      simp only [Bool.not_true, Bool.and_false, Bool.false_eq_true, if_false, enclosed, grouped, if_neg hnot]
      exact reads_of_minus (hnumber r) hr hlevel
    · rw [if_pos (by rw [hsigned, Bool.eq_false_iff.mpr hz]; rfl)]
      refine reads_enclosed (by decide) (fun k hk r hr => ?_) hr
      rw [← hv]
      exact reads_of_minus (hnumber r) hr (Nat.le_succ_of_le hk)
  · have hv : magnitude v = v := (h.value.trans (if_neg hsigned)).symm
    rw [if_neg hsigned, if_neg (by rw [Bool.eq_false_iff.mpr hsigned]; simp), hv]
    exact reads_enclosed (by decide) (fun k _ r hr => reads_of_atom (.number v r) hr k) hr

omit [Scalar α] in
theorem ends_opSymbol (op : BinaryOp) (r : List (Symbol α)) : Ends (opSymbol op :: r) := by
  cases op <;> exact ends_cons.mpr rfl

/-- Only a literal that is a negative zero changes as the base of a power. -/
theorem powerOf_reading {a : Tree ι α} (ha : ∀ v, a.literal? = some v → isNegativeZero v = false) (b : Term α) :
    powerOf (reading 5 a) b = .binary () .pow (reading 5 a) b := by
  cases a with
  | literal l v =>
    rw [reading, grouped]
    split
    case isTrue => rfl
    case isFalse => exact powerOf_eq ha b
  | negate l t => rfl
  | binary l op a b => cases op <;> rfl
  | _ => rfl

/-- A tree that is read at every level, except that a negative zero is not read as the base of a power. -/
def ReadAtLevels (t : Tree ι α) : Prop :=
  ∀ level r, ((∃ v, t.literal? = some v ∧ isNegativeZero v = true) → level ≤ 4) → Ends r →
    Reads (ruleAt level) (spelling level t ++ r) (reading level t) r

/-- A sum, a difference, a product, a quotient or a remainder. -/
theorem reads_operator {l : ι} {op : BinaryOp} {a b : Tree ι α} (ha : ReadAtLevels a) (hb : ReadAtLevels b)
    (hop : op ≠ .comma) (hpow : op ≠ .pow) (hr : Ends r) :
    Reads (ruleAt level) (spelling level (.binary l op a b) ++ r) (reading level (.binary l op a b)) r := by
  have hleft : ∀ k ≤ 4, ∀ r, Ends r → Reads (ruleAt k) (spelling k a ++ r) (reading k a) r := fun k hk r hr =>
    ha k r (fun _ => hk) hr
  have hright : ∀ k ≤ 4, ∀ r, Ends r → Reads (ruleAt k) (spelling k b ++ r) (reading k b) r := fun k hk r hr =>
    hb k r (fun _ => hk) hr
  cases op with
  | comma => exact absurd rfl hop
  | pow => exact absurd rfl hpow
  | add | sub =>
    refine reads_enclosed (by decide) (fun k hk r hr => ?_) hr
    rw [List.append_assoc, List.cons_append]
    exact reads_of_additive (.additiveMore (hleft 1 (by decide) _ (ends_opSymbol _ _)) rfl
      (hright 2 (by decide) r hr)) hk
  | mul | div | mod =>
    refine reads_enclosed (by decide) (fun k hk r hr => ?_) hr
    rw [List.append_assoc, List.cons_append]
    exact reads_of_term (.termMore (hleft 2 (by decide) _ (ends_opSymbol _ _)) rfl (hright 3 (by decide) r hr)) hk

theorem reads_pow {l : ι} {a b : Tree ι α} (hreads : ∀ v, a.literal? = some v → ReadsBack v) (ha : ReadAtLevels a)
    (hb : ReadAtLevels b) (hr : Ends r) :
    Reads (ruleAt level) (spelling level (.binary l .pow a b) ++ r) (reading level (.binary l .pow a b)) r := by
  have hright : ∀ r, Ends r → Reads .exponent (spelling 4 b ++ r) (reading 4 b) r := fun r hr =>
    hb 4 r (fun _ => Nat.le_refl 4) hr
  refine reads_enclosed (by decide) (fun k hk r hr => ?_) hr
  show Reads (ruleAt k) ((spelling 5 a ++ .caret :: spelling 4 b) ++ r) (powerOf (reading 5 a) (reading 4 b)) r
  by_cases hzero : ∃ v, a.literal? = some v ∧ isNegativeZero v = true
  · obtain ⟨v, hv, hzero⟩ := hzero
    obtain ⟨l, rfl⟩ := literal?_eq_some.mp hv
    have hparts := Bool.and_eq_true_iff.mp hzero
    -- the sign is read before the power
    have hspelling : spelling 5 (.literal l v : Tree ι α) = [.minus, .number (magnitude v)] := by
      rw [spelling, precedence, hparts.1, hparts.2]
      rfl
    have hreading : reading 5 (.literal l v : Tree ι α) = .literal () v := by
      rw [reading, precedence, hparts.1, hparts.2]
      rfl
    rw [hspelling, hreading, powerOf, if_pos hzero]
    exact reads_of_minus (.powerMore (.number _ _) (hright r hr)) hr hk
  · have hbase : ∀ v, a.literal? = some v → isNegativeZero v = false := fun v hv =>
      Bool.eq_false_iff.mpr fun h => hzero ⟨v, hv, h⟩
    rw [powerOf_reading hbase, List.append_assoc, List.cons_append]
    have hleft : Reads .atom (spelling 5 a ++ .caret :: (spelling 4 b ++ r)) (reading 5 a)
        (.caret :: (spelling 4 b ++ r)) :=
      ha 5 _ (fun h => absurd h hzero) (ends_cons.mpr rfl)
    exact reads_of_power (.powerMore hleft (hright r hr)) hr hk

omit [Scalar α] in
theorem readingAll_eq [Scalar α] (ts : List (Tree ι α)) : readingAll ts = ts.map (reading 1) := by
  induction ts with
  | nil => rfl
  | cons t ts ih => rw [readingAll, ih, List.map_cons]

/-- An item is read up to a comma or a closing parenthesis. -/
theorem reads_item {t : Tree ι α} (h : ReadAtLevels t) {x : Symbol α} (hx : x.startsAtom = false) :
    Reads .additive (spelling 1 t ++ x :: r) (reading 1 t) (x :: r) :=
  h 1 _ (fun _ => by decide) (ends_cons.mpr hx)

/-- The items of a list after the first ones. -/
theorem reads_more_items {items : List (Tree ι α)} (h : ∀ t ∈ items, ReadAtLevels t) (hitems : items ≠ [])
    {s : List (Symbol α)} {ts : List (Term α)}
    (hbefore : Reads .items s (.list () ts) (.comma :: (spellingItems items ++ .closing :: r))) :
    Reads .items s (.list () (ts ++ readingAll items)) (.closing :: r) := by
  match items with
  | [] => exact absurd rfl hitems
  | [t] => exact .itemsMore hbefore (reads_item (h t List.mem_cons_self) rfl)
  | t :: u :: rest =>
    obtain ⟨ht, hrest⟩ := List.forall_mem_cons.mp h
    rw [spellingItems, List.append_assoc, List.cons_append] at hbefore
    have hnext := reads_more_items hrest (List.cons_ne_nil u rest) (.itemsMore hbefore (reads_item ht rfl))
    rw [List.append_assoc] at hnext
    exact hnext

/-- The items of a list are read up to the closing parenthesis. -/
theorem reads_items {items : List (Tree ι α)} (h : ∀ t ∈ items, ReadAtLevels t) (hitems : items ≠ []) :
    Reads .items (spellingItems items ++ .closing :: r) (.list () (readingAll items)) (.closing :: r) := by
  match items with
  | [] => exact absurd rfl hitems
  | [t] => exact .itemsOne (reads_item (h t List.mem_cons_self) rfl)
  | t :: u :: rest =>
    obtain ⟨ht, hrest⟩ := List.forall_mem_cons.mp h
    rw [spellingItems, List.append_assoc, List.cons_append]
    exact reads_more_items hrest (List.cons_ne_nil u rest) (.itemsOne (reads_item ht rfl))

/-- **A tree that is written is read back**, in a place of any level. -/
theorem reads_spelling {t : Tree ι α} (h : t.Everywhere Readable) : ReadAtLevels t := by
  induction t using nodeInduction with
  | literal l v =>
    exact fun level r hzero hr => reads_literal l (everywhere_literal.mp h) (fun hv => hzero ⟨v, rfl, hv⟩) hr
  | var l x => exact fun level r _ hr => reads_of_atom (.name x r) hr level
  | infinity l => exact fun level r _ hr => reads_of_atom (.infinity r) hr level
  | negate l t ih =>
    intro level r _ hr
    refine reads_enclosed (by decide) (fun k hk r hr => reads_of_signed (.signedMinus ?_) hk) hr
    exact ih (everywhere_negate.mp h).2 3 r (fun _ => by decide) hr
  | binary l op a b iha ihb =>
    intro level r _ hr
    obtain ⟨hop, ha, hb⟩ := everywhere_binary.mp h
    by_cases hpow : op = .pow
    · subst hpow
      refine reads_pow (fun v hv => ?_) (iha ha) (ihb hb) hr
      obtain ⟨k, rfl⟩ := literal?_eq_some.mp hv
      exact everywhere_literal.mp ha
    · exact reads_operator (iha ha) (ihb hb) hop hpow hr
  | list l items ih =>
    intro level r _ hr
    obtain ⟨hitems, hall⟩ := everywhere_list.mp h
    have hread : Reads .items (spellingItems items ++ .closing :: r) (.list () (readingAll items)) (.closing :: r) :=
      reads_items (fun t ht => ih t ht (hall t ht)) hitems
    have hgroup := reads_of_atom (.group hread) hr level
    simpa [spelling, reading] using hgroup

end Trees

/-! ## Sequences -/

/-- Commas join expressions along the left spine only, and everything else satisfies `p` at every node. -/
def OnSpine (p : Tree ι α → Prop) : Tree ι α → Prop
  | .binary _ .comma a b => OnSpine p a ∧ b.Everywhere p
  | t => t.Everywhere p

omit [Scalar α] in
theorem onSpine_iff {p : Tree ι α → Prop} {t : Tree ι α} (ht : ∀ l a b, t = .binary l .comma a b → False) :
    OnSpine p t ↔ t.Everywhere p := by
  rw [OnSpine]
  exact ht

omit [Scalar α] in
theorem onSpine_of_everywhere {p : Tree ι α → Prop} {t : Tree ι α} (h : t.Everywhere p) : OnSpine p t := by
  induction t using OnSpine.induct with
  | case1 l a b ih =>
    obtain ⟨-, ha, hb⟩ := everywhere_binary.mp h
    exact ⟨ih ha, hb⟩
  | case2 t ht => exact (onSpine_iff ht).mpr h

omit [Scalar α] in
theorem OnSpine.imp {p q s : Tree ι α → Prop} {t : Tree ι α} (h : OnSpine p t) (hq : t.Everywhere q)
    (hs : ∀ u, p u → q u → s u) : OnSpine s t := by
  induction t using OnSpine.induct with
  | case1 l a b ih =>
    obtain ⟨-, ha, hb⟩ := everywhere_binary.mp hq
    exact ⟨ih h.1 ha, fun u hu => hs u (h.2 u hu) (hb u hu)⟩
  | case2 t ht => exact (onSpine_iff ht).mpr fun u hu => hs u ((onSpine_iff ht).mp h u hu) (hq u hu)

omit [Scalar α] in
/-- What holds of the nodes off the spine, and of commas, holds everywhere. -/
theorem OnSpine.everywhere {p q : Tree ι α → Prop} {t : Tree ι α} (h : OnSpine p t)
    (hcomma : ∀ l a b, q (.binary l .comma a b)) (hpq : ∀ u, p u → q u) : t.Everywhere q := by
  induction t using OnSpine.induct with
  | case1 l a b ih => exact everywhere_binary.mpr ⟨hcomma l a b, ih h.1, h.2.imp hpq⟩
  | case2 t ht => exact ((onSpine_iff ht).mp h).imp hpq

/-- **The text of a tree is read back**, if its commas are on the spine. -/
theorem reads_spine {t : Tree ι α} (h : OnSpine Readable t) {r : List (Symbol α)} (hr : Ends r) :
    Reads .sequence (spelling 0 t ++ r) (reading 0 t) r := by
  induction t using OnSpine.induct generalizing r with
  | case1 l a b ih =>
    have hright : Reads .additive (spelling 1 b ++ r) (reading 1 b) r :=
      reads_spelling h.2 1 r (fun _ => by decide) hr
    have hleft := ih h.1 (r := .comma :: (spelling 1 b ++ r)) (ends_cons.mpr rfl)
    show Reads .sequence ((spelling 0 a ++ .comma :: spelling 1 b) ++ r)
      (.binary () .comma (reading 0 a) (reading 1 b)) r
    rw [List.append_assoc, List.cons_append]
    exact .sequenceMore hleft hright
  | case2 t ht =>
    exact reads_spelling ((onSpine_iff ht).mp h) 0 r (fun _ => by decide) hr

/-- **The tree that is read off the text of a tree.** -/
theorem readTerm_text {t : Tree ι α} (hlegible : t.Everywhere Legible) (h : OnSpine Readable t) :
    readTerm t.text = .ok (reading 0 t) := by
  obtain ⟨toks, htoks, hsymbols⟩ := tokenize_text hlegible
  have hreads := reads_spine h (r := []) nofun
  rw [List.append_nil, ← hsymbols] at hreads
  rw [readTerm_of_tokenize htoks]
  exact ofTokens_eq_ok_iff.mpr hreads

end SignalFlow.Reader
