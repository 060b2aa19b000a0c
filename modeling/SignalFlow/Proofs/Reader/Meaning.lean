import SignalFlow.Proofs.Expr.Value
import SignalFlow.Proofs.Reader.Image
import SignalFlow.Proofs.Reader.RoundTrip

/-!
# What a written expression means

An expression from text with finite literals is read back from its own text, and what comes back has the same values
with every table (`evaluate_reread`), although it may be another tree: a minus in front of a number goes into the
number.

There is one exception. A negative zero is written with its sign and without parentheses, so that a power of it comes
back as the negation of a power of zero. `rebound` says what becomes of a tree by this.
-/

namespace SignalFlow

open SignalFlow.Tree

variable {ι α : Type} [Scalar α]

namespace Reader

/-! ## Powers of negative zeros -/

mutual

/-- **The tree that comes back**, up to the signs of numbers: the sign of a negative zero at the base of a power stands
in front of the power. -/
def rebound : Tree ι α → Term α
  | .literal _ v => .literal () v
  | .var _ x => .var () x
  | .infinity _ => .infinity ()
  | .negate _ t => .negate () (rebound t)
  | .binary _ op a b => joined op (rebound a) (rebound b)
  | .list _ items => .list () (reboundAll items)

/-- The trees that come back. -/
def reboundAll : List (Tree ι α) → List (Term α)
  | [] => []
  | t :: ts => rebound t :: reboundAll ts

end

theorem reboundAll_eq (ts : List (Tree ι α)) : reboundAll ts = ts.map rebound := by
  induction ts with
  | nil => rfl
  | cons t ts ih => rw [reboundAll, ih, List.map_cons]

/-- **No power has a negative zero as its base.** -/
def NoNegativeZeroBase (t : Tree ι α) : Prop :=
  t.Everywhere fun u => ∀ l a b, u = .binary l .pow a b → ∀ v, a.literal? = some v → isNegativeZero v = false

theorem literal?_rebound (t : Tree ι α) : (rebound t).literal? = t.literal? := by
  cases t with
  | binary l op a b => exact literal?_joined op _ _
  | _ => rfl

/-- Without powers of negative zeros the same tree comes back. -/
theorem rebound_eq_term {t : Tree ι α} (h : NoNegativeZeroBase t) : rebound t = t.term := by
  induction t using nodeInduction with
  | literal l v | var l x | infinity l => rfl
  | negate l t ih => exact congrArg (Tree.negate ()) (ih (everywhere_negate.mp h).2)
  | binary l op a b iha ihb =>
    obtain ⟨hbase, ha, hb⟩ := everywhere_binary.mp h
    have hjoined : joined op (rebound a) (rebound b) = .binary () op (rebound a) (rebound b) := by
      cases op with
      | pow => exact powerOf_eq (fun v hv => hbase l a b rfl v ((literal?_rebound a).symm.trans hv)) _
      | _ => rfl
    rw [rebound, hjoined, iha ha, ihb hb]
    rfl
  | list l items ih =>
    have hitems : reboundAll items = relabelAll (fun _ => ()) items := by
      rw [reboundAll_eq, relabelAll_eq]
      exact List.map_congr_left fun t ht => ih t ht ((everywhere_list.mp h).2 t ht)
    exact congrArg (Tree.list ()) hitems

/-! ## Values of what is read -/

section Values

variable {load : String → Except ExprError α}

theorem valueAll_map_congr {κ : Type} {f : Tree ι α → Tree κ α} {g : Tree ι α → Term α} {ts : List (Tree ι α)}
    (h : ∀ t ∈ ts, (f t).value load = (g t).value load) : valueAll load (ts.map f) = valueAll load (ts.map g) := by
  induction ts with
  | nil => rfl
  | cons t ts ih =>
    obtain ⟨ht, hts⟩ := List.forall_mem_cons.mp h
    rw [List.map_cons, List.map_cons, valueAll, valueAll, ht, ih hts]

/-- A minus in front of a number is worth as much inside it. -/
theorem value_ungrouped_negated (t : Term α) :
    (ungrouped (negated t)).value load = (Tree.negate () (ungrouped t)).value load := by
  cases t <;> rfl

theorem value_binary_congr {op : BinaryOp} {a b a' b' : Term α} (ha : a.value load = a'.value load)
    (hb : b.value load = b'.value load) :
    (Tree.binary () op a b).value load = (Tree.binary () op a' b').value load := by
  rw [value, value, ha, hb]

/-- What is read where a power is written has the value of the power that comes back. -/
theorem value_powerOf_reading {a b : Tree ι α} (level : Nat)
    (ha : (ungrouped (reading 5 a)).value load = (rebound a).value load)
    (hb : (ungrouped (reading level b)).value load = (rebound b).value load) :
    (ungrouped (powerOf (reading 5 a) (reading level b))).value load =
      (powerOf (rebound a) (rebound b)).value load := by
  by_cases hzero : ∃ v, a.literal? = some v ∧ isNegativeZero v = true
  · obtain ⟨v, hv, hzero⟩ := hzero
    obtain ⟨l, rfl⟩ := literal?_eq_some.mp hv
    have hparts := Bool.and_eq_true_iff.mp hzero
    have hreading : reading 5 (.literal l v : Tree ι α) = .literal () v := by
      rw [reading, precedence, hparts.1, hparts.2]
      rfl
    rw [hreading, rebound, powerOf, powerOf, if_pos hzero, if_pos hzero, ungrouped, ungrouped, value, value,
      value_binary_congr rfl hb]
    rfl
  · have hbase : ∀ v, a.literal? = some v → isNegativeZero v = false := fun v hv =>
      Bool.eq_false_iff.mpr fun h => hzero ⟨v, hv, h⟩
    rw [powerOf_reading hbase, powerOf_eq fun v hv => hbase v ((literal?_rebound a).symm.trans hv), ungrouped]
    exact value_binary_congr ha hb

/-- **What is read off the text of a tree has the value of what comes back**, if lists have at least two items. -/
theorem value_reading {t : Tree ι α} (h : t.Everywhere fun u => ∀ l items, u = .list l items → 2 ≤ items.length)
    (level : Nat) : (ungrouped (reading level t)).value load = (rebound t).value load := by
  induction t using nodeInduction generalizing level with
  | literal l v => rw [reading, ungrouped_grouped, rebound, ungrouped]
  | var l x | infinity l => rfl
  | negate l t ih =>
    rw [reading, ungrouped_grouped, value_ungrouped_negated, rebound, value, value, ih (everywhere_negate.mp h).2]
  | binary l op a b iha ihb =>
    obtain ⟨-, ha, hb⟩ := everywhere_binary.mp h
    rw [reading, ungrouped_grouped, rebound]
    cases op with
    | pow => exact value_powerOf_reading _ (iha ha _) (ihb hb _)
    | _ => exact value_binary_congr (iha ha _) (ihb hb _)
  | list l items ih =>
    obtain ⟨hlength, hall⟩ := everywhere_list.mp h
    have hread : 2 ≤ (items.map (reading 1)).length := (hlength l items rfl).trans_eq (List.length_map ..).symm
    have hitems : valueAll load ((items.map (reading 1)).map ungrouped) = valueAll load (items.map rebound) := by
      rw [List.map_map]
      exact valueAll_map_congr fun t ht => ih t ht (hall t ht) 1
    rw [reading, readingAll_eq, ungrouped_list hread, rebound, reboundAll_eq, value, value, hitems]

end Values

end Reader

/-! ## Expressions from text -/

namespace Expr

open Reader

section OfText

variable {e : Expr α} {text : String} (h : ofText text = .ok e)
include h

theorem legible_ofText (hliterals : e.tree.Everywhere fun u => ∀ v, u.literal? = some v → Scalar.isFinite v = true)
    (hfinite : FiniteReadsBack e.tree) : e.tree.Everywhere Legible := by
  have hnames : e.tree.Everywhere fun u => ∀ x, u.name? = some x → IsName x := by
    refine (shaped_ofText h).everywhere nofun fun u hu x hx => ?_
    cases u <;> cases hx
    exact hu.1
  intro u hu
  cases u with
  | literal l v => exact hfinite _ hu v rfl (hliterals _ hu v rfl)
  | var l x => exact hnames _ hu x rfl
  | _ => trivial

theorem readable_ofText (hlegible : e.tree.Everywhere Legible) : OnSpine Readable e.tree := by
  refine (shaped_ofText h).imp hlegible fun u hu hback => ?_
  cases u with
  | literal l v => exact hback
  | binary l op a b => exact hu
  | list l items => exact List.ne_nil_of_length_pos (Nat.lt_of_lt_of_le Nat.two_pos hu)
  | _ => trivial

theorem isNoCall_ofText : e.tree.Everywhere IsNoCall := by
  refine (shaped_ofText h).everywhere nofun fun u hu hcall => ?_
  cases u <;> cases hcall
  exact hu.2 rfl

theorem two_le_length_ofText : e.tree.Everywhere fun u => ∀ l items, u = .list l items → 2 ≤ items.length := by
  refine (shaped_ofText h).everywhere nofun fun u hu l items hlist => ?_
  subst hlist
  exact hu

/-- What is read off the text of an expression from text has the values of the tree that comes back. -/
theorem evaluate_rebound (hliterals : e.tree.Everywhere fun u => ∀ v, u.literal? = some v → Scalar.isFinite v = true)
    (hfinite : FiniteReadsBack e.tree) :
    ∃ e', ofText e.text = .ok e' ∧ ∀ T, e'.evaluate T = (rebound e.tree).value T.valueOf := by
  have hlegible := legible_ofText h hliterals hfinite
  obtain ⟨e', he', hterm⟩ := map_eq_ok (map_ofText_text hlegible (readable_ofText h hlegible) (isNoCall_ofText h))
  refine ⟨e', he', fun T => ?_⟩
  rw [evaluate_eq, ← value_relabel T.valueOf (fun _ => ()) e'.tree]
  exact (congrArg (Tree.value T.valueOf) hterm).trans (value_reading (two_le_length_ofText h) 0)

/-- **Writing an expression from text and reading it back keeps its values.** If the literals are finite and read back,
reading succeeds. What comes back has the values of the tree with the signs of negative zeros in front of their powers;
where there is no such power, it has the values of the expression, with any table. -/
theorem evaluate_reread (hliterals : e.tree.Everywhere fun u => ∀ v, u.literal? = some v → Scalar.isFinite v = true)
    (hfinite : FiniteReadsBack e.tree) :
    ∃ e', ofText e.text = .ok e' ∧ (∀ T, e'.evaluate T = (rebound e.tree).value T.valueOf) ∧
      (NoNegativeZeroBase e.tree → ∀ T, e'.evaluate T = e.evaluate T) := by
  obtain ⟨e', he', hvalue⟩ := evaluate_rebound h hliterals hfinite
  refine ⟨e', he', hvalue, fun hbase T => ?_⟩
  rw [hvalue T, rebound_eq_term hbase, evaluate_eq]
  exact value_relabel ..

end OfText

/-! ## Two powers -/

/-- The number of a power of it, written with its sign. -/
theorem readsBack_minus_two : ReadsBack (Scalar.neg (Scalar.ofDecimal 2 0) : Double) := by
  have htext : Scalar.text (Scalar.neg (Scalar.ofDecimal 2 0) : Double) = "-2" := by decide +kernel
  have hsigned : Scalar.isSigned (Scalar.neg (Scalar.ofDecimal 2 0) : Double) = true := by decide +kernel
  refine readsBack_of_digits ['2'] [] (List.cons_ne_nil _ _) (List.all_eq_true.mp rfl) nofun ?_ ?_
  · rw [htext, hsigned]
    rfl
  · rw [hsigned]
    rfl

omit [Scalar α] in
/-- The labels of a negated power. -/
theorem exists_negate_pow {t : Tree Id α} {v : α} {x : String}
    (h : t.term = .negate () (.binary () .pow (.literal () v) (.var () x))) :
    ∃ l l₁ l₂ l₃, t = .negate l (.binary l₁ .pow (.literal l₂ v) (.var l₃ x)) := by
  match t, h with
  | .negate l (.binary l₁ .pow (.literal l₂ _) (.var l₃ _)), rfl => exact ⟨l, l₁, l₂, l₃, rfl⟩

/-- A power of a negative number in parentheses is written and read with its sign. -/
theorem evaluate_reread_negative_base :
    ∃ e : Expr Double, ofText "-(-2)^x" = .ok e ∧
      (e.tree.Everywhere fun u => ∀ v, u.literal? = some v → Scalar.isFinite v = true) ∧ FiniteReadsBack e.tree ∧
      NoNegativeZeroBase e.tree ∧ ∃ e', ofText e.text = .ok e' ∧ ∀ T, e'.evaluate T = e.evaluate T := by
  have hlexes : Lexes ['-', '(', '-', '2', ')', '^', 'x'] [.minus, .opening, .minus,
      .number (Scalar.ofDecimal 2 0 : Double), .closing, .caret, .name "x"] :=
    .sign rfl <| .sign rfl <| .sign rfl <| .number ['2'] [] nofun (List.all_eq_true.mp rfl) nofun (.cons rfl rfl) <|
    .sign rfl <| .sign rfl <| .letter rfl boundary_nil .nil
  have hreads : Reads .sequence [.minus, .opening, .minus, .number (Scalar.ofDecimal 2 0 : Double), .closing, .caret,
      .name "x"] (.negate () <| .binary () .pow (.list () [.literal () (Scalar.neg (Scalar.ofDecimal 2 0))])
      (.var () "x")) [] :=
    .sequenceOne <| .additiveOne <| .termOne <| .signedMinus <| .signedOne <| .powerMore
      (.group <| .itemsOne <| .additiveOne <| .termOne <| .signedMinus <| .signedOne <| .powerOne <| .number _ _)
      (.exponentOne (.runOne <| .powerOne <| .name "x" []) (by simp))
  obtain ⟨e, he, hterm⟩ := ofText_of_reads "-(-2)^x" hlexes hreads
    (calls_of_isNoCall (by simp [IsNoCall, name?, expName]) none)
  have hproper : Scalar.isFinite (Scalar.neg (Scalar.ofDecimal 2 0) : Double) = true ∧
      isNegativeZero (Scalar.neg (Scalar.ofDecimal 2 0) : Double) = false := by decide +kernel
  obtain ⟨l, l₁, l₂, l₃, htree⟩ := exists_negate_pow hterm
  have hliterals : e.tree.Everywhere fun u => ∀ v, u.literal? = some v → Scalar.isFinite v = true := by
    simp [htree, Tree.literal?, hproper.1]
  have hfinite : FiniteReadsBack e.tree := by
    simp [htree, FiniteReadsBack, Tree.literal?, readsBack_minus_two]
  have hbase : NoNegativeZeroBase e.tree := by
    simp [htree, NoNegativeZeroBase, Tree.literal?, hproper.2]
  obtain ⟨e', he', -, hsame⟩ := evaluate_reread he hliterals hfinite
  exact ⟨e, he, hliterals, hfinite, hbase, e', he', hsame hbase⟩

/-- **The sign of a negative zero leaves its power**: what comes back is the negation of the power of the number without
its sign. -/
theorem evaluate_power_reread {e : Expr α} {text : String} {v w : α} (h : ofText text = .ok e)
    (hterm : e.tree.term = .binary () .pow (.literal () v) (.literal () w)) (hzero : isNegativeZero v = true)
    (hv : Scalar.isFinite v = true ∧ ReadsBack v) (hw : Scalar.isFinite w = true ∧ ReadsBack w) :
    (∀ T, e.evaluate T = .ok (Scalar.pow v w)) ∧
      ∃ e', ofText e.text = .ok e' ∧ ∀ T, e'.evaluate T = .ok (Scalar.neg (Scalar.pow (magnitude v) w)) := by
  obtain ⟨l, l₁, l₂, htree⟩ : ∃ l l₁ l₂, e.tree = .binary l .pow (.literal l₁ v) (.literal l₂ w) := by
    generalize e.tree = t at hterm
    match t, hterm with
    | .binary l .pow (.literal l₁ _) (.literal l₂ _), rfl => exact ⟨l, l₁, l₂, rfl⟩
  have hliterals : e.tree.Everywhere fun u => ∀ v, u.literal? = some v → Scalar.isFinite v = true := by
    simp [htree, Tree.literal?, hv.1, hw.1]
  have hfinite : FiniteReadsBack e.tree := by
    simp [htree, FiniteReadsBack, Tree.literal?, hv.2, hw.2]
  obtain ⟨e', he', hvalue⟩ := evaluate_rebound h hliterals hfinite
  have hrebound : rebound e.tree = .negate () (.binary () .pow (.literal () (magnitude v)) (.literal () w)) := by
    rw [htree, rebound, rebound, rebound, joined, powerOf, if_pos hzero]
  refine ⟨fun T => ?_, e', he', fun T => ?_⟩
  · rw [evaluate_eq, htree]
    rfl
  · rw [hvalue, hrebound]
    rfl

theorem readsBack_zero : ReadsBack (Scalar.ofDecimal 0 0 : Double) := by
  have htext : Scalar.text (Scalar.ofDecimal 0 0 : Double) = "0" := by decide +kernel
  have hsigned : Scalar.isSigned (Scalar.ofDecimal 0 0 : Double) = false := by decide +kernel
  refine readsBack_of_digits ['0'] [] (List.cons_ne_nil _ _) (List.all_eq_true.mp rfl) nofun ?_ ?_
  · rw [htext, hsigned]
    rfl
  · rw [hsigned]
    rfl

theorem isSigned_negative_zero : Scalar.isSigned (Scalar.neg (Scalar.ofDecimal 0 0) : Double) = true := by
  decide +kernel

/-- A negative zero is written with its sign. -/
theorem text_negative_zero : (Scalar.text (Scalar.neg (Scalar.ofDecimal 0 0) : Double)).toList =
    (if Scalar.isSigned (Scalar.neg (Scalar.ofDecimal 0 0) : Double) then ['-'] else []) ++ numeral ['0'] [] := by
  have htext : Scalar.text (Scalar.neg (Scalar.ofDecimal 0 0) : Double) = "-0" := by decide +kernel
  rw [htext, isSigned_negative_zero]
  rfl

theorem magnitude_negative_zero : magnitude (Scalar.neg (Scalar.ofDecimal 0 0) : Double) = Scalar.ofDecimal 0 0 := by
  refine (magnitude_eq ['0'] [] (List.cons_ne_nil _ _) (List.all_eq_true.mp rfl) nofun ?_).trans ?_
  · exact text_negative_zero
  · rfl

theorem readsBack_negative_zero : ReadsBack (Scalar.neg (Scalar.ofDecimal 0 0) : Double) := by
  refine readsBack_of_digits ['0'] [] (List.cons_ne_nil _ _) (List.all_eq_true.mp rfl) nofun ?_ ?_
  · exact text_negative_zero
  · rw [isSigned_negative_zero]
    rfl

/-- `(-0)^0` comes back as the negation of `0^0`. Where powers with exponent zero are one, the values differ. -/
theorem evaluate_reread_negative_zero :
    ∃ e e' : Expr Double, ofText "(-0)^0" = .ok e ∧ ofText e.text = .ok e' ∧
      (∀ T, e.evaluate T = .ok (Scalar.pow (Scalar.neg (Scalar.ofDecimal 0 0)) (Scalar.ofDecimal 0 0)) ∧
        e'.evaluate T = .ok (Scalar.neg (Scalar.pow (Scalar.ofDecimal 0 0) (Scalar.ofDecimal 0 0)))) ∧
      ((∀ v : Double, Scalar.pow v (Scalar.ofDecimal 0 0) = Scalar.one) → ∀ T, e'.evaluate T ≠ e.evaluate T) := by
  have hlexes : Lexes ['(', '-', '0', ')', '^', '0'] [.opening, .minus, .number (Scalar.ofDecimal 0 0 : Double),
      .closing, .caret, .number (Scalar.ofDecimal 0 0)] :=
    .sign rfl <| .sign rfl <| .number ['0'] [] nofun (List.all_eq_true.mp rfl) nofun (.cons rfl rfl) <|
    .sign rfl <| .sign rfl <| .number ['0'] [] nofun (List.all_eq_true.mp rfl) nofun boundary_nil .nil
  have hreads : Reads .sequence [.opening, .minus, .number (Scalar.ofDecimal 0 0 : Double), .closing, .caret,
      .number (Scalar.ofDecimal 0 0)] (.binary () .pow (.list () [.literal () (Scalar.neg (Scalar.ofDecimal 0 0))])
        (.literal () (Scalar.ofDecimal 0 0))) [] :=
    .sequenceOne <| .additiveOne <| .termOne <| .signedOne <| .powerMore
      (.group <| .itemsOne <| .additiveOne <| .termOne <| .signedMinus <| .signedOne <| .powerOne <| .number _ _)
      (.exponentOne (.runOne <| .powerOne <| .number _ []) (by simp))
  obtain ⟨e, he, hterm⟩ := ofText_of_reads "(-0)^0" hlexes hreads
    (calls_of_isNoCall (by simp [IsNoCall, name?]) none)
  obtain ⟨hbefore, e', he', hafter⟩ := evaluate_power_reread he hterm (by decide +kernel)
    ⟨by decide +kernel, readsBack_negative_zero⟩ ⟨by decide +kernel, readsBack_zero⟩
  rw [magnitude_negative_zero] at hafter
  refine ⟨e, e', he, he', fun T => ⟨hbefore T, hafter T⟩, fun hone T hsame => ?_⟩
  rw [hbefore, hafter, hone, hone] at hsame
  have hsigns : Scalar.isSigned (Scalar.neg Scalar.one : Double) = Scalar.isSigned (Scalar.one : Double) :=
    congrArg Scalar.isSigned (Except.ok.inj hsame)
  exact absurd hsigns (by decide +kernel)

end Expr

end SignalFlow
