import SignalFlow.Double
import SignalFlow.Proofs.Reader.Reread

/-!
# Expressions that survive being written

The text of an expression is read back as the same expression (`ofText_text`) if names are words, literals read back, no
minus stands in front of a literal, lists have at least two items and commas stay on the spine. What is read has
parentheses and no calls; settling it takes away the parentheses and leaves nothing else to do.
-/

namespace SignalFlow

open SignalFlow.Tree

variable {ι κ α : Type}

/-! ## Comparison -/

namespace Double

/-- A number that is no NaN equals itself. -/
theorem beq_self {x : Float} (h : x.isNaN = false) : (x == x) = true := by
  show x.toModel.unpack.beq x.toModel.unpack = true
  have hunpack : x.toModel.unpack.isNaN = false := h
  cases hx : x.toModel.unpack with
  | notANumber =>
    rw [hx] at hunpack
    cases hunpack
  | infinity s | zero s => cases s <;> rfl
  | finite s m e hm =>
    have hself : (compare e e).then (compare m m) = .eq := by
      rw [Std.compare_self, Std.compare_self]
      rfl
    cases s with
    | positive =>
      show (some ((compare e e).then (compare m m)) == some .eq) = true
      rw [hself]
      rfl
    | negative =>
      show (some ((compare e e).then (compare m m)).swap == some .eq) = true
      rw [hself]
      rfl

/-- A double is the same literal as itself, a NaN included. -/
theorem same_self (v : Double) : Scalar.same v v = true := by
  cases v with
  | number x h => exact (Bool.or_eq_true ..).mpr (.inl (beq_self h))
  | nan negative =>
    have hnan : (0.0 / 0.0 : Float).isNaN = true := by decide +kernel
    exact (Bool.or_eq_true ..).mpr (.inr ((Bool.and_eq_true ..).mpr ⟨hnan, hnan⟩))

end Double

namespace Reader

/-! ## Trees without calls -/

theorem callsAll_of_isNoCall {ts : List (Term α)} (h : ∀ t ∈ ts, calls t none = .ok (t, false)) :
    callsAll ts = .ok ts := by
  induction ts with
  | nil => rfl
  | cons t ts ih =>
    obtain ⟨ht, hts⟩ := List.forall_mem_cons.mp h
    rw [callsAll, ht, ih hts]
    rfl

/-- Without calls nothing is expanded. -/
theorem calls_of_isNoCall {t : Term α} (h : t.Everywhere IsNoCall) (next : Option (Except CallFault (Term α))) :
    calls t next = .ok (t, false) := by
  induction t using nodeInduction generalizing next with
  | literal l v | infinity l => rfl
  | var l x => exact calls_var fun hx => everywhere_var.mp h (congrArg some hx)
  | negate l t ih =>
    rw [calls, ih (everywhere_negate.mp h).2]
    rfl
  | binary l op a b iha ihb =>
    obtain ⟨-, ha, hb⟩ := everywhere_binary.mp h
    by_cases hop : op = .mul
    · subst hop
      refine calls_product.trans ?_
      rw [iha ha, ihb hb]
      rfl
    · refine (calls_binary hop).trans ?_
      rw [iha ha, ihb hb]
      rfl
  | list l items ih =>
    rw [calls, callsAll_of_isNoCall fun t ht => ih t ht ((everywhere_list.mp h).2 t ht) none]
    rfl

section Reading

variable [Scalar α] {t : Tree ι α} {level p : Nat}

omit [Scalar α] in
theorem isNoCall_list {l : ι} {items : List (Tree ι α)} : IsNoCall (.list l items) := nofun

omit [Scalar α] in
theorem isNoCall_grouped {t : Term α} (h : t.Everywhere IsNoCall) : (grouped level p t).Everywhere IsNoCall := by
  rw [grouped]
  split
  case isTrue => exact everywhere_list.mpr ⟨isNoCall_list, List.forall_mem_singleton.mpr h⟩
  case isFalse => exact h

theorem isNoCall_joined (op : BinaryOp) {a b : Term α} (ha : a.Everywhere IsNoCall) (hb : b.Everywhere IsNoCall) :
    (joined op a b).Everywhere IsNoCall := by
  have hplain : (Tree.binary () op a b).Everywhere IsNoCall := everywhere_binary.mpr ⟨nofun, ha, hb⟩
  cases op with
  | pow =>
    cases a with
    | literal l v =>
      show (if isNegativeZero v then _ else _ : Term α).Everywhere IsNoCall
      split
      case isTrue =>
        exact everywhere_negate.mpr ⟨nofun, everywhere_binary.mpr ⟨nofun, everywhere_literal.mpr nofun, hb⟩⟩
      case isFalse => exact hplain
    | _ => exact hplain
  | _ => exact hplain

/-- Reading brings no calls. -/
theorem isNoCall_reading (h : t.Everywhere IsNoCall) (level : Nat) : (reading level t).Everywhere IsNoCall := by
  induction t using nodeInduction generalizing level with
  | literal l v => exact isNoCall_grouped (everywhere_literal.mpr nofun)
  | var l x =>
    have hx : IsNoCall (var l x : Tree ι α) := everywhere_var.mp h
    exact everywhere_var.mpr hx
  | infinity l => exact everywhere_infinity.mpr nofun
  | negate l t ih =>
    exact isNoCall_grouped (everywhere_negated (ih (everywhere_negate.mp h).2 _) (fun _ _ _ => nofun) nofun)
  | binary l op a b iha ihb =>
    obtain ⟨-, ha, hb⟩ := everywhere_binary.mp h
    exact isNoCall_grouped (isNoCall_joined op (iha ha _) (ihb hb _))
  | list l items ih =>
    rw [reading, readingAll_eq]
    refine everywhere_list.mpr ⟨isNoCall_list, fun u hu => ?_⟩
    obtain ⟨t, ht, rfl⟩ := List.mem_map.mp hu
    exact ih t ht ((everywhere_list.mp h).2 t ht) 1

/-- **What is written without calls is settled by dissolving its groups.** -/
theorem settled_reading (h : t.Everywhere IsNoCall) : settled (reading 0 t) = .ok (ungrouped (reading 0 t)) := by
  rw [settled, calls_of_isNoCall (isNoCall_reading h 0)]

/-- **The expression of the text of an expression**, without its labels. -/
theorem map_ofText_text (hlegible : t.Everywhere Legible) (hreadable : OnSpine Readable t)
    (hcalls : t.Everywhere IsNoCall) :
    (Expr.ofText t.text : Except ExprError (Expr α)).map (·.tree.term) = .ok (ungrouped (reading 0 t)) := by
  rw [map_ofText, readTerm_text hlegible hreadable]
  exact settled_reading hcalls

/-! ## Dissolving the parentheses -/

/-- A node that is read back as it is: no negative zero, no minus in front of a literal, no list of one item. -/
def Canonical : Tree ι α → Prop
  | .literal _ v => isNegativeZero v = false
  | .negate _ t => t.literal? = none
  | .list _ items => 2 ≤ items.length
  | _ => True

omit [Scalar α] in
theorem ungrouped_grouped (level p : Nat) (t : Term α) : ungrouped (grouped level p t) = ungrouped t := by
  rw [grouped]
  split <;> rfl

omit [Scalar α] in
theorem literal?_grouped {t : Term α} (h : t.literal? = none) : (grouped level p t).literal? = none := by
  rw [grouped]
  split
  case isTrue => rfl
  case isFalse => exact h

/-- Nothing but a literal is read as a literal. -/
theorem literal?_reading (h : t.Everywhere Canonical) (ht : t.literal? = none) (level : Nat) :
    (reading level t).literal? = none := by
  induction t using nodeInduction generalizing level with
  | literal l v => cases ht
  | negate l t ih =>
    obtain ⟨hliteral, ht⟩ := everywhere_negate.mp h
    have hinner := ih ht hliteral 3
    rw [reading, negationPrecedence, negated_eq_negate hinner]
    exact literal?_grouped rfl
  | binary l op a b _ _ => exact literal?_grouped (literal?_joined op _ _)
  | _ => rfl

/-- **What is read off the text of a tree is the tree**, once its parentheses are dissolved. -/
theorem ungrouped_reading (h : t.Everywhere Canonical) (level : Nat) : ungrouped (reading level t) = t.term := by
  induction t using nodeInduction generalizing level with
  | literal l v => exact ungrouped_grouped ..
  | var l x => rfl
  | infinity l => rfl
  | negate l t ih =>
    obtain ⟨hliteral, ht⟩ := everywhere_negate.mp h
    rw [reading, ungrouped_grouped, negated_eq_negate (literal?_reading ht hliteral _), ungrouped, ih ht]
    rfl
  | binary l op a b iha ihb =>
    obtain ⟨-, ha, hb⟩ := everywhere_binary.mp h
    have hjoined : joined op (reading (operandLevels op).1 a) (reading (operandLevels op).2 b) =
        .binary () op (reading (operandLevels op).1 a) (reading (operandLevels op).2 b) := by
      cases op with
      | pow =>
        refine powerOf_reading (fun v hv => ?_) _
        obtain ⟨k, rfl⟩ := literal?_eq_some.mp hv
        exact everywhere_literal.mp ha
      | _ => rfl
    rw [reading, ungrouped_grouped, hjoined, ungrouped, iha ha, ihb hb]
    rfl
  | list l items ih =>
    obtain ⟨hlength, hall⟩ := everywhere_list.mp h
    have hitems : (items.map (reading 1)).map ungrouped = items.map Tree.term := by
      rw [List.map_map]
      exact List.map_congr_left fun t ht => ih t ht (hall t ht) 1
    rw [reading, readingAll_eq, ungrouped_list (by rw [List.length_map]; exact hlength), hitems]
    exact congrArg (Tree.list ()) (relabelAll_eq _ items).symm

end Reading

end Reader

/-! ## Expressions -/

namespace Expr

open Reader

/-- **An expression that survives being written.** -/
structure Writable [Scalar α] (t : Tree ι α) : Prop where
  names : t.Everywhere fun u => ∀ x, u.name? = some x → IsName x ∧ x ≠ expName
  literals : t.Everywhere fun u => ∀ v, u.literal? = some v → Scalar.isFinite v = true ∧ isNegativeZero v = false
  /-- No minus stands in front of a literal. -/
  negations : t.Everywhere fun u => ∀ l a, u = .negate l a → a.literal? = none
  lists : t.Everywhere fun u => ∀ l items, u = .list l items → 2 ≤ items.length
  /-- Commas stand on the left spine from the root. -/
  commas : OnSpine (fun u => u.op? ≠ some .comma) t

/-- Finite literals of a tree are written in digits that read back. -/
def FiniteReadsBack [Scalar α] (t : Tree ι α) : Prop :=
  t.Everywhere fun u => ∀ v, u.literal? = some v → Scalar.isFinite v = true → ReadsBack v

namespace Writable

variable [Scalar α] {t : Tree ι α}

theorem isNoCall (h : Writable t) : t.Everywhere IsNoCall :=
  h.names.imp fun _ hu hcall => (hu _ hcall).2 rfl

theorem legible (h : Writable t) (hfinite : FiniteReadsBack t) : t.Everywhere Legible := by
  intro u hu
  cases u with
  | literal l v => exact hfinite _ hu v rfl (h.literals _ hu v rfl).1
  | var l x => exact (h.names _ hu x rfl).1
  | _ => trivial

theorem canonical (h : Writable t) : t.Everywhere Canonical := by
  intro u hu
  cases u with
  | literal l v => exact (h.literals _ hu v rfl).2
  | negate l a => exact h.negations _ hu l a rfl
  | list l items => exact h.lists _ hu l items rfl
  | _ => trivial

theorem readable (h : Writable t) (hfinite : FiniteReadsBack t) : OnSpine Readable t := by
  -- apart from commas every node can be read back, the commas are on the spine
  have hnodes : t.Everywhere fun u => u.op? ≠ some .comma → Readable u := by
    intro u hu hcomma
    cases u with
    | literal l v => exact hfinite _ hu v rfl (h.literals _ hu v rfl).1
    | binary l op a b => exact fun hop => hcomma (congrArg some hop)
    | list l items => exact List.ne_nil_of_length_pos (Nat.lt_of_lt_of_le Nat.two_pos (h.lists _ hu l items rfl))
    | _ => trivial
  exact h.commas.imp hnodes fun u hcomma hreadable => hreadable hcomma

end Writable

/-- **Reading undoes writing**, if finite doubles read back from their texts. -/
theorem ofText_text {e : Expr Double} (h : Writable e.tree) (hfinite : FiniteReadsBack e.tree) :
    ∃ e', ofText e.text = .ok e' ∧ e'.tree.term = e.tree.term ∧ e'.same e = true := by
  have hread := map_ofText_text (h.legible hfinite) (h.readable hfinite) h.isNoCall
  obtain ⟨e', he', hterm⟩ := map_eq_ok hread
  rw [ungrouped_reading h.canonical 0] at hterm
  exact ⟨e', he', hterm, same_of_term_eq Double.same_self _ _ hterm⟩

/-- The expression `-x^2.5, (a, b)`. -/
theorem ofText_text_power :
    let e : Expr Double := {
      tree := .binary ⟨7⟩ .comma
        (.negate ⟨3⟩ (.binary ⟨2⟩ .pow (.var ⟨0⟩ "x") (.literal ⟨1⟩ (Scalar.ofDecimal 25 (-1)))))
        (.list ⟨6⟩ [.var ⟨4⟩ "a", .var ⟨5⟩ "b"])
      slots := {} }
    Writable e.tree ∧ FiniteReadsBack e.tree ∧
      ∃ e', ofText e.text = .ok e' ∧ e'.tree.term = e.tree.term ∧ e'.same e = true := by
  intro e
  have hx : IsName "x" := ⟨⟨'x', [], rfl, rfl, nofun⟩, by decide⟩
  have ha : IsName "a" := ⟨⟨'a', [], rfl, rfl, nofun⟩, by decide⟩
  have hb : IsName "b" := ⟨⟨'b', [], rfl, rfl, nofun⟩, by decide⟩
  have hproper : Scalar.isFinite (Scalar.ofDecimal 25 (-1) : Double) = true ∧
      isNegativeZero (Scalar.ofDecimal 25 (-1) : Double) = false := by decide +kernel
  have hback : ReadsBack (Scalar.ofDecimal 25 (-1) : Double) := by
    have htext : Scalar.text (Scalar.ofDecimal 25 (-1) : Double) = "2.5" := by decide +kernel
    have hsigned : Scalar.isSigned (Scalar.ofDecimal 25 (-1) : Double) = false := by decide +kernel
    refine readsBack_of_digits ['2'] ['5'] (List.cons_ne_nil _ _) (List.all_eq_true.mp rfl) (List.all_eq_true.mp rfl)
      ?_ ?_
    · rw [htext, hsigned]
      rfl
    · rw [hsigned]
      rfl
  have hwritable : Writable e.tree := {
    names := by simp [e, name?, hx, ha, hb, expName]
    literals := by simp [e, Tree.literal?, hproper]
    negations := by
      simp [e]
      rfl
    lists := by simp [e]
    commas := by simp [e, OnSpine, op?] }
  have hfinite : FiniteReadsBack e.tree := by simp [e, FiniteReadsBack, Tree.literal?, hback]
  exact ⟨hwritable, hfinite, ofText_text hwritable hfinite⟩

end Expr

end SignalFlow
