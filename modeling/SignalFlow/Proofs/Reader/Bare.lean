import SignalFlow.Proofs.Expr.Regular
import SignalFlow.Proofs.Expr.Walk
import SignalFlow.Proofs.Reader.Rules

/-!
# Calls and groups of bare trees

What the calls of a tree expand to and what is left of its groups does not depend on labels. `calls` expands the calls
of a bare tree, one factor after the other; it is told what a call in this place would get as its argument. `ungrouped`
dissolves the groups. So the bare tree of an expression from text is that of the text, with its calls expanded and its
groups dissolved (`map_ofText`).
-/

namespace SignalFlow.Reader

open SignalFlow.Tree

variable {α : Type}

/-- A sign in front of what is no literal. -/
theorem negated_eq_negate [Scalar α] {t : Term α} (h : t.literal? = none) : negated t = .negate () t := by
  cases t with
  | literal l v => cases h
  | _ => rfl

/-- A property of every node of a tree holds of the tree with a sign in front, if it is none of signs or of the values
of literals. -/
theorem everywhere_negated [Scalar α] {p : Term α → Prop} {t : Term α} (h : t.Everywhere p)
    (hliteral : ∀ v w, p (.literal () v) → p (.literal () w)) (hnegate : p (.negate () t)) :
    (negated t).Everywhere p := by
  cases t with
  | literal l v => exact everywhere_literal.mpr (hliteral v _ (everywhere_literal.mp h))
  | _ => exact everywhere_negate.mpr ⟨hnegate, h⟩

/-! ## Calls -/

/-- A node is not the variable `exp`. -/
def IsNoCall {ι : Type} (t : Tree ι α) : Prop := t.name? ≠ some expName

/-- What a call under a sign would get as its argument. A product under a sign stands alone. -/
def underSign : Term α → Option (Except CallFault (Term α)) → Option (Except CallFault (Term α))
  | .binary _ _ _ _, _ => none
  | _, next => next

mutual

/-- **The tree with its calls expanded**, and whether the factor that follows it was used up as an argument list. `next`
is the argument of a call in this place, or why there is none; outside of products there is no such place. -/
def calls : Term α → Option (Except CallFault (Term α)) → Except CallFault (Term α × Bool)
  | .literal _ v, _ => .ok (.literal () v, false)
  | .var _ name, next =>
    if name = expName then
      match next with
      | none => .error .notFollowed
      | some argument => argument.map fun t => (.binary () .pow (.var () baseName) t, true)
    else .ok (.var () name, false)
  | .infinity _, _ => .ok (.infinity (), false)
  | .negate _ t, next => (calls t (underSign t next)).map fun r => (.negate () r.1, r.2)
  | .binary _ op a b, next =>
    if op = .mul then do
      let left ← calls a (some (argumentOf b))
      if left.2 then return (left.1, false)
      else
        let right ← calls b (some (next.getD (.error .missingArguments)))
        return (.binary () .mul left.1 right.1, right.2)
    else do
      let left ← calls a none
      let right ← calls b none
      return (.binary () op left.1 right.1, false)
  | .list _ items, _ => (callsAll items).map fun ts => (.list () ts, false)

/-- The argument that a factor gives to a call in front of it. -/
def argumentOf : Term α → Except CallFault (Term α)
  | .list _ [t] => (calls t none).map (·.1)
  | .list _ _ => .error .notOneArgument
  | _ => .error .notFollowed

/-- The trees with their calls expanded, none of them a factor. -/
def callsAll : List (Term α) → Except CallFault (List (Term α))
  | [] => .ok []
  | t :: ts => do
    let first ← calls t none
    let others ← callsAll ts
    return first.1 :: others

end

section Equations

variable {name : String} {next : Option (Except CallFault (Term α))} {op : BinaryOp} {t a b : Term α}

theorem calls_call_alone : calls (.var () expName : Term α) none = .error .notFollowed := by
  rw [calls.eq_def]
  rfl

theorem calls_call (argument : Except CallFault (Term α)) : calls (.var () expName) (some argument) =
    argument.map fun t => (.binary () .pow (.var () baseName) t, true) := by
  rw [calls.eq_def]
  rfl

theorem calls_var (h : name ≠ expName) : calls (.var () name : Term α) next = .ok (.var () name, false) := by
  rw [calls.eq_def]
  exact if_neg h

theorem calls_product : calls (.binary () .mul a b) next = do
    let left ← calls a (some (argumentOf b))
    if left.2 then return (left.1, false)
    else
      let right ← calls b (some (next.getD (.error .missingArguments)))
      return (.binary () .mul left.1 right.1, right.2) := by
  rw [calls, if_pos rfl]

theorem calls_binary (hop : op ≠ .mul) : calls (.binary () op a b) next = do
    let left ← calls a none
    let right ← calls b none
    return (.binary () op left.1 right.1, false) := by
  rw [calls, if_neg hop]

end Equations

/-- What a call in a place would get as its argument. -/
def Place.next : Place α → Option (Except CallFault (Term α))
  | .alone => none
  | .last => some (.error .missingArguments)
  | .before _ b => some (argumentOf b.term)

theorem Place.next_ofRight (p : Place α) : p.ofRight.next = some (p.next.getD (.error .missingArguments)) := by
  cases p <;> rfl

theorem Place.next_underSign (p : Place α) (t : Tree Id α) : (p.underSign t).next = Reader.underSign t.term p.next := by
  cases t <;> rfl

theorem Place.underSign_eq (p : Place α) (t : Tree Id α) : p.underSign t = p ∨ p.underSign t = .alone := by
  cases t with
  | binary => exact .inr rfl
  | _ => exact .inl rfl

/-- Expanding below an operator that is no product. -/
theorem expand_binary (l : Id) {op : BinaryOp} (hop : op ≠ .mul) (a b : Tree Id α) (p : Place α) (s : Slots) :
    expand (.binary l op a b) p s = do
      let left ← expand a .alone s
      let right ← expand b .alone left.slots
      return ⟨.binary l op left.result right.result, false, right.slots⟩ := by
  cases op <;> first | exact absurd rfl hop | rw [expand.eq_def]

/-- A tree expands as its bare tree does. -/
def ExpandsBare (t : Tree Id α) (p : Place α) : Prop :=
  ∀ s, (expand t p s).map (fun r => (r.result.term, r.tookNext)) = calls t.term p.next

section

variable {l k : Id} {t a b : Tree Id α} {p : Place α} {items : List (Tree Id α)}

theorem expandsBare_alone (h : ExpandsBare t .alone) (s : Slots) :
    (expand t .alone s).map (·.result.term) = (calls t.term none).map (·.1) := by
  rw [show none = (Place.alone : Place α).next from rfl, ← h s]
  cases expand t .alone s <;> rfl

theorem expandsBare_var (name : String)
    (h : ∀ holder k argument, p = .before holder (.list k [argument]) → ExpandsBare argument .alone) :
    ExpandsBare (.var l name) p := by
  intro s
  rw [expand.eq_def]
  dsimp only
  split
  case isFalse hname => exact (calls_var hname).symm
  case isTrue hname =>
    subst hname
    split
    case h_1 => exact calls_call_alone.symm
    case h_2 => exact (calls_call (.error .missingArguments)).symm
    case h_3 holder k argument =>
      have hargument := expandsBare_alone (h holder k argument rfl) (s.take.2.take.2.release [l, holder, k])
      refine Eq.trans ?_ (calls_call (argumentOf (.list () [argument.term]))).symm
      rw [argumentOf, ← hargument]
      show Except.map _ (expand argument .alone (s.take.2.take.2.release [l, holder, k]) >>= _) = _
      cases expand argument .alone (s.take.2.take.2.release [l, holder, k]) <;> rfl
    case h_4 holder k items hitems =>
      refine Eq.trans ?_ (calls_call (argumentOf (Tree.list k items).term)).symm
      rcases items with _ | ⟨t, _ | ⟨u, rest⟩⟩
      · rfl
      · exact absurd rfl (hitems t)
      · rfl
    case h_5 holder b _ hlist =>
      refine Eq.trans ?_ (calls_call (argumentOf b.term)).symm
      cases b with
      | list k items => exact absurd rfl (hlist k items)
      | _ => rfl

theorem expandsBare_negate (h : ExpandsBare t (p.underSign t)) : ExpandsBare (.negate l t) p := by
  intro s
  rw [expand.eq_def, show (Tree.negate l t).term = .negate () t.term from rfl, calls, ← p.next_underSign, ← h s]
  show Except.map _ (expand t (p.underSign t) s >>= _) = _
  cases expand t (p.underSign t) s <;> rfl

theorem expandsBare_product (ha : ExpandsBare a (.before l b)) (hb : ExpandsBare b p.ofRight) :
    ExpandsBare (.binary l .mul a b) p := by
  intro s
  refine Eq.trans ?_ calls_product.symm
  rw [expand.eq_def, ← p.next_ofRight]
  dsimp only
  have ha := ha s
  rw [show (Place.before l b).next = some (argumentOf b.term) from rfl] at ha
  show _ = (calls a.term (some (argumentOf b.term)) >>= fun left => _)
  rw [← ha]
  cases expand a (.before l b) s with
  | error f => rfl
  | ok left =>
    show Except.map _ (if left.tookNext = true then _ else _) = if left.tookNext = true then _ else _
    split
    case isTrue => rfl
    case isFalse =>
      show _ = (calls b.term p.ofRight.next >>= fun right => _)
      rw [← hb left.slots]
      show Except.map _ (expand b p.ofRight left.slots >>= _) = _
      cases expand b p.ofRight left.slots <;> rfl

theorem expandsBare_binary {op : BinaryOp} (hop : op ≠ .mul) (ha : ExpandsBare a .alone) (hb : ExpandsBare b .alone) :
    ExpandsBare (.binary l op a b) p := by
  intro s
  refine Eq.trans ?_ (calls_binary hop).symm
  have hleft := ha s
  rw [show (Place.alone : Place α).next = none from rfl] at hleft
  show _ = (calls a.term none >>= fun left => _)
  rw [expand_binary l hop, ← hleft]
  cases expand a .alone s with
  | error f => rfl
  | ok left =>
    show _ = (calls b.term (Place.alone : Place α).next >>= fun right => _)
    rw [← hb left.slots]
    show Except.map _ (expand b .alone left.slots >>= _) = _
    cases expand b .alone left.slots <;> rfl

theorem expandAll_bare (h : ∀ t ∈ items, ExpandsBare t .alone) (s : Slots) :
    (expandAll items s).map (fun r => relabelAll (fun _ => ()) r.result) =
      callsAll (relabelAll (fun _ => ()) items) := by
  induction items generalizing s with
  | nil =>
    rw [expandAll]
    rfl
  | cons t ts ih =>
    obtain ⟨ht, hts⟩ := List.forall_mem_cons.mp h
    have hfirst := ht s
    rw [show (Place.alone : Place α).next = none from rfl] at hfirst
    show _ = (calls t.term none >>= fun first => _)
    rw [expandAll, ← hfirst]
    cases expand t .alone s with
    | error f => rfl
    | ok first =>
      show _ = (callsAll (relabelAll (fun _ => ()) ts) >>= fun others => _)
      rw [← ih hts first.slots]
      show Except.map _ (expandAll ts first.slots >>= _) = _
      cases expandAll ts first.slots <;> rfl

/-- The items of a list use up no factor. -/
theorem expandAll_tookNext {s : Slots} {r : Expanded (List (Tree Id α))} (h : expandAll items s = .ok r) :
    r.tookNext = false := by
  match items with
  | [] =>
    rw [expandAll] at h
    cases h
    rfl
  | t :: ts =>
    rw [expandAll] at h
    obtain ⟨first, -, h⟩ := bind_eq_ok h
    obtain ⟨others, -, h⟩ := bind_eq_ok h
    cases h
    rfl

theorem expandsBare_list (h : ∀ t ∈ items, ExpandsBare t .alone) : ExpandsBare (.list l items) p := by
  intro s
  show _ = (callsAll (relabelAll (fun _ => ()) items)).map _
  rw [expand.eq_def, ← expandAll_bare h s]
  show Except.map _ (expandAll items s >>= _) = _
  cases hall : expandAll items s with
  | error f => rfl
  | ok r =>
    show Except.ok (_, r.tookNext) = _
    rw [expandAll_tookNext hall]
    rfl

end

/-- **Calls expand in a tree with labels as in the bare tree.** -/
theorem expandsBare (t : Tree Id α) (p : Place α) : ExpandsBare t p := by
  induction hn : t.size + p.size using Nat.strong_induction_on generalizing t p with
  | _ n ih =>
    subst hn
    cases t with
    | literal l v | infinity l =>
      intro s
      rw [expand.eq_def]
      rfl
    | var l name =>
      refine expandsBare_var name fun holder k argument hp => ih _ ?_ argument .alone rfl
      subst hp
      simp only [Tree.size, Tree.sizeAll, Place.size_alone, Place.size_before]
      omega
    | negate l u =>
      have hsize := p.size_underSign_le u
      exact expandsBare_negate (ih _ (by simp only [Tree.size]; omega) u _ rfl)
    | binary l op a b =>
      by_cases hop : op = .mul
      · subst hop
        have hsize := p.size_ofRight
        exact expandsBare_product (ih _ (by simp only [Tree.size, Place.size_before]; omega) a _ rfl)
          (ih _ (by simp only [Tree.size]; omega) b _ rfl)
      · exact expandsBare_binary hop (ih _ (by simp only [Tree.size, Place.size_alone]; omega) a _ rfl)
          (ih _ (by simp only [Tree.size, Place.size_alone]; omega) b _ rfl)
    | list l items =>
      refine expandsBare_list fun t ht => ih _ ?_ t .alone rfl
      have hsize := size_lt_of_mem_children (t := .list l items) ht
      rw [Place.size_alone]
      omega

/-! ## Groups -/

/-- The trees as an argument list, unless there is one only. -/
def listed : List (Term α) → Term α
  | [t] => t
  | ts => .list () ts

mutual

/-- **The tree with its groups dissolved**: a list of one item is this item. -/
def ungrouped : Term α → Term α
  | .literal _ v => .literal () v
  | .var _ name => .var () name
  | .infinity _ => .infinity ()
  | .negate _ t => .negate () (ungrouped t)
  | .binary _ op a b => .binary () op (ungrouped a) (ungrouped b)
  | .list _ items => listed (ungroupedAll items)

/-- The trees with their groups dissolved. -/
def ungroupedAll : List (Term α) → List (Term α)
  | [] => []
  | t :: ts => ungrouped t :: ungroupedAll ts

end

theorem ungroupedAll_eq (ts : List (Term α)) : ungroupedAll ts = ts.map ungrouped := by
  induction ts with
  | nil => rfl
  | cons t ts ih => rw [ungroupedAll, ih, List.map_cons]

theorem ungrouped_list {ts : List (Term α)} (h : 2 ≤ ts.length) :
    ungrouped (.list () ts) = .list () (ts.map ungrouped) := by
  rw [ungrouped, ungroupedAll_eq]
  match ts with
  | [] | [t] => simp at h
  | _ :: _ :: _ => rfl

mutual

/-- Groups dissolve in a tree with labels as in the bare tree. -/
theorem term_ungroup {ι : Type} (t : Tree ι α) (free : List ι) : (ungroup t free).1.term = ungrouped t.term := by
  match t with
  | .literal _ _ | .var _ _ | .infinity _ => rfl
  | .negate _ t => exact congrArg (Tree.negate ()) (term_ungroup t free)
  | .binary _ op a b => exact congrArg₂ (Tree.binary () op) (term_ungroup a free) (term_ungroup b _)
  | .list l items =>
    have hitems := terms_ungroupAll items free
    show _ = listed (ungroupedAll (relabelAll (fun _ => ()) items))
    rw [← hitems, ungroup]
    match ungroupAll items free with
    | ([], _) | ([_], _) | (_ :: _ :: _, _) => rfl

theorem terms_ungroupAll {ι : Type} (ts : List (Tree ι α)) (free : List ι) :
    relabelAll (fun _ => ()) (ungroupAll ts free).1 = ungroupedAll (relabelAll (fun _ => ()) ts) := by
  match ts with
  | [] => rfl
  | t :: ts => exact congrArg₂ List.cons (term_ungroup t free) (terms_ungroupAll ts _)

end

/-! ## Texts -/

/-- **The tree that is read, with its calls expanded and its groups dissolved.** -/
def settled (t : Term α) : Except ExprError (Term α) :=
  match calls t none with
  | .error f => .error (.malformedCall f)
  | .ok r => .ok (ungrouped r.1)

theorem map_settle (t : Tree Id α) (s : Slots) : (Expr.settle t s).map (·.tree.term) = settled t.term := by
  have h := expandsBare t .alone s
  rw [show (Place.alone : Place α).next = none from rfl] at h
  rw [Expr.settle, settled, ← h, expandCalls]
  cases expand t .alone s with
  | error f => rfl
  | ok r => exact congrArg Except.ok (term_ungroup r.result r.slots.free)

variable [Scalar α]

/-- **The bare tree of an expression from text** is the tree that is read, settled. -/
theorem map_ofText (text : String) : (Expr.ofText text : Except ExprError (Expr α)).map (·.tree.term) =
    match readTerm text with
    | .error e => .error (.read e)
    | .ok t => settled t := by
  rw [Expr.ofText]
  cases (readTerm text : Except ReadError (Term α)) with
  | error e => rfl
  | ok t =>
    refine (map_settle (t.place {}).1 (t.place {}).2).trans ?_
    rw [term_place, term_eq_self]

end SignalFlow.Reader
