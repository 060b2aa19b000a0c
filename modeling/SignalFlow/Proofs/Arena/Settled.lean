import SignalFlow.Proofs.Arena.CallByCall
import SignalFlow.Proofs.Arena.Consistent
import SignalFlow.Proofs.Arena.Groups
import SignalFlow.Proofs.Arena.OfText
import SignalFlow.Proofs.Reader.Meaning

/-!
# What a text is settled to

Settling the arena that a text was read into ends: in the arena of the expression of the text, or in the error of a call
(`settlesTo_settle`). No handle is stale, no walk is endless and no other error comes up on the way. The expression is
clean (`Expr.clean_of_ofText`): its handles are in order and reach every node, no variable is named `exp`, and its lists
have at least two items.
-/

namespace SignalFlow

open Arena SignalFlow.Tree Reader

variable {α : Type}

/-! ## Settling -/

namespace Arena

variable {t : Tree Id α} {s : Slots}

/-- **Settling in the arena does what it does to the tree**, if its products lean to the left. It answers how many nodes
fewer there are after the calls and after the groups. -/
theorem settle_does (hlean : ProductsLeft t) {e : Expr α} (h : Expr.settle t s = .ok e) :
    ∃ calls groups, e.tree.size + calls + groups = t.size ∧
      Does settle (Hole.layout ⟨[], [], []⟩ s t) (.ok (calls, groups)) e.layout := by
  rw [Expr.settle] at h
  split at h
  case h_1 => cases h
  case h_2 u s' hcalls =>
    obtain rfl : Expr.dissolve { tree := u, slots := s' } = e := Except.ok.inj h
    obtain ⟨calls, hcallsSize, hreplace⟩ := replaceCalls_does [] hlean hcalls
    obtain ⟨groups, hgroupsSize, hcollapse⟩ := collapseLists_does { tree := u, slots := s' }
    refine ⟨calls, groups, ?_, hreplace.bind (Does.bind ?_ (Does.pure (calls, groups)))⟩
    · rw [← hcallsSize, ← hgroupsSize]
      omega
    · rwa [Expr.layout_with] at hcollapse

/-- **Settling is refused in the arena as it is in the tree.** -/
theorem settle_refused (hlean : ProductsLeft t) {err : ExprError}
    (h : (Expr.settle t s : Except ExprError (Expr α)) = .error err) :
    ∃ f m, err = .malformedCall f ∧ Does settle (Hole.layout ⟨[], [], []⟩ s t) (.error err) m := by
  rw [Expr.settle] at h
  split at h
  case h_1 f hcalls =>
    cases h
    obtain ⟨m, hrefused⟩ := replaceCalls_refused [] hlean hcalls
    exact ⟨f, m, rfl, hrefused.bind_error⟩
  case h_2 => cases h

/-- **What settling an arena comes to**: the arena of an expression, or the error of a call. -/
def SettlesTo (a : Arena α) : Except ExprError (Expr α) → Prop
  | .ok e => ∃ calls groups, settle.on a = .ok (.ok (calls, groups), e.arena)
  | .error err => ∃ f b, err = .malformedCall f ∧ settle.on a = .ok (.error err, b)

theorem settlesTo_settle {a : Arena α} (hlean : ProductsLeft t) (ha : Shows a (Hole.layout ⟨[], [], []⟩ s t)) :
    a.SettlesTo (Expr.settle t s) := by
  cases h : (Expr.settle t s : Except ExprError (Expr α)) with
  | error err =>
    obtain ⟨f, m, herr, hrefused⟩ := settle_refused hlean h
    obtain ⟨b, hon, -⟩ := hrefused a ha
    exact ⟨f, b, herr, hon⟩
  | ok e =>
    obtain ⟨calls, groups, -, hdoes⟩ := settle_does hlean h
    obtain ⟨b, hon, hb⟩ := hdoes a ha
    rw [Expr.eq_arena hb.whole hb] at hon
    exact ⟨calls, groups, hon⟩

end Arena

/-! ## Texts -/

namespace Expr

variable [Scalar α] {text : String}

theorem productsLeft_place {t : Term α} (h : readTerm text = .ok t) : ProductsLeft (t.place {}).1 := by
  obtain ⟨toks, -, hparsed⟩ := bind_eq_ok h
  have hlean : ProductsLeft (t.place {}).1.term := by
    rw [term_place, term_eq_self]
    exact (productsLeft_reads (reads_of_ofTokens hparsed)).1
  exact productsLeft_relabel.mp hlean

theorem detached_ofText {e : Expr α} (h : ofText text = .ok e) : e.detached = [] := by
  rw [ofText] at h
  split at h
  case h_1 => cases h
  case h_2 t ht =>
    change settle (t.place {}).1 (t.place {}).2 = .ok e at h
    rw [settle] at h
    split at h
    case h_1 => cases h
    case h_2 => rw [← Except.ok.inj h]

/-- **An expression is clean.** -/
structure Clean (e : Expr α) : Prop where
  /-- Slots and labels are in order. -/
  check : e.check = .ok ()
  /-- In the arena, the handles of operands and parents are in order. -/
  handles : e.arena.check = .ok (.ok ())
  /-- Every live node is met on a walk from the root. -/
  reached : ∃ order, e.arena.preorderFrom e.arena.root = .ok order ∧ ∀ i, e.arena.IsLive i → i ∈ order
  /-- No variable is named `exp`. -/
  noCall : e.tree.Everywhere IsNoCall
  lists : e.tree.Everywhere fun u => ∀ l items, u = .list l items → 2 ≤ items.length

omit [Scalar α] in
/-- Every live node of an expression without detached trees is met on a walk from the root. -/
theorem reached_of_detached {e : Expr α} (he : e.Whole) (hdetached : e.detached = []) :
    ∃ order, e.arena.preorderFrom e.arena.root = .ok order ∧ ∀ i, e.arena.IsLive i → i ∈ order := by
  refine ⟨e.tree.labels, preorderFrom_eq (shows_arena he) e.sits_tree, fun i hi => ?_⟩
  obtain ⟨h, u, hfill, rfl⟩ := fills_of_live he hi
  have hmem : u.label ∈ e.forest.flatMap labels := by
    rw [hfill]
    exact (h.labels_fill u).mem_iff.mpr (List.mem_append_left _ u.label_mem_labels)
  rwa [forest, hdetached, List.flatMap_singleton] at hmem

/-- **An expression that is read from a text is clean.** -/
theorem clean_of_ofText {e : Expr α} (h : ofText text = .ok e) : e.Clean where
  check := check_eq_ok (whole_ofText h) (detached_ofText h)
  handles := check_arena (whole_ofText h) (detached_ofText h)
  reached := reached_of_detached (whole_ofText h) (detached_ofText h)
  noCall := isNoCall_ofText h
  lists := two_le_length_ofText h

/-- **What a text is settled to.** When its tree has been read into an arena, settling the arena ends: in the arena of
the expression of the text, or in the error of a malformed call. The expression is clean. -/
theorem ofText_clean (text : String) :
    (∀ t : Term α, readTerm text = .ok t → ∃ a, build (plant t) = .ok a ∧ a.SettlesTo (ofText text)) ∧
      ∀ e : Expr α, ofText text = .ok e → e.Clean := by
  refine ⟨fun t ht => ?_, fun e he => clean_of_ofText he⟩
  obtain ⟨a, ha, hshows⟩ := build_plant t
  refine ⟨a, ha, ?_⟩
  rw [ofText, ht]
  exact settlesTo_settle (productsLeft_place ht) hshows

/-- A call in front of a list that stays, with a group as its argument; and a call that nothing in parentheses
follows. -/
theorem ofText_clean_call :
    (∃ (t : Term Double) (a : Arena Double) (e : Expr Double), readTerm "exp((x))(y,z)" = .ok t ∧
      build (plant t) = .ok a ∧ e.tree.term = .binary () .mul (.binary () .pow (.var () "e") (.var () "x"))
        (.list () [.var () "y", .var () "z"]) ∧
      ofText "exp((x))(y,z)" = .ok e ∧ a.SettlesTo (.ok e) ∧ e.Clean) ∧
    ∃ (t : Term Double) (a : Arena Double), readTerm "exp x" = .ok t ∧ build (plant t) = .ok a ∧
      (ofText "exp x" : Except ExprError (Expr Double)) = .error (.malformedCall .notFollowed) ∧
      a.SettlesTo (.error (.malformedCall .notFollowed)) := by
  have hname : ∀ (x : String) (r : List (Symbol Double)), Reads .additive (.name x :: r) (.var () x) r := fun x r =>
    .additiveOne <| .termOne <| .signedOne <| .powerOne <| .name x r
  constructor
  · have hlexes : Lexes "exp((x))(y,z)".toList ([.name "exp", .opening, .opening, .name "x", .closing, .closing,
        .opening, .name "y", .comma, .name "z", .closing] : List (Symbol Double)) :=
      .word (w := ['x', 'p']) rfl (List.all_eq_true.mp rfl) (.cons rfl rfl) <| .sign rfl <| .sign rfl <|
      .letter rfl (.cons rfl rfl) <| .sign rfl <| .sign rfl <| .sign rfl <| .letter rfl (.cons rfl rfl) <| .sign rfl <|
      .letter rfl (.cons rfl rfl) <| .sign rfl .nil
    have hreads : Reads .sequence [.name "exp", .opening, .opening, .name "x", .closing, .closing, .opening, .name "y",
        .comma, .name "z", .closing] (.binary () .mul (.binary () .mul (.var () "exp")
          (.list () [.list () [.var () "x"]])) (.list () [.var () "y", .var () "z"]) : Term Double) [] :=
      .sequenceOne <| .additiveOne <| .termBeside
        (.termBeside (.termOne <| .signedOne <| .powerOne <| .name _ _) (.powerOne <| .group <| .itemsOne <|
          .additiveOne <| .termOne <| .signedOne <| .powerOne <| .group <| .itemsOne <| hname _ _))
        (.powerOne <| .group <| .itemsMore (.itemsOne <| hname _ _) (hname _ _))
    obtain ⟨e, he, hterm⟩ := ofText_of_reads "exp((x))(y,z)" hlexes hreads rfl
    have hread := readTerm_of_reads hlexes hreads
    obtain ⟨hsettles, hclean⟩ := ofText_clean (α := Double) "exp((x))(y,z)"
    obtain ⟨a, ha, hsettle⟩ := hsettles _ hread
    exact ⟨_, a, e, hread, ha, hterm, he, he ▸ hsettle, hclean e he⟩
  · have hlexes : Lexes "exp x".toList ([.name "exp", .name "x"] : List (Symbol Double)) :=
      .word (w := ['x', 'p']) rfl (List.all_eq_true.mp rfl) (.cons rfl rfl) <| .blank rfl <|
      .letter rfl boundary_nil .nil
    have hreads : Reads .sequence [.name "exp", .name "x"]
        (.binary () .mul (.var () "exp") (.var () "x") : Term Double) [] :=
      .sequenceOne <| .additiveOne <| .termBeside (.termOne <| .signedOne <| .powerOne <| .name _ _)
        (.powerOne <| .name _ _)
    have herror := ofText_error_of_reads "exp x" hlexes hreads rfl
    have hread := readTerm_of_reads hlexes hreads
    obtain ⟨a, ha, hsettle⟩ := (ofText_clean (α := Double) "exp x").1 _ hread
    exact ⟨_, a, hread, ha, herror, herror ▸ hsettle⟩

end Expr

end SignalFlow
