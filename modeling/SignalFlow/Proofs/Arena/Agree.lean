import SignalFlow.Proofs.Arena.Faithful
import SignalFlow.Proofs.Double.Coefficients

/-!
# Comparison decides agreement

Trees agree (`Tree.Agree`) if they have the same shape, operators, names and numbers of items, and literals that are
equal as numbers or both no numbers. Agreement of trees over doubles is an equivalence. Comparing two nodes of arenas
walks through both with one stack of pairs; on orderly arenas it ends, and decides whether the trees of the nodes agree,
whatever slots they are in (`Arena.Orderly.sameAt_exact`). So comparing the roots is an equivalence on orderly arenas.
-/

namespace SignalFlow

variable {ι κ α : Type} [Scalar α]

namespace Tree

/-- **Trees that agree**: the same shape, operators, names and numbers of items, and literals that are equal as numbers
or both no numbers. -/
inductive Agree : Term α → Term α → Prop
  | literal {v w} (h : Scalar.eq v w = true ∨ Scalar.isNaN v = true ∧ Scalar.isNaN w = true) :
      Agree (.literal () v) (.literal () w)
  | var (name) : Agree (.var () name) (.var () name)
  | infinity : Agree (.infinity ()) (.infinity ())
  | negate {t u} (h : Agree t u) : Agree (.negate () t) (.negate () u)
  | binary (op) {a b c d} (hleft : Agree a c) (hright : Agree b d) : Agree (.binary () op a b) (.binary () op c d)
  | list {ts us : List (Term α)} (hlength : ts.length = us.length)
      (hitems : ∀ (k : Nat) (t u : Term α), ts[k]? = some t → us[k]? = some u → Agree t u) :
      Agree (.list () ts) (.list () us)

theorem same_literal_iff {v w : α} :
    Scalar.same v w = true ↔ Scalar.eq v w = true ∨ Scalar.isNaN v = true ∧ Scalar.isNaN w = true := by
  rw [Scalar.same, Bool.or_eq_true, Bool.and_eq_true]

mutual

/-- **Comparison of trees decides agreement**, whatever their labels. -/
theorem same_iff_agree (t : Tree ι α) (u : Tree κ α) : t.same u = true ↔ Agree t.term u.term := by
  match t with
  | .literal _ v =>
    cases u with
    | literal _ w =>
      rw [same, same_literal_iff]
      refine ⟨.literal, fun h => ?_⟩
      cases h with
      | literal h => exact h
    | _ => exact ⟨nofun, nofun⟩
  | .var _ name =>
    cases u with
    | var _ other =>
      rw [same, beq_iff_eq]
      constructor
      · rintro rfl
        exact .var name
      · intro h
        cases h
        rfl
    | _ => exact ⟨nofun, nofun⟩
  | .infinity _ =>
    cases u with
    | infinity _ => exact ⟨fun _ => .infinity, fun _ => rfl⟩
    | _ => exact ⟨nofun, nofun⟩
  | .negate _ t =>
    cases u with
    | negate _ u =>
      rw [same, same_iff_agree t u]
      refine ⟨.negate, fun h => ?_⟩
      cases h with
      | negate h => exact h
    | _ => exact ⟨nofun, nofun⟩
  | .binary _ op a b =>
    cases u with
    | binary _ op' c d =>
      rw [same, Bool.and_eq_true, Bool.and_eq_true, beq_iff_eq, same_iff_agree a c, same_iff_agree b d]
      constructor
      · rintro ⟨rfl, hleft, hright⟩
        exact .binary op hleft hright
      · intro h
        cases h with
        | binary _ hleft hright => exact ⟨rfl, hleft, hright⟩
    | _ => exact ⟨nofun, nofun⟩
  | .list _ ts =>
    cases u with
    | list _ us =>
      rw [same, sameAll_iff_agree ts us, term_list, term_list]
      refine ⟨fun h => .list h.1 h.2, fun h => ?_⟩
      cases h with
      | list hlength hitems => exact ⟨hlength, hitems⟩
    | _ => exact ⟨nofun, nofun⟩

theorem sameAll_iff_agree (ts : List (Tree ι α)) (us : List (Tree κ α)) : sameAll ts us = true ↔
    (ts.map term).length = (us.map term).length ∧
      ∀ (k : Nat) (t u : Term α), (ts.map term)[k]? = some t → (us.map term)[k]? = some u → Agree t u := by
  match ts, us with
  | [], [] => exact ⟨fun _ => ⟨rfl, nofun⟩, fun _ => rfl⟩
  | [], _ :: _ | _ :: _, [] => exact ⟨nofun, fun h => absurd h.1 nofun⟩
  | t :: ts, u :: us =>
    rw [sameAll, Bool.and_eq_true, same_iff_agree t u, sameAll_iff_agree ts us, List.map_cons, List.map_cons,
      List.length_cons, List.length_cons, Nat.add_right_cancel_iff]
    constructor
    · rintro ⟨hhead, hlength, htail⟩
      refine ⟨hlength, fun k v w hv hw => ?_⟩
      cases k with
      | zero =>
        cases hv
        cases hw
        exact hhead
      | succ k => exact htail k v w hv hw
    · rintro ⟨hlength, h⟩
      exact ⟨h 0 t.term u.term rfl rfl, hlength, fun k => h (k + 1)⟩

end

/-! ## Agreement is an equivalence -/

namespace Agree

variable [Scalar.Coefficients α] {t u w : Term α}

theorem refl (t : Term α) : Agree t t := by
  induction t using childInduction with
  | h t ih =>
    cases t with
    | literal _ v => exact .literal (same_literal_iff.mp (Scalar.Coefficients.same_refl v))
    | var _ name => exact .var name
    | infinity => exact .infinity
    | negate _ t => exact .negate (ih t List.mem_cons_self)
    | binary _ op a b => exact .binary op (ih a List.mem_cons_self) (ih b (List.mem_cons_of_mem _ List.mem_cons_self))
    | list _ ts =>
      refine .list rfl fun k t u ht hu => ?_
      cases ht.symm.trans hu
      exact ih t (List.mem_of_getElem? ht)

theorem symm (h : Agree t u) : Agree u t := by
  induction h with
  | literal h => exact .literal (same_literal_iff.mp (Scalar.Coefficients.same_symm (same_literal_iff.mpr h)))
  | var name => exact .var name
  | infinity => exact .infinity
  | negate _ ih => exact .negate ih
  | binary op _ _ ihl ihr => exact .binary op ihl ihr
  | list hlength _ ih => exact .list hlength.symm fun k t u ht hu => ih k u t hu ht

theorem trans (htu : Agree t u) (huw : Agree u w) : Agree t w := by
  induction htu generalizing w with
  | literal h =>
    cases huw with
    | literal h' =>
      exact .literal (same_literal_iff.mp
        (Scalar.Coefficients.same_trans (same_literal_iff.mpr h) (same_literal_iff.mpr h')))
  | var name => exact huw
  | infinity => exact huw
  | negate _ ih =>
    cases huw with
    | negate h => exact .negate (ih h)
  | binary op _ _ ihl ihr =>
    cases huw with
    | binary _ hl hr => exact .binary op (ihl hl) (ihr hr)
  | @list ts us hlength _ ih =>
    cases huw with
    | list hlength' h =>
      refine .list (hlength.trans hlength') fun k t w ht hw => ?_
      have hk : k < us.length := hlength ▸ (List.getElem?_eq_some_iff.mp ht).1
      exact ih k t us[k] ht (List.getElem?_eq_getElem hk) (h k us[k] w (List.getElem?_eq_getElem hk) hw)

end Agree

end Tree

/-! ## Expressions and arenas -/

namespace Expr

variable {e f : Expr α} {i j : Id}

/-- **Comparing two live nodes ends, and decides whether their trees agree**, in the arenas as in the expressions. -/
theorem sameAt_arena (he : e.Whole) (hf : f.Whole) (hi : e.arena.IsLive i) (hj : f.arena.IsLive j) :
    ∃ t u r, e.arena.Reads i t ∧ f.arena.Reads j u ∧ e.arena.sameAt i f.arena j = .ok r ∧ e.sameAt i f j = .ok r ∧
      (r = true ↔ t.Agree u) := by
  obtain ⟨t, ht⟩ := (live_arena_iff he).mp hi
  obtain ⟨u, hu⟩ := (live_arena_iff hf).mp hj
  obtain ⟨-, rfl⟩ := (node?_eq_some_iff he).mp ht
  obtain ⟨-, rfl⟩ := (node?_eq_some_iff hf).mp hu
  have hsame : e.sameAt t.label f u.label = .ok (t.same u) := by
    rw [sameAt, nodeAt, nodeAt, ht, hu]
    rfl
  exact ⟨t.term, u.term, t.same u, (reads_arena he).mpr ⟨t, ht, rfl⟩, (reads_arena hf).mpr ⟨u, hu, rfl⟩,
    Arena.sameAt_eq (shows_arena he) (shows_arena hf) (sits_of_node? he ht) (sits_of_node? hf hu), hsame,
    Tree.same_iff_agree t u⟩

/-- Comparing expressions is comparing the roots of their arenas. -/
theorem same_arena (he : e.Whole) (hf : f.Whole) :
    e.arena.sameAt e.arena.root f.arena f.arena.root = .ok (e.same f) :=
  Arena.sameAt_eq (shows_arena he) (shows_arena hf) (sits_of_node? he (node?_root he))
    (sits_of_node? hf (node?_root hf))

end Expr

namespace Arena

/-- The roots of orderly arenas compare as their trees agree. -/
theorem Orderly.sameAt_root_iff {a b : Arena α} (ha : a.Orderly) (hb : b.Orderly) {t u : Term α}
    (ht : a.Reads a.root t) (hu : b.Reads b.root u) : a.sameAt a.root b b.root = .ok true ↔ t.Agree u := by
  obtain ⟨e, he, rfl⟩ := ha.exists_whole
  obtain ⟨f, hf, rfl⟩ := hb.exists_whole
  rw [Expr.same_arena he hf, Except.ok.injEq, ← Expr.tree_of_reads_root he ht, ← Expr.tree_of_reads_root hf hu]
  exact Tree.same_iff_agree e.tree f.tree

omit [Scalar α] in
theorem Orderly.exists_reads_root {a : Arena α} (ha : a.Orderly) : ∃ t, a.Reads a.root t := by
  obtain ⟨e, he, rfl⟩ := ha.exists_whole
  exact ⟨_, Expr.reads_root he⟩

/-- **Comparing the roots of orderly arenas is an equivalence**, whatever slots the nodes are in. -/
theorem sameAt_equivalence [Scalar.Coefficients α] :
    Equivalence fun a b : { a : Arena α // a.Orderly } => a.1.sameAt a.1.root b.1 b.1.root = .ok true where
  refl a := by
    obtain ⟨t, ht⟩ := a.2.exists_reads_root
    exact (a.2.sameAt_root_iff a.2 ht ht).mpr (.refl t)
  symm {a b} h := by
    obtain ⟨t, ht⟩ := a.2.exists_reads_root
    obtain ⟨u, hu⟩ := b.2.exists_reads_root
    exact (b.2.sameAt_root_iff a.2 hu ht).mpr ((a.2.sameAt_root_iff b.2 ht hu).mp h).symm
  trans {a b c} hab hbc := by
    obtain ⟨t, ht⟩ := a.2.exists_reads_root
    obtain ⟨u, hu⟩ := b.2.exists_reads_root
    obtain ⟨w, hw⟩ := c.2.exists_reads_root
    exact (a.2.sameAt_root_iff c.2 ht hw).mpr
      (((a.2.sameAt_root_iff b.2 ht hu).mp hab).trans ((b.2.sameAt_root_iff c.2 hu hw).mp hbc))

/-- **Comparison decides agreement.** Two orderly arenas are those of two expressions. Comparing two live nodes ends,
with the answer of the expressions, and this is whether the trees of the nodes agree. So comparing expressions, which is
comparing the roots, is an equivalence. -/
theorem Orderly.sameAt_exact {a b : Arena Double} (ha : a.Orderly) (hb : b.Orderly) :
    (∃ e f : Expr Double, e.Whole ∧ e.arena = a ∧ f.Whole ∧ f.arena = b ∧
      (∀ i j, a.IsLive i → b.IsLive j → ∃ t u r, a.Reads i t ∧ b.Reads j u ∧ a.sameAt i b j = .ok r ∧
        e.sameAt i f j = .ok r ∧ (r = true ↔ t.Agree u)) ∧
      a.sameAt a.root b b.root = .ok (e.same f)) ∧
    Equivalence fun a b : { a : Arena Double // a.Orderly } => a.1.sameAt a.1.root b.1 b.1.root = .ok true := by
  obtain ⟨e, he, rfl⟩ := ha.exists_whole
  obtain ⟨f, hf, rfl⟩ := hb.exists_whole
  exact ⟨⟨e, f, he, rfl, hf, rfl, fun i j => Expr.sameAt_arena he hf, Expr.same_arena he hf⟩, sameAt_equivalence⟩

/-- The opposite of `y`, which in one arena was negated twice before: other slots, and one of them free. -/
theorem sameAt_exact_negate :
    let a : Arena Double := ⟨#[some ⟨.var "y", some ⟨2⟩⟩, none, some ⟨.negate ⟨0⟩, none⟩], [⟨1⟩], ⟨2⟩⟩
    let b : Arena Double := ⟨#[some ⟨.var "y", some ⟨1⟩⟩, some ⟨.negate ⟨0⟩, none⟩], [], ⟨1⟩⟩
    a.Orderly ∧ b.Orderly ∧ a.sameAt a.root b b.root = .ok true ∧
    (∃ e f : Expr Double, e.Whole ∧ e.arena = a ∧ f.Whole ∧ f.arena = b ∧
      (∀ i j, a.IsLive i → b.IsLive j → ∃ t u r, a.Reads i t ∧ b.Reads j u ∧ a.sameAt i b j = .ok r ∧
        e.sameAt i f j = .ok r ∧ (r = true ↔ t.Agree u)) ∧
      a.sameAt a.root b b.root = .ok (e.same f)) ∧
    Equivalence fun a b : { a : Arena Double // a.Orderly } => a.1.sameAt a.1.root b.1 b.1.root = .ok true := by
  intro a b
  have hy : IsReached (⟨#[some ⟨.var "y", none⟩], [], ⟨0⟩⟩ : Arena Double) := .start (.var rfl)
  have hb : IsReached b := .next (o := .negate) nofun hy ⟨_, _, rfl, .inl rfl⟩
  have htwice : IsReached (⟨#[some ⟨.var "y", some ⟨1⟩⟩, some ⟨.negate ⟨0⟩, some ⟨2⟩⟩,
      some ⟨.negate ⟨1⟩, none⟩], [], ⟨2⟩⟩ : Arena Double) :=
    .next (o := .negate) nofun hb ⟨_, _, rfl, .inl rfl⟩
  have ha : IsReached a := .next (o := .collapse ⟨0⟩) nofun htwice ⟨_, _, rfl, .inl rfl⟩
  have ha := orderly_of_reached ha
  have hb := orderly_of_reached hb
  exact ⟨ha, hb, rfl, ha.sameAt_exact hb⟩

end Arena

end SignalFlow
