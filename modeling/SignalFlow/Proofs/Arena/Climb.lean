import SignalFlow.Proofs.Arena.Settle
import SignalFlow.Proofs.Arena.Surgery
import SignalFlow.Proofs.Reader.Factors

/-!
# Looking up a call

On an arena, a call is looked up from its variable: the nodes above are climbed, and the factors of the product that is
found there are listed. In a tree, this is what the frames around the variable say. Climbing goes through the frames as
long as they satisfy a property (`climb_eq`), the factors are those of the tree (`factorsFrom_eq`), and so the list and
the argument that the arena answers are those of the place (`callOf_eq`).
-/

namespace SignalFlow

open Arena SignalFlow.Tree Reader

variable {α : Type}

namespace Tree

theorem name?_shape (t : Tree Id α) : t.shape.name? = t.name? := by
  cases t <;> rfl

end Tree

namespace Frame

theorem isNegate_node (f : Frame Id α) (k : Id) : (f.node k).isNegate = f.isNegate := by
  cases f <;> rfl

theorem isProduct_node (f : Frame Id α) (k : Id) : (f.node k).isProduct = f.isProduct := by
  cases f <;> rfl

theorem length_le_labels (fs : List (Frame Id α)) : fs.length ≤ (fs.flatMap Frame.labels).length := by
  induction fs with
  | nil => exact Nat.le_refl 0
  | cons f fs ih =>
    rw [List.flatMap_cons, List.length_append, Frame.labels, List.length_cons, List.length_cons]
    omega

end Frame

namespace Arena

variable {l : Layout α} {a : Arena α} {s : Slots} {t u : Tree Id α}

theorem get_eq (h : Shows a l) (ht : l.Sits t) : a.get t.label = .ok t.shape := by
  rw [Arena.get, h.node_tree ht]

/-! ## Variables -/

theorem firstNamed_eq (h : Shows a l) (name : String) {ts : List (Tree Id α)} (hts : ∀ t ∈ ts, l.Sits t) :
    a.firstNamed name (ts.map label) = .ok ((ts.find? fun t => t.name? = some name).map label) := by
  induction ts with
  | nil => rfl
  | cons t ts ih =>
    obtain ⟨ht, hts⟩ := List.forall_mem_cons.mp hts
    rw [List.map_cons, firstNamed, get_eq h ht, List.find?_cons]
    change (if t.shape.name? = some name then _ else _) = _
    rw [name?_shape]
    split
    case isTrue hname => rw [decide_eq_true hname]; rfl
    case isFalse hname => rw [decide_eq_false hname]; exact ih hts

/-- **The first variable of a name** is the one that is met first in the tree. -/
theorem findVariable_eq (h : Shows a l) (name : String) (ht : l.Sits t) (hroot : l.root = t.label) :
    a.findVariable name = .ok ((t.preorder.find? fun t => t.name? = some name).map label) := by
  rw [findVariable, h.root, hroot, preorderFrom_eq h ht]
  exact firstNamed_eq h name fun u hu => ht.below hu

/-! ## Climbing -/

section Climb

variable {fs : List (Frame Id α)} {before after : List (Tree Id α)} {p : Node α → Bool} {q : Frame Id α → Bool}

theorem climbLoop_eq (hpq : ∀ f k, p (Frame.node f k) = q f) (h : Shows a (Hole.layout ⟨fs, before, after⟩ s t))
    {fuel : Nat} (hfuel : fs.length < fuel) : a.climbLoop p fuel t.label = .ok (plug (fs.takeWhile q) t).label := by
  induction fs generalizing t fuel with
  | nil =>
    obtain ⟨fuel, rfl⟩ := Nat.exists_eq_add_one_of_ne_zero (Nat.ne_zero_of_lt hfuel)
    rw [climbLoop, h.parent? (Hole.mem_layout _ s t)]
    rfl
  | cons f fs ih =>
    obtain ⟨fuel, rfl⟩ := Nat.exists_eq_add_one_of_ne_zero (Nat.ne_zero_of_lt hfuel)
    have hnode := h.node? (Hole.mem_layout_push ⟨fs, before, after⟩ f s t)
    rw [climbLoop, h.parent? (Hole.mem_layout _ s t)]
    change (a.get f.label >>= fun n => if p n then a.climbLoop p fuel f.label else pure t.label) = _
    rw [Arena.get, hnode]
    change (if p (f.node t.label) then _ else _) = _
    rw [hpq]
    split
    case isTrue hq =>
      have hfill : Shows a (Hole.layout ⟨fs, before, after⟩ s (f.fill t)) :=
        Hole.layout_push ⟨fs, before, after⟩ f s t ▸ h
      rw [List.takeWhile_cons_of_pos hq, plug, ← ih hfill (Nat.lt_of_succ_lt_succ hfuel), f.label_fill]
    case isFalse hq =>
      rw [List.takeWhile_cons_of_neg hq]
      rfl

theorem sits_plug (fs : List (Frame Id α)) (before after : List (Tree Id α)) (s : Slots) (t : Tree Id α) :
    (Hole.layout ⟨fs, before, after⟩ s t).Sits (plug fs t) := by
  rw [Hole.layout_plug]
  exact Hole.sits _ s _

/-- **Climbing through frames.** -/
theorem climb_eq (hpq : ∀ f k, p (Frame.node f k) = q f) (h : Shows a (Hole.layout ⟨fs, before, after⟩ s t)) :
    a.climb p t.label = .ok (plug (fs.takeWhile q) t).label := by
  refine climbLoop_eq hpq h ?_
  have hsize := h.size_lt_limit (sits_plug fs before after s t)
  have hframes := Frame.length_le_labels fs
  rw [size_plug] at hsize
  omega

end Climb

/-! ## Factors -/

/-- A node that is no product is a factor. -/
theorem factorsLoop_factor {i : Id} {n : Node α} (hi : a.get i = .ok n) (hn : n.isProduct = false) (fuel : Nat)
    (stack : List Id) : a.factorsLoop (fuel + 1) (i :: stack) = (a.factorsLoop fuel stack).map (i :: ·) := by
  have hothers : (a.factorsLoop fuel stack >>= fun others => pure (i :: others)) =
      (a.factorsLoop fuel stack).map (i :: ·) := by
    cases a.factorsLoop fuel stack <;> rfl
  rw [factorsLoop, hi, ← hothers]
  cases n with
  | binary op x y => cases op <;> first | rfl | cases hn
  | _ => rfl

theorem isProduct_shape (t : Tree Id α) : t.shape.isProduct = (t.op? == some .mul) := by
  cases t <;> rfl

theorem factorsLoop_eq (h : Shows a l) (fuel : Nat) (ts : List (Tree Id α)) (hts : ∀ t ∈ ts, l.Sits t)
    (hfuel : (ts.map size).sum ≤ fuel) : a.factorsLoop fuel (ts.map label) = .ok ((ts.flatMap factors).map label) := by
  induction fuel, ts, hfuel using stackInduction size_pos with
  | nil fuel => cases fuel <;> rfl
  | cons fuel t ts _ ih =>
    obtain ⟨ht, hrest⟩ := List.forall_mem_cons.mp hts
    by_cases hop : t.op? = some .mul
    · obtain ⟨k, x, y, rfl⟩ : ∃ k x y, t = .binary k .mul x y := by
        cases t with
        | binary k op x y =>
          obtain rfl : op = .mul := Option.some.inj hop
          exact ⟨k, x, y, rfl⟩
        | _ => cases hop
      have hpush : [x, y].Perm (Tree.binary k .mul x y).children := .refl _
      rw [List.map_cons, factorsLoop, get_eq h ht]
      refine (ih ([x, y] ++ ts) (size_push hpush ts) (sits_push hpush hts)).trans ?_
      simp only [List.cons_append, List.nil_append, List.flatMap_cons, factors, List.append_assoc]
    · have hfactor : t.shape.isProduct = false := by
        rw [isProduct_shape]
        exact beq_false_of_ne hop
      have hothers := ih ts (Nat.lt_add_of_pos_left t.size_pos) hrest
      rw [List.map_cons, factorsLoop_factor (get_eq h ht) hfactor, hothers, List.flatMap_cons, factors_of_op hop]
      rfl

/-- **The factors that are listed** are those of the tree. -/
theorem factorsFrom_eq (h : Shows a l) (ht : l.Sits t) : a.factorsFrom t.label = .ok (t.factors.map label) := by
  have hfuel := h.size_lt_limit ht
  have hloop := factorsLoop_eq h a.limit [t] (by simpa using ht) (by simp; omega)
  rwa [List.map_singleton, List.flatMap_singleton] at hloop

/-! ## Calls -/

/-- The place of an element behind others. -/
theorem idxOf?_middle {β : Type} [DecidableEq β] {xs : List β} {x : β} (h : x ∉ xs) (ys : List β) :
    (xs ++ x :: ys).idxOf? x = some xs.length := by
  have hxs : xs.findIdx? (· == x) = none := List.idxOf?_eq_none_iff.mpr h
  change (xs ++ x :: ys).findIdx? (· == x) = _
  rw [List.findIdx?_append, hxs, List.findIdx?_cons, if_pos (beq_self_eq_true x), Option.map_some, Option.none_or,
    Nat.zero_add]

theorem argumentAt_eq (h : Shows a l) (ht : l.Sits t) (holder : Id) :
    a.argumentAt (some t.label) = .ok ((Place.before holder t).argument.map fun r => (r.2.1, r.2.2.label)) := by
  rw [argumentAt, get_eq h ht]
  cases t with
  | list k items => rcases items with _ | ⟨u, _ | ⟨v, rest⟩⟩ <;> rfl
  | _ => rfl

theorem op?_signs {fs : List (Frame Id α)} (ht : t.op? ≠ some .mul) :
    (plug (fs.takeWhile Frame.isNegate) t).op? ≠ some .mul := by
  induction fs generalizing t with
  | nil => exact ht
  | cons f fs ih =>
    cases f with
    | negate k => exact ih (t := .negate k t) nofun
    | _ => exact ht

section Chain

variable {i p chain : Id} {n : Node α} {xs ys : List Id}

theorem argumentOf_of_not_product (hp : a.parent? i = some p) (hn : a.get p = .ok n) (hproduct : n.isProduct = false) :
    a.argumentOf i = .ok (.error .notFollowed) := by
  rw [argumentOf, hp]
  change (a.get p >>= fun n => _) = _
  rw [hn]
  exact if_neg (Bool.eq_false_iff.mp hproduct)

/-- A factor of a product takes its list from the factor that follows. -/
theorem argumentOf_of_chain (hp : a.parent? i = some p) (hn : a.get p = .ok n) (hproduct : n.isProduct = true)
    (hchain : a.climb Node.isProduct p = .ok chain) (hfactors : a.factorsFrom chain = .ok (xs ++ i :: ys))
    (hi : i ∉ xs) : a.argumentOf i = a.argumentAt ys[0]? := by
  have hnext : (xs ++ i :: ys)[xs.length + 1]? = ys[0]? := by
    rw [List.getElem?_append_right (Nat.le_add_right _ 1), Nat.add_sub_cancel_left, List.getElem?_cons_succ]
  simp only [argumentOf, hp, hn, hproduct, hchain, hfactors, idxOf?_middle hi, hnext, bind, Except.bind, if_true]

end Chain

section Calls

variable {fs : List (Frame Id α)} {before after : List (Tree Id α)}

/-- **The list that a factor takes** is in the factor that its place names. -/
theorem argumentOf_eq (h : Shows a (Hole.layout ⟨fs, before, after⟩ s t)) (ht : t.op? ≠ some .mul)
    (hlean : ProductsLeft (plug fs t)) :
    a.argumentOf t.label = .ok ((chainPlace fs).argument.map fun r => (r.2.1, r.2.2.label)) := by
  cases fs with
  | nil =>
    rw [argumentOf, h.parent? (Hole.mem_layout _ s t)]
    rfl
  | cons f fs =>
    have hparent : a.parent? t.label = some f.label := h.parent? (Hole.mem_layout _ s t)
    have hget : a.get f.label = .ok (f.node t.label) := by
      rw [Arena.get, h.node? (Hole.mem_layout_push ⟨fs, before, after⟩ f s t)]
    cases hf : f.isProduct with
    | false =>
      have halone : chainPlace (f :: fs) = .alone := chainPlace_eq_alone.mpr hf
      rw [argumentOf_of_not_product hparent hget ((f.isProduct_node _).trans hf), halone]
      rfl
    | true =>
      let chain := plug ((f :: fs).takeWhile Frame.isProduct) t
      have hsits : (Hole.layout ⟨f :: fs, before, after⟩ s t).Sits chain := by
        have hsplit := Hole.layout_append ((f :: fs).takeWhile Frame.isProduct) ((f :: fs).dropWhile Frame.isProduct)
          before after s t
        rw [List.takeWhile_append_dropWhile] at hsplit
        exact hsplit ▸ Hole.sits _ s chain
      have hclimb : a.climb Node.isProduct f.label = .ok chain.label := by
        have hfill := Hole.layout_push ⟨fs, before, after⟩ f s t ▸ h
        have hclimb := climb_eq Frame.isProduct_node hfill
        rwa [f.label_fill, ← plug, ← List.takeWhile_cons_of_pos hf] at hclimb
      have hfactors : chain.factors = leaders (f :: fs) ++ t :: followers (f :: fs) := by
        rw [factors_chain, factors_of_op ht, List.singleton_append]
      have hlabels : chain.factors.map label =
          (leaders (f :: fs)).map label ++ t.label :: (followers (f :: fs)).map label := by
        rw [hfactors, List.map_append, List.map_cons]
      have hleaders : t.label ∉ (leaders (f :: fs)).map label := by
        have hnodup := (chain.factors_sublist.map label).nodup (h.whole.nodup_labels hsits)
        rw [hlabels] at hnodup
        exact fun hmem => (List.nodup_append.mp hnodup).2.2 _ hmem _ List.mem_cons_self rfl
      rw [argumentOf_of_chain hparent hget ((f.isProduct_node _).trans hf) hclimb
        ((factorsFrom_eq h hsits).trans (congrArg _ hlabels)) hleaders]
      cases hplace : chainPlace (f :: fs) with
      | alone =>
        rw [chainPlace_eq_alone, List.head?_cons, Option.any_some, hf] at hplace
        cases hplace
      | last =>
        rw [followers_of_last hplace]
        rfl
      | before holder next =>
        obtain ⟨rest, hrest⟩ := followers_of_before hplace hlean
        have hnext : next ∈ chain.factors := by
          rw [hfactors, hrest]
          simp
        rw [hrest]
        exact argumentAt_eq h (hsits.below (chain.factors_sublist.subset hnext)) holder

/-- **The list that a call takes** is in the factor that its place names. -/
theorem callOf_eq (h : Shows a (Hole.layout ⟨fs, before, after⟩ s t)) (ht : t.op? ≠ some .mul)
    (hlean : ProductsLeft (plug fs t)) :
    a.callOf t.label = .ok ((signPlace fs).argument.map fun r => (r.2.1, r.2.2.label)) := by
  let factor := plug (fs.takeWhile Frame.isNegate) t
  have hsplit := Hole.layout_append (fs.takeWhile Frame.isNegate) (fs.dropWhile Frame.isNegate) before after s t
  have hplug := plug_append (fs.takeWhile Frame.isNegate) (fs.dropWhile Frame.isNegate) t
  rw [List.takeWhile_append_dropWhile] at hsplit hplug
  rw [callOf, climb_eq Frame.isNegate_node h, signPlace_eq]
  exact argumentOf_eq (t := factor) (hsplit ▸ h) (op?_signs ht) (hplug ▸ hlean)

end Calls

end Arena

end SignalFlow
