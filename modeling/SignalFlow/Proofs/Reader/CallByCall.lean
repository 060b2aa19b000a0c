import Mathlib.Logic.Relation
import SignalFlow.Proofs.Expr.Hole
import SignalFlow.Proofs.Reader.Bare

/-!
# Calls one by one

`expand` goes through a tree once. The same calls can be expanded one after the other, each time the first that there is
in the whole tree. A call is then seen from the inside: the frames around `exp` say where it stands in a product
(`signPlace`), and the list that it takes is in one of them. `CallStep` expands one call, and `arrivesAt` says that
such steps lead from a tree to what `expand` makes of it, or to the call that it refuses.
-/

namespace SignalFlow.Reader

open SignalFlow.Tree

variable {ι α : Type}

/-! ## Places in frames -/

/-- The place of a tree in frames, when no sign is around it. -/
def chainPlace : List (Frame Id α) → Place α
  | .left k .mul b :: _ => .before k b
  | .right _ .mul _ :: fs => (chainPlace fs).ofRight
  | _ => .alone

/-- The place of a factor in frames; the signs around it belong to the factor. -/
def signPlace : List (Frame Id α) → Place α
  | .negate _ :: fs => signPlace fs
  | fs => chainPlace fs

/-- **The place of a tree in frames.** A product under a sign is no factor. -/
def placeIn (fs : List (Frame Id α)) : Tree Id α → Place α
  | .binary _ _ _ _ => chainPlace fs
  | _ => signPlace fs

/-- The frames without the product that holds the factor that follows. -/
def dropHolder : List (Frame Id α) → List (Frame Id α)
  | [] => []
  | .left _ _ _ :: fs => fs
  | f :: fs => f :: dropHolder fs

/-- What a call gets in a place: the product that holds its list, the list, and the argument. -/
def Place.argument : Place α → Except CallFault (Id × Id × Tree Id α)
  | .alone => .error .notFollowed
  | .last => .error .missingArguments
  | .before holder (.list k [argument]) => .ok (holder, k, argument)
  | .before _ (.list _ _) => .error .notOneArgument
  | .before _ _ => .error .notFollowed

section Places

variable {fs : List (Frame Id α)} {l : Id} {op : BinaryOp} {t a b : Tree Id α}

theorem placeIn_negate (fs : List (Frame Id α)) (l : Id) (u : Tree Id α) :
    placeIn (.negate l :: fs) u = (placeIn fs (.negate l u)).underSign u := by
  cases u <;> rfl

theorem placeIn_left (fs : List (Frame Id α)) (l : Id) (a b : Tree Id α) :
    placeIn (.left l .mul b :: fs) a = .before l b := by
  cases a <;> rfl

theorem placeIn_right (fs : List (Frame Id α)) (l : Id) (a b : Tree Id α) :
    placeIn (.right l .mul a :: fs) b = (chainPlace fs).ofRight := by
  cases b <;> rfl

/-- An operand of an operator other than a product is no factor. -/
theorem placeIn_operand (fs : List (Frame Id α)) (l : Id) (hop : op ≠ .mul) (a b : Tree Id α) :
    placeIn (.left l op b :: fs) a = .alone ∧ placeIn (.right l op a :: fs) b = .alone := by
  cases op <;> first | exact absurd rfl hop | (cases a <;> cases b <;> exact ⟨rfl, rfl⟩)

theorem placeIn_item (fs : List (Frame Id α)) (l : Id) (before after : List (Tree Id α)) (t : Tree Id α) :
    placeIn (.item l before after :: fs) t = .alone := by
  cases t <;> rfl

theorem exists_before_of_ofRight {p : Place α} (h : ∃ holder next, p.ofRight = .before holder next) :
    ∃ holder next, p = .before holder next := by
  obtain ⟨holder, next, hp⟩ := h
  cases p with
  | before holder next => exact ⟨holder, next, rfl⟩
  | _ => cases hp

end Places

/-! ## Steps -/

/-- No variable of a tree is named `exp`. -/
def CallFree (t : Tree ι α) : Prop := t.Everywhere IsNoCall

theorem callFree_var {l : ι} {name : String} : CallFree (Tree.var l name : Tree ι α) ↔ name ≠ expName :=
  everywhere_var.trans (not_congr (Option.some_inj))

theorem callFree_negate {l : ι} {t : Tree ι α} : CallFree (.negate l t) ↔ CallFree t :=
  everywhere_negate.trans (and_iff_right (Option.some_ne_none _).symm)

theorem callFree_binary {l : ι} {op : BinaryOp} {a b : Tree ι α} :
    CallFree (.binary l op a b) ↔ CallFree a ∧ CallFree b :=
  everywhere_binary.trans (and_iff_right (Option.some_ne_none _).symm)

theorem callFree_list {l : ι} {items : List (Tree ι α)} : CallFree (.list l items) ↔ ∀ t ∈ items, CallFree t :=
  everywhere_list.trans (and_iff_right (Option.some_ne_none _).symm)

theorem callFree_base (l : ι) : CallFree (Tree.var l baseName : Tree ι α) := callFree_var.mpr (by decide)

/-- **No call stands before a place**: the operands to its left are free of calls. -/
def Passed (fs : List (Frame Id α)) : Prop := ∀ f ∈ fs, ∀ t ∈ f.before, CallFree t

/-- The power of a call, in the next two slots. -/
def callPower (s : Slots) (argument : Tree Id α) : Tree Id α :=
  .binary s.take.2.take.1 .pow (.var s.take.1 baseName) argument

/-- **The first call is expanded**: the power takes its place, and what is left of the product that held the list takes
the place of this product. -/
inductive CallStep : Tree Id α × Slots → Tree Id α × Slots → Prop where
  | call {fs : List (Frame Id α)} {l holder k : Id} {argument : Tree Id α} {s : Slots} : Passed fs →
      signPlace fs = .before holder (.list k [argument]) →
      CallStep (plug fs (.var l expName), s)
        (plug (dropHolder fs) (callPower s argument), s.take.2.take.2.release [l, holder, k])

/-- Any number of calls, one after the other. -/
abbrev CallSteps : Tree Id α × Slots → Tree Id α × Slots → Prop := Relation.ReflTransGen CallStep

/-- **The first call of a tree is refused.** -/
def Refuses (T : Tree Id α) (f : CallFault) : Prop :=
  ∃ fs l, T = plug fs (.var l expName) ∧ Passed fs ∧ (signPlace fs).argument = .error f

/-- **The calls of a tree in frames**, one after the other, lead to what `expand` makes of it. -/
def Arrives (fs : List (Frame Id α)) (t : Tree Id α) (s : Slots) : Except CallFault (Expanded (Tree Id α)) → Prop
  | .ok r => CallFree r.result ∧ (r.tookNext = true → ∃ holder next, placeIn fs t = .before holder next) ∧
      CallSteps (plug fs t, s) (plug (if r.tookNext then dropHolder fs else fs) r.result, r.slots)
  | .error f => ∃ T s', CallSteps (plug fs t, s) (T, s') ∧ Refuses T f

section Steps

variable {fs : List (Frame Id α)} {l : Id} {op : BinaryOp} {t u a b : Tree Id α} {s : Slots}

theorem passed_cons {f : Frame Id α} : Passed (f :: fs) ↔ (∀ t ∈ f.before, CallFree t) ∧ Passed fs :=
  List.forall_mem_cons

theorem Arrives.leaf (ht : CallFree t) : Arrives fs t s (.ok ⟨t, false, s⟩) := ⟨ht, nofun, .refl⟩

/-- Where a tree is no factor, no list is used up. -/
theorem Arrives.alone {r : Expanded (Tree Id α)} (h : Arrives fs t s (.ok r)) (halone : placeIn fs t = .alone) :
    r.tookNext = false ∧ CallFree r.result ∧ CallSteps (plug fs t, s) (plug fs r.result, r.slots) := by
  obtain ⟨hfree, htook, hsteps⟩ := h
  cases hr : r.tookNext with
  | true =>
    obtain ⟨holder, next, hbefore⟩ := htook hr
    cases halone.symm.trans hbefore
  | false =>
    rw [hr] at hsteps
    exact ⟨rfl, hfree, hsteps⟩

/-- The frame of a place without calls before it. -/
theorem Passed.push_left (h : Passed fs) (l : Id) (op : BinaryOp) (b : Tree Id α) : Passed (.left l op b :: fs) :=
  passed_cons.mpr ⟨nofun, h⟩

theorem Passed.push_right (h : Passed fs) (l : Id) (op : BinaryOp) (ha : CallFree a) :
    Passed (.right l op a :: fs) :=
  passed_cons.mpr ⟨List.forall_mem_singleton.mpr ha, h⟩

theorem Passed.dropHolder (h : Passed fs) : Passed (dropHolder fs) := by
  induction fs with
  | nil => exact h
  | cons f fs ih =>
    obtain ⟨hf, hfs⟩ := passed_cons.mp h
    cases f with
    | left => exact hfs
    | _ => exact passed_cons.mpr ⟨hf, ih hfs⟩

end Steps

/-! ## All calls -/

/-- **Expanding a tree in a place is done call by call**, whatever frames make this its place. -/
def ArrivesAt (t : Tree Id α) (p : Place α) : Prop :=
  ∀ fs s, Passed fs → placeIn fs t = p → Arrives fs t s (expand t p s)

section

variable {l : Id} {op : BinaryOp} {t u a b : Tree Id α} {p : Place α} {items : List (Tree Id α)}

theorem arrivesAt_leaf (ht : CallFree t) (h : ∀ s, expand t p s = .ok ⟨t, false, s⟩) : ArrivesAt t p := by
  intro fs s _ _
  rw [h]
  exact Arrives.leaf ht

theorem arrivesAt_var (name : String)
    (h : ∀ holder k argument, p = .before holder (.list k [argument]) → ArrivesAt argument .alone) :
    ArrivesAt (.var l name) p := by
  intro fs s hfs hplace
  rw [expand.eq_def]
  dsimp only
  split
  case isFalse hname => exact Arrives.leaf (callFree_var.mpr hname)
  case isTrue hname =>
    subst hname
    change signPlace fs = p at hplace
    have hrefuses : ∀ {f}, p.argument = .error f → Arrives fs (.var l expName) s (.error f) := fun hf =>
      ⟨_, s, .refl, fs, l, rfl, hfs, hplace ▸ hf⟩
    split
    case h_1 => exact hrefuses rfl
    case h_2 => exact hrefuses rfl
    case h_3 holder k argument =>
      let s' := s.take.2.take.2.release [l, holder, k]
      have hstep : CallStep _ _ := .call (l := l) (s := s) hfs hplace
      have hpow : BinaryOp.pow ≠ .mul := by decide
      have halone : placeIn _ argument = .alone :=
        (placeIn_operand (dropHolder fs) s.take.2.take.1 hpow (.var s.take.1 baseName) argument).2
      have hargument := h holder k argument rfl _ s' (hfs.dropHolder.push_right _ _ (callFree_base _)) halone
      change Arrives fs (.var l expName) s (expand argument .alone s' >>= _)
      cases harg : expand argument .alone s' with
      | error f =>
        rw [harg] at hargument
        obtain ⟨T, s'', hsteps, hf⟩ := hargument
        exact ⟨T, s'', hsteps.head hstep, hf⟩
      | ok arg =>
        rw [harg] at hargument
        obtain ⟨-, hfree, hsteps⟩ := hargument.alone halone
        refine ⟨callFree_binary.mpr ⟨callFree_base _, hfree⟩, fun _ => ⟨holder, _, hplace⟩, ?_⟩
        exact hsteps.head hstep
    case h_4 holder k items hitems =>
      refine hrefuses ?_
      rcases items with _ | ⟨t, _ | ⟨u, rest⟩⟩
      · rfl
      · exact absurd rfl (hitems t)
      · rfl
    case h_5 holder b _ hlist =>
      refine hrefuses ?_
      cases b with
      | list k items => exact absurd rfl (hlist k items)
      | _ => rfl

theorem arrivesAt_negate (h : ArrivesAt u (p.underSign u)) : ArrivesAt (.negate l u) p := by
  intro fs s hfs hplace
  have hunder : placeIn (.negate l :: fs) u = p.underSign u := by rw [placeIn_negate, hplace]
  have hinner := h (.negate l :: fs) s (passed_cons.mpr ⟨nofun, hfs⟩) hunder
  rw [expand.eq_def]
  change Arrives fs (.negate l u) s (expand u (p.underSign u) s >>= _)
  cases hu : expand u (p.underSign u) s with
  | error f =>
    rw [hu] at hinner
    exact hinner
  | ok r =>
    rw [hu] at hinner
    obtain ⟨hfree, htook, hsteps⟩ := hinner
    refine ⟨callFree_negate.mpr hfree, fun hr => ?_, ?_⟩
    · obtain ⟨holder, next, hbefore⟩ := htook hr
      rw [hunder] at hbefore
      rcases p.underSign_eq u with hp | hp
      · exact ⟨holder, next, hplace.trans (hp.symm.trans hbefore)⟩
      · cases hp.symm.trans hbefore
    · change CallSteps _ (plug (if r.tookNext then dropHolder fs else fs) (.negate l r.result), r.slots)
      split at hsteps
      case isTrue htook => rwa [if_pos htook]
      case isFalse htook => rwa [if_neg htook]

theorem arrivesAt_product (ha : ArrivesAt a (.before l b)) (hb : ArrivesAt b p.ofRight) :
    ArrivesAt (.binary l .mul a b) p := by
  intro fs s hfs hplace
  change chainPlace fs = p at hplace
  have hleft := ha (.left l .mul b :: fs) s (hfs.push_left l .mul b) (placeIn_left fs l a b)
  rw [expand.eq_def]
  change Arrives fs (.binary l .mul a b) s (expand a (.before l b) s >>= _)
  cases hexpa : expand a (.before l b) s with
  | error f =>
    rw [hexpa] at hleft
    exact hleft
  | ok left =>
    rw [hexpa] at hleft
    obtain ⟨hfree, -, hsteps⟩ := hleft
    change Arrives fs (.binary l .mul a b) s (if left.tookNext = true then _ else _)
    split
    case isTrue htook =>
      rw [if_pos htook] at hsteps
      exact ⟨hfree, nofun, hsteps⟩
    case isFalse htook =>
      rw [if_neg htook] at hsteps
      have hunder : placeIn (.right l .mul left.result :: fs) b = p.ofRight := by rw [placeIn_right, hplace]
      have hright := hb (.right l .mul left.result :: fs) left.slots (hfs.push_right l .mul hfree) hunder
      change Arrives fs (.binary l .mul a b) s (expand b p.ofRight left.slots >>= _)
      cases hexpb : expand b p.ofRight left.slots with
      | error f =>
        rw [hexpb] at hright
        obtain ⟨T, s', hrest, hf⟩ := hright
        exact ⟨T, s', hsteps.trans hrest, hf⟩
      | ok right =>
        rw [hexpb] at hright
        obtain ⟨hrightFree, hnext, hrest⟩ := hright
        refine ⟨callFree_binary.mpr ⟨hfree, hrightFree⟩, fun hr => ?_, hsteps.trans ?_⟩
        · obtain ⟨holder, next, hp⟩ := exists_before_of_ofRight (hunder ▸ hnext hr)
          exact ⟨holder, next, hplace.trans hp⟩
        · change CallSteps _ (plug (if right.tookNext then dropHolder fs else fs)
            (.binary l .mul left.result right.result), right.slots)
          split at hrest
          case isTrue hr => rwa [if_pos hr]
          case isFalse hr => rwa [if_neg hr]

theorem arrivesAt_binary (hop : op ≠ .mul) (ha : ArrivesAt a .alone) (hb : ArrivesAt b .alone) :
    ArrivesAt (.binary l op a b) p := by
  intro fs s hfs _
  have hleftAlone : placeIn (.left l op b :: fs) a = .alone := (placeIn_operand fs l hop a b).1
  have hleft := ha (.left l op b :: fs) s (hfs.push_left l op b) hleftAlone
  rw [expand_binary l hop]
  change Arrives fs (.binary l op a b) s (expand a .alone s >>= _)
  cases hexpa : expand a .alone s with
  | error f =>
    rw [hexpa] at hleft
    exact hleft
  | ok left =>
    rw [hexpa] at hleft
    obtain ⟨-, hfree, hsteps⟩ := hleft.alone hleftAlone
    have hrightAlone : placeIn (.right l op left.result :: fs) b = .alone :=
      (placeIn_operand fs l hop left.result b).2
    have hright := hb (.right l op left.result :: fs) left.slots (hfs.push_right l op hfree) hrightAlone
    change Arrives fs (.binary l op a b) s (expand b .alone left.slots >>= _)
    cases hexpb : expand b .alone left.slots with
    | error f =>
      rw [hexpb] at hright
      obtain ⟨T, s', hrest, hf⟩ := hright
      exact ⟨T, s', hsteps.trans hrest, hf⟩
    | ok right =>
      rw [hexpb] at hright
      obtain ⟨-, hrightFree, hrest⟩ := hright.alone hrightAlone
      exact ⟨callFree_binary.mpr ⟨hfree, hrightFree⟩, nofun, hsteps.trans hrest⟩

/-- **The calls of the items of a list**, after items without calls. -/
def ArrivesItems (fs : List (Frame Id α)) (l : Id) (before items : List (Tree Id α)) (s : Slots) :
    Except CallFault (Expanded (List (Tree Id α))) → Prop
  | .ok r => (∀ t ∈ r.result, CallFree t) ∧ CallSteps (plug fs (.list l (before ++ items)), s)
      (plug fs (.list l (before ++ r.result)), r.slots)
  | .error f => ∃ T s', CallSteps (plug fs (.list l (before ++ items)), s) (T, s') ∧ Refuses T f

theorem expandAll_arrives {fs : List (Frame Id α)} (hfs : Passed fs) (l : Id) (before : List (Tree Id α))
    (hbefore : ∀ t ∈ before, CallFree t) (h : ∀ t ∈ items, ArrivesAt t .alone) (s : Slots) :
    ArrivesItems fs l before items s (expandAll items s) := by
  induction items generalizing before s with
  | nil =>
    rw [expandAll]
    exact ⟨List.forall_mem_nil _, .refl⟩
  | cons t ts ih =>
    obtain ⟨ht, hts⟩ := List.forall_mem_cons.mp h
    have hplace := placeIn_item fs l before ts t
    have hfirst := ht (.item l before ts :: fs) s (passed_cons.mpr ⟨hbefore, hfs⟩) hplace
    rw [expandAll]
    cases hexpt : expand t .alone s with
    | error f =>
      rw [hexpt] at hfirst
      exact hfirst
    | ok first =>
      rw [hexpt] at hfirst
      obtain ⟨-, hfree, hsteps⟩ := hfirst.alone hplace
      have hsplit : ∀ us, before ++ first.result :: us = before ++ [first.result] ++ us := fun us => by simp
      have hrest := ih (before ++ [first.result])
        (List.forall_mem_append.mpr ⟨hbefore, List.forall_mem_singleton.mpr hfree⟩) hts first.slots
      change ArrivesItems fs l before (t :: ts) s (expandAll ts first.slots >>= fun others => _)
      cases hexpts : expandAll ts first.slots with
      | error f =>
        rw [hexpts] at hrest
        obtain ⟨T, s', hmore, hf⟩ := hrest
        rw [← hsplit] at hmore
        exact ⟨T, s', hsteps.trans hmore, hf⟩
      | ok others =>
        rw [hexpts] at hrest
        obtain ⟨hothers, hmore⟩ := hrest
        rw [← hsplit, ← hsplit] at hmore
        exact ⟨List.forall_mem_cons.mpr ⟨hfree, hothers⟩, hsteps.trans hmore⟩

theorem arrivesAt_list (h : ∀ t ∈ items, ArrivesAt t .alone) : ArrivesAt (.list l items) p := by
  intro fs s hfs _
  have hall := expandAll_arrives hfs l [] nofun h s
  rw [expand.eq_def]
  change Arrives fs (.list l items) s (expandAll items s >>= _)
  cases hexp : expandAll items s with
  | error f =>
    rw [hexp] at hall
    exact hall
  | ok r =>
    rw [hexp] at hall
    obtain ⟨hfree, hsteps⟩ := hall
    have htook := expandAll_tookNext hexp
    refine ⟨callFree_list.mpr hfree, fun hr => absurd (htook.symm.trans hr) Bool.false_ne_true, ?_⟩
    change CallSteps _ (plug (if r.tookNext then dropHolder fs else fs) (.list l r.result), r.slots)
    rwa [htook, if_neg Bool.false_ne_true]

end

/-- **Calls are expanded one by one**, wherever a tree stands. -/
theorem arrivesAt (t : Tree Id α) (p : Place α) : ArrivesAt t p := by
  induction hn : t.size + p.size using Nat.strong_induction_on generalizing t p with
  | _ n ih =>
    subst hn
    cases t with
    | literal l v => exact arrivesAt_leaf (everywhere_literal.mpr nofun) fun s => by rw [expand.eq_def]; rfl
    | infinity l => exact arrivesAt_leaf (everywhere_infinity.mpr nofun) fun s => by rw [expand.eq_def]; rfl
    | var l name =>
      refine arrivesAt_var name fun holder k argument hp => ih _ ?_ argument .alone rfl
      subst hp
      simp only [Tree.size, Tree.sizeAll, Place.size_alone, Place.size_before]
      omega
    | negate l u =>
      have hsize := p.size_underSign_le u
      exact arrivesAt_negate (ih _ (by simp only [Tree.size]; omega) u _ rfl)
    | binary l op a b =>
      by_cases hop : op = .mul
      · subst hop
        have hsize := p.size_ofRight
        exact arrivesAt_product (ih _ (by simp only [Tree.size, Place.size_before]; omega) a _ rfl)
          (ih _ (by simp only [Tree.size]; omega) b _ rfl)
      · exact arrivesAt_binary hop (ih _ (by simp only [Tree.size, Place.size_alone]; omega) a _ rfl)
          (ih _ (by simp only [Tree.size, Place.size_alone]; omega) b _ rfl)
    | list l items =>
      refine arrivesAt_list fun t ht => ih _ ?_ t .alone rfl
      have hsize := size_lt_of_mem_children (t := .list l items) ht
      rw [Place.size_alone]
      omega

/-! ## Whole trees -/

theorem placeIn_nil (t : Tree Id α) : placeIn [] t = .alone := by
  cases t <;> rfl

section

variable {t u : Tree Id α} {s s' : Slots}

/-- **Calls that are expanded one by one** are all expanded in the end. -/
theorem callSteps_of_expandCalls (h : expandCalls t s = .ok (u, s')) : CallFree u ∧ CallSteps (t, s) (u, s') := by
  obtain ⟨r, hr, h⟩ := bind_eq_ok h
  cases h
  have harrives := arrivesAt t .alone [] s nofun (placeIn_nil t)
  rw [hr] at harrives
  exact (harrives.alone (placeIn_nil t)).2

/-- **A call that is refused** is the first one after those before it are expanded. -/
theorem refuses_of_expandCalls {f : CallFault} (h : expandCalls t s = .error f) :
    ∃ T s', CallSteps (t, s) (T, s') ∧ Refuses T f := by
  have harrives := arrivesAt t .alone [] s nofun (placeIn_nil t)
  rw [expandCalls] at h
  cases hr : expand t .alone s with
  | error f' =>
    rw [hr] at h harrives
    cases h
    exact harrives
  | ok r =>
    rw [hr] at h
    cases h

end

end SignalFlow.Reader
