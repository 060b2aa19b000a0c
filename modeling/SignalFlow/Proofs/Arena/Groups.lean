import SignalFlow.Proofs.Arena.BottomUp
import SignalFlow.Proofs.Arena.Settle
import SignalFlow.Proofs.Rewrite.Graded

/-!
# Dissolving groups in an arena

A round that replaces lists of one item by their items is a bottom-up pass, and `ungroup` is this pass on the tree
(`bottomUp_ungroup`). Its rule finishes (`finishes_ungroup`): when the items of a list were dealt with, so is what is
left of the list. A second round therefore counts nothing, and the rounds end (`collapseLists_does`).
-/

namespace SignalFlow

open Arena SignalFlow.Tree Reader

variable {α : Type}

namespace Rewrite

/-- Replacing a list of one item by the item. -/
def ungroupChange : Change α := fun _ t s =>
  match t with
  | .list l [u] => some (u, s.release [l])
  | _ => none

/-- Replacing a list of one item by the item, in a bare tree. -/
def ungroupRule : Rule α := fun _ t =>
  match t with
  | .list _ [u] => some u
  | _ => none

theorem ungroupChange_goesBy : (ungroupChange : Change α).GoesBy ungroupRule := by
  intro b t s
  cases t with
  | list l items => rcases items with _ | ⟨u, _ | ⟨v, rest⟩⟩ <;> rfl
  | _ => rfl

/-- **One round is enough.** -/
theorem finishes_ungroup : (ungroupRule : Rule α).Finishes where
  still h _ := h
  result {b t u} hchildren h := by
    cases t with
    | list l items =>
      rcases items with _ | ⟨v, _ | ⟨w, rest⟩⟩
      · cases h
      · cases h
        exact hchildren u List.mem_cons_self
      · cases h
    | _ => cases h

mutual

/-- **The round that dissolves groups**, in terms of the free slots alone. It takes a node away for each group that it
counts. -/
theorem bottomUp_ungroup (b : Bool) (t : Tree Id α) (s : Slots) (n : Nat) :
    ∃ k, (ungroup t s.free).1.size + k = t.size ∧
      bottomUp ungroupChange b t s n = ((ungroup t s.free).1, { s with free := (ungroup t s.free).2 }, n + k) := by
  match t with
  | .literal l v | .var l name | .infinity l => exact ⟨0, rfl, rfl⟩
  | .negate l t =>
    obtain ⟨k, hsize, ht⟩ := bottomUp_ungroup false t s n
    refine ⟨k, ?_, ?_⟩
    · simp only [ungroup, Tree.size]
      omega
    · rw [bottomUp, ht]
      rfl
  | .binary l op x y =>
    obtain ⟨k, hsizex, hx⟩ := bottomUp_ungroup op.isAdditive x s n
    obtain ⟨m, hsizey, hy⟩ := bottomUp_ungroup op.isAdditive y { s with free := (ungroup x s.free).2 } (n + k)
    refine ⟨k + m, ?_, ?_⟩
    · simp only [ungroup, Tree.size]
      dsimp only at hsizey
      omega
    · rw [bottomUp, hx]
      dsimp only
      rw [hy, Nat.add_assoc]
      rfl
  | .list l items =>
    obtain ⟨k, hsize, hitems⟩ := bottomUpAll_ungroup items s n
    rw [bottomUp, hitems, ungroup]
    match hall : ungroupAll items s.free with
    | ([], free) | (_ :: _ :: _, free) =>
      rw [hall] at hsize
      refine ⟨k, ?_, rfl⟩
      simp only [Tree.size] at hsize ⊢
      omega
    | ([u], free) =>
      rw [hall] at hsize
      refine ⟨k + 1, ?_, rfl⟩
      simp only [Tree.size, Tree.sizeAll] at hsize ⊢
      omega

theorem bottomUpAll_ungroup (ts : List (Tree Id α)) (s : Slots) (n : Nat) :
    ∃ k, sizeAll (ungroupAll ts s.free).1 + k = sizeAll ts ∧ bottomUpAll ungroupChange ts s n =
      ((ungroupAll ts s.free).1, { s with free := (ungroupAll ts s.free).2 }, n + k) := by
  match ts with
  | [] => exact ⟨0, rfl, rfl⟩
  | t :: ts =>
    obtain ⟨k, hsizet, ht⟩ := bottomUp_ungroup false t s n
    obtain ⟨m, hsizets, hts⟩ := bottomUpAll_ungroup ts { s with free := (ungroup t s.free).2 } (n + k)
    refine ⟨k + m, ?_, ?_⟩
    · simp only [ungroupAll, Tree.sizeAll]
      dsimp only at hsizets
      omega
    · rw [bottomUpAll, ht]
      dsimp only
      rw [hts, Nat.add_assoc]
      rfl

end

/-- After a round there are no groups. -/
theorem bottomUp_ungrouped (t : Tree Id α) (s : Slots) (free : List Id) :
    bottomUp ungroupChange false (ungroup t free).1 s 0 = ((ungroup t free).1, s, 0) := by
  obtain ⟨k, -, hround⟩ := bottomUp_ungroup false t { s with free } 0
  have hterm := (bottomUp_bare ungroupChange_goesBy false t { s with free } 0).1
  rw [hround] at hterm
  have hstill : (ungroup t free).1.term.Everywhere (ungroupRule (α := α)).Still :=
    hterm ▸ still_rewriteUp finishes_ungroup false t.term
  have hcount := (bottomUp_bare ungroupChange_goesBy false (ungroup t free).1 s 0).2
  rw [rewriteUp_still hstill] at hcount
  exact (bottomUp_unchanged ungroupChange false _ s 0).2 hcount

end Rewrite

/-- An expression with its groups dissolved. -/
def Expr.dissolve (e : Expr α) : Expr α :=
  { e with
    tree := (ungroup e.tree e.slots.free).1
    slots := { e.slots with free := (ungroup e.tree e.slots.free).2 } }

namespace Arena

open Rewrite

theorem follows_ungroup : Follows (α := α) ungroupAt ungroupChange := by
  intro h t s
  have hnode : Does (Step.look fun a => .ok (a.node? t.label)) (h.layout s t) (.ok (some t.shape)) (h.layout s t) :=
    Does.look fun a ha => congrArg _ (ha.node_tree (h.sits s t))
  cases t with
  | list l items =>
    rcases items with _ | ⟨u, _ | ⟨v, rest⟩⟩
    · exact hnode.bind (Does.pure false)
    · exact hnode.bind ((collapse_does h (.item l [] []) s u).bind (Does.pure true))
    · exact hnode.bind (Does.pure false)
  | _ => exact hnode.bind (Does.pure false)

/-- A round after the groups were dissolved is the last one. -/
theorem collapseListsLoop_last (e : Expr α) (fuel total : Nat) :
    Does (collapseListsLoop (fuel + 1) total) e.dissolve.layout (.ok total) e.dissolve.layout :=
  (visitAll_does follows_ungroup e.dissolve (bottomUp_ungrouped e.tree _ e.slots.free)).bind (Does.pure total)

/-- **Dissolving all groups** in the arena of an expression does what it does to the tree, one node less for each
group. -/
theorem collapseLists_does (e : Expr α) :
    ∃ k, e.dissolve.tree.size + k = e.tree.size ∧ Does collapseLists e.layout (.ok k) e.dissolve.layout := by
  obtain ⟨k, hsize, hround⟩ := bottomUp_ungroup false e.tree e.slots 0
  refine ⟨k, hsize, Does.of_whole fun hwhole => ?_⟩
  have hvisit : Does (visitAll ungroupAt) e.layout (.ok (0 + k)) e.dissolve.layout :=
    visitAll_does follows_ungroup e hround
  obtain ⟨fuel, hfuel⟩ : ∃ fuel, e.layout.slots.size + 1 = fuel + 2 := by
    have hnodes := hwhole.size_le e.sits_tree
    have hpos := e.tree.size_pos
    exact ⟨e.layout.slots.size - 1, by omega⟩
  refine (Does.look (b := fuel + 2) fun a ha => ?_).bind (hvisit.bind ?_)
  · rw [← hfuel, Arena.limit, ha.size]
  · rw [Nat.zero_add]
    cases k with
    | zero => exact Does.pure 0
    | succ k =>
      change Does (collapseListsLoop (fuel + 1) (0 + (k + 1))) _ (.ok (k + 1)) _
      rw [Nat.zero_add]
      exact collapseListsLoop_last e fuel (k + 1)

end Arena

end SignalFlow
