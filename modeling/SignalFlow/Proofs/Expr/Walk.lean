import Mathlib.Algebra.Order.BigOperators.Group.List
import Mathlib.Algebra.Order.Ring.Nat
import Mathlib.Data.List.Perm.Basic
import SignalFlow.Slots

/-!
# Trees by their children

What holds of a tree if it holds of the children of its root holds of every tree (`childInduction`). Sizes, walks,
labels and the order of discarding are said in these terms by one equation each, whatever the constructor.
-/

namespace SignalFlow.Tree

variable {ι κ α : Type}

theorem literal?_eq_some {t : Tree ι α} {v : α} : t.literal? = some v ↔ ∃ l, t = .literal l v := by
  cases t <;> simp [literal?]

/-! ## Sizes -/

theorem sizeAll_eq (ts : List (Tree ι α)) : sizeAll ts = (ts.map size).sum := by
  induction ts with
  | nil => rfl
  | cons t ts ih => rw [sizeAll, ih, List.map_cons, List.sum_cons]

theorem size_eq (t : Tree ι α) : t.size = (t.children.map size).sum + 1 := by
  cases t <;> simp [size, children, sizeAll_eq]

theorem size_lt_of_mem_children {t c : Tree ι α} (hc : c ∈ t.children) : c.size < t.size := by
  have hle : c.size ≤ (t.children.map size).sum := List.le_sum_of_mem (List.mem_map_of_mem hc)
  rw [size_eq t]
  omega

/-- **Induction over the children.** -/
theorem childInduction {motive : Tree ι α → Prop} (h : ∀ t, (∀ c ∈ t.children, motive c) → motive t)
    (t : Tree ι α) : motive t := by
  induction hn : t.size using Nat.strong_induction_on generalizing t with
  | _ n ih =>
    subst hn
    exact h t fun c hc => ih _ (size_lt_of_mem_children hc) c rfl

/-- **Induction over the constructors**, with the items of a list as its members. -/
theorem nodeInduction {motive : Tree ι α → Prop} (literal : ∀ l v, motive (.literal l v))
    (var : ∀ l name, motive (.var l name)) (infinity : ∀ l, motive (.infinity l))
    (negate : ∀ l t, motive t → motive (.negate l t))
    (binary : ∀ l op a b, motive a → motive b → motive (.binary l op a b))
    (list : ∀ l items, (∀ t ∈ items, motive t) → motive (.list l items)) (t : Tree ι α) : motive t := by
  induction t using childInduction with
  | h t ih =>
    cases t with
    | literal l v => exact literal l v
    | var l name => exact var l name
    | infinity l => exact infinity l
    | negate l t => exact negate l t (ih t (List.mem_singleton_self t))
    | binary l op a b =>
      exact binary l op a b (ih a List.mem_cons_self) (ih b (List.mem_cons_of_mem _ (List.mem_singleton_self b)))
    | list l items => exact list l items ih

/-! ## Walks -/

theorem preorderOnto_children (t : Tree ι α) (rest : List (Tree ι α)) :
    t.preorderOnto rest = t :: preorderAllOnto t.children rest := by
  cases t <;> rfl

theorem preorderAllOnto_eq {ts : List (Tree ι α)} (h : ∀ t ∈ ts, ∀ rest, t.preorderOnto rest = t.preorder ++ rest)
    (rest : List (Tree ι α)) : preorderAllOnto ts rest = ts.flatMap preorder ++ rest := by
  induction ts with
  | nil => rfl
  | cons t ts ih =>
    rw [preorderAllOnto, ih fun u hu => h u (List.mem_cons_of_mem _ hu), h t List.mem_cons_self, List.flatMap_cons,
      List.append_assoc]

theorem preorderOnto_eq (t : Tree ι α) (rest : List (Tree ι α)) : t.preorderOnto rest = t.preorder ++ rest := by
  induction t using childInduction generalizing rest with
  | h t ih =>
    have hall := preorderAllOnto_eq ih
    rw [preorder, preorderOnto_children, preorderOnto_children, hall, hall, List.append_nil, List.cons_append]

/-- **Parents before children.** -/
theorem preorder_eq (t : Tree ι α) : t.preorder = t :: t.children.flatMap preorder := by
  rw [preorder, preorderOnto_children, preorderAllOnto_eq fun t _ => preorderOnto_eq t, List.append_nil]

theorem postorderOnto_children (t : Tree ι α) (rest : List (Tree ι α)) :
    t.postorderOnto rest = postorderAllOnto t.children (t :: rest) := by
  cases t <;> rfl

theorem postorderAllOnto_eq {ts : List (Tree ι α)} (h : ∀ t ∈ ts, ∀ rest, t.postorderOnto rest = t.postorder ++ rest)
    (rest : List (Tree ι α)) : postorderAllOnto ts rest = ts.flatMap postorder ++ rest := by
  induction ts with
  | nil => rfl
  | cons t ts ih =>
    rw [postorderAllOnto, ih fun u hu => h u (List.mem_cons_of_mem _ hu), h t List.mem_cons_self, List.flatMap_cons,
      List.append_assoc]

theorem postorderOnto_eq (t : Tree ι α) (rest : List (Tree ι α)) : t.postorderOnto rest = t.postorder ++ rest := by
  induction t using childInduction generalizing rest with
  | h t ih =>
    have hall := postorderAllOnto_eq ih
    rw [postorder, postorderOnto_children, postorderOnto_children, hall, hall, List.append_assoc,
      List.singleton_append]

/-- **Children before parents.** -/
theorem postorder_eq (t : Tree ι α) : t.postorder = t.children.flatMap postorder ++ [t] := by
  rw [postorder, postorderOnto_children, postorderAllOnto_eq fun t _ => postorderOnto_eq t]

/-! ## What holds at every node -/

/-- **A property of every node**, said of the subtree there. -/
def Everywhere (p : Tree ι α → Prop) (t : Tree ι α) : Prop := ∀ u ∈ t.preorder, p u

theorem everywhere_iff {p : Tree ι α → Prop} {t : Tree ι α} :
    t.Everywhere p ↔ p t ∧ ∀ c ∈ t.children, c.Everywhere p := by
  simp only [Everywhere]
  rw [preorder_eq, List.forall_mem_cons, List.forall_mem_flatMap]

@[simp] theorem everywhere_literal {p : Tree ι α → Prop} {l : ι} {v : α} :
    (literal l v).Everywhere p ↔ p (literal l v) := by
  simp [everywhere_iff (t := literal l v), children]

@[simp] theorem everywhere_var {p : Tree ι α → Prop} {l : ι} {name : String} :
    (var l name).Everywhere p ↔ p (var l name) := by
  simp [everywhere_iff (t := var l name), children]

@[simp] theorem everywhere_infinity {p : Tree ι α → Prop} {l : ι} : (infinity l).Everywhere p ↔ p (infinity l) := by
  simp [everywhere_iff (t := infinity l), children]

@[simp] theorem everywhere_negate {p : Tree ι α → Prop} {l : ι} {t : Tree ι α} :
    (negate l t).Everywhere p ↔ p (negate l t) ∧ t.Everywhere p := by
  simp [everywhere_iff (t := negate l t), children]

@[simp] theorem everywhere_binary {p : Tree ι α → Prop} {l : ι} {op : BinaryOp} {a b : Tree ι α} :
    (binary l op a b).Everywhere p ↔ p (binary l op a b) ∧ a.Everywhere p ∧ b.Everywhere p := by
  simp [everywhere_iff (t := binary l op a b), children]

@[simp] theorem everywhere_list {p : Tree ι α → Prop} {l : ι} {items : List (Tree ι α)} :
    (list l items).Everywhere p ↔ p (list l items) ∧ ∀ t ∈ items, t.Everywhere p := by
  simp [everywhere_iff (t := list l items), children]

theorem Everywhere.imp {p q : Tree ι α → Prop} {t : Tree ι α} (h : t.Everywhere p) (hpq : ∀ u, p u → q u) :
    t.Everywhere q :=
  fun u hu => hpq u (h u hu)

/-! ## Labels -/

theorem relabelAll_eq (f : ι → κ) (ts : List (Tree ι α)) : relabelAll f ts = ts.map (relabel f) := by
  induction ts with
  | nil => rfl
  | cons t ts ih => rw [relabelAll, ih, List.map_cons]

/-- A bare tree is its own bare tree. -/
theorem term_eq_self (t : Term α) : t.term = t := by
  induction t using childInduction with
  | h t ih =>
    cases t with
    | literal | var | infinity => rfl
    | negate l t => exact congrArg (Tree.negate ()) (ih t List.mem_cons_self)
    | binary l op a b =>
      exact congrArg₂ (Tree.binary () op) (ih a List.mem_cons_self)
        (ih b (List.mem_cons_of_mem _ (List.mem_singleton_self b)))
    | list l items =>
      have hitems : items.map (relabel fun _ => ()) = items.map id := List.map_congr_left ih
      rw [term, relabel, relabelAll_eq, hitems, List.map_id]

/-- **The labels of a tree**: that of the root, and those of the children. -/
theorem labels_eq (t : Tree ι α) : t.labels = t.label :: t.children.flatMap labels := by
  rw [labels, preorder_eq, List.map_cons, List.map_flatMap]
  rfl

theorem labels_var (l : ι) (name : String) : (Tree.var l name : Tree ι α).labels = [l] := rfl

theorem labels_negate (l : ι) (t : Tree ι α) : (Tree.negate l t).labels = l :: t.labels := by
  rw [labels_eq, children, List.flatMap_singleton]
  rfl

theorem labels_binary (l : ι) (op : BinaryOp) (a b : Tree ι α) :
    (Tree.binary l op a b).labels = l :: (a.labels ++ b.labels) := by
  rw [labels_eq, children, List.flatMap_cons, List.flatMap_singleton]
  rfl

theorem labels_list (l : ι) (items : List (Tree ι α)) : (Tree.list l items).labels = l :: items.flatMap labels :=
  labels_eq _

theorem length_labels (t : Tree ι α) : t.labels.length = t.size := by
  induction t using childInduction with
  | h t ih => rw [labels_eq, List.length_cons, List.length_flatMap, size_eq, List.map_congr_left ih]

theorem label_mem_labels (t : Tree ι α) : t.label ∈ t.labels := by
  rw [labels_eq]
  exact List.mem_cons_self

theorem discardOnto_children (t : Tree ι α) (rest : List ι) :
    t.discardOnto rest = t.label :: discardAllOnto t.children rest := by
  cases t <;> rfl

theorem discardAllOnto_eq {ts : List (Tree ι α)} (h : ∀ t ∈ ts, ∀ rest, t.discardOnto rest = t.discard ++ rest)
    (rest : List ι) : discardAllOnto ts rest = ts.reverse.flatMap discard ++ rest := by
  induction ts generalizing rest with
  | nil => rfl
  | cons t ts ih =>
    rw [discardAllOnto, ih fun u hu => h u (List.mem_cons_of_mem _ hu), h t List.mem_cons_self, List.reverse_cons,
      List.flatMap_append, List.flatMap_singleton, List.append_assoc]

theorem discardOnto_eq (t : Tree ι α) (rest : List ι) : t.discardOnto rest = t.discard ++ rest := by
  induction t using childInduction generalizing rest with
  | h t ih =>
    have hall := discardAllOnto_eq ih
    rw [discard, discardOnto_children, discardOnto_children, hall, hall, List.append_nil, List.cons_append]

/-- **The order of discarding**: the root, then the children from the last to the first. -/
theorem discard_eq (t : Tree ι α) : t.discard = t.label :: t.children.reverse.flatMap discard := by
  rw [discard, discardOnto_children, discardAllOnto_eq fun t _ => discardOnto_eq t, List.append_nil]

/-- **All labels of a tree are discarded.** -/
theorem mem_discard {i : ι} {t : Tree ι α} : i ∈ t.discard ↔ i ∈ t.labels := by
  induction t using childInduction with
  | h t ih =>
    rw [discard_eq, labels_eq, List.mem_cons, List.mem_cons, List.mem_flatMap, List.mem_flatMap]
    refine or_congr Iff.rfl ⟨?_, ?_⟩
    · rintro ⟨c, hc, hi⟩
      exact ⟨c, List.mem_reverse.mp hc, (ih c (List.mem_reverse.mp hc)).mp hi⟩
    · rintro ⟨c, hc, hi⟩
      exact ⟨c, List.mem_reverse.mpr hc, (ih c hc).mpr hi⟩

end SignalFlow.Tree
