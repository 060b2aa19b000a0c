import Mathlib.Algebra.Order.Group.Multiset
import Mathlib.Data.Multiset.Range
import Mathlib.Tactic.Abel
import SignalFlow.Slots
import SignalFlow.Proofs.Arena.Basic

/-!
# What an arena holds

A `Layout` says what is in an arena without its array: the state of the slots, the root, and the cells as a multiset of
handles with what they hold. It is `Whole` if the free slots and the cells are all the slots made so far, each once. At
most one arena `Shows` a layout (`Shows.unique`).

`Does x l r m` says that the step `x` ends on every arena that shows `l`, with the outcome `r`, and leaves one that
shows `m`. There is one rule for each primitive step. A rule about `x` names the cells that `x` is concerned with and
leaves the others alone, so that rules follow one another by arithmetic of multisets.
-/

namespace SignalFlow.Arena

variable {α β γ : Type}

/-! ## Layouts -/

/-- The handles of the first `n` slots. -/
def handlesBelow (n : Nat) : Multiset Id := (Multiset.range n).map Id.mk

theorem nodup_handlesBelow (n : Nat) : (handlesBelow n).Nodup :=
  (Multiset.nodup_range n).map fun _ _ h => congrArg Id.index h

theorem mem_handlesBelow {n : Nat} {i : Id} : i ∈ handlesBelow n ↔ i.index < n := by
  rw [handlesBelow, Multiset.mem_map]
  constructor
  · rintro ⟨k, hk, rfl⟩
    exact Multiset.mem_range.mp hk
  · intro h
    exact ⟨i.index, Multiset.mem_range.mpr h, rfl⟩

theorem handlesBelow_succ (n : Nat) : handlesBelow (n + 1) = {⟨n⟩} + handlesBelow n := by
  rw [handlesBelow, Multiset.range_succ, Multiset.map_cons, ← Multiset.singleton_add, handlesBelow]

/-- **What is in an arena.** -/
structure Layout (α : Type) where
  slots : Slots
  root : Id
  cells : Multiset (Id × Cell α)

namespace Layout

/-- Every slot is free or holds a node, and none is both or counted twice. -/
def Whole (l : Layout α) : Prop := (l.slots.free : Multiset Id) + l.cells.map Prod.fst = handlesBelow l.slots.size

variable {l : Layout α}

theorem Whole.nodup (h : l.Whole) : ((l.slots.free : Multiset Id) + l.cells.map Prod.fst).Nodup := by
  rw [h]
  exact nodup_handlesBelow _

/-- A handle has one cell. -/
theorem Whole.cell_unique (h : l.Whole) {i : Id} {c d : Cell α} (hc : (i, c) ∈ l.cells) (hd : (i, d) ∈ l.cells) :
    c = d := by
  have hkeys : (l.cells.map Prod.fst).Nodup := (Multiset.nodup_add.mp h.nodup).2.1
  exact congrArg Prod.snd (Multiset.inj_on_of_nodup_map hkeys _ hc _ hd rfl)

/-- A handle has no other cell. -/
theorem Whole.absent {s : Slots} {r i : Id} {c : Cell α} {C : Multiset (Id × Cell α)}
    (h : Whole ⟨s, r, {(i, c)} + C⟩) (d : Cell α) : (i, d) ∉ C := by
  have hkeys : (({(i, c)} + C).map Prod.fst).Nodup := (Multiset.nodup_add.mp h.nodup).2.1
  rw [Multiset.map_add, Multiset.map_singleton, Multiset.singleton_add, Multiset.nodup_cons] at hkeys
  intro hd
  have hi := Multiset.mem_map_of_mem Prod.fst hd
  exact hkeys.1 hi

/-- The slot of a cell is not free. -/
theorem Whole.not_free (h : l.Whole) {i : Id} {c : Cell α} (hc : (i, c) ∈ l.cells) : i ∉ l.slots.free := fun hi =>
  Multiset.disjoint_left.mp (Multiset.nodup_add.mp h.nodup).2.2 (Multiset.mem_coe.mpr hi)
    (Multiset.mem_map_of_mem Prod.fst hc)

/-- The slot of a cell has been made. -/
theorem Whole.lt_size (h : l.Whole) {i : Id} {c : Cell α} (hc : (i, c) ∈ l.cells) : i.index < l.slots.size := by
  rw [← mem_handlesBelow, ← h]
  exact Multiset.mem_add.mpr (.inr (Multiset.mem_map_of_mem Prod.fst hc))

/-- A free slot has been made. -/
theorem Whole.lt_size_of_free (h : l.Whole) {i : Id} (hi : i ∈ l.slots.free) : i.index < l.slots.size := by
  rw [← mem_handlesBelow, ← h]
  exact Multiset.mem_add.mpr (.inl (Multiset.mem_coe.mpr hi))

/-- There are as many slots as free ones and cells. -/
theorem Whole.card (h : l.Whole) : l.slots.free.length + Multiset.card l.cells = l.slots.size := by
  have hcard := congrArg Multiset.card h
  simpa [handlesBelow] using hcard

end Layout

/-! ## The arena of a layout -/

/-- **An arena with a layout.** -/
structure Shows (a : Arena α) (l : Layout α) : Prop where
  whole : l.Whole
  free : a.free = l.slots.free
  size : a.slots.size = l.slots.size
  root : a.root = l.root
  slot : ∀ i c, a.slot? i = some c ↔ (i, c) ∈ l.cells

namespace Shows

variable {a b : Arena α} {l : Layout α}

theorem node? (h : Shows a l) {i : Id} {c : Cell α} (hc : (i, c) ∈ l.cells) : a.node? i = some c.node := by
  rw [Arena.node?, (h.slot i c).mpr hc, Option.map_some]

theorem parent? (h : Shows a l) {i : Id} {c : Cell α} (hc : (i, c) ∈ l.cells) : a.parent? i = c.parent := by
  rw [Arena.parent?, (h.slot i c).mpr hc, Option.bind_some]

theorem children (h : Shows a l) {i : Id} {c : Cell α} (hc : (i, c) ∈ l.cells) : a.children i = c.node.children := by
  rw [Arena.children, h.node? hc, Option.map_some, Option.getD_some]

theorem slot?_eq_none (h : Shows a l) {i : Id} (hi : ∀ c, (i, c) ∉ l.cells) : a.slot? i = none :=
  Option.eq_none_iff_forall_ne_some.mpr fun c hc => hi c ((h.slot i c).mp hc)

/-- **At most one arena has a layout.** -/
theorem unique (ha : Shows a l) (hb : Shows b l) : a = b := by
  obtain ⟨slots, free, root⟩ := a
  obtain ⟨slots', free', root'⟩ := b
  have hsize : slots.size = slots'.size := ha.size.trans hb.size.symm
  have hslots : slots = slots' := by
    refine Array.ext hsize fun n hn hn' => ?_
    have hslot : Arena.slot? ⟨slots, free, root⟩ ⟨n⟩ = Arena.slot? ⟨slots', free', root'⟩ ⟨n⟩ :=
      Option.ext fun c => (ha.slot ⟨n⟩ c).trans (hb.slot ⟨n⟩ c).symm
    simpa only [Arena.slot?, Array.getElem?_eq_getElem hn, Array.getElem?_eq_getElem hn', Option.join_some] using hslot
  have hfree : free = free' := ha.free.trans hb.free.symm
  have hroot : root = root' := ha.root.trans hb.root.symm
  rw [hslots, hfree, hroot]

end Shows

theorem slot?_put {a : Arena α} {i : Id} (hi : i.index < a.slots.size) (x : Option (Cell α)) (j : Id) :
    (a.put i x).slot? j = if j = i then x else a.slot? j := by
  have hindex : i.index = j.index ↔ j = i := by
    rw [Id.mk.injEq]
    exact eq_comm
  simp only [slot?, put, Array.getElem?_setIfInBounds, hindex]
  by_cases hj : j = i
  · subst hj
    rw [if_pos rfl, if_pos hi, Option.join_some, if_pos rfl]
  · rw [if_neg hj, if_neg hj]

/-! ## What a step does -/

/-- **A step ends on every arena with one layout**, with an outcome, and leaves an arena with another layout. -/
def Does (x : Step α β) (l : Layout α) (r : Except ExprError β) (m : Layout α) : Prop :=
  ∀ a, Shows a l → ∃ b, x.on a = .ok (r, b) ∧ Shows b m

namespace Does

open Step

variable {l m n : Layout α}

theorem pure (b : β) : Does (Pure.pure b) l (.ok b) l := fun a h => ⟨a, rfl, h⟩

/-- A layout that is shown is whole. -/
theorem of_whole {x : Step α β} {r : Except ExprError β} (hx : l.Whole → Does x l r m) : Does x l r m :=
  fun a h => hx h.whole a h

/-- Sums of cells may be written in another order. -/
theorem of_eq {x : Step α β} {s t : Slots} {i j : Id} {C C' D D' : Multiset (Id × Cell α)} {r : Except ExprError β}
    (hx : Does x ⟨s, i, C⟩ r ⟨t, j, D⟩) (hC : C' = C) (hD : D' = D) : Does x ⟨s, i, C'⟩ r ⟨t, j, D'⟩ := by
  rwa [hC, hD]

theorem throw (e : ExprError) : Does (β := β) (MonadExcept.throw e) l (.error e) l := fun a h => ⟨a, rfl, h⟩

theorem on_bind (x : Step α β) (f : β → Step α γ) (a : Arena α) :
    (x >>= f).on a = (x.on a).bind fun r => match r with
      | (.ok b, a) => (f b).on a
      | (.error e, a) => .ok (.error e, a) := by
  change (StateT.run (ExceptT.run (x >>= f)) a) = _
  rw [ExceptT.run_bind, StateT.run_bind]
  change (x.on a).bind _ = (x.on a).bind _
  congr 1
  funext r
  obtain ⟨r, b⟩ := r
  cases r <;> rfl

/-- One step after another. -/
theorem bind {x : Step α β} {f : β → Step α γ} {b : β} {r : Except ExprError γ} (hx : Does x l (.ok b) m)
    (hf : Does (f b) m r n) : Does (x >>= f) l r n := by
  intro a h
  obtain ⟨a', hon, h⟩ := hx a h
  obtain ⟨a'', hon', h⟩ := hf a' h
  exact ⟨a'', by rw [on_bind, hon]; exact hon', h⟩

/-- After a step that is refused nothing happens. -/
theorem bind_error {x : Step α β} {f : β → Step α γ} {e : ExprError} (hx : Does x l (.error e) m) :
    Does (x >>= f) l (.error e) m := by
  intro a h
  obtain ⟨a', hon, h⟩ := hx a h
  exact ⟨a', by rw [on_bind, hon]; rfl, h⟩

theorem look {f : Arena α → Except Panic β} {b : β} (hf : ∀ a, Shows a l → f a = .ok b) :
    Does (Step.look f) l (.ok b) l := by
  intro a h
  refine ⟨a, ?_, h⟩
  change (f a).map _ = _
  rw [hf a h]
  rfl

theorem write {f : Arena α → Arena α} (hf : ∀ a, Shows a l → Shows (f a) m) : Does (Step.write f) l (.ok ()) m :=
  fun a h => ⟨f a, rfl, hf a h⟩

theorem attempt {x : Step α β} {r : Except ExprError β} (hx : Does x l r m) :
    Does (Step.attempt x) l (.ok r.isOk) m := by
  intro a h
  obtain ⟨a', hon, h⟩ := hx a h
  refine ⟨a', ?_, h⟩
  change (x.on a).map _ = _
  rw [hon]
  rfl

end Does

/-! ## Primitive steps -/

section Steps

variable {s : Slots} {r i : Id} {c : Cell α} {C : Multiset (Id × Cell α)} {l : Layout α}

/-- Overwriting a cell. -/
theorem Shows.put {a : Arena α} (h : Shows a ⟨s, r, {(i, c)} + C⟩) (d : Cell α) :
    Shows (a.put i (some d)) ⟨s, r, {(i, d)} + C⟩ := by
  have hmem : (i, c) ∈ ({(i, c)} + C : Multiset (Id × Cell α)) :=
    Multiset.mem_add.mpr (.inl (Multiset.mem_singleton_self _))
  have hlt : i.index < a.slots.size := h.size ▸ h.whole.lt_size hmem
  refine ⟨?_, h.free, (Array.size_setIfInBounds ..).trans h.size, h.root, fun j e => ?_⟩
  · have := h.whole
    rwa [Layout.Whole, Multiset.map_add, Multiset.map_singleton] at this ⊢
  · have hold := h.slot j e
    simp only [Multiset.mem_add, Multiset.mem_singleton, Prod.mk.injEq] at hold ⊢
    rw [slot?_put hlt]
    split
    case isTrue hj =>
      subst hj
      simp [h.whole.absent e, eq_comm]
    case isFalse hj => simp [hold, hj]

/-- Emptying a cell. -/
theorem Shows.drop {a : Arena α} (h : Shows a ⟨s, r, {(i, c)} + C⟩) :
    Shows { a.put i none with free := i :: a.free } ⟨{ s with free := i :: s.free }, r, C⟩ := by
  have hmem : (i, c) ∈ ({(i, c)} + C : Multiset (Id × Cell α)) :=
    Multiset.mem_add.mpr (.inl (Multiset.mem_singleton_self _))
  have hlt : i.index < a.slots.size := h.size ▸ h.whole.lt_size hmem
  refine ⟨?_, congrArg (i :: ·) h.free, (Array.size_setIfInBounds ..).trans h.size, h.root, fun j e => ?_⟩
  · have hwhole : (s.free : Multiset Id) + ({(i, c)} + C).map Prod.fst = handlesBelow s.size := h.whole
    change ((i :: s.free : List Id) : Multiset Id) + C.map Prod.fst = handlesBelow s.size
    rw [← hwhole, Multiset.map_add, Multiset.map_singleton, ← Multiset.cons_coe, ← Multiset.singleton_add]
    abel
  · have hold := h.slot j e
    simp only [Multiset.mem_add, Multiset.mem_singleton, Prod.mk.injEq] at hold
    change (a.put i none).slot? j = _ ↔ _
    rw [slot?_put hlt]
    split
    case isTrue hj =>
      subst hj
      simp [h.whole.absent e]
    case isFalse hj => simp [hold, hj]

theorem nodeAt_does (hc : (i, c) ∈ l.cells) : Does (nodeAt i) l (.ok c.node) l :=
  Does.look fun a h => by rw [h.node? hc]

theorem rootId_does : Does rootId l (.ok l.root) l := Does.look fun a h => by rw [h.root]

theorem setRoot_does (i : Id) : Does (setRoot i) l (.ok ()) { l with root := i } :=
  Does.write fun _ h => ⟨h.whole, h.free, h.size, rfl, h.slot⟩

theorem slot?_head {a : Arena α} (h : Shows a ⟨s, r, {(i, c)} + C⟩) : a.slot? i = some c :=
  (h.slot i c).mpr (Multiset.mem_add.mpr (.inl (Multiset.mem_singleton_self _)))

theorem setNode_does (n : Node α) :
    Does (setNode i n) ⟨s, r, {(i, c)} + C⟩ (.ok ()) ⟨s, r, {(i, { c with node := n })} + C⟩ := by
  refine Does.bind (nodeAt_does (Multiset.mem_add.mpr (.inl (Multiset.mem_singleton_self (i, c))))) ?_
  refine Does.write fun a h => ?_
  rw [slot?_head h]
  exact h.put _

theorem setParent_does (p : Option Id) :
    Does (setParent i p) ⟨s, r, {(i, c)} + C⟩ (.ok ()) ⟨s, r, {(i, { c with parent := p })} + C⟩ := by
  refine Does.write fun a h => ?_
  rw [slot?_head h]
  exact h.put _

/-- A slot is taken for a node. -/
theorem occupy_does (n : Node α) :
    Does (occupy n) ⟨s, r, C⟩ (.ok s.take.1) ⟨s.take.2, r, {(s.take.1, ⟨n, none⟩)} + C⟩ := by
  obtain ⟨free, size⟩ := s
  cases free with
  | nil =>
    refine Does.bind (b := []) (Does.look fun a h => by rw [h.free]) ?_
    refine Does.bind (b := ⟨size⟩) (Does.look fun a h => by rw [h.size]) ?_
    refine Does.bind (m := ⟨⟨[], size + 1⟩, r, {(⟨size⟩, ⟨n, none⟩)} + C⟩) (Does.write fun a h => ?_) (Does.pure _)
    have hsize : a.slots.size = size := h.size
    have hnew : ∀ d, (⟨size⟩, d) ∉ C := fun d hd => Nat.lt_irrefl size (h.whole.lt_size hd)
    refine ⟨?_, h.free, ?_, h.root, fun j d => ?_⟩
    · have hwhole : ((([] : List Id) : Multiset Id)) + C.map Prod.fst = handlesBelow size := h.whole
      change ((([] : List Id) : Multiset Id)) + ({(⟨size⟩, ⟨n, none⟩)} + C).map Prod.fst = handlesBelow (size + 1)
      rw [handlesBelow_succ, ← hwhole, Multiset.map_add, Multiset.map_singleton]
      abel
    · change (a.slots.push _).size = _
      rw [Array.size_push, hsize]
    · have hold := h.slot j d
      simp only [Multiset.mem_add, Multiset.mem_singleton, Prod.mk.injEq]
      simp only [slot?] at hold ⊢
      rw [Array.getElem?_push, hsize]
      split
      case isTrue hj =>
        have hj : j = ⟨size⟩ := congrArg Id.mk hj
        subst hj
        simp [hnew d, eq_comm]
      case isFalse hj =>
        have hj : j ≠ ⟨size⟩ := fun h => hj (congrArg Id.index h)
        simp [hold, hj]
  | cons i rest =>
    refine Does.bind (b := i :: rest) (Does.look fun a h => by rw [h.free]) ?_
    refine Does.bind (b := ()) (Does.look fun a h => ?_) ?_
    · have hlt : i.index < a.slots.size := h.size ▸ h.whole.lt_size_of_free List.mem_cons_self
      rw [if_pos hlt]
    refine Does.bind (m := ⟨⟨rest, size⟩, r, {(i, ⟨n, none⟩)} + C⟩) (Does.write fun a h => ?_) (Does.pure _)
    have hlt : i.index < a.slots.size := h.size ▸ h.whole.lt_size_of_free List.mem_cons_self
    have hnew : ∀ d, (i, d) ∉ C := fun d hd => h.whole.not_free hd List.mem_cons_self
    refine ⟨?_, rfl, (Array.size_setIfInBounds ..).trans h.size, h.root, fun j d => ?_⟩
    · have hwhole : ((i :: rest : List Id) : Multiset Id) + C.map Prod.fst = handlesBelow size := h.whole
      change (rest : Multiset Id) + ({(i, ⟨n, none⟩)} + C).map Prod.fst = handlesBelow size
      rw [← hwhole, Multiset.map_add, Multiset.map_singleton, ← Multiset.cons_coe, ← Multiset.singleton_add]
      abel
    · have hold := h.slot j d
      simp only [Multiset.mem_add, Multiset.mem_singleton, Prod.mk.injEq]
      change (a.put i _).slot? j = _ ↔ _
      rw [slot?_put hlt]
      split
      case isTrue hj =>
        subst hj
        simp [hnew d, eq_comm]
      case isFalse hj => simp [hold, hj]

end Steps

end SignalFlow.Arena
