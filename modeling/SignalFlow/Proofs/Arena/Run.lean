import SignalFlow.Proofs.Arena.Chains
import SignalFlow.Proofs.Arena.Consistent
import SignalFlow.Proofs.Arena.OfText
import SignalFlow.Double

/-!
# Runs of operations

An `Edit` is an operation on an expression, with its handles and operands. On an expression it is answered by
`Expr.respond`, on an arena it is performed write by write (`Arena.perform`); on the arena of a whole expression the two
agree (`Expr.run_arena`). So the arenas that are reached from leaves and texts by edits are those of the expressions
that are reached (`Arena.exists_expr`, `Arena.reached_arena`), and each of them is in order (`Arena.sound_of_reached`).
-/

namespace SignalFlow

open SignalFlow.Tree Arena

variable {α β ε : Type}

/-! ## Edits -/

/-- **The rewriting passes.** -/
inductive Pass where
  | foldConstants
  | eliminateIdentities
  | normalizeChains
  | collectTerms
  | eliminateQuotients

/-- **An operation on an expression**; the expressions that it takes are in `ε`. -/
inductive Edit (α ε : Type) where
  | negate
  | binary (op : BinaryOp) (f : ε)
  | list (rest : List ε)
  | graft (f : ε)
  | replace (i : Id) (f : ε)
  | collapse (i : Id)
  | unlink (i : Id)
  | swap (i : Id)
  | setOp (i : Id) (op : BinaryOp)
  | morph (i : Id) (v : α)
  | pass (p : Pass)
  /-- Reading the node at a handle. -/
  | index (i : Id)
  | subtree (i : Id)
  | same (i : Id) (f : ε) (j : Id)

/-- **What an operation answers.** -/
inductive Reply (α ε : Type) where
  | done
  | handle (i : Id)
  /-- An expression of its own. -/
  | expr (x : ε)
  | count (n : Nat)
  | node (n : Node α)
  | verdict (b : Bool)

namespace Edit

/-- The expressions that an operation takes. -/
def operands : Edit α ε → List ε
  | .binary _ f | .graft f | .replace _ f | .same _ f _ => [f]
  | .list rest => rest
  | _ => []

/-- The operation on other expressions. -/
def map (g : ε → β) : Edit α ε → Edit α β
  | .negate => .negate
  | .binary op f => .binary op (g f)
  | .list rest => .list (rest.map g)
  | .graft f => .graft (g f)
  | .replace i f => .replace i (g f)
  | .collapse i => .collapse i
  | .unlink i => .unlink i
  | .swap i => .swap i
  | .setOp i op => .setOp i op
  | .morph i v => .morph i v
  | .pass p => .pass p
  | .index i => .index i
  | .subtree i => .subtree i
  | .same i f j => .same i (g f) j

theorem operands_map (g : ε → β) (o : Edit α ε) : (o.map g).operands = o.operands.map g := by
  cases o <;> rfl

theorem exists_list_map {g : ε → β} {P : ε → Prop} {ys : List β} (h : ∀ y ∈ ys, ∃ x, P x ∧ g x = y) :
    ∃ xs : List ε, (∀ x ∈ xs, P x) ∧ xs.map g = ys := by
  induction ys with
  | nil => exact ⟨[], nofun, rfl⟩
  | cons y ys ih =>
    obtain ⟨x, hx, rfl⟩ := h y List.mem_cons_self
    obtain ⟨xs, hxs, rfl⟩ := ih fun z hz => h z (List.mem_cons_of_mem _ hz)
    exact ⟨x :: xs, List.forall_mem_cons.mpr ⟨hx, hxs⟩, rfl⟩

/-- An operation on images is the image of an operation. -/
theorem exists_map {g : ε → β} {P : ε → Prop} {o : Edit α β} (h : ∀ y ∈ o.operands, ∃ x, P x ∧ g x = y) :
    ∃ o' : Edit α ε, (∀ x ∈ o'.operands, P x) ∧ o'.map g = o := by
  cases o with
  | binary op f =>
    obtain ⟨x, hx, rfl⟩ := h f List.mem_cons_self
    exact ⟨.binary op x, List.forall_mem_singleton.mpr hx, rfl⟩
  | list rest =>
    obtain ⟨xs, hxs, rfl⟩ := exists_list_map h
    exact ⟨.list xs, hxs, rfl⟩
  | graft f =>
    obtain ⟨x, hx, rfl⟩ := h f List.mem_cons_self
    exact ⟨.graft x, List.forall_mem_singleton.mpr hx, rfl⟩
  | replace i f =>
    obtain ⟨x, hx, rfl⟩ := h f List.mem_cons_self
    exact ⟨.replace i x, List.forall_mem_singleton.mpr hx, rfl⟩
  | same i f j =>
    obtain ⟨x, hx, rfl⟩ := h f List.mem_cons_self
    exact ⟨.same i x j, List.forall_mem_singleton.mpr hx, rfl⟩
  | negate => exact ⟨.negate, nofun, rfl⟩
  | collapse i => exact ⟨.collapse i, nofun, rfl⟩
  | unlink i => exact ⟨.unlink i, nofun, rfl⟩
  | swap i => exact ⟨.swap i, nofun, rfl⟩
  | setOp i op => exact ⟨.setOp i op, nofun, rfl⟩
  | morph i v => exact ⟨.morph i v, nofun, rfl⟩
  | pass p => exact ⟨.pass p, nofun, rfl⟩
  | index i => exact ⟨.index i, nofun, rfl⟩
  | subtree i => exact ⟨.subtree i, nofun, rfl⟩

end Edit

/-- The answer with another expression. -/
def Reply.map (g : ε → β) : Reply α ε → Reply α β
  | .done => .done
  | .handle i => .handle i
  | .expr x => .expr (g x)
  | .count n => .count n
  | .node n => .node n
  | .verdict b => .verdict b

variable [Scalar α]

/-! ## Edits of an expression -/

/-- A pass on an expression. -/
def Pass.rewrite : Pass → Expr α → Expr α × Nat
  | .foldConstants => Expr.foldConstants
  | .eliminateIdentities => Expr.eliminateIdentities
  | .normalizeChains => Expr.normalizeChains
  | .collectTerms => Expr.collectTerms
  | .eliminateQuotients => Expr.eliminateQuotients

/-- **An edit of an expression**: the answer and the changed expression, or why the edit is refused. It is an access
error if a node is read that does not exist. -/
def Expr.respond (e : Expr α) : Edit α (Expr α) → Except AccessError (Except ExprError (Reply α (Expr α) × Expr α))
  | .negate => .ok (.ok (.done, e.negate))
  | .binary op f => .ok (.ok (.done, Expr.binary op e f))
  | .list rest => .ok ((Expr.list (e :: rest)).map (.done, ·))
  | .graft f => .ok (.ok (.handle (e.graft f).1, (e.graft f).2))
  | .replace i f => .ok ((e.replace i f).map fun r => (.expr r.1, r.2))
  | .collapse i => .ok ((e.collapse i).map (.done, ·))
  | .unlink i => .ok ((e.unlink i).map fun r => (.expr r.1, r.2))
  | .swap i => .ok ((e.swap i).map (.done, ·))
  | .setOp i op => .ok ((e.setOp i op).map (.done, ·))
  | .morph i v => .ok ((e.morph i v).map (.done, ·))
  | .pass p => .ok (.ok (.count (p.rewrite e).2, (p.rewrite e).1))
  | .index i => (e.nodeAt i).map fun t => .ok (.node t.shape, e)
  | .subtree i => (e.subtree i).map fun f => .ok (.expr f, e)
  | .same i f j => (e.sameAt i f j).map fun b => .ok (.verdict b, e)

namespace Arena

/-! ## Edits of an arena -/

/-- A pass on an arena. -/
def pass : Pass → Step α Nat
  | .foldConstants => foldConstants
  | .eliminateIdentities => eliminateIdentities
  | .normalizeChains => normalizeChains
  | .collectTerms => collectTerms
  | .eliminateQuotients => eliminateQuotients

/-- A step with another answer. -/
def Step.answer (x : Step α β) (g : β → Reply α (Arena α)) : Step α (Reply α (Arena α)) := do
  let b ← x
  return g b

/-- **An edit of an arena.** -/
def perform : Edit α (Arena α) → Step α (Reply α (Arena α))
  | .negate => negate.answer fun _ => .done
  | .binary op f => (binary op f).answer fun _ => .done
  | .list rest => (list rest).answer fun _ => .done
  | .graft f => (graft f).answer .handle
  | .replace i f => (replace i f).answer .expr
  | .collapse i => (collapse i).answer fun _ => .done
  | .unlink i => (unlink i).answer .expr
  | .swap i => (swap i).answer fun _ => .done
  | .setOp i op => (setOp i op).answer fun _ => .done
  | .morph i v => (morph i v).answer fun _ => .done
  | .pass p => (pass p).answer .count
  | .index i => (nodeAt i).answer .node
  | .subtree i => (Step.look fun a => a.subtree i).answer .expr
  | .same i f j => (Step.look fun a => a.sameAt i f j).answer .verdict

/-- What an edit answers on an arena, and the arena that it leaves. -/
def run (o : Edit α (Arena α)) (a : Arena α) : Except Panic (Except ExprError (Reply α (Arena α)) × Arena α) :=
  (perform o).on a

/-- **Reading a dead node**, the one thing that breaks a step down. -/
def Misreads (a : Arena α) (i : Id) : Edit α (Arena α) → Prop
  | .index j | .subtree j => j = i ∧ ¬ a.IsLive i
  | .same j f k => (j = i ∧ ¬ a.IsLive i) ∨ (k = i ∧ ¬ f.IsLive i)
  | _ => False

/-! ## Edits of the arena of an expression -/

section Refines

omit [Scalar α]

variable {x : Step α β} {e e' : Expr α}

theorem Refines.answer {r : Except ExprError (β × Expr α)} (hx : Refines x e r) (g : β → Reply α (Arena α)) :
    Refines (x.answer g) e (r.map fun p => (g p.1, p.2)) := by
  cases r with
  | error err => exact Does.bind_error hx
  | ok p => exact Does.bind hx (Does.pure _)

theorem Refines.done {x : Step α Unit} {r : Except ExprError (Expr α)} (hx : Refines x e (r.map ((), ·))) :
    Refines (x.answer fun _ => .done) e ((r.map (Reply.done, ·)).map fun p => (p.1.map Expr.arena, p.2)) := by
  cases r with
  | error err => exact hx.answer _
  | ok e' => exact hx.answer _

theorem Refines.copied {x : Step α (Arena α)} {r : Except ExprError (Expr α × Expr α)}
    (hx : Refines x e (r.map fun p => (p.1.arena, p.2))) :
    Refines (x.answer .expr) e ((r.map fun p => (Reply.expr p.1, p.2)).map fun p => (p.1.map Expr.arena, p.2)) := by
  cases r with
  | error err => exact hx.answer _
  | ok p => exact hx.answer _

theorem Refines.on {b : β} (hx : Refines x e (.ok (b, e'))) (he : e.Whole) :
    x.on e.arena = .ok (.ok b, e'.arena) ∧ e'.Whole := by
  obtain ⟨a, hon, ha⟩ := hx e.arena (Expr.shows_arena he)
  rw [hon, Expr.eq_arena ha.whole ha]
  exact ⟨rfl, ha.whole⟩

theorem Refines.on_error {err : ExprError} (hx : Refines x e (.error err)) (he : e.Whole) :
    x.on e.arena = .ok (.error err, e.arena) := by
  obtain ⟨a, hon, ha⟩ := hx e.arena (Expr.shows_arena he)
  rw [hon, Expr.eq_arena he ha]

end Refines

theorem pass_refines (p : Pass) (e : Expr α) : Refines (pass p) e (.ok ((p.rewrite e).2, (p.rewrite e).1)) := by
  cases p with
  | foldConstants => exact foldConstants_does e
  | eliminateIdentities => exact eliminateIdentities_does e
  | normalizeChains => exact normalizeChains_does e
  | collectTerms => exact collectTerms_does e
  | eliminateQuotients => exact eliminateQuotients_does e

end Arena

/-- What goes wrong on an arena when a node is read that does not exist. -/
def AccessError.panic : AccessError → Panic
  | .staleNode i => .stale i
  | .outOfBounds _ _ => .endless

namespace Expr

variable {e f : Expr α} {o : Edit α (Expr α)}

/-- **What an edit of an expression is on its arena**: the images of the answer and of the changed expression, or the
same arena if the edit is refused. -/
def image (e : Expr α) : Except AccessError (Except ExprError (Reply α (Expr α) × Expr α)) →
    Except Panic (Except ExprError (Reply α (Arena α)) × Arena α)
  | .error err => .error err.panic
  | .ok (.error err) => .ok (.error err, e.arena)
  | .ok (.ok (reply, e')) => .ok (.ok (reply.map arena), e'.arena)

/-! ### Reading -/

section Reading

omit [Scalar α]

theorem nodeAt_of_dead {i : Id} (hi : e.node? i = none) : e.nodeAt i = .error (.staleNode i) := by
  rw [nodeAt, hi]

theorem not_live_of_dead {i : Id} (he : e.Whole) (hdead : ∀ c, (i, c) ∉ e.layout.cells) : ¬ e.arena.IsLive i := by
  rw [IsLive, node?_arena_of_dead he hdead]
  exact Bool.false_ne_true

theorem sits_of_fill {h : Hole Id α} {t : Tree Id α} (hfill : e.forest = h.fill t) : e.layout.Sits t :=
  layout_of_fill hfill ▸ h.sits e.slots t

theorem look_panics {f : Arena α → Except Panic β} {a : Arena α} {p : Panic} (h : f a = .error p) :
    (Step.look f).on a = .error p := by
  change (f a).map _ = _
  rw [h]
  rfl

theorem bind_panics {γ : Type} {x : Step α β} {f : β → Step α γ} {a : Arena α} {p : Panic} (h : x.on a = .error p) :
    (x >>= f).on a = .error p := by
  rw [Does.on_bind, h]
  rfl

/-- A dead node cannot be copied. -/
theorem subtree_of_dead {a : Arena α} {i : Id} (hi : a.node? i = none) : a.subtree i = .error (.stale i) := by
  have horder : a.postorderFrom i = .ok [i] := by
    rw [Arena.postorderFrom, limit, postorderLoop, Arena.children, hi]
    simp [postorderLoop]
  have hcopies : (copyAll a [i] []).on unrooted = .error (.stale i) := bind_panics (look_panics (by rw [hi]))
  have hcopy : (copyFrom a i).on unrooted = .error (.stale i) := by
    rw [copyFrom, Does.on_bind]
    change ((a.postorderFrom i).map _).bind _ = _
    rw [horder]
    exact bind_panics hcopies
  rw [Arena.subtree, build, bind_panics hcopy]

theorem nodeAt_of_fill {h : Hole Id α} {t : Tree Id α} (he : e.Whole) (hfill : e.forest = h.fill t) :
    e.nodeAt t.label = .ok t := by
  rw [nodeAt, node?_of_fill he hfill]

end Reading

/-- **An edit that does not misread** does on the arena what it does on the expression. -/
theorem respond_refines (he : e.Whole) (ho : ∀ f ∈ o.operands, f.Whole)
    {r : Except ExprError (Reply α (Expr α) × Expr α)} (h : e.respond o = .ok r) :
    Refines (perform (o.map arena)) e (r.map fun p => (p.1.map arena, p.2)) := by
  cases o with
  | negate =>
    cases h
    exact (negate_refines e).answer _
  | binary op f =>
    cases h
    exact (binary_refines op e (ho f List.mem_cons_self)).answer _
  | list rest =>
    cases h
    exact (list_refines e ho).done
  | graft f =>
    cases h
    exact (graft_refines e (ho f List.mem_cons_self)).answer _
  | replace i f =>
    cases h
    exact (replace_refines he i (ho f List.mem_cons_self)).copied
  | collapse i =>
    cases h
    exact (collapse_refines he i).done
  | unlink i =>
    cases h
    exact (unlink_refines he i).copied
  | swap i =>
    cases h
    exact (swap_refines he i).done
  | setOp i op =>
    cases h
    exact (setOp_refines he i op).done
  | morph i v =>
    cases h
    exact (morph_refines he i v).done
  | pass p =>
    cases h
    exact (pass_refines p e).answer _
  | index i =>
    rcases e.dead_or_fills i with ⟨hnone, -⟩ | ⟨k, t, hfill, rfl⟩
    · rw [respond, nodeAt_of_dead hnone] at h
      cases h
    · rw [respond, nodeAt_of_fill he hfill] at h
      cases h
      exact Refines.answer (r := .ok (t.shape, e)) (nodeAt_does (cell_of_fill hfill)) _
  | subtree i =>
    rcases e.dead_or_fills i with ⟨hnone, -⟩ | ⟨k, t, hfill, rfl⟩
    · rw [respond, subtree, nodeAt_of_dead hnone] at h
      cases h
    · rw [respond, subtree, nodeAt_of_fill he hfill] at h
      cases h
      exact Refines.answer (r := .ok ((ofTree t).arena, e)) (Does.look fun a ha => subtree_eq ha (sits_of_fill hfill)) _
  | same i f j =>
    have hf : f.Whole := ho f List.mem_cons_self
    rcases e.dead_or_fills i with ⟨hnone, -⟩ | ⟨k, t, hfill, rfl⟩
    · rw [respond, sameAt, nodeAt_of_dead hnone] at h
      cases h
    · rcases f.dead_or_fills j with ⟨hnone, -⟩ | ⟨k', u, hfill', rfl⟩
      · rw [respond, sameAt, nodeAt_of_fill he hfill, nodeAt_of_dead hnone] at h
        cases h
      · rw [respond, sameAt, nodeAt_of_fill he hfill, nodeAt_of_fill hf hfill'] at h
        cases h
        refine Refines.answer (r := .ok (t.same u, e)) (Does.look fun a ha => ?_) _
        exact sameAt_eq ha (shows_arena hf) (sits_of_fill hfill) (sits_of_fill hfill')

/-- **An edit that misreads** panics on the arena, at the same handle. -/
theorem run_of_misread (he : e.Whole) (ho : ∀ f ∈ o.operands, f.Whole) {err : AccessError}
    (h : e.respond o = .error err) :
    ∃ i, err = .staleNode i ∧ e.arena.Misreads i (o.map arena) ∧
      Arena.run (o.map arena) e.arena = .error (.stale i) := by
  cases o with
  | index i =>
    rcases e.dead_or_fills i with ⟨hnone, hdead⟩ | ⟨k, t, hfill, rfl⟩
    · rw [respond, nodeAt_of_dead hnone] at h
      cases h
      refine ⟨i, rfl, ⟨rfl, not_live_of_dead he hdead⟩, bind_panics (look_panics ?_)⟩
      rw [node?_arena_of_dead he hdead]
    · rw [respond, nodeAt_of_fill he hfill] at h
      cases h
  | subtree i =>
    rcases e.dead_or_fills i with ⟨hnone, hdead⟩ | ⟨k, t, hfill, rfl⟩
    · rw [respond, subtree, nodeAt_of_dead hnone] at h
      cases h
      refine ⟨i, rfl, ⟨rfl, not_live_of_dead he hdead⟩, bind_panics (look_panics ?_)⟩
      exact subtree_of_dead (node?_arena_of_dead he hdead)
    · rw [respond, subtree, nodeAt_of_fill he hfill] at h
      cases h
  | same i f j =>
    have hf : f.Whole := ho f List.mem_cons_self
    rcases e.dead_or_fills i with ⟨hnone, hdead⟩ | ⟨k, t, hfill, rfl⟩
    · rw [respond, sameAt, nodeAt_of_dead hnone] at h
      cases h
      refine ⟨i, rfl, .inl ⟨rfl, not_live_of_dead he hdead⟩, bind_panics (look_panics ?_)⟩
      rw [Arena.sameAt, limit, sameLoop, node?_arena_of_dead he hdead]
    · rcases f.dead_or_fills j with ⟨hnone, hdead⟩ | ⟨k', u, hfill', rfl⟩
      · rw [respond, sameAt, nodeAt_of_fill he hfill, nodeAt_of_dead hnone] at h
        cases h
        refine ⟨j, rfl, .inr ⟨rfl, not_live_of_dead hf hdead⟩, bind_panics (look_panics ?_)⟩
        rw [Arena.sameAt, limit, sameLoop, node?_arena he hfill, node?_arena_of_dead hf hdead]
      · rw [respond, sameAt, nodeAt_of_fill he hfill, nodeAt_of_fill hf hfill'] at h
        cases h
  | _ => cases h

/-- **An edit on the arena of an expression** is the image of the edit of the expression. -/
theorem run_arena (he : e.Whole) (ho : ∀ f ∈ o.operands, f.Whole) :
    Arena.run (o.map arena) e.arena = e.image (e.respond o) := by
  cases hr : e.respond o with
  | error err =>
    obtain ⟨i, rfl, -, hrun⟩ := run_of_misread he ho hr
    exact hrun
  | ok r =>
    have hrefines := respond_refines he ho hr
    cases r with
    | error err => exact hrefines.on_error he
    | ok p => exact (hrefines.on he).1

/-! ### Wholeness -/

/-- A changed expression is whole. -/
theorem whole_of_respond (he : e.Whole) (ho : ∀ f ∈ o.operands, f.Whole) {reply : Reply α (Expr α)} {e' : Expr α}
    (h : e.respond o = .ok (.ok (reply, e'))) : e'.Whole :=
  ((respond_refines he ho h).on he).2

section Replies

omit [Scalar α]

/-- A copy of what is below a node is whole. -/
theorem whole_of_node (he : e.Whole) {i : Id} {t : Tree Id α} (ht : e.node? i = some t) : (ofTree t).Whole := by
  rcases e.dead_or_fills i with ⟨hnone, -⟩ | ⟨k, u, hfill, rfl⟩
  · rw [hnone] at ht
    cases ht
  · rw [node?_of_fill he hfill] at ht
    cases ht
    exact whole_ofTree_of_sits (shows_arena he) (sits_of_fill hfill)

theorem node?_of_live {i : Id} {t : Tree Id α} (ht : e.live i = .ok t) : e.node? i = some t := by
  rw [live] at ht
  split at ht
  case h_1 u hu =>
    cases ht
    exact hu
  case h_2 => cases ht

theorem node?_of_nodeAt {i : Id} {t : Tree Id α} (ht : e.nodeAt i = .ok t) : e.node? i = some t := by
  rw [nodeAt] at ht
  split at ht
  case h_1 u hu =>
    cases ht
    exact hu
  case h_2 => cases ht

/-- What `replace` answers is a copy of a node. -/
theorem reply_of_replace {i : Id} {g : Expr α} {r : Expr α × Expr α} (h : e.replace i g = .ok r) :
    ∃ t, e.node? i = some t ∧ r.1 = ofTree t := by
  obtain ⟨t, ht, h⟩ := bind_eq_ok h
  cases h
  exact ⟨t, node?_of_live ht, rfl⟩

/-- What `unlink` answers is a copy of a node. -/
theorem reply_of_unlink {i : Id} {r : Expr α × Expr α} (h : e.unlink i = .ok r) :
    ∃ t, e.node? i = some t ∧ r.1 = ofTree t := by
  obtain ⟨t, ht, h⟩ := bind_eq_ok h
  obtain ⟨p, -, h⟩ := bind_eq_ok h
  split at h
  case h_1 =>
    cases h
    exact ⟨t, node?_of_live ht, rfl⟩
  case h_2 => cases h

end Replies

/-- **An expression that is answered is whole.** -/
theorem whole_of_reply (he : e.Whole) {e' : Expr α} (h : e.respond o = .ok (.ok (.expr f, e'))) : f.Whole := by
  cases o with
  | replace i g =>
    obtain ⟨r, hr, h⟩ := map_eq_ok (Except.ok.inj h)
    obtain ⟨t, ht, hcopy⟩ := reply_of_replace hr
    cases h
    exact hcopy ▸ whole_of_node he ht
  | unlink i =>
    obtain ⟨r, hr, h⟩ := map_eq_ok (Except.ok.inj h)
    obtain ⟨t, ht, hcopy⟩ := reply_of_unlink hr
    cases h
    exact hcopy ▸ whole_of_node he ht
  | subtree i =>
    obtain ⟨r, hr, h⟩ := map_eq_ok h
    obtain ⟨t, ht, hcopy⟩ := map_eq_ok hr
    cases h
    exact hcopy ▸ whole_of_node he (node?_of_nodeAt ht)
  | list | collapse | swap | setOp | morph =>
    obtain ⟨r, -, h⟩ := map_eq_ok (Except.ok.inj h)
    cases h
  | index | same =>
    obtain ⟨r, -, h⟩ := map_eq_ok h
    cases h
  | _ => cases h

end Expr

/-! ## Runs -/

/-- **What is reached by edits** with operands that are reached. `leads o x y` says that the edit `o` leaves `y` of `x`
or answers it. -/
inductive Reached (start : ε → Prop) (leads : Edit α ε → ε → ε → Prop) : ε → Prop where
  | start {x : ε} (h : start x) : Reached start leads x
  | next {o : Edit α ε} {x y : ε} (ho : ∀ f ∈ o.operands, Reached start leads f) (hx : Reached start leads x)
      (h : leads o x y) : Reached start leads y

namespace Expr

/-- **Where a run of edits starts.** -/
inductive Start : Expr α → Prop where
  | literal (v : α) : Start (.literal v)
  | var (name : String) : Start (.var name)
  | infinity : Start .infinity
  | text {text : String} {e : Expr α} (h : ofText text = .ok e) : Start e

/-- An edit leads to the changed expression, and to the one that it answers. -/
def Leads (o : Edit α (Expr α)) (e f : Expr α) : Prop :=
  ∃ reply e', e.respond o = .ok (.ok (reply, e')) ∧ (f = e' ∨ reply = .expr f)

/-- **An expression that is reached.** -/
abbrev IsReached (e : Expr α) : Prop := Reached Start Leads e

/-- **Every expression that is reached is whole.** -/
theorem whole_of_reached {e : Expr α} (he : e.IsReached) : e.Whole := by
  induction he with
  | start h =>
    cases h with
    | literal | var | infinity => exact whole_ofTerm _
    | text h => exact whole_ofText h
  | @next o e f _ _ h ho he =>
    obtain ⟨reply, e', hr, hf⟩ := h
    rcases hf with rfl | rfl
    · exact whole_of_respond he ho hr
    · exact whole_of_reply he hr

end Expr

namespace Arena

/-- Where a run of edits starts. -/
inductive Start : Arena α → Prop where
  | literal {v : α} {a : Arena α} (h : leaf (.literal v) = .ok a) : Start a
  | var {name : String} {a : Arena α} (h : leaf (.var name) = .ok a) : Start a
  | infinity {a : Arena α} (h : leaf .infinity = .ok a) : Start a
  | text {text : String} {e : Expr α} (h : Expr.ofText text = .ok e) : Start e.arena

/-- An edit leads to the arena that it leaves, refused or not, and to the one that it answers. -/
def Leads (o : Edit α (Arena α)) (a b : Arena α) : Prop :=
  ∃ reply c, run o a = .ok (reply, c) ∧ (b = c ∨ reply = .ok (.expr b))

/-- **An arena that is reached.** -/
abbrev IsReached (a : Arena α) : Prop := Reached Start Leads a

omit [Scalar α] in
/-- A leaf has the arena of the expression that is a leaf. -/
theorem leaf_eq {n : Node α} {t : Term α} (h : plant t = alloc n) : leaf n = .ok (Expr.ofTree t).arena := by
  obtain ⟨a, hbuild, ha⟩ := build_plant t
  rw [leaf, ← h, hbuild, Expr.eq_arena ha.whole ha]

/-- **A reached arena is the arena of a reached expression.** -/
theorem exists_expr {a : Arena α} (ha : a.IsReached) : ∃ e : Expr α, e.IsReached ∧ e.arena = a := by
  induction ha with
  | start h =>
    cases h with
    | literal h =>
      rw [leaf_eq (t := .literal () _) rfl] at h
      exact ⟨_, .start (.literal _), Except.ok.inj h⟩
    | var h =>
      rw [leaf_eq (t := .var () _) rfl] at h
      exact ⟨_, .start (.var _), Except.ok.inj h⟩
    | infinity h =>
      rw [leaf_eq (t := .infinity ()) rfl] at h
      exact ⟨_, .start .infinity, Except.ok.inj h⟩
    | text h => exact ⟨_, .start (.text h), rfl⟩
  | @next o a b _ _ h ho ha =>
    obtain ⟨e, he, rfl⟩ := ha
    obtain ⟨o', ho', rfl⟩ := Edit.exists_map ho
    obtain ⟨reply, c, hrun, hb⟩ := h
    rw [Expr.run_arena (Expr.whole_of_reached he) fun f hf => Expr.whole_of_reached (ho' f hf)] at hrun
    cases hr : e.respond o' with
    | error err =>
      rw [hr] at hrun
      cases hrun
    | ok r =>
      rw [hr] at hrun
      cases r with
      | error err =>
        cases hrun
        rcases hb with rfl | hb
        · exact ⟨e, he, rfl⟩
        · cases hb
      | ok p =>
        obtain ⟨answer, e'⟩ := p
        cases hrun
        rcases hb with rfl | hb
        · exact ⟨e', .next ho' he ⟨answer, e', hr, .inl rfl⟩, rfl⟩
        · cases answer with
          | expr f =>
            cases hb
            exact ⟨f, .next ho' he ⟨_, e', hr, .inr rfl⟩, rfl⟩
          | _ => cases hb

/-- **The arena of a reached expression is reached.** -/
theorem reached_arena {e : Expr α} (he : e.IsReached) : e.arena.IsReached := by
  induction he with
  | start h =>
    cases h with
    | literal v => exact .start (.literal (leaf_eq (t := .literal () v) rfl))
    | var name => exact .start (.var (leaf_eq (t := .var () name) rfl))
    | infinity => exact .start (.infinity (leaf_eq (t := .infinity ()) rfl))
    | text h => exact .start (.text h)
  | @next o e f ho he h iho ihe =>
    obtain ⟨reply, e', hr, hf⟩ := h
    have hoperands : ∀ a ∈ (o.map Expr.arena).operands, a.IsReached := by
      rw [Edit.operands_map, List.forall_mem_map]
      exact iho
    have hrun := Expr.run_arena (Expr.whole_of_reached he) fun f hf => Expr.whole_of_reached (ho f hf)
    rw [hr] at hrun
    refine .next hoperands ihe ⟨_, _, hrun, ?_⟩
    rcases hf with rfl | rfl
    · exact .inl rfl
    · exact .inr rfl

/-! ## Soundness -/

/-- **What holds of an arena in a run.** -/
structure Sound (a : Arena α) : Prop where
  consistent : a.Consistent
  /-- The check succeeds where nothing that was copied in is left without a place. -/
  checked : a.Joined → a.check = .ok (.ok ())
  /-- An edit breaks down only where it reads a dead node. -/
  answered : ∀ o : Edit α (Arena α), (∀ f ∈ o.operands, f.IsReached) →
    (∃ reply b, run o a = .ok (reply, b)) ∨ ∃ i, a.Misreads i o ∧ run o a = .error (.stale i)
  /-- An edit that is refused leaves the arena as it was. -/
  refused : ∀ (o : Edit α (Arena α)) (err : ExprError) (b : Arena α), (∀ f ∈ o.operands, f.IsReached) →
    run o a = .ok (.error err, b) → b = a
  /-- The arena is that of a reached expression, on which edits have the same answers. -/
  traced : ∃ e : Expr α, e.IsReached ∧ e.arena = a ∧ (a.Joined → e.check = .ok ()) ∧
    ∀ o : Edit α (Expr α), (∀ f ∈ o.operands, f.IsReached) → run (o.map Expr.arena) a = e.image (e.respond o)

/-- **Every arena that is reached is sound.** -/
theorem sound_of_reached {a : Arena α} (ha : a.IsReached) : a.Sound := by
  obtain ⟨e, he, rfl⟩ := exists_expr ha
  have hwhole := Expr.whole_of_reached he
  have hedit : ∀ o : Edit α (Arena α), (∀ f ∈ o.operands, f.IsReached) →
      ∃ o' : Edit α (Expr α), (∀ f ∈ o'.operands, f.Whole) ∧ o'.map Expr.arena = o := fun o ho =>
    Edit.exists_map fun f hf => by
      obtain ⟨g, hg, rfl⟩ := exists_expr (ho f hf)
      exact ⟨g, Expr.whole_of_reached hg, rfl⟩
  refine ⟨Expr.consistent_arena hwhole, fun hjoined => ?_, fun o ho => ?_, fun o err b ho hrun => ?_, e, he, rfl,
    fun hjoined => ?_, fun o ho => ?_⟩
  · exact Expr.check_arena hwhole ((Expr.joined_iff hwhole).mp hjoined)
  · obtain ⟨o', ho', rfl⟩ := hedit o ho
    cases hr : e.respond o' with
    | error err =>
      obtain ⟨i, -, hmisread, hrun⟩ := Expr.run_of_misread hwhole ho' hr
      exact .inr ⟨i, hmisread, hrun⟩
    | ok r =>
      rw [Expr.run_arena hwhole ho', hr]
      cases r with
      | error err => exact .inl ⟨_, _, rfl⟩
      | ok p => exact .inl ⟨_, _, rfl⟩
  · obtain ⟨o', ho', rfl⟩ := hedit o ho
    rw [Expr.run_arena hwhole ho'] at hrun
    cases hr : e.respond o' with
    | error err =>
      rw [hr] at hrun
      cases hrun
    | ok r =>
      rw [hr] at hrun
      cases r with
      | error err =>
        cases hrun
        rfl
      | ok p => cases hrun
  · exact Expr.check_eq_ok hwhole ((Expr.joined_iff hwhole).mp hjoined)
  · exact Expr.run_arena hwhole fun f hf => Expr.whole_of_reached (ho f hf)

/-- After `x + y` lost its sum and its left operand, their slots are free. -/
theorem sound_of_reached_collapse :
    let a : Arena Double := ⟨#[none, some ⟨.var "y", none⟩, none], [⟨0⟩, ⟨2⟩], ⟨1⟩⟩
    a.IsReached ∧ a.Sound := by
  intro a
  have hx : IsReached (⟨#[some ⟨.var "x", none⟩], [], ⟨0⟩⟩ : Arena Double) := .start (.var rfl)
  have hy : IsReached (⟨#[some ⟨.var "y", none⟩], [], ⟨0⟩⟩ : Arena Double) := .start (.var rfl)
  have hsum : IsReached (⟨#[some ⟨.var "x", some ⟨2⟩⟩, some ⟨.var "y", some ⟨2⟩⟩,
      some ⟨.binary .add ⟨0⟩ ⟨1⟩, none⟩], [], ⟨2⟩⟩ : Arena Double) :=
    .next (o := .binary .add _) (List.forall_mem_singleton.mpr hy) hx ⟨_, _, rfl, .inl rfl⟩
  have ha : a.IsReached := .next (o := .collapse ⟨1⟩) nofun hsum ⟨_, _, rfl, .inl rfl⟩
  exact ⟨ha, sound_of_reached ha⟩

end Arena

end SignalFlow
