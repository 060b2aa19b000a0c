import Mathlib.Data.List.MinMax
import Mathlib.Data.List.Rotate
import SignalFlow.Double
import SignalFlow.Proofs.Graph.Change
import SignalFlow.Proofs.Graph.Search

/-!
# Exact enumeration

On every reachable graph both enumerations succeed and list exactly what they should, once and in order:

* `forwardPaths_exact`: the walks from the input to the output that visit no node twice, in lexicographic order;
* `loops_exact`: the elementary loops, each written from its node that was created first, by that node and then in
  lexicographic order.

Of the rotations of a loop only one is written from the first node, since a loop leaves no node twice
(`eq_of_isRotated`); so each loop is listed once, whatever branch one begins at.
-/

namespace SignalFlow.Graph

variable {α : Type} {g : Graph α}

theorem idsLt_irrefl (is : List Id) : ¬IdsLt is is :=
  List.lex_irrefl (fun i => Nat.lt_irrefl i.index) is

/-- Paths in a strict order are different. -/
theorem nodup_of_pairwise {R : Path → Path → Prop} (hR : ∀ p, ¬R p p) {ps : List Path} (h : ps.Pairwise R) :
    ps.Nodup := by
  refine List.Pairwise.imp (fun {p q} hpq => ?_) h
  rintro rfl
  exact hR p hpq

/-! ## Forward paths -/

/-- The node that a walk begins at is visited before those that it enters. -/
theorem simpleWalk_singleton_iff {input output : NodeId} {bs : List (Branch α)} :
    SimpleWalk g input bs output [input] ↔ Walk g input bs output ∧ (input :: bs.map Branch.dest).Nodup := by
  rw [List.nodup_cons, List.mem_map]
  constructor
  · rintro ⟨hwalk, hnodup, havoid⟩
    exact ⟨hwalk, fun ⟨b, hb, hd⟩ => havoid b hb (List.mem_singleton.mpr hd), hnodup⟩
  · rintro ⟨hwalk, hnot, hnodup⟩
    exact ⟨hwalk, hnodup, fun b hb hd => hnot ⟨b, hb, List.mem_singleton.mp hd⟩⟩

/-- **Forward paths are enumerated exactly**: the answer holds the walks from the input to the output that visit no node
twice, each once, in lexicographic order of branches. -/
theorem forwardPaths_exact [Scalar α] (hg : g.Reachable) {input output : NodeId} (hi : input ∈ g.liveIds)
    (ho : output ∈ g.liveIds) (hne : input ≠ output) :
    ∃ ps, g.forwardPaths input output = .ok ps ∧
      (∀ p, p ∈ ps ↔ ∃ bs, Walk g input bs output ∧ (input :: bs.map Branch.dest).Nodup ∧ p = pathOf bs) ∧
      ps.Nodup ∧ ps.Pairwise fun p q => IdsLt p.branches q.branches := by
  have hwf := hg.wellFormed
  have hsorted : ((g.walks output (g.leaving input) [input]).map pathOf).Pairwise
      fun p q => IdsLt p.branches q.branches :=
    List.pairwise_map.mpr
      (walks_pairwise hwf output _ _ (fun b hb => (mem_leaving.mp hb).1) (hwf.leaving_pairwise input))
  refine ⟨_, forwardPaths_eq hwf hi ho hne, fun p => ?_,
    nodup_of_pairwise (fun p => idsLt_irrefl p.branches) hsorted, hsorted⟩
  rw [List.mem_map]
  refine exists_congr fun bs => ?_
  rw [mem_walks_leaving_iff hwf, simpleWalk_singleton_iff, and_assoc, and_assoc, eq_comm (a := p)]
  refine and_iff_right_of_imp fun ⟨hwalk, _⟩ hbs => ?_
  subst hbs
  exact hne (Walk.nil_iff.mp hwalk)

/-- Two parallel branches are two forward paths. -/
theorem forwardPaths_exact_feedback :
    ∃ ps, (feedback Double).forwardPaths ⟨0⟩ ⟨1⟩ = .ok ps ∧ ⟨[⟨0⟩]⟩ ∈ ps ∧ ⟨[⟨1⟩]⟩ ∈ ps ∧ ps.Nodup := by
  have hi : ⟨0⟩ ∈ (feedback Double).liveIds := by simp [liveIds_feedback]
  have ho : ⟨1⟩ ∈ (feedback Double).liveIds := by simp [liveIds_feedback]
  obtain ⟨ps, hps, hmem, hnodup, -⟩ := forwardPaths_exact (feedback_reachable Double) hi ho (by decide)
  have hbranch : ∀ b ∈ (feedback Double).liveBranches, b.source = ⟨0⟩ → b.dest = ⟨1⟩ → ⟨[b.id]⟩ ∈ ps := by
    intro b hb hs hd
    refine (hmem _).mpr ⟨[b], Walk.cons_iff.mpr ⟨hb, hs, Walk.nil_iff.mpr hd⟩, ?_, rfl⟩
    rw [List.map_cons, hd]
    decide
  refine ⟨ps, hps, ?_, ?_, hnodup⟩
  · exact hbranch ⟨⟨0⟩, ⟨0⟩, ⟨1⟩, Expr.literal Scalar.one⟩ (by simp [liveBranches_feedback]) rfl rfl
  · exact hbranch ⟨⟨1⟩, ⟨0⟩, ⟨1⟩, Expr.literal Scalar.one⟩ (by simp [liveBranches_feedback]) rfl rfl

/-- One branch is the only forward path. -/
theorem forwardPaths_aside (α : Type) [Scalar α] : (aside α).forwardPaths ⟨0⟩ ⟨1⟩ = .ok [⟨[⟨0⟩]⟩] := by
  have hi : ⟨0⟩ ∈ (aside α).liveIds := by simp [liveIds_aside]
  have ho : ⟨1⟩ ∈ (aside α).liveIds := by simp [liveIds_aside]
  rw [forwardPaths_eq (aside_reachable α).wellFormed hi ho (by decide)]
  simp [walks, leaving, liveBranches_aside, liveIds_aside, pathOf]

/-! ## Loops -/

/-- **An elementary loop at a node**: branches that lead from the node back to it and leave no node twice. -/
structure Loop (g : Graph α) (v : NodeId) (bs : List (Branch α)) : Prop where
  ne_nil : bs ≠ []
  walk : Walk g v bs v
  nodup : (bs.map Branch.source).Nodup

namespace Loop

variable {u v : NodeId} {bs cs : List (Branch α)}

/-- A loop leaves the nodes that it enters. -/
theorem sources_perm (h : Walk g v bs v) : (bs.map Branch.source).Perm (bs.map Branch.dest) := by
  have hperm := (List.perm_append_singleton v (bs.map Branch.source)).symm
  rw [h.sources_append] at hperm
  exact hperm.cons_inv

/-- A loop at a node is a walk back to it that enters no node twice. -/
theorem iff_simpleWalk : Loop g v bs ↔ bs ≠ [] ∧ SimpleWalk g v bs v [] := by
  constructor
  · intro h
    exact ⟨h.ne_nil, h.walk, (sources_perm h.walk).nodup_iff.mp h.nodup, fun _ _ => List.not_mem_nil⟩
  · rintro ⟨hbs, h⟩
    exact ⟨hbs, h.walk, (sources_perm h.walk).nodup_iff.mpr h.nodup⟩

/-- A loop may be written from any of its nodes. -/
theorem rotate (h : Loop g v (bs ++ cs)) (hcs : cs ≠ []) :
    ∃ u, (cs.map Branch.source).head? = some u ∧ Loop g u (cs ++ bs) := by
  obtain ⟨u, h₁, h₂⟩ := Walk.append_iff.mp h.walk
  refine ⟨u, ?_, List.append_ne_nil_of_left_ne_nil hcs _, h₂.append h₁, ?_⟩
  · cases cs with
    | nil => exact absurd rfl hcs
    | cons c cs => rw [← (Walk.cons_iff.mp h₂).2.1]; rfl
  · have hnodup := h.nodup
    rw [List.map_append] at hnodup ⊢
    exact List.nodup_append_comm.mp hnodup

theorem nodup_branches (h : Loop g v bs) : bs.Nodup := h.nodup.of_map _

/-- The first branch of a loop at a node leaves that node. -/
theorem exists_cons (h : Loop g v bs) : ∃ b cs, bs = b :: cs ∧ b ∈ g.liveBranches ∧ b.source = v := by
  cases bs with
  | nil => exact absurd rfl h.ne_nil
  | cons b cs =>
    obtain ⟨hb, hs, -⟩ := Walk.cons_iff.mp h.walk
    exact ⟨b, cs, rfl, hb, hs⟩

/-- A loop at a node leaves that node. -/
theorem mem_sources (h : Loop g v bs) : v ∈ bs.map Branch.source := by
  obtain ⟨b, cs, rfl, -, rfl⟩ := h.exists_cons
  exact List.mem_cons_self

end Loop

/-- Rotations of a list without repetitions that begin alike are equal. -/
theorem eq_of_isRotated {β : Type} {xs ys : List β} (hnodup : xs.Nodup) (h : xs ~r ys) (hhead : xs.head? = ys.head?) :
    xs = ys := by
  obtain ⟨n, hn, rfl⟩ := List.isRotated_iff_mod.mp h
  rcases Nat.lt_or_eq_of_le hn with hlt | rfl
  · rw [List.head?_rotate hlt, List.head?_eq_getElem?] at hhead
    rw [← (List.getElem?_inj (Nat.zero_lt_of_lt hlt) hnodup).mp hhead, List.rotate_zero]
  · exact (List.rotate_length xs).symm

/-- **The loops in the order of enumeration**: by their first nodes, and for one node in lexicographic order. -/
def LoopBefore (g : Graph α) (p q : Path) : Prop :=
  ∃ u v, (p.branches.head?.bind g.branch?).map Branch.source = some u ∧
    (q.branches.head?.bind g.branch?).map Branch.source = some v ∧
    (u.index < v.index ∨ u = v ∧ IdsLt p.branches q.branches)

/-- The loops from an anchor that avoid the nodes before it. -/
theorem loop_iff_avoids (hg : g.WellFormed) {v : NodeId} {earlier : List NodeId}
    (hearlier : ∀ u ∈ g.liveIds, u ∈ earlier ↔ u.index < v.index) {bs : List (Branch α)} :
    bs ≠ [] ∧ SimpleWalk g v bs v earlier ↔ Loop g v bs ∧ ∀ b ∈ bs, v.index ≤ b.source.index := by
  rw [Loop.iff_simpleWalk, and_assoc]
  refine and_congr_right fun _ => ⟨fun ⟨hwalk, hnodup, havoid⟩ => ?_, fun ⟨⟨hwalk, hnodup, _⟩, hle⟩ => ?_⟩
  · refine ⟨⟨hwalk, hnodup, fun _ _ => List.not_mem_nil⟩, fun b hb => Nat.le_of_not_lt fun hlt => ?_⟩
    have hmem : b.source ∈ bs.map Branch.dest := (Loop.sources_perm hwalk).subset (List.mem_map_of_mem hb)
    obtain ⟨c, hc, hcb⟩ := List.mem_map.mp hmem
    exact havoid c hc ((hearlier _ (hg.dest_mem_liveIds (hwalk.mem_liveBranches hc))).mpr (hcb ▸ hlt))
  · refine ⟨hwalk, hnodup, fun b hb hmem => ?_⟩
    have hlt := (hearlier _ (hg.dest_mem_liveIds (hwalk.mem_liveBranches hb))).mp hmem
    obtain ⟨c, hc, hcb⟩ := List.mem_map.mp ((Loop.sources_perm hwalk).symm.subset (List.mem_map_of_mem hb))
    exact Nat.not_lt_of_le (hle c hc) (hcb ▸ hlt)

/-- The walks listed from a node back to it are loops. -/
theorem loop_of_mem_walks (hg : g.WellFormed) {v : NodeId} {earlier : List NodeId} {bs : List (Branch α)}
    (h : bs ∈ g.walks v (g.leaving v) earlier) : Loop g v bs := by
  obtain ⟨hne, hwalk⟩ := (mem_walks_leaving_iff hg v v earlier bs).mp h
  exact Loop.iff_simpleWalk.mpr ⟨hne, hwalk.walk, hwalk.nodup, fun _ _ => List.not_mem_nil⟩

/-- **The walks that loop** are the loops written from their first nodes. -/
theorem mem_loopWalks_iff (hg : g.WellFormed) {earlier anchors : List NodeId}
    (hsplit : earlier.reverse ++ anchors = g.liveIds) (bs : List (Branch α)) :
    bs ∈ g.loopWalks earlier anchors ↔ ∃ v ∈ anchors, Loop g v bs ∧ ∀ b ∈ bs, v.index ≤ b.source.index := by
  induction anchors generalizing earlier with
  | nil => simp [loopWalks]
  | cons v rest ih =>
    have hsplit' : (v :: earlier).reverse ++ rest = g.liveIds := by simpa using hsplit
    have hsorted : Oldest (earlier.reverse ++ v :: rest) := hsplit ▸ hg.oldest_liveIds
    have hearlier : ∀ u ∈ g.liveIds, u ∈ earlier ↔ u.index < v.index := by
      intro u hu
      obtain ⟨-, hrest, hcross⟩ := List.pairwise_append.mp hsorted
      rw [← hsplit, List.mem_append, List.mem_reverse] at hu
      refine ⟨fun h => hcross u (List.mem_reverse.mpr h) v List.mem_cons_self, fun hlt => hu.resolve_right fun h => ?_⟩
      rcases List.mem_cons.mp h with rfl | h
      · exact Nat.lt_irrefl _ hlt
      · exact Nat.lt_asymm hlt ((List.pairwise_cons.mp hrest).1 u h)
    rw [loopWalks, List.mem_append, mem_walks_leaving_iff hg, loop_iff_avoids hg hearlier,
      ih hsplit', List.exists_mem_cons_iff]

/-- The node that the path of a loop begins at. -/
theorem Loop.source_head (hg : g.WellFormed) {v : NodeId} {bs : List (Branch α)} (h : Loop g v bs) :
    ((pathOf bs).branches.head?.bind g.branch?).map Branch.source = some v := by
  obtain ⟨b, cs, rfl, hb, hs⟩ := h.exists_cons
  simp [pathOf, hg.mem_liveBranches.mp hb, hs]

/-- The walks that loop are listed by anchor, and those of one anchor in lexicographic order. -/
theorem loopWalks_pairwise (hg : g.WellFormed) {earlier anchors : List NodeId}
    (hsplit : earlier.reverse ++ anchors = g.liveIds) :
    (g.loopWalks earlier anchors).Pairwise fun p q => g.LoopBefore (pathOf p) (pathOf q) := by
  induction anchors generalizing earlier with
  | nil => exact .nil
  | cons v rest ih =>
    have hsplit' : (v :: earlier).reverse ++ rest = g.liveIds := by simpa using hsplit
    have hstart : ∀ bs ∈ g.walks v (g.leaving v) earlier, Loop g v bs := fun _ => loop_of_mem_walks hg
    refine List.pairwise_append.mpr ⟨?_, ih hsplit', fun p hp q hq => ?_⟩
    · refine (walks_pairwise hg v _ earlier (fun b hb => (mem_leaving.mp hb).1) (hg.leaving_pairwise v)).imp_of_mem ?_
      intro p q hp hq hlt
      exact ⟨v, v, (hstart p hp).source_head hg, (hstart q hq).source_head hg, .inr ⟨rfl, hlt⟩⟩
    · obtain ⟨u, hu, hloop, -⟩ := (mem_loopWalks_iff hg hsplit' q).mp hq
      have hsorted : Oldest (earlier.reverse ++ v :: rest) := hsplit ▸ hg.oldest_liveIds
      have hlt := (List.pairwise_cons.mp (List.pairwise_append.mp hsorted).2.1).1 u hu
      exact ⟨v, u, (hstart p hp).source_head hg, hloop.source_head hg, .inl hlt⟩

/-- Every loop is written from its first node in some way. -/
theorem Loop.exists_first {v : NodeId} {bs : List (Branch α)} (h : Loop g v bs) :
    ∃ u cs, Loop g u cs ∧ (∀ b ∈ cs, u.index ≤ b.source.index) ∧ cs ~r bs := by
  obtain ⟨b, hb⟩ := Option.ne_none_iff_exists'.mp (mt (List.argmin_eq_none (f := fun b => b.source.index)).mp h.ne_nil)
  obtain ⟨pre, post, rfl⟩ := List.append_of_mem (List.argmin_mem hb)
  obtain ⟨u, hu, hloop⟩ := h.rotate (List.cons_ne_nil b post)
  obtain rfl : b.source = u := Option.some.inj hu
  refine ⟨b.source, _, hloop, fun c hc => ?_, List.isRotated_append⟩
  exact List.le_of_mem_argmin (f := fun b => b.source.index) (List.perm_append_comm.subset hc) hb

/-- Loops of which the one is a rotation of the other, as far as their handles go, have the same branches. -/
theorem Loop.mem_of_isRotated (hg : g.WellFormed) {u v : NodeId} {bs cs : List (Branch α)} (hbs : Loop g u bs)
    (hcs : Loop g v cs) (h : bs.map Branch.id ~r cs.map Branch.id) {b : Branch α} (hb : b ∈ bs) : b ∈ cs := by
  obtain ⟨c, hc, hcb⟩ := List.mem_map.mp (h.perm.subset (List.mem_map_of_mem hb))
  exact hg.eq_of_id_eq (hcs.walk.mem_liveBranches hc) (hbs.walk.mem_liveBranches hb) hcb ▸ hc

/-- A loop is written from its first node in only one way. -/
theorem Loop.eq_of_first (hg : g.WellFormed) {u v : NodeId} {bs cs : List (Branch α)} (hb : Loop g u bs)
    (hu : ∀ b ∈ bs, u.index ≤ b.source.index) (hc : Loop g v cs) (hv : ∀ c ∈ cs, v.index ≤ c.source.index)
    (h : bs.map Branch.id ~r cs.map Branch.id) : bs.map Branch.id = cs.map Branch.id := by
  obtain ⟨b, bs, rfl, -, rfl⟩ := hb.exists_cons
  obtain ⟨c, cs, rfl, -, rfl⟩ := hc.exists_cons
  have hcb : c ∈ b :: bs := hc.mem_of_isRotated hg hb h.symm List.mem_cons_self
  -- Each begins at the first of the same nodes, so with the same branch.
  have hle : b.source.index ≤ c.source.index := hu c hcb
  have hge : c.source.index ≤ b.source.index := hv b (hb.mem_of_isRotated hg hc h List.mem_cons_self)
  have hsource : b.source = c.source := Id.index_inj.mp (Nat.le_antisymm hle hge)
  obtain rfl : b = c := List.inj_on_of_nodup_map hb.nodup List.mem_cons_self hcb hsource
  have hnodup : ((b :: bs).map Branch.id).Nodup := by
    refine List.Nodup.map_on (fun c hc d hd hcd => ?_) hb.nodup_branches
    exact hg.eq_of_id_eq (hb.walk.mem_liveBranches hc) (hb.walk.mem_liveBranches hd) hcd
  exact eq_of_isRotated hnodup h rfl

theorem loopBefore_irrefl (g : Graph α) (p : Path) : ¬g.LoopBefore p p := by
  rintro ⟨u, v, hu, hv, h⟩
  obtain rfl : u = v := Option.some.inj (hu.symm.trans hv)
  exact h.elim (Nat.lt_irrefl _) fun h => idsLt_irrefl _ h.2

/-- **Loops are enumerated exactly**: the answer holds the elementary loops written from their first nodes, so that each
loop, from whatever node it is written, is in the answer in exactly one rotation; and it is in the order of the first
nodes, for one node in lexicographic order of branches. -/
theorem loops_exact [Scalar α] (hg : g.Reachable) :
    ∃ ls, g.loops = .ok ls ∧
      (∀ p, p ∈ ls ↔ ∃ v bs, Loop g v bs ∧ (∀ b ∈ bs, v.index ≤ b.source.index) ∧ p = pathOf bs) ∧
      (∀ v bs, Loop g v bs → ∃! p, p ∈ ls ∧ p.branches ~r bs.map Branch.id) ∧
      ls.Nodup ∧ ls.Pairwise g.LoopBefore := by
  have hwf := hg.wellFormed
  have hmem : ∀ p, p ∈ (g.loopWalks [] g.liveIds).map pathOf ↔
      ∃ v bs, Loop g v bs ∧ (∀ b ∈ bs, v.index ≤ b.source.index) ∧ p = pathOf bs := by
    intro p
    rw [List.mem_map]
    constructor
    · rintro ⟨bs, hbs, rfl⟩
      obtain ⟨v, -, hloop, hfirst⟩ := (mem_loopWalks_iff hwf rfl bs).mp hbs
      exact ⟨v, bs, hloop, hfirst, rfl⟩
    · rintro ⟨v, bs, hloop, hfirst, rfl⟩
      obtain ⟨b, cs, rfl, hb, rfl⟩ := hloop.exists_cons
      exact ⟨_, (mem_loopWalks_iff hwf rfl _).mpr ⟨_, hwf.source_mem_liveIds hb, hloop, hfirst⟩, rfl⟩
  have hsorted : ((g.loopWalks [] g.liveIds).map pathOf).Pairwise g.LoopBefore :=
    List.pairwise_map.mpr (loopWalks_pairwise hwf rfl)
  refine ⟨_, loops_eq hwf, hmem, fun v bs hloop => ?_, nodup_of_pairwise g.loopBefore_irrefl hsorted, hsorted⟩
  obtain ⟨u, cs, hcs, hfirst, hrot⟩ := hloop.exists_first
  refine ⟨pathOf cs, ⟨(hmem _).mpr ⟨u, cs, hcs, hfirst, rfl⟩, hrot.map _⟩, ?_⟩
  rintro p ⟨hp, hprot⟩
  obtain ⟨w, ds, hds, hfirst', rfl⟩ := (hmem p).mp hp
  exact congrArg Path.mk (Loop.eq_of_first hwf hds hfirst' hcs hfirst (hprot.trans (hrot.map _).symm))

/-- Two parallel branches with one back are two loops. -/
theorem loops_exact_feedback :
    ∃ ls, (feedback Double).loops = .ok ls ∧ ⟨[⟨0⟩, ⟨2⟩]⟩ ∈ ls ∧ ⟨[⟨1⟩, ⟨2⟩]⟩ ∈ ls ∧ ls.Nodup := by
  obtain ⟨ls, hls, hmem, -, hnodup, -⟩ := loops_exact (feedback_reachable Double)
  have hback : ∀ b ∈ (feedback Double).liveBranches, b.source = ⟨0⟩ → b.dest = ⟨1⟩ → ⟨[b.id, ⟨2⟩]⟩ ∈ ls := by
    intro b hb hs hd
    have hwalk : Walk (feedback Double) ⟨0⟩ [b, ⟨⟨2⟩, ⟨1⟩, ⟨0⟩, Expr.literal Scalar.one⟩] ⟨0⟩ :=
      Walk.cons_iff.mpr ⟨hb, hs, Walk.cons_iff.mpr ⟨by simp [liveBranches_feedback], hd.symm, .nil _⟩⟩
    refine (hmem _).mpr ⟨⟨0⟩, _, ⟨List.cons_ne_nil _ _, hwalk, ?_⟩, fun _ _ => Nat.zero_le _, rfl⟩
    rw [List.map_cons, hs]
    decide
  refine ⟨ls, hls, ?_, ?_, hnodup⟩
  · exact hback ⟨⟨0⟩, ⟨0⟩, ⟨1⟩, Expr.literal Scalar.one⟩ (by simp [liveBranches_feedback]) rfl rfl
  · exact hback ⟨⟨1⟩, ⟨0⟩, ⟨1⟩, Expr.literal Scalar.one⟩ (by simp [liveBranches_feedback]) rfl rfl

/-- A branch from a node to itself is the only loop. -/
theorem loops_aside (α : Type) [Scalar α] : (aside α).loops = .ok [⟨[⟨1⟩]⟩] := by
  rw [loops_eq (aside_reachable α).wellFormed]
  simp [loopWalks, walks, leaving, liveBranches_aside, liveIds_aside, pathOf]

end SignalFlow.Graph
