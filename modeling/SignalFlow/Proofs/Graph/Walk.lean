import SignalFlow.Proofs.Graph.Live
import SignalFlow.Remaining

/-!
# Walks

`Walk g v bs t` says that the branches `bs` lead from `v` to `t`. `walks g target untried avoid` lists, by plain
recursion, the walks to a target that begin with one of the branches `untried` and enter no node twice nor one of
`avoid`: `mem_walks_iff` characterizes its members, and `walks_pairwise` says that they come in lexicographic order of
branch handles.

Each node entered is one node less to be entered, so the recursion ends; `walks_induction` is its induction principle.
-/

namespace SignalFlow.Graph

variable {α : Type} {g : Graph α}

/-- **A walk**: live branches, each of which begins where the one before ends. -/
inductive Walk (g : Graph α) : NodeId → List (Branch α) → NodeId → Prop
  | nil (v : NodeId) : Walk g v [] v
  | cons {b : Branch α} {bs : List (Branch α)} {t : NodeId} :
      b ∈ g.liveBranches → Walk g b.dest bs t → Walk g b.source (b :: bs) t

namespace Walk

variable {u v t : NodeId} {b : Branch α} {bs cs : List (Branch α)}

theorem cons_iff : Walk g v (b :: bs) t ↔ b ∈ g.liveBranches ∧ b.source = v ∧ Walk g b.dest bs t := by
  constructor
  · rintro (_ | ⟨hb, h⟩)
    exact ⟨hb, rfl, h⟩
  · rintro ⟨hb, rfl, h⟩
    exact .cons hb h

theorem nil_iff : Walk g v [] t ↔ v = t := by
  constructor
  · rintro ⟨⟩
    rfl
  · rintro rfl
    exact .nil v

theorem append (h : Walk g u bs v) (h' : Walk g v cs t) : Walk g u (bs ++ cs) t := by
  induction h with
  | nil => exact h'
  | cons hb _ ih => exact .cons hb (ih h')

theorem append_iff : Walk g u (bs ++ cs) t ↔ ∃ v, Walk g u bs v ∧ Walk g v cs t := by
  constructor
  · induction bs generalizing u with
    | nil => exact fun h => ⟨u, .nil u, h⟩
    | cons b bs ih =>
      intro h
      obtain ⟨hb, rfl, hrest⟩ := cons_iff.mp h
      obtain ⟨v, h₁, h₂⟩ := ih hrest
      exact ⟨v, .cons hb h₁, h₂⟩
  · rintro ⟨v, h₁, h₂⟩
    exact h₁.append h₂

theorem mem_liveBranches (h : Walk g v bs t) {b : Branch α} (hb : b ∈ bs) : b ∈ g.liveBranches := by
  induction h with
  | nil => cases hb
  | cons hc _ ih =>
    rcases List.mem_cons.mp hb with rfl | hb
    · exact hc
    · exact ih hb

/-- A walk with a branch enters the node that it leads to. -/
theorem target_mem (h : Walk g v bs t) (hbs : bs ≠ []) : t ∈ bs.map Branch.dest := by
  induction h with
  | nil => exact absurd rfl hbs
  | @cons b bs t _ h ih =>
    by_cases hnil : bs = []
    · subst hnil
      rw [← nil_iff.mp h]
      exact List.mem_cons_self
    · exact List.mem_cons_of_mem _ (ih hnil)

/-- The nodes that a walk leaves and the one it ends at are the one it begins at and those it enters. -/
theorem sources_append (h : Walk g v bs t) : bs.map Branch.source ++ [t] = v :: bs.map Branch.dest := by
  induction h with
  | nil => rfl
  | cons _ _ ih => rw [List.map_cons, List.cons_append, ih, List.map_cons]

end Walk

/-- **A walk that enters no node twice** and none that is to be avoided. -/
structure SimpleWalk (g : Graph α) (v : NodeId) (bs : List (Branch α)) (t : NodeId) (avoid : List NodeId) : Prop where
  walk : Walk g v bs t
  nodup : (bs.map Branch.dest).Nodup
  avoids : ∀ b ∈ bs, b.dest ∉ avoid

namespace SimpleWalk

variable {v t : NodeId} {avoid : List NodeId} {b : Branch α} {bs : List (Branch α)}

theorem nil_iff : SimpleWalk g v [] t avoid ↔ v = t :=
  ⟨fun h => Walk.nil_iff.mp h.walk, fun h => ⟨Walk.nil_iff.mpr h, .nil, fun _ hb => absurd hb List.not_mem_nil⟩⟩

/-- After its first branch, a walk avoids the node that this branch leads to. -/
theorem cons_iff : SimpleWalk g v (b :: bs) t avoid ↔
    b ∈ g.liveBranches ∧ b.source = v ∧ b.dest ∉ avoid ∧ SimpleWalk g b.dest bs t (b.dest :: avoid) := by
  constructor
  · rintro ⟨hwalk, hnodup, havoid⟩
    obtain ⟨hb, hs, hwalk⟩ := Walk.cons_iff.mp hwalk
    obtain ⟨hnot, hnodup⟩ := List.nodup_cons.mp hnodup
    refine ⟨hb, hs, havoid b List.mem_cons_self, hwalk, hnodup, fun c hc => ?_⟩
    rw [List.mem_cons, not_or]
    exact ⟨fun h => hnot (h ▸ List.mem_map_of_mem hc), havoid c (List.mem_cons_of_mem _ hc)⟩
  · rintro ⟨hb, hs, hdest, hwalk, hnodup, havoid⟩
    refine ⟨Walk.cons_iff.mpr ⟨hb, hs, hwalk⟩, List.nodup_cons.mpr ⟨fun h => ?_, hnodup⟩, fun c hc => ?_⟩
    · obtain ⟨c, hc, hcb⟩ := List.mem_map.mp h
      exact havoid c hc (hcb ▸ List.mem_cons_self)
    · rcases List.mem_cons.mp hc with rfl | hc
      · exact hdest
      · exact fun h => havoid c hc (List.mem_cons_of_mem _ h)

/-- No walk comes back to a node that it avoids. -/
theorem eq_nil (h : SimpleWalk g v bs t avoid) (ht : t ∈ avoid) : bs = [] := by
  by_contra hbs
  obtain ⟨b, hb, rfl⟩ := List.mem_map.mp (h.walk.target_mem hbs)
  exact h.avoids b hb ht

end SimpleWalk

/-! ## Enumeration -/

/-- **The walks to a target that begin with one of the branches** `untried`, never entering a node of `avoid` nor one
node twice. -/
def walks (g : Graph α) (target : NodeId) (untried : List (Branch α)) (avoid : List NodeId) :
    List (List (Branch α)) :=
  match untried with
  | [] => []
  | b :: rest =>
    let here :=
      if h : b.dest ∈ g.liveIds ∧ b.dest ∉ avoid then
        if b.dest = target then [[b]]
        else
          have := remaining_cons_lt h.1 h.2
          (g.walks target (g.leaving b.dest) (b.dest :: avoid)).map (b :: ·)
      else []
    here ++ g.walks target rest avoid
termination_by (remaining g.liveIds avoid, untried.length)

variable {target : NodeId} {b : Branch α} {rest : List (Branch α)} {avoid : List NodeId}

@[simp] theorem walks_nil (g : Graph α) (target : NodeId) (avoid : List NodeId) : g.walks target [] avoid = [] := by
  rw [walks]

theorem walks_cons_of_mem (h : b.dest ∈ avoid) :
    g.walks target (b :: rest) avoid = g.walks target rest avoid := by
  rw [walks, dif_neg fun h' => h'.2 h, List.nil_append]

theorem walks_cons_of_eq (hlive : b.dest ∈ g.liveIds) (h : b.dest ∉ avoid) (htarget : b.dest = target) :
    g.walks target (b :: rest) avoid = [b] :: g.walks target rest avoid := by
  rw [walks, dif_pos ⟨hlive, h⟩, if_pos htarget, List.singleton_append]

theorem walks_cons_of_ne (hlive : b.dest ∈ g.liveIds) (h : b.dest ∉ avoid) (htarget : b.dest ≠ target) :
    g.walks target (b :: rest) avoid =
      (g.walks target (g.leaving b.dest) (b.dest :: avoid)).map (b :: ·) ++ g.walks target rest avoid := by
  rw [walks, dif_pos ⟨hlive, h⟩, if_neg htarget]

/-- **Induction along the enumeration**: over the branches left to try, and for each that is followed over the branches
of the node that it leads to. -/
theorem walks_induction {P : List (Branch α) → List NodeId → Prop} (hg : g.WellFormed) (target : NodeId)
    (nil : ∀ avoid, P [] avoid)
    (pass : ∀ b rest avoid, b ∈ g.liveBranches → b.dest ∈ avoid → P rest avoid → P (b :: rest) avoid)
    (stop : ∀ b rest avoid, b ∈ g.liveBranches → b.dest ∉ avoid → b.dest = target → P rest avoid → P (b :: rest) avoid)
    (enter : ∀ b rest avoid, b ∈ g.liveBranches → b.dest ∉ avoid → b.dest ≠ target →
      P (g.leaving b.dest) (b.dest :: avoid) → P rest avoid → P (b :: rest) avoid)
    (untried : List (Branch α)) (avoid : List NodeId) (hlive : ∀ b ∈ untried, b ∈ g.liveBranches) :
    P untried avoid := by
  match untried with
  | [] => exact nil avoid
  | b :: rest =>
    have hb := hlive b List.mem_cons_self
    have hrest : P rest avoid :=
      walks_induction hg target nil pass stop enter rest avoid fun c hc => hlive c (List.mem_cons_of_mem _ hc)
    by_cases h : b.dest ∈ avoid
    · exact pass b rest avoid hb h hrest
    · by_cases htarget : b.dest = target
      · exact stop b rest avoid hb h htarget hrest
      · have := remaining_cons_lt (hg.dest_mem_liveIds hb) h
        exact enter b rest avoid hb h htarget
          (walks_induction hg target nil pass stop enter _ _ fun c hc => (mem_leaving.mp hc).1) hrest
termination_by (remaining g.liveIds avoid, untried.length)

/-- **The walks listed** are those that enter no node twice and none that is to be avoided. -/
theorem mem_walks_iff (hg : g.WellFormed) (target : NodeId) (untried : List (Branch α)) (avoid : List NodeId)
    (hlive : ∀ b ∈ untried, b ∈ g.liveBranches) (bs : List (Branch α)) :
    bs ∈ g.walks target untried avoid ↔
      ∃ b ∈ untried, ∃ cs, bs = b :: cs ∧ SimpleWalk g b.source bs target avoid := by
  refine walks_induction (P := fun untried avoid => ∀ bs, bs ∈ g.walks target untried avoid ↔
    ∃ b ∈ untried, ∃ cs, bs = b :: cs ∧ SimpleWalk g b.source bs target avoid) hg target ?nil ?pass ?stop ?enter
    untried avoid hlive bs
  case nil =>
    intro avoid bs
    simp
  case pass =>
    intro b rest avoid _ h ih bs
    rw [walks_cons_of_mem h, ih, List.exists_mem_cons_iff]
    refine (or_iff_right ?_).symm
    rintro ⟨cs, rfl, hw⟩
    exact (SimpleWalk.cons_iff.mp hw).2.2.1 h
  case stop =>
    intro b rest avoid hb h htarget ih bs
    rw [walks_cons_of_eq (hg.dest_mem_liveIds hb) h htarget, List.mem_cons, ih, List.exists_mem_cons_iff]
    refine or_congr_left ⟨?_, ?_⟩
    · rintro rfl
      exact ⟨[], rfl, SimpleWalk.cons_iff.mpr ⟨hb, rfl, h, SimpleWalk.nil_iff.mpr htarget⟩⟩
    · rintro ⟨cs, rfl, hw⟩
      rw [(SimpleWalk.cons_iff.mp hw).2.2.2.eq_nil (htarget ▸ List.mem_cons_self)]
  case enter =>
    intro b rest avoid hb h htarget ih₁ ih₂ bs
    rw [walks_cons_of_ne (hg.dest_mem_liveIds hb) h htarget, List.mem_append, List.mem_map, ih₂,
      List.exists_mem_cons_iff]
    refine or_congr_left ⟨?_, ?_⟩
    · rintro ⟨cs, hcs, rfl⟩
      obtain ⟨c, hc, ds, rfl, hw⟩ := (ih₁ cs).mp hcs
      rw [(mem_leaving.mp hc).2] at hw
      exact ⟨c :: ds, rfl, SimpleWalk.cons_iff.mpr ⟨hb, rfl, h, hw⟩⟩
    · rintro ⟨cs, rfl, hw⟩
      obtain ⟨-, -, -, hw⟩ := SimpleWalk.cons_iff.mp hw
      refine ⟨cs, (ih₁ cs).mpr ?_, rfl⟩
      cases cs with
      | nil => exact absurd (SimpleWalk.nil_iff.mp hw) htarget
      | cons c ds =>
        obtain ⟨hc, hs, -, -⟩ := SimpleWalk.cons_iff.mp hw
        exact ⟨c, mem_leaving.mpr ⟨hc, hs⟩, ds, rfl, hs ▸ hw⟩

/-- The walks listed from a node. -/
theorem mem_walks_leaving_iff (hg : g.WellFormed) (v target : NodeId) (avoid : List NodeId) (bs : List (Branch α)) :
    bs ∈ g.walks target (g.leaving v) avoid ↔ bs ≠ [] ∧ SimpleWalk g v bs target avoid := by
  rw [mem_walks_iff hg target _ avoid fun b hb => (mem_leaving.mp hb).1]
  constructor
  · rintro ⟨b, hb, cs, rfl, hw⟩
    exact ⟨List.cons_ne_nil _ _, (mem_leaving.mp hb).2 ▸ hw⟩
  · rintro ⟨hbs, hw⟩
    cases bs with
    | nil => exact absurd rfl hbs
    | cons b cs =>
      obtain ⟨hb, hs, -, -⟩ := SimpleWalk.cons_iff.mp hw
      exact ⟨b, mem_leaving.mpr ⟨hb, hs⟩, cs, rfl, hs ▸ hw⟩

/-! ## Order -/

/-- **The lexicographic order** of lists of handles, each in the order of creation. -/
abbrev IdsLt : List Id → List Id → Prop := List.Lex (·.index < ·.index)

/-- The walks of a branch come before those of the branches after it. -/
theorem pairwise_append_walks (hg : g.WellFormed) {target : NodeId} {b : Branch α} {rest : List (Branch α)}
    {avoid : List NodeId} (hlive : ∀ c ∈ rest, c ∈ g.liveBranches) (hsorted : ∀ c ∈ rest, b.id.index < c.id.index)
    {ws : List (List (Branch α))}
    (hws : ws.Pairwise fun p q => IdsLt (p.map Branch.id) (q.map Branch.id))
    (hrest : (g.walks target rest avoid).Pairwise fun p q => IdsLt (p.map Branch.id) (q.map Branch.id)) :
    (ws.map (b :: ·) ++ g.walks target rest avoid).Pairwise fun p q => IdsLt (p.map Branch.id) (q.map Branch.id) := by
  refine List.pairwise_append.mpr ⟨List.pairwise_map.mpr (hws.imp .cons), hrest, fun p hp q hq => ?_⟩
  obtain ⟨p, -, rfl⟩ := List.mem_map.mp hp
  obtain ⟨c, hc, cs, rfl, -⟩ := (mem_walks_iff hg target rest avoid hlive q).mp hq
  exact .rel (hsorted c hc)

/-- **The walks are listed in lexicographic order** of their branches. -/
theorem walks_pairwise (hg : g.WellFormed) (target : NodeId) (untried : List (Branch α)) (avoid : List NodeId)
    (hlive : ∀ b ∈ untried, b ∈ g.liveBranches) (hsorted : untried.Pairwise (·.id.index < ·.id.index)) :
    (g.walks target untried avoid).Pairwise fun p q => IdsLt (p.map Branch.id) (q.map Branch.id) := by
  refine walks_induction (P := fun untried avoid => (∀ b ∈ untried, b ∈ g.liveBranches) →
    untried.Pairwise (·.id.index < ·.id.index) →
      (g.walks target untried avoid).Pairwise fun p q => IdsLt (p.map Branch.id) (q.map Branch.id))
    hg target ?nil ?pass ?stop ?enter untried avoid hlive hlive hsorted
  case nil =>
    intro avoid _ _
    rw [walks_nil]
    exact .nil
  case pass =>
    intro b rest avoid _ h ih hlive hsorted
    rw [walks_cons_of_mem h]
    exact ih (fun c hc => hlive c (List.mem_cons_of_mem _ hc)) (List.pairwise_cons.mp hsorted).2
  case stop =>
    intro b rest avoid hb h htarget ih hlive hsorted
    obtain ⟨hlt, hsorted⟩ := List.pairwise_cons.mp hsorted
    have hlive : ∀ c ∈ rest, c ∈ g.liveBranches := fun c hc => hlive c (List.mem_cons_of_mem _ hc)
    rw [walks_cons_of_eq (hg.dest_mem_liveIds hb) h htarget]
    have hsingle : [[]].Pairwise fun p q : List (Branch α) => IdsLt (p.map Branch.id) (q.map Branch.id) :=
      List.pairwise_singleton _ _
    exact pairwise_append_walks hg hlive hlt hsingle (ih hlive hsorted)
  case enter =>
    intro b rest avoid hb h htarget ih₁ ih₂ hlive hsorted
    obtain ⟨hlt, hsorted⟩ := List.pairwise_cons.mp hsorted
    have hlive : ∀ c ∈ rest, c ∈ g.liveBranches := fun c hc => hlive c (List.mem_cons_of_mem _ hc)
    rw [walks_cons_of_ne (hg.dest_mem_liveIds hb) h htarget]
    exact pairwise_append_walks hg hlive hlt
      (ih₁ (fun c hc => (mem_leaving.mp hc).1) (hg.leaving_pairwise b.dest)) (ih₂ hlive hsorted)

end SignalFlow.Graph
