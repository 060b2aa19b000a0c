import SignalFlow.Proofs.Arena.Climb

/-!
# Expanding calls in an arena

A call is expanded in an arena in three stages: its argument is moved out of the list (`moveArgument_does`), the power
is made and put in the place of `exp` (`plantPower_does`), and the list that is left is dropped (`dropList_does`).
Together they are one `CallStep` of the tree (`rewriteCall_does`). So the loop follows the steps of the tree to their
end, where no call is left, or to the call that is refused (`replaceCalls_does`, `replaceCalls_refused`).
-/

namespace SignalFlow

open Arena SignalFlow.Tree Reader

variable {α : Type}

namespace Hole

variable (h : Hole Id α)

/-- The place beside one more tree that is nowhere yet. -/
def beside (d : Tree Id α) : Hole Id α := { h with after := d :: h.after }

/-- The place below frames. -/
def inside (fs : List (Frame Id α)) : Hole Id α := { h with frames := fs ++ h.frames }

theorem layout_beside (d : Tree Id α) (s : Slots) (t : Tree Id α) :
    (h.beside d).layout s t = ⟨s, h.root t.label, d.cells none + (t.cells h.parent? + h.around t.label)⟩ := by
  have haround : (h.beside d).around t.label = h.around t.label + d.cells none := by
    rw [around, around, beside, cellsAll_append, cellsAll_append, cellsAll]
    abel
  change (⟨s, h.root t.label, t.cells h.parent? + (h.beside d).around t.label⟩ : Layout α) = _
  rw [haround, ← add_assoc, add_comm (d.cells none)]

theorem layout_inside (fs : List (Frame Id α)) (s : Slots) (t : Tree Id α) :
    (h.inside fs).layout s t = h.layout s (plug fs t) :=
  layout_append fs h.frames h.before h.after s t

end Hole

namespace Arena

variable {s : Slots} {h : Hole Id α}

theorem moveArgument_does (h : Hole Id α) (s : Slots) (k : Id) (argument : Tree Id α) :
    Does (moveArgument k argument.label) (h.layout s (.list k [argument])) (.ok ())
      ((h.beside argument).layout s (.list k [])) := by
  have hset := setNode_does (s := s) (r := h.root k) (i := k) (c := ⟨.list [argument.label], h.parent?⟩)
    (C := argument.cells (some k) + h.around k) (.list [])
  have hmove := setParent_tree (s := s) (r := h.root k) (C := {(k, ⟨.list [], h.parent?⟩)} + h.around k) argument
    (some k) none
  rw [Hole.layout_beside]
  refine (hset.of_eq ?_ rfl).bind (hmove.of_eq (add_left_comm ..) ?_)
  · change {(k, _)} + (argument.cells (some k) + 0) + h.around k = _
    rw [add_zero, add_assoc]
    rfl
  · change argument.cells none + ({(k, _)} + 0 + h.around k) = _
    rw [add_zero]
    rfl

theorem plantPower_does (h : Hole Id α) (s : Slots) (l : Id) (argument : Tree Id α) :
    Does (plantPower l argument.label) ((h.beside argument).layout s (.var l expName)) (.ok ())
      (h.layout (s.take.2.take.2.release [l]) (callPower s argument)) := by
  let base : Tree Id α := .var s.take.1 baseName
  let power := callPower s argument
  let C := (Tree.var l expName : Tree Id α).cells h.parent? + h.around l
  have hbase := alloc_tree (t := base) (s := s) (r := h.root l) (C := argument.cells none + C) rfl
  have hpower := alloc_tree (t := power) (s := s.take.2) (r := h.root l) (C := C) rfl
  have hrelink := relink_does l (s := s.take.2.take.2) (h := h) (n := .var expName) (u := power) (q := none) (C := 0)
  have hfree := freeTree_does (s := s.take.2.take.2) (r := h.root power.label)
    (C := h.around power.label + (power.cells h.parent? + 0)) (.var l expName) none
  rw [Hole.layout_beside]
  refine (hbase.of_eq (zero_add _).symm rfl).bind ((hpower.of_eq ?_ rfl).bind ?_)
  · change base.cells none + (argument.cells none + C) = base.cells none + (argument.cells none + 0) + C
    rw [add_zero, add_assoc]
  · refine (hrelink.of_eq ?_ rfl).bind (hfree.of_eq rfl ?_)
    · change power.cells none + ({(l, _)} + h.around l) = _
      abel
    · rw [add_zero]
      exact add_comm ..

theorem dropList_does (h : Hole Id α) (s : Slots) (holder k : Id) (t : Tree Id α) :
    Does (dropList k) (h.layout s (.binary holder .mul t (.list k []))) (.ok ())
      (h.layout (s.release [holder, k]) t) := by
  refine Does.of_whole fun hwhole => ?_
  have hsits := h.sits s (.binary holder .mul t (.list k []))
  have hk : t.label ≠ k := by
    have hnodup := hwhole.nodup_labels hsits
    rw [labels_binary, List.nodup_cons, List.nodup_append] at hnodup
    exact hnodup.2.2.2 t.label t.label_mem_labels k (label_mem_labels (.list k []))
  have hparent : (k, ⟨.list [], some holder⟩) ∈ (h.layout s (.binary holder .mul t (.list k []))).cells := by
    have hmem := Hole.mem_layout (h.push (.right holder .mul t)) s (.list k [])
    rwa [Hole.layout_push] at hmem
  refine (parentAt_does hparent).bind ?_
  refine (Does.look (b := [t.label, k]) fun a ha => congrArg _ (ha.children_tree hsits)).bind ?_
  have hfind : [t.label, k].find? (· ≠ k) = some t.label := List.find?_cons_of_pos (decide_eq_true hk)
  rw [hfind]
  exact collapse_does h (.left holder .mul (.list k [])) s t

/-- **Making the power of a call** in the place of its variable, which is inside the product that holds the list. -/
theorem graftPower_does (h : Hole Id α) (gs : List (Frame Id α)) (s : Slots) (l holder k : Id) (argument : Tree Id α) :
    Does (graftPower l k argument.label)
      (h.layout s (.binary holder .mul (plug gs (.var l expName)) (.list k [argument]))) (.ok ())
      (h.layout (s.take.2.take.2.release [l, holder, k]) (plug gs (callPower s argument))) := by
  have hmove := moveArgument_does (h.push (.right holder .mul (plug gs (.var l expName)))) s k argument
  have hplant := plantPower_does ((h.push (.left holder .mul (.list k []))).inside gs) s l argument
  have hdrop := dropList_does h (s.take.2.take.2.release [l]) holder k (plug gs (callPower s argument))
  rw [Hole.layout_push] at hmove
  -- After the first stage the list is empty and the argument is nowhere, wherever one looks from.
  have hbeside : ((h.push (.right holder .mul (plug gs (.var l expName)))).beside argument).layout s (.list k []) =
      (((h.push (.left holder .mul (.list k []))).inside gs).beside argument).layout s (.var l expName) := by
    have hright := (h.beside argument).layout_push (.right holder .mul (plug gs (.var l expName))) s (.list k [])
    have hleft := (h.beside argument).layout_push (.left holder .mul (.list k [])) s (plug gs (.var l expName))
    exact hright.trans (hleft.symm.trans (Hole.layout_inside _ gs s _).symm)
  rw [← hbeside, Hole.layout_inside, Hole.layout_push] at hplant
  exact hmove.bind (hplant.bind hdrop)

/-! ## The first call -/

section First

variable {fs : List (Frame Id α)} {t u : Tree Id α} {T : Tree Id α} {l : Id}

/-- Where no call stands before a place, the first call of what is there is the first one of the tree. -/
theorem find?_plug (hfs : Passed fs) (ht : t.preorder.find? (fun t => t.name? = some expName) = some u) :
    (plug fs t).preorder.find? (fun t => t.name? = some expName) = some u := by
  induction fs generalizing t with
  | nil => exact ht
  | cons f fs ih =>
    obtain ⟨hf, hfs⟩ := passed_cons.mp hfs
    refine ih hfs ?_
    have hroot : (f.fill t).name? = none := by cases f <;> rfl
    have hbefore : (f.before.flatMap preorder).find? (fun t => t.name? = some expName) = none := by
      refine List.find?_eq_none.mpr fun v hv => ?_
      obtain ⟨w, hw, hv⟩ := List.mem_flatMap.mp hv
      exact fun hname => hf w hw v hv (of_decide_eq_true hname)
    rw [preorder_eq, List.find?_cons_of_neg (by simp [hroot]), f.children_fill, List.flatMap_append,
      List.find?_append, hbefore, Option.none_or, List.flatMap_cons, List.find?_append, ht, Option.some_or]

variable {D : List (Tree Id α)}

theorem findVariable_does (D : List (Tree Id α)) (s : Slots) (T : Tree Id α) :
    Does (Step.look fun a => a.findVariable expName) (Hole.layout ⟨[], [], D⟩ s T)
      (.ok ((T.preorder.find? fun t => t.name? = some expName).map label)) (Hole.layout ⟨[], [], D⟩ s T) :=
  Does.look fun _ ha => findVariable_eq ha expName (Hole.sits _ s T) rfl

/-- A tree without calls. -/
theorem replaceCallsLoop_free (hT : CallFree T) (fuel n : Nat) :
    Does (replaceCallsLoop (fuel + 1) n) (Hole.layout ⟨[], [], D⟩ s T) (.ok n) (Hole.layout ⟨[], [], D⟩ s T) := by
  have hnone : T.preorder.find? (fun t => t.name? = some expName) = none :=
    List.find?_eq_none.mpr fun u hu hname => hT u hu (of_decide_eq_true hname)
  refine (findVariable_does D s T).bind ?_
  rw [hnone]
  exact Does.pure n

/-- **What becomes of the first call** decides how the loop goes on. -/
theorem replaceCallsLoop_call (hfs : Passed fs) {fuel n : Nat} {r : Except ExprError Nat} {m : Layout α}
    (hrest : Does (do rewriteCall l; replaceCallsLoop fuel (n + 1))
      (Hole.layout ⟨[], [], D⟩ s (plug fs (.var l expName))) r m) :
    Does (replaceCallsLoop (fuel + 1) n) (Hole.layout ⟨[], [], D⟩ s (plug fs (.var l expName))) r m := by
  have hfound := find?_plug hfs (t := .var l expName) (u := .var l expName) rfl
  refine (findVariable_does D s _).bind ?_
  rw [hfound]
  exact hrest

/-- The call at a variable. -/
theorem callOf_does (hlean : ProductsLeft (plug fs (.var l expName))) :
    Does (Step.look fun a => a.callOf l) (Hole.layout ⟨[], [], D⟩ s (plug fs (.var l expName)))
      (.ok ((signPlace fs).argument.map fun r => (r.2.1, r.2.2.label)))
      (Hole.layout ⟨[], [], D⟩ s (plug fs (.var l expName))) := by
  refine Does.look fun a ha => ?_
  rw [← Hole.layout_plug] at ha
  exact callOf_eq (t := .var l expName) ha nofun hlean

/-- **Expanding the call at a variable.** -/
theorem rewriteCall_does {holder k : Id} {argument : Tree Id α}
    (hplace : signPlace fs = .before holder (.list k [argument])) (hlean : ProductsLeft (plug fs (.var l expName))) :
    Does (rewriteCall l) (Hole.layout ⟨[], [], D⟩ s (plug fs (.var l expName))) (.ok ())
      (Hole.layout ⟨[], [], D⟩ (s.take.2.take.2.release [l, holder, k])
        (plug (dropHolder fs) (callPower s argument))) := by
  have hcall := callOf_does (D := D) (s := s) hlean
  rw [hplace] at hcall
  refine hcall.bind ?_
  obtain ⟨gs, hs, rfl, hdrop⟩ := exists_holder_sign hplace
  have hgraft := graftPower_does ⟨hs, [], D⟩ gs s l holder k argument
  rw [Hole.layout_plug hs, Hole.layout_plug hs] at hgraft
  rw [hdrop, plug_append, plug_append]
  exact hgraft

end First

/-! ## All calls -/

section All

variable {x y : Tree Id α × Slots} {D : List (Tree Id α)}

/-- **A step of the tree is a turn of the loop.** -/
theorem replaceCallsLoop_step (h : CallStep x y) (hlean : ProductsLeft x.1) {fuel n : Nat} {r : Except ExprError Nat}
    {m : Layout α} (hrest : Does (replaceCallsLoop fuel (n + 1)) (Hole.layout ⟨[], [], D⟩ y.2 y.1) r m) :
    Does (replaceCallsLoop (fuel + 1) n) (Hole.layout ⟨[], [], D⟩ x.2 x.1) r m := by
  cases h with
  | call hfs hplace => exact replaceCallsLoop_call hfs ((rewriteCall_does hplace hlean).bind hrest)

/-- A call that is refused stops the loop. -/
theorem replaceCallsLoop_refused {T : Tree Id α} {f : CallFault} (h : Refuses T f) (hlean : ProductsLeft T)
    (fuel n : Nat) : Does (replaceCallsLoop (fuel + 1) n) (Hole.layout ⟨[], [], D⟩ s T) (.error (.malformedCall f))
      (Hole.layout ⟨[], [], D⟩ s T) := by
  obtain ⟨fs, l, rfl, hfs, hargument⟩ := h
  have hcall := callOf_does (D := D) (s := s) hlean
  rw [hargument] at hcall
  have hthrow : Does (rewriteCall l) _ (.error (.malformedCall f)) _ := hcall.bind (Does.throw _)
  exact replaceCallsLoop_call hfs hthrow.bind_error

/-- The loop goes through any number of steps. -/
theorem replaceCallsLoop_steps (h : CallSteps x y) (hlean : ProductsLeft x.1) {fuel n : Nat} (hfuel : x.1.size < fuel)
    {r : Except ExprError Nat} {m : Layout α} (hrest : ∀ fuel, ProductsLeft y.1 →
      Does (replaceCallsLoop (fuel + 1) (n + (x.1.size - y.1.size))) (Hole.layout ⟨[], [], D⟩ y.2 y.1) r m) :
    Does (replaceCallsLoop fuel n) (Hole.layout ⟨[], [], D⟩ x.2 x.1) r m := by
  induction h using Relation.ReflTransGen.head_induction_on generalizing fuel n with
  | refl =>
    obtain ⟨fuel, rfl⟩ := Nat.exists_eq_add_one_of_ne_zero (Nat.ne_zero_of_lt hfuel)
    rw [Nat.sub_self] at hrest
    exact hrest fuel hlean
  | @head x z hstep hsteps ih =>
    obtain ⟨fuel, rfl⟩ := Nat.exists_eq_add_one_of_ne_zero (Nat.ne_zero_of_lt hfuel)
    have hsize := hstep.size
    have hle := size_le_of_callSteps hsteps
    have hcount : n + (x.1.size - y.1.size) = n + 1 + (z.1.size - y.1.size) := by omega
    rw [hcount] at hrest
    exact replaceCallsLoop_step hstep hlean (ih (hstep.productsLeft hlean) (by omega) hrest)

/-- The fuel of the loop is more than there are nodes. -/
theorem replaceCalls_of_loop {T : Tree Id α} {s : Slots} {r : Except ExprError Nat} {m : Layout α}
    (h : ∀ fuel, T.size < fuel → Does (replaceCallsLoop fuel 0) (Hole.layout ⟨[], [], D⟩ s T) r m) :
    Does replaceCalls (Hole.layout ⟨[], [], D⟩ s T) r m := by
  refine Does.of_whole fun hwhole => ?_
  have hsize := hwhole.size_le (Hole.sits _ s T)
  refine (Does.look (b := s.size + 1) fun a ha => ?_).bind (h _ (Nat.lt_succ_of_le hsize))
  rw [Arena.limit, ha.size]
  rfl

variable {t u : Tree Id α} {s s' : Slots}

/-- **Expanding all calls** in an arena does what it does to the tree, one node less for each call. -/
theorem replaceCalls_does (D : List (Tree Id α)) (hlean : ProductsLeft t) (h : expandCalls t s = .ok (u, s')) :
    ∃ k, u.size + k = t.size ∧
      Does replaceCalls (Hole.layout ⟨[], [], D⟩ s t) (.ok k) (Hole.layout ⟨[], [], D⟩ s' u) := by
  obtain ⟨hfree, hsteps⟩ := callSteps_of_expandCalls h
  refine ⟨t.size - u.size, Nat.add_sub_of_le (size_le_of_callSteps hsteps), ?_⟩
  refine replaceCalls_of_loop fun fuel hfuel => replaceCallsLoop_steps hsteps hlean hfuel fun fuel _ => ?_
  rw [Nat.zero_add]
  exact replaceCallsLoop_free hfree fuel _

/-- **A call that is refused in the tree is refused in the arena**, and nothing else goes wrong before. -/
theorem replaceCalls_refused (D : List (Tree Id α)) (hlean : ProductsLeft t) {f : CallFault}
    (h : expandCalls t s = .error f) :
    ∃ m, Does replaceCalls (Hole.layout ⟨[], [], D⟩ s t) (.error (.malformedCall f)) m := by
  obtain ⟨T, s', hsteps, hrefuses⟩ := refuses_of_expandCalls h
  refine ⟨Hole.layout ⟨[], [], D⟩ s' T, replaceCalls_of_loop fun fuel hfuel => ?_⟩
  exact replaceCallsLoop_steps hsteps hlean hfuel fun fuel hlean => replaceCallsLoop_refused hrefuses hlean fuel _

end All

end Arena

end SignalFlow
