import SignalFlow.Double
import SignalFlow.Proofs.Mason.Flags
import SignalFlow.Proofs.Mason.Sets

/-!
# Levels of sets of loops

The sets of loops without common nodes are grown level by level. Without recursion, the sets of one size are the
ascending lists of that many members, of which no two have a node in common, in lexicographic order
(`mem_apart_iff_isApart`, `apart_pairwise`). The loop over the levels is `Levels`: it ends, and its levels are these
lists up to the largest size that has any set (`levels_nonTouchingSets`, `Levels.getElem?_eq_some_iff`); it may as well
look up which loops touch among the flags of the table (`levels_flag`). `nonTouchingSets_exact` puts this together.
-/

namespace SignalFlow.LoopTable

variable {α : Type} {table : LoopTable α} {touch touch' : Nat → Nat → Bool} {ms s : List Nat} {k : Nat}

/-! ## Sets without recursion -/

/-- **What is listed**: the sublists of `k` members that pairwise do not touch. -/
theorem mem_apart_iff : s ∈ apart touch ms k ↔
    s.length = k ∧ s.Sublist ms ∧ s.Pairwise fun x y => touch x y = false := by
  induction ms generalizing s k with
  | nil =>
    rw [List.sublist_nil]
    cases k with
    | zero =>
      refine List.mem_singleton.trans ⟨?_, fun h => h.2.1⟩
      rintro rfl
      exact ⟨rfl, rfl, .nil⟩
    | succ k =>
      refine ⟨fun h => absurd h List.not_mem_nil, ?_⟩
      rintro ⟨h, rfl, -⟩
      cases h
  | cons m ms ih =>
    cases k with
    | zero =>
      rw [apart_zero, List.mem_singleton, List.length_eq_zero_iff]
      refine ⟨?_, And.left⟩
      rintro rfl
      exact ⟨rfl, List.nil_sublist _, .nil⟩
    | succ k =>
      rw [apart_cons_succ, List.mem_append, ih, List.mem_map, List.sublist_cons_iff]
      constructor
      · rintro (⟨t, ht, rfl⟩ | ⟨hlength, hsub, hapart⟩)
        · obtain ⟨ht, hm⟩ := List.mem_filter.mp ht
          obtain ⟨hlength, hsub, hapart⟩ := ih.mp ht
          refine ⟨congrArg (· + 1) hlength, .inr ⟨t, rfl, hsub⟩, List.pairwise_cons.mpr ⟨?_, hapart⟩⟩
          simpa using hm
        · exact ⟨hlength, .inl hsub, hapart⟩
      · rintro ⟨hlength, hsub | ⟨t, rfl, hsub⟩, hapart⟩
        · exact .inr ⟨hlength, hsub, hapart⟩
        · obtain ⟨hm, hapart⟩ := List.pairwise_cons.mp hapart
          refine .inl ⟨t, List.mem_filter.mpr ⟨ih.mpr ⟨Nat.succ.inj hlength, hsub, hapart⟩, ?_⟩, rfl⟩
          simpa using hm

/-- **The sets of one size** are in lexicographic order. -/
theorem apart_pairwise (hms : ms.Pairwise (· < ·)) (k : Nat) : (apart touch ms k).Pairwise (· < ·) := by
  induction ms generalizing k with
  | nil => cases k <;> simp [apart]
  | cons m ms ih =>
    obtain ⟨hm, hms⟩ := List.pairwise_cons.mp hms
    cases k with
    | zero =>
      rw [apart_zero]
      exact List.pairwise_singleton _ _
    | succ k =>
      rw [apart_cons_succ, List.pairwise_append, List.pairwise_map]
      refine ⟨((ih hms k).filter _).imp List.Lex.cons, ih hms (k + 1), fun s hs t ht => ?_⟩
      obtain ⟨s, -, rfl⟩ := List.mem_map.mp hs
      obtain ⟨hlength, hsub, -⟩ := mem_apart_iff.mp ht
      obtain ⟨x, t, rfl⟩ := List.exists_cons_of_length_eq_add_one hlength
      exact List.Lex.rel (hm x (hsub.subset List.mem_cons_self))

/-- **A set of `k` loops** among the members, in ascending order, of which no two have a node in common. -/
structure IsApart (table : LoopTable α) (members : List Nat) (k : Nat) (s : List Nat) : Prop where
  length_eq : s.length = k
  ascending : s.Pairwise (· < ·)
  subset : ∀ i ∈ s, i ∈ members
  disjoint : s.Pairwise fun i j => ∀ v ∈ table.nodesOf i, v ∉ table.nodesOf j

theorem mem_apart_iff_isApart (hms : ms.Pairwise (· < ·)) : s ∈ apart table.touch ms k ↔ table.IsApart ms k s := by
  rw [mem_apart_iff]
  constructor
  · rintro ⟨hlength, hsub, hapart⟩
    exact ⟨hlength, hms.sublist hsub, hsub.subset, hapart.imp Path.sharesNode_eq_false_iff.mp⟩
  · rintro ⟨hlength, hascending, hsubset, hdisjoint⟩
    have hsub := List.sublist_of_subperm_of_pairwise (hascending.nodup.subperm hsubset) hascending hms
    exact ⟨hlength, hsub, hdisjoint.imp Path.sharesNode_eq_false_iff.mpr⟩

/-! ## The loop over the levels -/

/-- **A loop over levels**: while the current level is not empty, it is a level of the result, and the loop goes on with
the next one. -/
inductive Levels (next : List (List Nat) → List (List Nat)) : List (List Nat) → List (List (List Nat)) → Prop
  | stop : Levels next [] []
  | level {current levels} : current ≠ [] → Levels next (next current) levels → Levels next current (current :: levels)

namespace Levels

variable {next next' : List (List Nat) → List (List Nat)} {current : List (List Nat)}
  {levels levels' : List (List (List Nat))}

/-- A loop has one result. -/
theorem unique (h : Levels next current levels) (h' : Levels next current levels') : levels = levels' := by
  induction h generalizing levels' with
  | stop =>
    cases h' with
    | stop => rfl
    | level hne => exact absurd rfl hne
  | level hne _ ih =>
    cases h' with
    | stop => exact absurd rfl hne
    | level _ h' => rw [ih h']

theorem result_iff (h : Levels next current levels) : Levels next current levels' ↔ levels' = levels :=
  ⟨fun h' => h'.unique h, fun heq => heq ▸ h⟩

/-- Loops that go on alike, on levels of a kind that is kept, have the same result. -/
theorem congr {P : List (List Nat) → Prop}
    (hnext : ∀ current, P current → next' current = next current ∧ P (next current)) (h : Levels next current levels)
    (hP : P current) : Levels next' current levels := by
  induction h with
  | stop => exact .stop
  | level hne _ ih =>
    obtain ⟨heq, hP⟩ := hnext _ hP
    exact .level hne (heq ▸ ih hP)

end Levels

theorem levelsFrom_cons {level : List (List Nat)} (h : level ≠ []) (fuel : Nat) :
    table.levelsFrom ms (fuel + 1) level = level :: table.levelsFrom ms fuel (level.flatMap (table.grow ms)) := by
  rw [levelsFrom, if_neg (by simpa using h)]

/-- **The loop ends** after as many rounds as lead to a size without sets. -/
theorem levels_levelsFrom (hms : ms.Pairwise (· < ·)) {fuel k : Nat} (hend : apart table.touch ms (k + 1 + fuel) = []) :
    Levels (·.flatMap (table.grow ms)) (apart table.touch ms (k + 1))
      (table.levelsFrom ms fuel (apart table.touch ms (k + 1))) := by
  induction fuel generalizing k with
  | zero =>
    rw [hend]
    exact .stop
  | succ fuel ih =>
    by_cases hlevel : apart table.touch ms (k + 1) = []
    · rw [hlevel]
      exact .stop
    · rw [levelsFrom_cons hlevel, apart_flatMap_grow table hms]
      refine .level hlevel ?_
      rw [apart_flatMap_grow table hms]
      have hnext : k + 1 + 1 + fuel = k + 1 + (fuel + 1) := by omega
      exact ih (hnext ▸ hend)

/-- **The loop over the sets of loops ends**, and this is its result. -/
theorem levels_nonTouchingSets (table : LoopTable α) (hms : ms.Pairwise (· < ·)) :
    Levels (·.flatMap (table.grow ms)) (ms.map fun m => [m]) (table.nonTouchingSets ms) := by
  have hend : apart table.touch ms (0 + 1 + ms.length) = [] := apart_eq_nil_of_length_lt (by omega)
  have h := levels_levelsFrom hms hend
  rwa [apart_one] at h

/-- **Level by level**: each lists the sets of one member more than the one before, and there is a next one as long as
there are such sets. -/
theorem Levels.getElem?_eq_some_iff (hms : ms.Pairwise (· < ·)) {levels : List (List (List Nat))} {k : Nat}
    (h : Levels (·.flatMap (table.grow ms)) (apart table.touch ms (k + 1)) levels) (j : Nat) (level : List (List Nat)) :
    levels[j]? = some level ↔ level ≠ [] ∧ level = apart table.touch ms (k + 1 + j) := by
  generalize hcurrent : apart table.touch ms (k + 1) = current at h
  induction h generalizing k j with
  | stop =>
    rw [apart_eq_nil_of_le hms hcurrent j]
    exact iff_of_false (by simp) fun h => h.1 h.2
  | level hne _ ih =>
    subst hcurrent
    cases j with
    | zero =>
      rw [List.getElem?_cons_zero, Option.some_inj]
      exact ⟨fun h => ⟨h ▸ hne, h.symm⟩, fun h => h.2.symm⟩
    | succ j =>
      rw [List.getElem?_cons_succ, ih j (apart_flatMap_grow table hms k).symm, Nat.add_assoc (k + 1) 1 j,
        Nat.add_comm 1 j]

/-! ## Growing by flags -/

/-- The sets that have one more member than a set, by any way to tell which loops touch. -/
def growBy (touch : Nat → Nat → Bool) (members set : List Nat) : List (List Nat) :=
  match set.getLast? with
  | none => []
  | some last =>
    (members.filter fun m => decide (last < m) && set.all fun s => !touch s m).map fun m => set ++ [m]

theorem growBy_touch (table : LoopTable α) : growBy table.touch = table.grow := rfl

/-- What grows from a set of members is made of members. -/
theorem mem_of_mem_growBy {t : List Nat} (hs : ∀ x ∈ s, x ∈ ms) (ht : t ∈ growBy touch ms s) : ∀ x ∈ t, x ∈ ms := by
  unfold growBy at ht
  cases hlast : s.getLast? with
  | none => rw [hlast] at ht; cases ht
  | some last =>
    rw [hlast] at ht
    obtain ⟨m, hm, rfl⟩ := List.mem_map.mp ht
    exact List.forall_mem_append.mpr ⟨hs, List.forall_mem_singleton.mpr (List.mem_filter.mp hm).1⟩

theorem growBy_congr (htouch : ∀ i ∈ ms, ∀ j ∈ ms, touch' i j = touch i j) (hs : ∀ x ∈ s, x ∈ ms) :
    growBy touch' ms s = growBy touch ms s := by
  unfold growBy
  cases s.getLast? with
  | none => rfl
  | some last =>
    refine congrArg (List.map _) (List.filter_congr fun m hm => congrArg (_ && ·) ?_)
    rw [Bool.eq_iff_iff, List.all_eq_true, List.all_eq_true]
    exact forall₂_congr fun x hx => by rw [htouch x (hs x hx) m hm]

/-- **Looking up the flags** gives the same levels, for members that are in the table. -/
theorem levels_flag (hms : ms.Pairwise (· < ·)) (hsize : ∀ m ∈ ms, m < table.size) :
    Levels (·.flatMap (growBy table.flag ms)) (ms.map fun m => [m]) (table.nonTouchingSets ms) := by
  have hflag : ∀ i ∈ ms, ∀ j ∈ ms, table.flag i j = table.touch i j := fun i hi j hj =>
    table.flag_eq (hsize i hi) (hsize j hj)
  refine (levels_nonTouchingSets table hms).congr (P := fun current => ∀ s ∈ current, ∀ x ∈ s, x ∈ ms)
    (fun current hcurrent => ⟨?_, ?_⟩) ?_
  · exact List.flatMap_congr fun s hs => growBy_congr hflag (hcurrent s hs)
  · intro t ht
    obtain ⟨s, hs, ht⟩ := List.mem_flatMap.mp ht
    exact mem_of_mem_growBy (hcurrent s hs) ht
  · intro s hs
    obtain ⟨m, hm, rfl⟩ := List.mem_map.mp hs
    exact List.forall_mem_singleton.mpr hm

/-! ## All levels -/

/-- **The sets of loops without common nodes.** The loop over them ends, whether it finds out which loops touch or looks
it up; level `k` lists, in lexicographic order, the sets of `k + 1` members of which no two have a node in common; and
there is such a level just when there are such sets. -/
theorem nonTouchingSets_exact (table : LoopTable α) {members : List Nat} (hmembers : members.Pairwise (· < ·)) :
    (∀ levels, Levels (·.flatMap (growBy table.touch members)) (members.map fun m => [m]) levels ↔
        levels = table.nonTouchingSets members) ∧
      ((∀ m ∈ members, m < table.size) → ∀ levels,
        Levels (·.flatMap (growBy table.flag members)) (members.map fun m => [m]) levels ↔
          levels = table.nonTouchingSets members) ∧
      (∀ (k : Nat) level, (table.nonTouchingSets members)[k]? = some level →
        level ≠ [] ∧ level.Pairwise (· < ·) ∧ ∀ s, s ∈ level ↔ table.IsApart members (k + 1) s) ∧
      ∀ k, k < (table.nonTouchingSets members).length ↔ ∃ s, table.IsApart members (k + 1) s := by
  have hends := levels_nonTouchingSets table hmembers
  have hlevel (k : Nat) (level : List (List Nat)) : (table.nonTouchingSets members)[k]? = some level ↔
      level ≠ [] ∧ level = apart table.touch members (k + 1) := by
    rw [← apart_one table.touch] at hends
    rw [hends.getElem?_eq_some_iff (k := 0) hmembers, Nat.add_comm (0 + 1) k]
  refine ⟨fun levels => ?_, fun hsize levels => (levels_flag hmembers hsize).result_iff, fun k level h => ?_,
    fun k => ⟨fun hk => ?_, fun ⟨s, hs⟩ => ?_⟩⟩
  · rw [growBy_touch]
    exact hends.result_iff
  · obtain ⟨hne, rfl⟩ := (hlevel k level).mp h
    exact ⟨hne, apart_pairwise hmembers _, fun s => mem_apart_iff_isApart hmembers⟩
  · obtain ⟨hne, heq⟩ := (hlevel k _).mp (List.getElem?_eq_getElem hk)
    obtain ⟨s, hs⟩ := List.exists_mem_of_ne_nil _ (heq ▸ hne)
    exact ⟨s, (mem_apart_iff_isApart hmembers).mp hs⟩
  · have hne := List.ne_nil_of_mem ((mem_apart_iff_isApart hmembers).mpr hs)
    exact (List.getElem?_eq_some_iff.mp ((hlevel k _).mpr ⟨hne, rfl⟩)).1

/-- Loops on `a`, on `b` and on `c` and one through `a` and `b`, which touches the first two: three levels. -/
theorem nonTouchingSets_exact_three :
    let table : LoopTable Double := #[⟨.infinity, [⟨0⟩]⟩, ⟨.infinity, [⟨0⟩, ⟨1⟩]⟩, ⟨.infinity, [⟨1⟩]⟩,
      ⟨.infinity, [⟨2⟩]⟩]
    [0, 1, 2, 3].Pairwise (· < ·) ∧ (∀ m ∈ [0, 1, 2, 3], m < table.size) ∧
      table.nonTouchingSets [0, 1, 2, 3] =
        [[[0], [1], [2], [3]], [[0, 2], [0, 3], [1, 3], [2, 3]], [[0, 2, 3]]] ∧
      Levels (·.flatMap (growBy table.flag [0, 1, 2, 3])) [[0], [1], [2], [3]] (table.nonTouchingSets [0, 1, 2, 3]) ∧
      table.IsApart [0, 1, 2, 3] 3 [0, 2, 3] ∧ ¬∃ s, table.IsApart [0, 1, 2, 3] 4 s := by
  intro table
  have hmembers : [0, 1, 2, 3].Pairwise (· < ·) := by decide
  have hsize : ∀ m ∈ [0, 1, 2, 3], m < table.size := by decide
  have hsets : table.nonTouchingSets [0, 1, 2, 3] =
      [[[0], [1], [2], [3]], [[0, 2], [0, 3], [1, 3], [2, 3]], [[0, 2, 3]]] := by decide
  obtain ⟨-, hflags, hlevels, hsizes⟩ := nonTouchingSets_exact table hmembers
  refine ⟨hmembers, hsize, hsets, (hflags hsize _).mpr rfl, ?_, mt (hsizes 3).mpr ?_⟩
  · exact ((hlevels 2 [[0, 2, 3]] (by rw [hsets]; rfl)).2.2 _).mp List.mem_cons_self
  · rw [hsets]
    decide

end SignalFlow.LoopTable
