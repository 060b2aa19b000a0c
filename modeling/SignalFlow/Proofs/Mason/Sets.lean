import Mathlib.Data.List.Basic
import SignalFlow.Mason.Determinant

/-!
# Sets of loops that do not touch

`apart touch ms k` lists, by plain recursion over the members, the sets of `k` members that pairwise do not touch, in
lexicographic order. Growing all sets of one size by a higher member gives all sets of the next size
(`apart_flatMap_grow`); so the levels of a loop table are these lists, from the sets of one loop up to the last size
that has any (`levelsFrom_apart`).
-/

namespace SignalFlow

namespace LoopTable

variable {α β : Type}

/-- **The sets of `k` members that pairwise do not touch**, as lists in the order of the members. -/
def apart (touch : β → β → Bool) : List β → Nat → List (List β)
  | _, 0 => [[]]
  | [], _ + 1 => []
  | m :: ms, k + 1 =>
    ((apart touch ms k).filter fun s => s.all fun x => !touch m x).map (m :: ·) ++ apart touch ms (k + 1)

variable {touch : β → β → Bool} {m : β} {ms : List β} {k : Nat}

@[simp] theorem apart_zero (touch : β → β → Bool) (ms : List β) : apart touch ms 0 = [[]] := by
  cases ms <;> rfl

@[simp] theorem apart_one (touch : β → β → Bool) (ms : List β) : apart touch ms 1 = ms.map fun m => [m] := by
  induction ms with
  | nil => rfl
  | cons m ms ih =>
    rw [apart, ih, apart_zero]
    rfl

theorem apart_cons_succ (touch : β → β → Bool) (m : β) (ms : List β) (k : Nat) :
    apart touch (m :: ms) (k + 1) =
      ((apart touch ms k).filter fun s => s.all fun x => !touch m x).map (m :: ·) ++ apart touch ms (k + 1) := rfl

/-- A set has its size, and its members are members. -/
theorem of_mem_apart {s : List β} (h : s ∈ apart touch ms k) : s.length = k ∧ ∀ x ∈ s, x ∈ ms := by
  induction ms generalizing s k with
  | nil =>
    cases k with
    | zero => obtain rfl := List.mem_singleton.mp h; exact ⟨rfl, fun _ hx => hx⟩
    | succ k => cases h
  | cons m ms ih =>
    cases k with
    | zero =>
      rw [apart_zero] at h
      obtain rfl := List.mem_singleton.mp h
      exact ⟨rfl, fun _ hx => absurd hx List.not_mem_nil⟩
    | succ k =>
      rw [apart_cons_succ] at h
      rcases List.mem_append.mp h with h | h
      · obtain ⟨t, ht, rfl⟩ := List.mem_map.mp h
        obtain ⟨hlen, hmem⟩ := ih (List.mem_filter.mp ht).1
        refine ⟨congrArg (· + 1) hlen, fun x hx => ?_⟩
        rcases List.mem_cons.mp hx with rfl | hx
        · exact List.mem_cons_self
        · exact List.mem_cons_of_mem _ (hmem x hx)
      · exact ⟨(ih h).1, fun x hx => List.mem_cons_of_mem _ ((ih h).2 x hx)⟩

theorem apart_eq_nil_of_length_lt (h : ms.length < k) : apart touch ms k = [] := by
  induction ms generalizing k with
  | nil =>
    cases k with
    | zero => cases h
    | succ k => rfl
  | cons m ms ih =>
    cases k with
    | zero => cases h
    | succ k =>
      have hlt : ms.length < k := Nat.lt_of_succ_lt_succ h
      rw [apart_cons_succ, ih hlt, ih (Nat.lt_succ_of_lt hlt)]
      rfl

/-- **The members that touch none of some others** have the sets none of which touches those. -/
theorem apart_filter (touch : β → β → Bool) (p : β → Bool) (ms : List β) (k : Nat) :
    apart touch (ms.filter p) k = (apart touch ms k).filter fun s => s.all p := by
  induction ms generalizing k with
  | nil => cases k <;> rfl
  | cons m ms ih =>
    cases k with
    | zero =>
      rw [apart_zero, apart_zero]
      rfl
    | succ k =>
      rw [apart_cons_succ, List.filter_append, List.filter_map, List.filter_filter, ← ih (k + 1), List.filter_cons]
      cases hp : p m with
      | false => simp [hp]
      | true =>
        rw [if_pos rfl, apart_cons_succ, ih k, List.filter_filter]
        simp only [Function.comp_def, List.all_cons, hp, Bool.true_and, Bool.and_comm]

/-! ## Growing sets -/

section Grow

variable {table : LoopTable α} {m : Nat} {ms s : List Nat}

/-- A member that is not above a set does not extend it. -/
theorem grow_cons_of_lt (h : ∀ x ∈ s, m < x) : table.grow (m :: ms) s = table.grow ms s := by
  unfold grow
  cases hlast : s.getLast? with
  | none => rfl
  | some last =>
    have hlt : ¬last < m := Nat.lt_asymm (h last (List.mem_of_getLast? hlast))
    simp [hlt]

/-- The lowest member is grown by what does not touch it. -/
theorem grow_singleton (hm : ∀ x ∈ ms, m < x) :
    table.grow (m :: ms) [m] = (ms.filter fun x => !table.touch m x).map fun x => [m, x] := by
  have hall : (ms.filter fun x => decide (m < x) && !table.touch m x) = ms.filter fun x => !table.touch m x :=
    List.filter_congr fun x hx => by rw [decide_eq_true (hm x hx), Bool.true_and]
  simp [grow, hall]

/-- A set with a lower member more is grown as the set is, by what does not touch that member. -/
theorem grow_cons_set (hs : s ≠ []) (hm : (s.all fun x => !table.touch m x) = true) :
    table.grow ms (m :: s) =
      ((table.grow ms s).filter fun t => t.all fun x => !table.touch m x).map (m :: ·) := by
  obtain ⟨last, hlast⟩ := Option.ne_none_iff_exists'.mp (mt List.getLast?_eq_none_iff.mp hs)
  have hcons : (m :: s).getLast? = some last := by
    rw [List.getLast?_cons, hlast]
    rfl
  simp only [grow, hlast, hcons, List.filter_map, List.map_map, List.filter_filter]
  refine congrArg₂ List.map (funext fun x => rfl) (List.filter_congr fun x _ => ?_)
  simp only [Function.comp_apply, List.all_cons, List.all_append, hm, List.all_nil, Bool.true_and, Bool.and_true]
  rw [Bool.and_left_comm]

/-- A set that touches a member grows into no set that does not. -/
theorem filter_grow_eq_nil {p : Nat → Bool} (hp : s.all p = false) : (table.grow ms s).filter (·.all p) = [] := by
  unfold grow
  cases s.getLast? with
  | none => rfl
  | some last =>
    rw [List.filter_eq_nil_iff]
    intro t ht
    obtain ⟨x, -, rfl⟩ := List.mem_map.mp ht
    rw [List.all_append, hp]
    exact Bool.false_ne_true

/-- Growing the sets that keep off a member gives what growing all sets does, of the sets that keep off it. -/
theorem flatMap_grow_filter (table : LoopTable α) (ms : List Nat) (p : Nat → Bool) (sets : List (List Nat)) :
    (sets.filter (·.all p)).flatMap (fun s => (table.grow ms s).filter (·.all p)) =
      (sets.flatMap (table.grow ms)).filter (·.all p) := by
  induction sets with
  | nil => rfl
  | cons s sets ih =>
    rw [List.filter_cons, List.flatMap_cons, List.filter_append, ← ih]
    cases hp : s.all p with
    | false => rw [filter_grow_eq_nil hp]; rfl
    | true => rfl

/-- **Growing all sets of one size** gives all sets of the next size. -/
theorem apart_flatMap_grow (table : LoopTable α) (hms : ms.Pairwise (· < ·)) (k : Nat) :
    (apart table.touch ms (k + 1)).flatMap (table.grow ms) = apart table.touch ms (k + 2) := by
  induction ms generalizing k with
  | nil => rfl
  | cons m ms ih =>
    obtain ⟨hm, hms⟩ := List.pairwise_cons.mp hms
    have hgrow : ∀ {k}, ∀ s ∈ apart table.touch ms k, table.grow (m :: ms) s = table.grow ms s :=
      fun s hs => grow_cons_of_lt fun x hx => hm x ((of_mem_apart hs).2 x hx)
    rw [apart_cons_succ, List.flatMap_append, apart_cons_succ table.touch m ms (k + 1), List.flatMap_map]
    refine congrArg₂ (· ++ ·) ?_ ((List.flatMap_congr hgrow).trans (ih hms k))
    -- What is left are the sets with `m`; `grow` reads the last member, so the set of `m` alone is a case of its own.
    cases k with
    | zero =>
      rw [apart_one, List.filter_map, List.map_map, apart_zero]
      show table.grow (m :: ms) [m] ++ [] = _
      rw [List.append_nil, grow_singleton hm]
      simp [Function.comp_def]
    | succ k =>
      rw [← ih hms k, ← flatMap_grow_filter, List.map_flatMap]
      refine List.flatMap_congr fun s hs => ?_
      obtain ⟨hs, hall⟩ := List.mem_filter.mp hs
      have hne : s ≠ [] := List.ne_nil_of_length_pos ((of_mem_apart hs).1 ▸ Nat.succ_pos k)
      rw [grow_cons_set hne hall, hgrow s hs]

/-- When there is no set of a size, there is none of a larger size. -/
theorem apart_eq_nil_of_le (hms : ms.Pairwise (· < ·)) {k : Nat} (h : apart table.touch ms (k + 1) = []) (j : Nat) :
    apart table.touch ms (k + 1 + j) = [] := by
  induction j with
  | zero => exact h
  | succ j ih =>
    have hgrow := apart_flatMap_grow table hms (k + j)
    rw [show k + j + 1 = k + 1 + j by omega, ih] at hgrow
    rw [show k + 1 + (j + 1) = k + j + 2 by omega, ← hgrow, List.flatMap_nil]

/-- **The levels from a size on** are the lists of sets of that size, of the next, and so on until one is empty. -/
theorem levelsFrom_apart (hms : ms.Pairwise (· < ·)) (fuel k : Nat) :
    table.levelsFrom ms fuel (apart table.touch ms (k + 1)) =
      ((List.range' (k + 1) fuel).map (apart table.touch ms)).takeWhile (!·.isEmpty) := by
  induction fuel generalizing k with
  | zero => rfl
  | succ fuel ih =>
    rw [levelsFrom, List.range'_succ, List.map_cons, List.takeWhile_cons, apart_flatMap_grow table hms, ih (k + 1)]
    cases (apart table.touch ms (k + 1)).isEmpty <;> rfl

/-- **The sets of loops that do not touch**, size by size. -/
theorem nonTouchingSets_eq (hms : ms.Pairwise (· < ·)) :
    table.nonTouchingSets ms = ((List.range' 1 ms.length).map (apart table.touch ms)).takeWhile (!·.isEmpty) := by
  rw [← levelsFrom_apart hms ms.length 0, apart_one]
  rfl

end Grow

end LoopTable

end SignalFlow
