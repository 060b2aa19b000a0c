import Mathlib.Algebra.BigOperators.Intervals
import Mathlib.Algebra.BigOperators.Ring.Finset
import Mathlib.Algebra.BigOperators.Ring.List
import Mathlib.Tactic.Ring
import SignalFlow.Proofs.Expr.Exact
import SignalFlow.Proofs.Mason.Sets

/-!
# The value of a determinant over loops

`expansion touch gain ms` is `1 - Σ L_i + Σ L_i L_j - …` over the sets of members that pairwise do not touch, by plain
recursion: with the first member or without it. `expansion_eq_sum` says that it is the sum over the sets size by size,
and `value_determinantOf` that the determinant over some of the loops of a table has this value, in exact arithmetic.
Loops that all touch each other are taken off one by one (`expansion_append`).
-/

namespace SignalFlow

namespace LoopTable

variable {β δ R : Type} [CommRing R]

/-- **The alternating sum over the sets of members that pairwise do not touch**: those without the first member, and
those with it. -/
def expansion (touch : β → β → Bool) (gain : β → R) : List β → R
  | [] => 1
  | m :: ms => expansion touch gain ms - gain m * expansion touch gain (ms.filter fun x => !touch m x)
termination_by ms => ms.length
decreasing_by
  · exact Nat.lt_succ_self _
  · rw [List.length_unattach]
    exact Nat.lt_succ_of_le ((List.length_filter_le _ _).trans_eq List.length_attach)

variable {touch : β → β → Bool} {gain : β → R}

@[simp] theorem expansion_nil (touch : β → β → Bool) (gain : β → R) : expansion touch gain [] = 1 := by
  rw [expansion]

theorem expansion_cons (touch : β → β → Bool) (gain : β → R) (m : β) (ms : List β) :
    expansion touch gain (m :: ms) =
      expansion touch gain ms - gain m * expansion touch gain (ms.filter fun x => !touch m x) := by
  rw [expansion]

/-- The expansion over the images of members, with the gains and touches of the images. -/
theorem expansion_map (f : δ → β) (touch : β → β → Bool) (gain : β → R) (ms : List δ) :
    expansion touch gain (ms.map f) = expansion (fun x y => touch (f x) (f y)) (fun x => gain (f x)) ms := by
  induction h : ms.length using Nat.strong_induction_on generalizing ms with
  | _ n ih =>
    subst h
    cases ms with
    | nil => simp
    | cons m ms =>
      rw [List.map_cons, expansion_cons, expansion_cons, ih _ (Nat.lt_succ_self _) ms rfl, List.filter_map,
        ih _ (Nat.lt_succ_of_le (List.length_filter_le _ _)) _ rfl]
      rfl

/-- **Loops that touch each other** are taken off one by one. -/
theorem expansion_append (touch : β → β → Bool) (gain : β → R) {here : List β}
    (hhere : here.Pairwise fun x y => touch x y = true) (others : List β) :
    expansion touch gain (here ++ others) = expansion touch gain others -
      (here.map fun x => gain x * expansion touch gain (others.filter fun y => !touch x y)).sum := by
  induction here with
  | nil => simp
  | cons x here ih =>
    obtain ⟨hx, hhere⟩ := List.pairwise_cons.mp hhere
    have hnone : (here.filter fun y => !touch x y) = [] :=
      List.filter_eq_nil_iff.mpr fun y hy => by rw [hx y hy]; exact Bool.false_ne_true
    rw [List.cons_append, expansion_cons, ih hhere, List.filter_append, hnone, List.nil_append, List.map_cons,
      List.sum_cons]
    ring

/-! ## Size by size -/

/-- The signed sum over the sets of one size: the products of negated gains. -/
def sizeSum (touch : β → β → Bool) (gain : β → R) (ms : List β) (k : Nat) : R :=
  ((apart touch ms k).map fun s => (s.map fun x => -gain x).prod).sum

@[simp] theorem sizeSum_zero (touch : β → β → Bool) (gain : β → R) (ms : List β) : sizeSum touch gain ms 0 = 1 := by
  simp [sizeSum]

theorem sizeSum_of_length_lt {ms : List β} {k : Nat} (h : ms.length < k) : sizeSum touch gain ms k = 0 := by
  rw [sizeSum, apart_eq_nil_of_length_lt h, List.map_nil, List.sum_nil]

/-- The sets of one more member are those with the first member and those without it. -/
theorem sizeSum_cons_succ (touch : β → β → Bool) (gain : β → R) (m : β) (ms : List β) (k : Nat) :
    sizeSum touch gain (m :: ms) (k + 1) =
      sizeSum touch gain ms (k + 1) - gain m * sizeSum touch gain (ms.filter fun x => !touch m x) k := by
  rw [sizeSum, apart_cons_succ, ← apart_filter touch (fun x => !touch m x) ms k, List.map_append, List.sum_append,
    List.map_map, sizeSum, sizeSum, sub_eq_add_neg, ← neg_mul, ← List.sum_map_mul_left, add_comm]
  rfl

/-- **The expansion is the sum over the sets**, size by size. -/
theorem expansion_eq_sum (touch : β → β → Bool) (gain : β → R) (ms : List β) {n : Nat} (h : ms.length ≤ n) :
    expansion touch gain ms = ∑ k ∈ Finset.range (n + 1), sizeSum touch gain ms k := by
  induction hlen : ms.length using Nat.strong_induction_on generalizing ms n with
  | _ l ih =>
    subst hlen
    cases ms with
    | nil =>
      rw [Finset.sum_range_succ', Finset.sum_eq_zero fun k _ => sizeSum_of_length_lt (Nat.succ_pos k)]
      simp
    | cons m ms =>
      obtain ⟨n, rfl⟩ := Nat.exists_eq_succ_of_ne_zero (Nat.ne_of_gt (Nat.lt_of_lt_of_le (Nat.succ_pos _) h))
      have hms : ms.length ≤ n := Nat.le_of_succ_le_succ h
      rw [expansion_cons, ih _ (Nat.lt_succ_self _) ms (Nat.le_succ_of_le hms) rfl,
        ih _ (Nat.lt_succ_of_le (List.length_filter_le _ _)) _ ((List.length_filter_le _ _).trans hms) rfl,
        Finset.sum_range_succ', Finset.sum_range_succ' (sizeSum touch gain (m :: ms))]
      simp only [sizeSum_cons_succ, Finset.sum_sub_distrib, Finset.mul_sum, sizeSum_zero]
      ring

/-- The signed sum over the sets of one size is the sum of their products, with the sign of the size. -/
theorem sizeSum_eq (touch : β → β → Bool) (gain : β → R) (ms : List β) (k : Nat) :
    sizeSum touch gain ms k = (-1) ^ k * ((apart touch ms k).map fun s => (s.map gain).prod).sum := by
  rw [sizeSum, ← List.sum_map_mul_left]
  refine congrArg List.sum (List.map_congr_left fun s hs => ?_)
  rw [← (of_mem_apart hs).1, ← List.length_map gain, ← List.prod_map_neg, List.map_map]
  rfl

end LoopTable

/-! ## Values -/

section Value

variable {α R δ : Type} [Scalar α] [CommRing R] [Scalar R] [Scalar.Exact R] {r : Reading α R} {T : Bindings R}
variable {f : δ → Expr α} {y : δ → R} {ds : List δ} {e : Expr α} {x : R}

/-- The value of a sum, added up from the left. -/
theorem Reading.value_foldl_add (he : r.value T e = .ok x) (h : ∀ d ∈ ds, r.value T (f d) = .ok (y d)) :
    r.value T ((ds.map f).foldl (Expr.binary .add) e) = .ok (x + (ds.map y).sum) := by
  induction ds generalizing e x with
  | nil => simpa using he
  | cons d ds ih =>
    have hd := Reading.value_add he (h d List.mem_cons_self)
    rw [List.map_cons, List.foldl_cons, ih hd fun d' hd' => h d' (List.mem_cons_of_mem _ hd'), List.map_cons,
      List.sum_cons, add_assoc]

/-- The value of a product, multiplied from the left. -/
theorem Reading.value_foldl_mul (he : r.value T e = .ok x) (h : ∀ d ∈ ds, r.value T (f d) = .ok (y d)) :
    r.value T ((ds.map f).foldl (Expr.binary .mul) e) = .ok (x * (ds.map y).prod) := by
  induction ds generalizing e x with
  | nil => simpa using he
  | cons d ds ih =>
    have hd := Reading.value_mul he (h d List.mem_cons_self)
    rw [List.map_cons, List.foldl_cons, ih hd fun d' hd' => h d' (List.mem_cons_of_mem _ hd'), List.map_cons,
      List.prod_cons, mul_assoc]

/-- **The value of a product of expressions**, the empty one included. -/
theorem Path.value_product (h : ∀ d ∈ ds, r.value T (f d) = .ok (y d)) :
    r.value T (Path.product (ds.map f)) = .ok (ds.map y).prod := by
  cases ds with
  | nil => exact r.value_one T
  | cons d ds =>
    rw [List.map_cons, List.map_cons, List.prod_cons]
    exact Reading.value_foldl_mul (h d List.mem_cons_self) fun d' hd' => h d' (List.mem_cons_of_mem _ hd')

namespace LoopTable

variable {table : LoopTable α} {gain : Nat → R} {ms : List Nat}

/-- The value of a level. -/
theorem value_levelSum {level : List (List Nat)}
    (hgain : ∀ s ∈ level, ∀ i ∈ s, r.value T (table.gainOf i) = .ok (gain i)) (hne : level ≠ []) :
    ∃ sum, table.levelSum? level = some sum ∧
      r.value T sum = .ok ((level.map fun s => (s.map gain).prod).sum) := by
  cases level with
  | nil => exact absurd rfl hne
  | cons s rest =>
    refine ⟨_, rfl, ?_⟩
    have hset : ∀ s' ∈ s :: rest, r.value T (table.product s') = .ok (s'.map gain).prod :=
      fun s' hs' => Path.value_product (hgain s' hs')
    rw [List.map_cons, List.sum_cons]
    exact Reading.value_foldl_add (hset s List.mem_cons_self) fun s' hs' => hset s' (List.mem_cons_of_mem _ hs')

/-- **The value after the levels of some sizes**: the signed sums of these sizes are added. -/
theorem value_addLevels (hms : ms.Pairwise (· < ·))
    (hgain : ∀ m ∈ ms, r.value T (table.gainOf m) = .ok (gain m)) (fuel k : Nat) {det : Expr α} {x : R}
    (hdet : r.value T det = .ok x) :
    r.value T (table.addLevels none (decide (Even k)) det
        (((List.range' (k + 1) fuel).map (apart table.touch ms)).takeWhile (!·.isEmpty))) =
      .ok (x + ∑ j ∈ Finset.range fuel, sizeSum table.touch gain ms (k + 1 + j)) := by
  induction fuel generalizing k det x with
  | zero => simpa [addLevels] using hdet
  | succ fuel ih =>
    rw [List.range'_succ, List.map_cons, List.takeWhile_cons]
    by_cases hempty : apart table.touch ms (k + 1) = []
    · have hzero : ∀ j ∈ Finset.range (fuel + 1), sizeSum table.touch gain ms (k + 1 + j) = 0 := by
        intro j _
        rw [sizeSum, apart_eq_nil_of_le hms hempty, List.map_nil, List.sum_nil]
      rw [hempty, Finset.sum_eq_zero hzero, add_zero]
      exact hdet
    · have hsets : ∀ s ∈ apart table.touch ms (k + 1), ∀ i ∈ s, r.value T (table.gainOf i) = .ok (gain i) :=
        fun s hs i hi => hgain i ((of_mem_apart hs).2 i hi)
      obtain ⟨sum, hsum, hvalue⟩ := value_levelSum hsets hempty
      have hstep : r.value T (Expr.binary (if decide (Even k) then .sub else .add) det sum) =
          .ok (x + sizeSum table.touch gain ms (k + 1)) := by
        by_cases hk : Even k
        · rw [if_pos (decide_eq_true hk), sizeSum_eq, hk.add_one.neg_one_pow, neg_one_mul, ← sub_eq_add_neg]
          exact Reading.value_sub hdet hvalue
        · rw [if_neg (by simpa using hk), sizeSum_eq, (Nat.not_even_iff_odd.mp hk).add_one.neg_one_pow, one_mul]
          exact Reading.value_add hdet hvalue
      have hparity : (!decide (Even k)) = decide (Even (k + 1)) := by
        rw [← decide_not]
        exact decide_eq_decide.mpr Nat.even_add_one.symm
      rw [if_pos (by simpa using hempty), addLevels, hsum]
      show r.value T (table.addLevels none (!decide (Even k)) _ _) = _
      rw [hparity, simplified, ih (k + 1) hstep, Finset.sum_range_succ' _ fuel, add_assoc, add_comm (sizeSum _ _ _ _)]
      simp only [Nat.add_right_comm, Nat.add_assoc, Nat.add_comm 1]

/-- **The value of the determinant over some loops** is the expansion over them. -/
theorem value_determinantOf (hms : ms.Pairwise (· < ·))
    (hgain : ∀ m ∈ ms, r.value T (table.gainOf m) = .ok (gain m)) :
    r.value T (table.determinantOf ms none) = .ok (expansion table.touch gain ms) := by
  have h := value_addLevels hms hgain ms.length 0 (r.value_one T)
  rw [← nonTouchingSets_eq hms] at h
  rw [expansion_eq_sum table.touch gain ms (Nat.le_refl _), Finset.sum_range_succ', sizeSum_zero, add_comm]
  simp only [Nat.zero_add, Nat.add_comm 1] at h
  exact h

end LoopTable

end Value

end SignalFlow
