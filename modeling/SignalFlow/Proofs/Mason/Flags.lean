import SignalFlow.Proofs.Mason.LoopSum

/-!
# Flags of touching loops

Which loops of a table touch can be computed once, for every pair of loops, and looked up afterwards. The flags stand in
one array, row by row; each pair is entered once and its flag stored for both orders (`enter`). Since touching does not
depend on the order (`touch_comm`), no flag is ever overwritten by another value, so that all are right in the end
(`flag_eq`).
-/

namespace SignalFlow.LoopTable

variable {α : Type}

theorem touch_comm (table : LoopTable α) (i j : Nat) : table.touch i j = table.touch j i := by
  rw [touch, touch, Bool.eq_iff_iff, Path.sharesNode_iff, Path.sharesNode_iff]
  simp only [and_comm]

/-- Enters whether two loops touch into a table of `n` rows and columns, once for each order of the two. -/
def enter (touch : Nat → Nat → Bool) (n : Nat) (flags : Array Bool) (p : Nat × Nat) : Array Bool :=
  (flags.setIfInBounds (p.1 * n + p.2) (touch p.1 p.2)).setIfInBounds (p.2 * n + p.1) (touch p.1 p.2)

/-- The pairs of numbers below `n`, the first not above the second. -/
def pairsBelow (n : Nat) : List (Nat × Nat) :=
  (List.range n).flatMap fun i => (List.range' i (n - i)).map fun j => (i, j)

/-- **The flags of all pairs of loops**, row by row. -/
def flags (table : LoopTable α) : Array Bool :=
  (pairsBelow table.size).foldl (enter table.touch table.size) (Array.replicate (table.size * table.size) false)

/-- Whether two loops touch, as it stands among the flags. -/
def flag (table : LoopTable α) (i j : Nat) : Bool := table.flags[i * table.size + j]?.getD false

section Flags

variable {touch : Nat → Nat → Bool} {n i j a b : Nat}

theorem cell_lt (hi : i < n) (hj : j < n) : i * n + j < n * n :=
  calc i * n + j < i * n + n := Nat.add_lt_add_left hj _
    _ = (i + 1) * n := (Nat.succ_mul i n).symm
    _ ≤ n * n := Nat.mul_le_mul_right n hi

theorem cell_inj (ha : a < n) (hj : j < n) (h : b * n + a = i * n + j) : b = i ∧ a = j := by
  have hmod := congrArg (· % n) h
  simp only [Nat.mul_add_mod_self_right, Nat.mod_eq_of_lt ha, Nat.mod_eq_of_lt hj] at hmod
  subst hmod
  exact ⟨Nat.eq_of_mul_eq_mul_right (Nat.zero_lt_of_lt ha) (Nat.add_right_cancel h), rfl⟩

/-- A flag that is right stays right when another pair's flag is entered. -/
theorem getElem?_setFlag {flags : Array Bool} (hb : b < n) (hj : j < n) (h : flags[i * n + j]? = some (touch i j)) :
    (flags.setIfInBounds (a * n + b) (touch a b))[i * n + j]? = some (touch i j) := by
  rw [Array.getElem?_setIfInBounds]
  by_cases hcell : a * n + b = i * n + j
  · obtain ⟨rfl, rfl⟩ := cell_inj hb hj hcell
    rw [if_pos rfl, if_pos (Array.getElem?_eq_some_iff.mp h).1]
  · rw [if_neg hcell, h]

/-- Entering a pair makes the flags of both its orders right and keeps those that are right already. -/
theorem getElem?_enter (htouch : ∀ i j, touch i j = touch j i) {flags : Array Bool} (hsize : flags.size = n * n)
    {p : Nat × Nat} (hp : p.1 < n ∧ p.2 < n) (hi : i < n) (hj : j < n)
    (h : (i, j) = p ∨ (j, i) = p ∨ flags[i * n + j]? = some (touch i j)) :
    (enter touch n flags p)[i * n + j]? = some (touch i j) := by
  have hcell := cell_lt hi hj
  have hself {flags : Array Bool} (hsize : flags.size = n * n) :
      (flags.setIfInBounds (i * n + j) (touch i j))[i * n + j]? = some (touch i j) := by
    rw [Array.getElem?_setIfInBounds, if_pos rfl, if_pos (hsize ▸ hcell)]
  rw [enter, htouch p.1 p.2]
  rcases h with rfl | rfl | h
  · exact getElem?_setFlag hi hj (htouch i j ▸ hself hsize)
  · exact hself (by rw [Array.size_setIfInBounds, hsize])
  · exact getElem?_setFlag hp.1 hj (htouch p.1 p.2 ▸ getElem?_setFlag hp.2 hj h)

/-- **Entering pairs** makes the flags of all of them right. -/
theorem getElem?_foldl_enter (htouch : ∀ i j, touch i j = touch j i) {l : List (Nat × Nat)}
    (hl : ∀ p ∈ l, p.1 < n ∧ p.2 < n) {flags : Array Bool} (hsize : flags.size = n * n) (hi : i < n) (hj : j < n)
    (h : (i, j) ∈ l ∨ (j, i) ∈ l ∨ flags[i * n + j]? = some (touch i j)) :
    (l.foldl (enter touch n) flags)[i * n + j]? = some (touch i j) := by
  induction l generalizing flags with
  | nil => simpa using h
  | cons p l ih =>
    obtain ⟨hp, hl⟩ := List.forall_mem_cons.mp hl
    have hentered := getElem?_enter htouch hsize hp hi hj
    refine ih hl (by simpa [enter] using hsize) ?_
    rw [List.mem_cons, List.mem_cons] at h
    rcases h with (h | h) | (h | h) | h
    · exact .inr (.inr (hentered (.inl h)))
    · exact .inl h
    · exact .inr (.inr (hentered (.inr (.inl h))))
    · exact .inr (.inl h)
    · exact .inr (.inr (hentered (.inr (.inr h))))

theorem mem_pairsBelow : (i, j) ∈ pairsBelow n ↔ i ≤ j ∧ j < n := by
  simp only [pairsBelow, List.mem_flatMap, List.mem_range, List.mem_map, List.mem_range'_1, Prod.mk.injEq]
  constructor
  · rintro ⟨i, hi, j, hj, rfl, rfl⟩
    omega
  · rintro ⟨hij, hj⟩
    exact ⟨i, by omega, j, by omega, rfl, rfl⟩

end Flags

/-- **The flags say which loops touch.** -/
theorem flag_eq (table : LoopTable α) {i j : Nat} (hi : i < table.size) (hj : j < table.size) :
    table.flag i j = table.touch i j := by
  have hpairs : ∀ p ∈ pairsBelow table.size, p.1 < table.size ∧ p.2 < table.size := fun p hp =>
    ⟨(mem_pairsBelow.mp hp).1.trans_lt (mem_pairsBelow.mp hp).2, (mem_pairsBelow.mp hp).2⟩
  have hpair : (i, j) ∈ pairsBelow table.size ∨ (j, i) ∈ pairsBelow table.size :=
    (Nat.le_total i j).imp (fun h => mem_pairsBelow.mpr ⟨h, hj⟩) fun h => mem_pairsBelow.mpr ⟨h, hi⟩
  rw [flag, flags, getElem?_foldl_enter (touch_comm table) hpairs Array.size_replicate hi hj (hpair.imp_right .inl)]
  rfl

end SignalFlow.LoopTable
