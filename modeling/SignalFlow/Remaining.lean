/-!
# What is left to enter

A search that never enters the same thing twice ends because something it has not entered is used up at every step.
`remaining all entered` counts what is left; `remaining_cons_lt` says that entering something new leaves less.
-/

namespace SignalFlow

variable {β : Type} [DecidableEq β]

/-- **The number of members not entered yet.** -/
def remaining (all entered : List β) : Nat := (all.filter (· ∉ entered)).length

theorem remaining_cons (y : β) (ys entered : List β) :
    remaining (y :: ys) entered = remaining ys entered + if y ∈ entered then 0 else 1 := by
  unfold remaining
  by_cases h : y ∈ entered <;> simp [h]

theorem remaining_cons_le (all entered : List β) (x : β) : remaining all (x :: entered) ≤ remaining all entered := by
  induction all with
  | nil => exact Nat.le_refl _
  | cons y ys ih =>
    rw [remaining_cons, remaining_cons]
    by_cases hy : y ∈ entered
    · simpa [hy] using ih
    · by_cases hx : y = x
      · simp only [hx, List.mem_cons_self, if_true]
        omega
      · simp only [List.mem_cons, hx, hy, or_self, if_false]
        omega

/-- **Entering a member that was not entered before leaves fewer.** -/
theorem remaining_cons_lt {all entered : List β} {x : β} (hx : x ∈ all) (hn : x ∉ entered) :
    remaining all (x :: entered) < remaining all entered := by
  induction all with
  | nil => cases hx
  | cons y ys ih =>
    rw [remaining_cons, remaining_cons]
    by_cases hy : y = x
    · have hle := remaining_cons_le ys entered x
      simp only [hy, List.mem_cons_self, if_true, hn, if_false]
      omega
    · have hlt := ih ((List.mem_cons.mp hx).resolve_left fun h => hy h.symm)
      by_cases he : y ∈ entered
      · simpa [he] using hlt
      · simp only [List.mem_cons, hy, he, or_self, if_false]
        omega

end SignalFlow
