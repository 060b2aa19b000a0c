/-!
# Cutting a text at a mark

A text is cut at the first occurrence of a mark into what stands before it and what stands after it.
-/

namespace SignalFlow.Text

/-- **The two parts of a text around the first occurrence of a mark**, if it occurs. -/
def cut? (mark : Char) (cs : List Char) : Option (List Char × List Char) :=
  match cs.dropWhile (· != mark) with
  | [] => none
  | _ :: rest => some (cs.takeWhile (· != mark), rest)

theorem bne_of_not_mem {mark : Char} {cs : List Char} (h : mark ∉ cs) : ∀ c ∈ cs, (c != mark) = true := by
  intro c hc
  rw [bne_iff_ne]
  rintro rfl
  exact h hc

/-- A text without the mark cannot be cut. -/
theorem cut?_eq_none {mark : Char} {cs : List Char} (h : mark ∉ cs) : cut? mark cs = none := by
  have hall : (cs ++ []).dropWhile (· != mark) = [] := by
    rw [List.dropWhile_append_of_pos (bne_of_not_mem h), List.dropWhile_nil]
  rw [List.append_nil] at hall
  rw [cut?, hall]

/-- A text is cut at a mark that does not occur before it. -/
theorem cut?_append {mark : Char} {before : List Char} (after : List Char) (h : mark ∉ before) :
    cut? mark (before ++ mark :: after) = some (before, after) := by
  have hall := bne_of_not_mem h
  rw [cut?, List.dropWhile_append_of_pos hall, List.takeWhile_append_of_pos hall,
    List.dropWhile_cons_of_neg (by simp), List.takeWhile_cons_of_neg (by simp), List.append_nil]

end SignalFlow.Text
