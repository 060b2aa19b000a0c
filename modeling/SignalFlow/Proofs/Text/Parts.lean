import Mathlib.Data.List.DropRight
import Mathlib.Data.List.TakeWhile
import SignalFlow.Text.Blank
import SignalFlow.Text.Cut

/-!
# Parts of a text

Where a text is cut at a mark (`cut?_eq_some_iff`), and what is left of it without the blanks at its ends
(`trims_iff`). A part that an argument has (`Part`) is what is left of it, and is not empty.
-/

namespace SignalFlow.Text

/-- **A text is cut at the first mark in it.** -/
theorem cut?_eq_some_iff {mark : Char} {cs before after : List Char} :
    cut? mark cs = some (before, after) ↔ cs = before ++ mark :: after ∧ mark ∉ before := by
  refine ⟨fun h => ?_, fun ⟨hcs, hmark⟩ => hcs ▸ cut?_append after hmark⟩
  by_cases hmem : mark ∈ cs
  case neg =>
    rw [cut?_eq_none hmem] at h
    cases h
  obtain ⟨before', after', rfl, hmark⟩ := List.eq_append_cons_of_mem hmem
  rw [cut?_append after' hmark] at h
  cases h
  exact ⟨rfl, hmark⟩

/-- **A text is another one between blanks**, and the other one has none at its ends. -/
structure Trims (cs part : List Char) : Prop where
  between : ∃ before after, cs = before ++ part ++ after ∧ (∀ c ∈ before, isBlank c) ∧ ∀ c ∈ after, isBlank c
  first : ∀ c ∈ part.head?, isBlank c = false
  last : ∀ c ∈ part.getLast?, isBlank c = false

/-- The blanks before a text that does not start with one. -/
theorem dropWhile_isBlank_iff {cs rest : List Char} : cs.dropWhile isBlank = rest ↔
    ∃ before, cs = before ++ rest ∧ (∀ c ∈ before, isBlank c) ∧ ∀ c ∈ rest.head?, isBlank c = false := by
  constructor
  · rintro rfl
    refine ⟨cs.takeWhile isBlank, List.takeWhile_append_dropWhile.symm, fun c hc => List.mem_takeWhile_imp hc, ?_⟩
    intro c hc
    have h := List.head?_dropWhile_not isBlank cs
    rwa [Option.mem_def.mp hc] at h
  · rintro ⟨before, rfl, hbefore, hrest⟩
    rw [List.dropWhile_append_of_pos hbefore]
    cases rest with
    | nil => rfl
    | cons c rest => exact List.dropWhile_cons_of_neg (by simp [hrest c rfl])

/-- **What is left of a text** without the blanks at its ends is the text between them. -/
theorem trims_iff {cs part : List Char} : Trims cs part ↔ trim cs = part := by
  have hturn : trim cs = part ↔ (cs.dropWhile isBlank).reverse.dropWhile isBlank = part.reverse := List.reverse_eq_iff
  rw [hturn, dropWhile_isBlank_iff]
  constructor
  · rintro ⟨⟨before, after, rfl, hbefore, hafter⟩, hfirst, hlast⟩
    cases part with
    | nil =>
      have hall : ∀ c ∈ before ++ after, isBlank c := List.forall_mem_append.mpr ⟨hbefore, hafter⟩
      rw [List.append_nil, List.dropWhile_eq_nil_iff.mpr hall]
      exact ⟨[], rfl, List.forall_mem_nil _, hlast⟩
    | cons c part =>
      have hdrop : (before ++ c :: part ++ after).dropWhile isBlank = c :: part ++ after :=
        dropWhile_isBlank_iff.mpr ⟨before, List.append_assoc .., hbefore, hfirst⟩
      refine ⟨after.reverse, by rw [hdrop, List.reverse_append], ?_, ?_⟩
      · simpa using hafter
      · rwa [List.head?_reverse]
  · rintro ⟨after, hrest, hafter, hlast⟩
    obtain ⟨before, hcs, hbefore, hfirst⟩ := dropWhile_isBlank_iff.mp (rfl : cs.dropWhile isBlank = _)
    rw [List.reverse_eq_append_iff, List.reverse_reverse] at hrest
    refine ⟨⟨before, after.reverse, by rw [hcs, hrest, List.append_assoc], hbefore, by simpa using hafter⟩, ?_, ?_⟩
    · intro c hc
      refine hfirst c ?_
      rw [hrest, List.head?_append, Option.mem_def.mp hc]
      rfl
    · rwa [List.head?_reverse] at hlast

/-- **A part of an argument**: what is left of a text without the blanks at its ends, if that is not empty. -/
structure Part (cs : List Char) (s : String) : Prop where
  trims : Trims cs s.toList
  nonempty : s ≠ ""

theorem part_iff {cs : List Char} {s : String} : Part cs s ↔ trim cs ≠ [] ∧ s = String.ofList (trim cs) := by
  constructor
  · rintro ⟨htrims, hne⟩
    have htrim := trims_iff.mp htrims
    exact ⟨htrim ▸ mt String.toList_eq_nil_iff.mp hne, htrim ▸ String.ofList_toList.symm⟩
  · rintro ⟨hne, rfl⟩
    exact ⟨trims_iff.mpr String.toList_ofList.symm, mt String.ofList_eq_empty_iff.mp hne⟩

end SignalFlow.Text
