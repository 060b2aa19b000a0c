import Mathlib.Data.List.Basic

/-!
# Labels in which only quotes are written with a backslash

A reader of labels knows two escapes, a quote and a backslash with a backslash in front; any other backslash stands for
itself, and the label ends at the first quote that is not escaped (`readEscaped`). A writer that puts a backslash in
front of quotes alone (`escapeQuotes`) is read back just when no backslash of the text comes before another one, before
a quote or at the end (`NoEscape`, `decodeLabel_iff`): there it is taken for the beginning of an escape.
-/

namespace SignalFlow.Text

/-- **What stands up to the first quote that is not escaped**, and what follows it. -/
def readEscaped : List Char → Option (List Char × List Char)
  | [] => none
  | '"' :: rest => some ([], rest)
  | '\\' :: '"' :: rest => (readEscaped rest).map fun r => ('"' :: r.1, r.2)
  | '\\' :: '\\' :: rest => (readEscaped rest).map fun r => ('\\' :: r.1, r.2)
  | c :: rest => (readEscaped rest).map fun r => (c :: r.1, r.2)

/-- **What stands in the label** at the head of a text, and what follows it. -/
def decodeLabel : List Char → Option (List Char × List Char)
  | '"' :: rest => readEscaped rest
  | _ => none

/-- A text with a backslash in front of its quotes. -/
def escapeQuotes (cs : List Char) : List Char := cs.flatMap fun c => if c == '"' then ['\\', '"'] else [c]

/-- **No backslash begins an escape**: behind each there is a character, neither a quote nor a backslash. -/
def NoEscape : List Char → Prop
  | [] => True
  | c :: cs => (c = '\\' → ∃ d ∈ cs.head?, d ≠ '"' ∧ d ≠ '\\') ∧ NoEscape cs

/-! ## Character by character -/

variable {c : Char} {cs rest : List Char}

theorem readEscaped_cons (hquote : c ≠ '"') (hslash : c ≠ '\\') :
    readEscaped (c :: rest) = (readEscaped rest).map fun r => (c :: r.1, r.2) := by
  rw [readEscaped]
  · exact hquote
  · exact fun _ h => absurd h hslash
  · exact fun _ h => absurd h hslash

theorem escapeQuotes_cons (h : c ≠ '"') : escapeQuotes (c :: cs) = c :: escapeQuotes cs := by
  rw [escapeQuotes, List.flatMap_cons, if_neg (by simpa using h)]
  rfl

theorem noEscape_cons (h : c ≠ '\\') : NoEscape (c :: cs) ↔ NoEscape cs :=
  and_iff_right fun hslash => absurd hslash h

/-- A text without backslashes has no escapes. -/
theorem noEscape_of_not_mem (h : '\\' ∉ cs) : NoEscape cs := by
  induction cs with
  | nil => trivial
  | cons c cs ih =>
    obtain ⟨hc, hcs⟩ := not_or.mp (mt List.mem_cons.mpr h)
    exact (noEscape_cons (Ne.symm hc)).mpr (ih hcs)

/-- A character that is not a backslash is read as it was written. -/
theorem readEscaped_escapeQuotes_cons (h : c ≠ '\\') : readEscaped (escapeQuotes (c :: cs) ++ rest) =
    (readEscaped (escapeQuotes cs ++ rest)).map fun r => (c :: r.1, r.2) := by
  by_cases hquote : c = '"'
  · subst hquote
    rfl
  · rw [escapeQuotes_cons hquote, List.cons_append, readEscaped_cons hquote h]

/-- A backslash in front of a quote is read together with the backslash of the quote, which then ends the label. -/
theorem readEscaped_slash_quote (cs rest : List Char) :
    readEscaped (escapeQuotes ('\\' :: '"' :: cs) ++ rest) = some (['\\'], escapeQuotes cs ++ rest) := rfl

/-- Two backslashes are read as one. -/
theorem readEscaped_slash_slash (cs rest : List Char) : readEscaped (escapeQuotes ('\\' :: '\\' :: cs) ++ rest) =
    (readEscaped (escapeQuotes cs ++ rest)).map fun r => ('\\' :: r.1, r.2) := rfl

/-- A backslash in front of any other character stands for itself. -/
theorem readEscaped_slash_cons (hquote : c ≠ '"') (hslash : c ≠ '\\') (cs rest : List Char) :
    readEscaped (escapeQuotes ('\\' :: c :: cs) ++ rest) =
      (readEscaped (escapeQuotes (c :: cs) ++ rest)).map fun r => ('\\' :: r.1, r.2) := by
  rw [escapeQuotes_cons (by decide), escapeQuotes_cons hquote, List.cons_append, List.cons_append, readEscaped]
  · decide
  · exact fun _ _ h => absurd (List.cons.inj h).1 hquote
  · exact fun _ _ h => absurd (List.cons.inj h).1 hslash

/-! ## Whole labels -/

/-- **A text without escapes is read back.** -/
theorem readEscaped_of_noEscape (h : NoEscape cs) (rest : List Char) :
    readEscaped (escapeQuotes cs ++ '"' :: rest) = some (cs, rest) := by
  induction cs with
  | nil => rfl
  | cons c cs ih =>
    obtain ⟨hc, hcs⟩ := h
    by_cases hslash : c = '\\'
    · obtain ⟨d, hd, hquote', hslash'⟩ := hc hslash
      obtain ⟨ds, rfl⟩ : ∃ ds, cs = d :: ds := ⟨cs.tail, (List.cons_head?_tail hd).symm⟩
      rw [hslash, readEscaped_slash_cons hquote' hslash', ih hcs]
      rfl
    · rw [readEscaped_escapeQuotes_cons hslash, ih hcs]
      rfl

/-- What is read begins with a character that was put in front of it. -/
theorem exists_of_map_cons {r : Option (List Char × List Char)} {ds next : List Char}
    (h : (r.map fun r => (c :: r.1, r.2)) = some (ds, next)) : ∃ ds', ds = c :: ds' ∧ r = some (ds', next) := by
  cases r with
  | none => cases h
  | some r => cases h; exact ⟨r.1, rfl, rfl⟩

theorem replicate_append_cons (c : Char) (k : Nat) (cs : List Char) :
    List.replicate k c ++ c :: cs = c :: (List.replicate k c ++ cs) := by
  rw [List.append_cons, ← List.replicate_succ', List.replicate_succ, List.cons_append]

/-- **A text is read as it is only without escapes.** Two backslashes are read as one, and from there on what is read
lags behind the text; `k` counts by how much, and it never catches up. -/
theorem noEscape_of_readEscaped {rest next : List Char} : ∀ (cs : List Char) (k : Nat),
    readEscaped (escapeQuotes cs ++ '"' :: rest) = some (List.replicate k '\\' ++ cs, next) → k = 0 ∧ NoEscape cs
  | [], 0, _ => ⟨rfl, trivial⟩
  | [], k + 1, h => by cases h
  | c :: cs, k, h => by
    by_cases hc : c = '\\'
    · subst hc
      rw [replicate_append_cons] at h
      cases cs with
      | nil =>
        -- the quote that ends the label is read as an escaped one
        obtain ⟨ds, hds, -⟩ := exists_of_map_cons (c := '"') h
        cases hds
      | cons d ds =>
        by_cases hquote : d = '"'
        · subst hquote
          rw [readEscaped_slash_quote] at h
          cases k <;> cases h
        by_cases hslash : d = '\\'
        · subst hslash
          rw [readEscaped_slash_slash, replicate_append_cons, ← List.cons_append, ← List.replicate_succ] at h
          obtain ⟨es, hes, h⟩ := exists_of_map_cons h
          rw [← (List.cons.inj hes).2] at h
          exact absurd (noEscape_of_readEscaped ds (k + 1) h).1 (Nat.succ_ne_zero k)
        · rw [readEscaped_slash_cons hquote hslash] at h
          obtain ⟨es, hes, h⟩ := exists_of_map_cons h
          rw [← (List.cons.inj hes).2] at h
          obtain ⟨hk, hds⟩ := noEscape_of_readEscaped (d :: ds) k h
          exact ⟨hk, fun _ => ⟨d, rfl, hquote, hslash⟩, hds⟩
    · rw [readEscaped_escapeQuotes_cons hc] at h
      obtain ⟨ds, hds, h⟩ := exists_of_map_cons h
      cases k with
      | zero =>
        obtain rfl : cs = ds := (List.cons.inj hds).2
        exact ⟨rfl, (noEscape_cons hc).mpr (noEscape_of_readEscaped cs 0 h).2⟩
      | succ k => exact absurd (List.cons.inj hds).1.symm hc

/-- **A label shows its text just when the text is without escapes**; then it also ends where it was written to end. -/
theorem decodeLabel_iff (cs rest : List Char) :
    decodeLabel ('"' :: (escapeQuotes cs ++ '"' :: rest)) = some (cs, rest) ↔ NoEscape cs :=
  ⟨fun h => (noEscape_of_readEscaped cs 0 h).2, fun h => readEscaped_of_noEscape h rest⟩

end SignalFlow.Text
