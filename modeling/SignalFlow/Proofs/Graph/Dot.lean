import SignalFlow.Graph.Dot
import SignalFlow.Proofs.Graph.WellFormed
import SignalFlow.Proofs.Text.Framed

/-!
# Drawings show what they are of

A label of a drawing is read back, whatever the name or weight in it (`readLabel_quoteLabel`), so every line shows where
it ends (`framed_nodeText`, `framed_branchText`); what follows its first number tells whether it is the line of a node
or of a branch (`nodeText_ne_branchText`). So a drawing determines its lines (`framed_lines`), and two graphs have the
same drawing just when they have the same nodes and the same branches, as far as it shows them (`dot_eq_iff`).
-/

namespace SignalFlow.Graph

open Text (Framed)

variable {α : Type} [Scalar α]

/-! ## Labels -/

/-- **A label is read back.** -/
theorem readLabel_quoteLabel (s : String) (rest : List Char) :
    Text.readLabel ((quoteLabel s).toList ++ rest) = some (s.toList, rest) := by
  have hescape (c : Char) : (if c == '"' || c == '\\' then ['\\', c] else [c]) = ['\\', c] ∨
      ((if c == '"' || c == '\\' then ['\\', c] else [c]) = [c] ∧ c ≠ '"' ∧ c ≠ '\\') := by
    by_cases hc : (c == '"' || c == '\\') = true
    · exact .inl (if_pos hc)
    · rw [if_neg hc]
      exact .inr ⟨rfl, by simpa using hc⟩
  rw [quoteLabel, String.toList_ofList, List.cons_append, List.cons_append, List.append_assoc]
  exact Text.readLabel_append hescape s.toList rest

theorem framed_quoteLabel : Framed fun s => (quoteLabel s).toList :=
  .of_read (fun _ _ => String.toList_injective) readLabel_quoteLabel

/-! ## Lines -/

/-- What the line of a node shows: its handle and its name. -/
def shownNode (n : Node) : NodeId × String := (n.id, n.name)

/-- What the line of a branch shows: its ends and the text of its weight. -/
def shownBranch (b : Branch α) : NodeId × NodeId × String := (b.source, b.dest, b.weight.text)

/-- The line that shows a node. -/
def nodeText (n : NodeId × String) : List Char :=
  "  ".toList ++ ("N".toList ++ ((toString n.1.index).toList ++
    (" [label=".toList ++ ((quoteLabel n.2).toList ++ "];\n".toList))))

/-- The line that shows a branch. -/
def branchText (b : NodeId × NodeId × String) : List Char :=
  "  ".toList ++ ("N".toList ++ ((toString b.1.index).toList ++ (" -> ".toList ++ ("N".toList ++
    ((toString b.2.1.index).toList ++ (" [label=".toList ++ ((quoteLabel b.2.2).toList ++ "];\n".toList)))))))

theorem toList_nodeLine (n : Node) : (nodeLine n).toList = nodeText (shownNode n) := by
  simp only [nodeLine, nodeName, Id.text, String.toList_append, List.append_assoc, nodeText, shownNode]

theorem toList_branchLine (b : Branch α) : (branchLine b).toList = branchText (shownBranch b) := by
  simp only [branchLine, nodeName, Id.text, String.toList_append, List.append_assoc, branchText, shownBranch]

theorem head_label (cs : List Char) : ∀ c ∈ (" [label=".toList ++ cs).head?, c.isDigit = false := by
  rintro c ⟨⟩
  rfl

theorem head_arrow (cs : List Char) : ∀ c ∈ (" -> ".toList ++ cs).head?, c.isDigit = false := by
  rintro c ⟨⟩
  rfl

theorem framed_nodeText : Framed nodeText := by
  rintro ⟨i, name⟩ ⟨j, name'⟩ r s h
  simp only [nodeText, List.append_assoc] at h
  have hnumber := List.append_cancel_left (List.append_cancel_left h)
  obtain ⟨hij, hlabel⟩ := Text.number_append_inj (head_label _) (head_label _) hnumber
  obtain ⟨rfl, hrest⟩ := framed_quoteLabel _ _ _ _ (List.append_cancel_left hlabel)
  exact ⟨congrArg (·, name) (Id.index_injective hij), List.append_cancel_left hrest⟩

theorem framed_branchText : Framed branchText := by
  rintro ⟨i, j, weight⟩ ⟨i', j', weight'⟩ r s h
  simp only [branchText, List.append_assoc] at h
  have hnumber := List.append_cancel_left (List.append_cancel_left h)
  obtain ⟨hi, harrow⟩ := Text.number_append_inj (head_arrow _) (head_arrow _) hnumber
  have hnumber := List.append_cancel_left (List.append_cancel_left harrow)
  obtain ⟨hj, hlabel⟩ := Text.number_append_inj (head_label _) (head_label _) hnumber
  obtain ⟨rfl, hrest⟩ := framed_quoteLabel _ _ _ _ (List.append_cancel_left hlabel)
  obtain rfl : i = i' := Id.index_injective hi
  obtain rfl : j = j' := Id.index_injective hj
  exact ⟨rfl, List.append_cancel_left hrest⟩

/-- No text begins with the line of a node and with that of a branch. -/
theorem nodeText_ne_branchText (n : NodeId × String) (b : NodeId × NodeId × String) (r s : List Char) :
    nodeText n ++ r ≠ branchText b ++ s := by
  intro h
  simp only [nodeText, branchText, List.append_assoc] at h
  have hnumber := List.append_cancel_left (List.append_cancel_left h)
  obtain ⟨-, hnext⟩ := Text.number_append_inj (head_label _) (head_arrow _) hnumber
  cases hnext

/-! ## Drawings -/

/-- The lines of a drawing: those of the nodes, then those of the branches. -/
def shown (g : Graph α) : List ((NodeId × String) ⊕ (NodeId × NodeId × String)) :=
  (g.liveNodes.map shownNode).map Sum.inl ++ (g.liveBranches.map shownBranch).map Sum.inr

theorem nodes_shown (g : Graph α) : (shown g).filterMap Sum.getLeft? = g.liveNodes.map shownNode := by
  simp [shown, List.filterMap_map, Function.comp_def]

theorem branches_shown (g : Graph α) : (shown g).filterMap Sum.getRight? = g.liveBranches.map shownBranch := by
  simp [shown, List.filterMap_map, Function.comp_def]

theorem framed_line : Framed (Sum.elim nodeText branchText) :=
  framed_nodeText.either framed_branchText nodeText_ne_branchText

/-- Any number of lines, up to the end of the drawing. -/
theorem framed_lines : Framed fun lines : List ((NodeId × String) ⊕ (NodeId × NodeId × String)) =>
    lines.flatMap (Sum.elim nodeText branchText) ++ "\x7d\n".toList := by
  refine framed_line.list fun line r s h => ?_
  cases line <;> cases h

/-- **A drawing consists of its lines**, between two fixed texts. -/
theorem toList_dot (g : Graph α) : g.dot.toList =
    "digraph sfg \x7b\n".toList ++ ((shown g).flatMap (Sum.elim nodeText branchText) ++ "\x7d\n".toList) := by
  have hnodes : (String.join (g.liveNodes.map nodeLine)).toList = (g.liveNodes.map shownNode).flatMap nodeText := by
    rw [String.toList_join, List.flatMap_map, List.flatMap_map]
    exact congrArg (List.flatMap · g.liveNodes) (funext toList_nodeLine)
  have hbranches : (String.join (g.liveBranches.map branchLine)).toList =
      (g.liveBranches.map shownBranch).flatMap branchText := by
    rw [String.toList_join, List.flatMap_map, List.flatMap_map]
    exact congrArg (List.flatMap · g.liveBranches) (funext toList_branchLine)
  have hlines : (shown g).flatMap (Sum.elim nodeText branchText) =
      (g.liveNodes.map shownNode).flatMap nodeText ++ (g.liveBranches.map shownBranch).flatMap branchText := by
    rw [shown, List.flatMap_append, List.flatMap_map Sum.inl, List.flatMap_map Sum.inr]
    rfl
  -- the fixed texts are hidden, or every rewriting step would compare them with its pattern letter by letter
  unfold dot
  generalize "digraph sfg \x7b\n" = first
  generalize "\x7d\n" = last
  rw [String.toList_append, String.toList_append, String.toList_append, hnodes, hbranches, hlines, List.append_assoc,
    List.append_assoc, List.append_assoc]

/-- **Drawings are faithful.** Two graphs have the same drawing just when they have the same nodes, with their handles
and names, and the same branches, with their ends and the texts of their weights, each in the same order. -/
theorem dot_eq_iff (g h : Graph α) : g.dot = h.dot ↔
    g.liveNodes.map (fun n => (n.id, n.name)) = h.liveNodes.map (fun n => (n.id, n.name)) ∧
      g.liveBranches.map (fun b => (b.source, b.dest, b.weight.text)) =
        h.liveBranches.map fun b => (b.source, b.dest, b.weight.text) := by
  have hshown : shown g = shown h ↔ g.liveNodes.map shownNode = h.liveNodes.map shownNode ∧
      g.liveBranches.map shownBranch = h.liveBranches.map shownBranch := by
    refine ⟨fun heq => ?_, fun ⟨hnodes, hbranches⟩ => by rw [shown, shown, hnodes, hbranches]⟩
    rw [← nodes_shown g, ← nodes_shown h, ← branches_shown g, ← branches_shown h, heq]
    exact ⟨rfl, rfl⟩
  refine Iff.trans ⟨fun heq => ?_, fun heq => ?_⟩ hshown
  · have hlines := (toList_dot g).symm.trans ((congrArg String.toList heq).trans (toList_dot h))
    exact (framed_lines _ _ [] [] (congrArg (· ++ []) (List.append_cancel_left hlines))).1
  · refine String.toList_injective ((toList_dot g).trans (Eq.trans ?_ (toList_dot h).symm))
    rw [heq]

end SignalFlow.Graph
