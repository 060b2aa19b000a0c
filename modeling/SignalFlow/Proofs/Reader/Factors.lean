import SignalFlow.Proofs.Reader.CallByCall
import SignalFlow.Proofs.Reader.Image

/-!
# The factors around a call

A product has its factors from left to right (`Tree.factors`). In frames, those before and after a factor are read off
the products right around it (`factors_chain`). What `signPlace` says of a factor is the next of them if no right
operand of a product is a product (`ProductsLeft`), since such a factor is this operand itself
(`followers_of_before`).

The products of a tree that is read lean in this way (`productsLeft_reads`), and expanding a call keeps it so
(`CallStep.productsLeft`). It takes a node away (`CallStep.size`), so calls come to an end.
-/

namespace SignalFlow

open SignalFlow.Tree

variable {ι κ α : Type}

/-! ## Factors -/

namespace Tree

/-- **The factors of a product**, left to right. -/
def factors : Tree ι α → List (Tree ι α)
  | .binary _ .mul a b => a.factors ++ b.factors
  | t => [t]

theorem factors_of_op {t : Tree ι α} (h : t.op? ≠ some .mul) : t.factors = [t] := by
  cases t with
  | binary l op a b => cases op <;> first | exact absurd rfl h | rfl
  | _ => rfl

/-- The factors are met in this order on a walk. -/
theorem factors_sublist (t : Tree ι α) : t.factors.Sublist t.preorder := by
  induction t using nodeInduction with
  | binary l op a b iha ihb =>
    by_cases hop : op = .mul
    · subst hop
      rw [factors, preorder_eq, children, List.flatMap_cons, List.flatMap_singleton]
      exact (iha.append ihb).cons _
    · rw [factors_of_op (t := .binary l op a b) fun h => hop (Option.some.inj h)]
      exact List.singleton_sublist.mpr (self_mem_preorder _)
  | _ => exact List.singleton_sublist.mpr (self_mem_preorder _)

end Tree

namespace Frame

/-- Whether the frame is a sign. -/
def isNegate : Frame ι α → Bool
  | .negate _ => true
  | _ => false

/-- Whether the frame is a product. -/
def isProduct : Frame ι α → Bool
  | .left _ op _ | .right _ op _ => op == .mul
  | _ => false

end Frame

namespace Reader

/-- The factors before a tree in frames. -/
def leaders : List (Frame ι α) → List (Tree ι α)
  | .left _ .mul _ :: fs => leaders fs
  | .right _ .mul a :: fs => leaders fs ++ a.factors
  | _ => []

/-- The factors after a tree in frames. -/
def followers : List (Frame ι α) → List (Tree ι α)
  | .left _ .mul b :: fs => b.factors ++ followers fs
  | .right _ .mul _ :: fs => followers fs
  | _ => []

/-- **The factors of the product around a tree.** -/
theorem factors_chain (fs : List (Frame ι α)) (t : Tree ι α) :
    (plug (fs.takeWhile Frame.isProduct) t).factors = leaders fs ++ (t.factors ++ followers fs) := by
  induction fs generalizing t with
  | nil => simp [plug, leaders, followers]
  | cons f fs ih =>
    by_cases hf : f.isProduct = true
    · rw [List.takeWhile_cons_of_pos hf, plug, ih]
      cases f with
      | left l op b =>
        obtain rfl : op = .mul := by simpa [Frame.isProduct] using hf
        simp [Frame.fill, factors, leaders, followers]
      | right l op a =>
        obtain rfl : op = .mul := by simpa [Frame.isProduct] using hf
        simp [Frame.fill, factors, leaders, followers]
      | _ => cases hf
    · rw [List.takeWhile_cons_of_neg hf, plug]
      have hnone : leaders (f :: fs) = [] ∧ followers (f :: fs) = [] := by
        cases f with
        | left l op b | right l op a =>
          cases op <;> first | exact ⟨rfl, rfl⟩ | exact absurd rfl hf
        | _ => exact ⟨rfl, rfl⟩
      rw [hnone.1, hnone.2, List.nil_append, List.append_nil]

/-! ## The factor that follows -/

section Places

variable {fs : List (Frame Id α)} {f : Frame Id α} {holder : Id} {next : Tree Id α}

/-- The place of a tree is that of the whole of it with the signs around it. -/
theorem signPlace_eq (fs : List (Frame Id α)) : signPlace fs = chainPlace (fs.dropWhile Frame.isNegate) := by
  induction fs with
  | nil => rfl
  | cons f fs ih =>
    cases f with
    | negate l => exact ih
    | _ => rfl

theorem chainPlace_eq_alone : chainPlace fs = .alone ↔ (fs.head?.any Frame.isProduct) = false := by
  cases fs with
  | nil => simp [chainPlace]
  | cons f fs =>
    cases f with
    | left l op b => cases op <;> simp [chainPlace, Frame.isProduct]
    | right l op a =>
      cases op <;> simp [chainPlace, Frame.isProduct]
      cases chainPlace fs <;> simp [Place.ofRight]
    | _ => simp [chainPlace, Frame.isProduct]

/-- **The product in front of a factor**, which holds the factor that follows. -/
theorem exists_holder (h : chainPlace fs = .before holder next) :
    ∃ gs hs, fs = gs ++ .left holder .mul next :: hs ∧ dropHolder fs = gs ++ hs ∧
      followers fs = next.factors ++ followers hs := by
  induction fs with
  | nil => cases h
  | cons f fs ih =>
    cases f with
    | negate | item => cases h
    | left l op b =>
      cases op <;> cases h
      exact ⟨[], fs, rfl, rfl, rfl⟩
    | right l op a =>
      cases op <;> try cases h
      have hfs : chainPlace fs = .before holder next := by
        change (chainPlace fs).ofRight = _ at h
        cases hp : chainPlace fs <;> rw [hp] at h <;> cases h
        rfl
      obtain ⟨gs, hs, rfl, hdrop, hfollow⟩ := ih hfs
      exact ⟨.right l .mul a :: gs, hs, rfl, congrArg _ hdrop, hfollow⟩

/-- Nothing follows the last factor. -/
theorem followers_of_last (h : chainPlace fs = .last) : followers fs = [] := by
  induction fs with
  | nil => cases h
  | cons f fs ih =>
    cases f with
    | negate | item => cases h
    | left l op b => cases op <;> cases h
    | right l op a =>
      cases op <;> try cases h
      change (chainPlace fs).ofRight = _ at h
      change followers fs = []
      cases hp : chainPlace fs with
      | last => exact ih hp
      | alone =>
        cases fs with
        | nil => rfl
        | cons f fs =>
          have hf := chainPlace_eq_alone.mp hp
          cases f with
          | left l op b | right l op b => cases op <;> first | rfl | cases hf
          | _ => rfl
      | before holder next =>
        rw [hp] at h
        cases h

/-- A call takes its list away from the product in front of it, wherever the signs are. -/
theorem exists_holder_sign (h : signPlace fs = .before holder next) :
    ∃ gs hs, fs = gs ++ .left holder .mul next :: hs ∧ dropHolder fs = gs ++ hs := by
  induction fs with
  | nil => cases h
  | cons f fs ih =>
    cases f with
    | negate l =>
      obtain ⟨gs, hs, rfl, hdrop⟩ := ih h
      exact ⟨.negate l :: gs, hs, rfl, congrArg _ hdrop⟩
    | _ =>
      obtain ⟨gs, hs, hfs, hdrop, -⟩ := exists_holder h
      exact ⟨gs, hs, hfs, hdrop⟩

end Places

/-! ## Products that lean to the left -/

/-- The last operand of the root, if this is a product, is no product. -/
def EndsInFactor : Tree ι α → Prop
  | .binary _ .mul _ b => b.op? ≠ some .mul
  | _ => True

/-- **No right operand of a product is a product.** -/
def ProductsLeft (t : Tree ι α) : Prop := t.Everywhere EndsInFactor

section Left

variable {fs : List (Frame ι α)} {l : ι} {op : BinaryOp} {t u a b : Tree ι α}

theorem productsLeft_binary : ProductsLeft (.binary l op a b) ↔
    (op = .mul → b.op? ≠ some .mul) ∧ ProductsLeft a ∧ ProductsLeft b := by
  refine everywhere_binary.trans (and_congr_left fun _ => ?_)
  cases op <;> simp [EndsInFactor]

theorem everywhere_of_plug {p : Tree ι α → Prop} (h : (plug fs t).Everywhere p) : t.Everywhere p :=
  fun u hu => h u (mem_preorder_plug fs hu)

/-- **Another tree in frames.** It may be a product only where one was before. -/
theorem ProductsLeft.replace (h : ProductsLeft (plug fs t)) (hu : ProductsLeft u)
    (hop : u.op? = some .mul → t.op? = some .mul) : ProductsLeft (plug fs u) := by
  induction fs generalizing t u with
  | nil => exact hu
  | cons f fs ih =>
    have hfill : ProductsLeft (f.fill t) := everywhere_of_plug h
    cases f with
    | negate l => exact ih h (everywhere_negate.mpr ⟨trivial, hu⟩) id
    | left l op b =>
      obtain ⟨hb, -, hright⟩ := productsLeft_binary.mp hfill
      exact ih h (productsLeft_binary.mpr ⟨hb, hu, hright⟩) id
    | right l op a =>
      obtain ⟨hb, hleft, -⟩ := productsLeft_binary.mp hfill
      exact ih h (productsLeft_binary.mpr ⟨fun hmul => hb hmul ∘ hop, hleft, hu⟩) id
    | item l before after =>
      have hitems := (everywhere_list.mp hfill).2
      refine ih h (everywhere_list.mpr ⟨trivial, ?_⟩) id
      rw [List.forall_mem_append, List.forall_mem_cons] at hitems ⊢
      exact ⟨hitems.1, hu, hitems.2.2⟩

end Left

/-- **The factor that follows is the one that the place names.** -/
theorem followers_of_before {fs : List (Frame Id α)} {holder : Id} {next t : Tree Id α}
    (h : chainPlace fs = .before holder next) (hlean : ProductsLeft (plug fs t)) :
    ∃ rest, followers fs = next :: rest := by
  obtain ⟨gs, hs, rfl, -, hfollow⟩ := exists_holder h
  rw [plug_append] at hlean
  have hproduct : ProductsLeft (.binary holder .mul (plug gs t) next) := everywhere_of_plug hlean
  have hnext : next.op? ≠ some .mul := (productsLeft_binary.mp hproduct).1 rfl
  rw [factors_of_op hnext] at hfollow
  exact ⟨followers hs, hfollow⟩

/-! ## Products that are read -/

section Reading

variable [Scalar α]

/-- The rules that read no product, unless it is in a group or an exponent. -/
def Rule.IsFactor : Rule → Prop
  | .signed | .power | .atom => True
  | _ => False

theorem op?_negated {t : Term α} : (negated t).op? = none := by
  cases t <;> rfl

theorem productsLeft_negated {t : Term α} (h : ProductsLeft t) : ProductsLeft (negated t) :=
  everywhere_negated h (fun _ _ _ => trivial) trivial

/-- **The products of a tree that is read lean to the left**, since what follows an operator is a factor. -/
theorem productsLeft_reads {R : Rule} {s r : List (Symbol α)} {t : Term α} (h : Reads R s t r) :
    ProductsLeft t ∧ (R.IsFactor → t.op? ≠ some .mul) := by
  induction h with
  | sequenceOne _ ih | additiveOne _ ih | termOne _ ih | exponentOne _ _ ih | runOne _ ih => exact ⟨ih.1, nofun⟩
  | signedOne _ ih | powerOne _ ih => exact ⟨ih.1, fun _ => ih.2 trivial⟩
  | sequenceMore _ _ iha ihb => exact ⟨productsLeft_binary.mpr ⟨nofun, iha.1, ihb.1⟩, nofun⟩
  | @additiveMore _ _ x op _ _ _ _ hop _ iha ihb =>
    have hmul : op ≠ .mul := by
      rintro rfl
      cases x <;> cases hop
    exact ⟨productsLeft_binary.mpr ⟨fun h => absurd h hmul, iha.1, ihb.1⟩, nofun⟩
  | termMore _ _ _ iha ihb | termBeside _ _ iha ihb | runMore _ _ iha ihb =>
    exact ⟨productsLeft_binary.mpr ⟨fun _ => ihb.2 trivial, iha.1, ihb.1⟩, nofun⟩
  | powerMore _ _ iha ihb => exact ⟨productsLeft_binary.mpr ⟨nofun, iha.1, ihb.1⟩, fun _ => nofun⟩
  | signedMinus _ ih | exponentMinus _ ih =>
    refine ⟨productsLeft_negated ih.1, fun _ => ?_⟩
    rw [op?_negated]
    exact nofun
  | signedPlus _ ih => exact ⟨ih.1, ih.2⟩
  | exponentPlus _ ih => exact ⟨ih.1, nofun⟩
  | number v r => exact ⟨everywhere_literal.mpr trivial, fun _ => nofun⟩
  | name x r => exact ⟨everywhere_var.mpr trivial, fun _ => nofun⟩
  | infinity r => exact ⟨everywhere_infinity.mpr trivial, fun _ => nofun⟩
  | group _ ih => exact ⟨ih.1, fun _ => nofun⟩
  | itemsOne _ ih => exact ⟨everywhere_list.mpr ⟨trivial, List.forall_mem_singleton.mpr ih.1⟩, nofun⟩
  | itemsMore _ _ iha ihb =>
    have hitems := (everywhere_list.mp iha.1).2
    exact ⟨everywhere_list.mpr ⟨trivial, List.forall_mem_append.mpr
      ⟨hitems, List.forall_mem_singleton.mpr ihb.1⟩⟩, nofun⟩

end Reading

theorem op?_relabel {f : ι → κ} (t : Tree ι α) : (t.relabel f).op? = t.op? := by
  cases t <;> rfl

theorem productsLeft_relabel {f : ι → κ} {t : Tree ι α} : ProductsLeft (t.relabel f) ↔ ProductsLeft t := by
  refine everywhere_relabel.trans (forall₂_congr fun u _ => ?_)
  cases u with
  | binary l op a b => cases op <;> simp [relabel, EndsInFactor, op?_relabel]
  | _ => exact Iff.rfl

/-! ## What a call leaves -/

namespace CallStep

variable {x y : Tree Id α × Slots}

/-- **A call takes a node away**: two are made, and three are dropped. -/
theorem size (h : CallStep x y) : y.1.size + 1 = x.1.size := by
  cases h with
  | call _ hplace =>
    obtain ⟨gs, hs, rfl, hdrop⟩ := exists_holder_sign hplace
    rw [hdrop]
    simp only [size_plug, List.flatMap_append, List.flatMap_cons, List.length_append, Frame.labels, Frame.siblings,
      Frame.before, Frame.after, List.length_cons, List.nil_append, List.flatMap_nil, List.length_nil, length_labels,
      callPower, Tree.size, Tree.sizeAll]
    omega

theorem productsLeft (h : CallStep x y) (hx : ProductsLeft x.1) : ProductsLeft y.1 := by
  cases h with
  | @call fs l holder k argument s _ hplace =>
    obtain ⟨gs, hs, rfl, hdrop⟩ := exists_holder_sign hplace
    rw [hdrop]
    simp only [plug_append, plug] at hx ⊢
    obtain ⟨-, hinner, hlist⟩ := productsLeft_binary.mp (everywhere_of_plug hx)
    have hargument : ProductsLeft argument := (everywhere_list.mp hlist).2 argument List.mem_cons_self
    have hpow : BinaryOp.pow ≠ .mul := by decide
    have hpower : ProductsLeft (callPower s argument) :=
      productsLeft_binary.mpr ⟨fun hmul => absurd hmul hpow, everywhere_var.mpr trivial, hargument⟩
    exact hx.replace (hinner.replace hpower fun hmul => absurd (Option.some.inj hmul) hpow) fun _ => rfl

end CallStep

theorem size_le_of_callSteps {x y : Tree Id α × Slots} (h : CallSteps x y) : y.1.size ≤ x.1.size := by
  induction h with
  | refl => exact Nat.le_refl _
  | tail _ hstep ih =>
    have hsize := hstep.size
    omega

end Reader

end SignalFlow
