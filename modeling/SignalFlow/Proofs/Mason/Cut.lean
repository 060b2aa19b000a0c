import Mathlib.LinearAlgebra.Matrix.Adjugate

/-!
# Matrices with some nodes cut out

`cut A X` is the matrix `1 - A` of the flow between nodes after the nodes of `X` have lost all their branches. Three
identities say what becomes of it as one more node is cut out:

* `adjugate_cut_self`: on the diagonal, the adjugate is the determinant with that node cut out;
* `adjugate_cut_of_ne`: a flow from one node to another takes one step, and goes on with the first node cut out;
* `det_cut`: the determinant is that with a node cut out, less what flows from the node back to it.

They hold over every commutative ring. Each comes from expanding a determinant along a row of which, or in whose column,
all entries but one are zero (`adjugate_eq_det_update`).
-/

namespace SignalFlow

open Matrix

variable {n R : Type} [DecidableEq n] [CommRing R]

/-- **The matrix `1 - A` with the nodes of `X` cut out.** -/
def cut (A : Matrix n n R) (X : Finset n) : Matrix n n R :=
  1 - of fun u v => if u ∈ X ∨ v ∈ X then 0 else A u v

variable {A : Matrix n n R} {X : Finset n} {a b : n}

theorem cut_apply (A : Matrix n n R) (X : Finset n) (u v : n) :
    cut A X u v = (1 : Matrix n n R) u v - if u ∈ X ∨ v ∈ X then 0 else A u v := rfl

theorem cut_apply_of_mem_left (A : Matrix n n R) (ha : a ∈ X) (v : n) : cut A X a v = (1 : Matrix n n R) a v := by
  rw [cut_apply, if_pos (.inl ha), sub_zero]

theorem cut_apply_of_mem_right (A : Matrix n n R) (ha : a ∈ X) (u : n) : cut A X u a = (1 : Matrix n n R) u a := by
  rw [cut_apply, if_pos (.inr ha), sub_zero]

theorem cut_insert_of_ne (A : Matrix n n R) (X : Finset n) {u v : n} (hu : u ≠ a) (hv : v ≠ a) :
    cut A (insert a X) u v = cut A X u v := by
  simp only [cut_apply, Finset.mem_insert, hu, hv, false_or]

theorem cut_empty (A : Matrix n n R) : cut A ∅ = 1 - A := by
  ext u v
  simp [cut_apply]

theorem cut_univ [Fintype n] (A : Matrix n n R) : cut A Finset.univ = 1 := by
  ext u v
  simp [cut_apply]

/-! ## One more node -/

/-- Exchanging two rows turns the matrix with row `b` and column `a` cleared into that with the node `a` cut out. -/
theorem updateRow_eq_submatrix_swap (A : Matrix n n R) (X : Finset n) (hab : a ≠ b) (c : n) :
    (((cut A X).updateRow b (Pi.single a 1)).updateCol a (Pi.single b 1)).updateRow a (Pi.single c 1) =
      ((cut A (insert a X)).updateRow b (Pi.single c 1)).submatrix (Equiv.swap a b) id := by
  ext u v
  rw [submatrix_apply, id]
  by_cases hua : u = a
  · subst hua
    rw [updateRow_self, Equiv.swap_apply_left, updateRow_self]
  · rw [updateRow_ne hua]
    by_cases hub : u = b
    · subst hub
      rw [Equiv.swap_apply_right, updateRow_ne hab, cut_apply_of_mem_left A (Finset.mem_insert_self a X)]
      by_cases hv : v = a
      · subst hv
        rw [updateCol_self, Pi.single_eq_same, one_apply_eq]
      · rw [updateCol_ne hv, updateRow_self, one_apply_ne (Ne.symm hv), Pi.single_eq_of_ne hv]
    · rw [Equiv.swap_apply_of_ne_of_ne hua hub, updateRow_ne hub]
      by_cases hv : v = a
      · subst hv
        rw [updateCol_self, cut_apply_of_mem_right A (Finset.mem_insert_self v X), one_apply_ne hua,
          Pi.single_eq_of_ne hub]
      · rw [updateCol_ne hv, updateRow_ne hub, cut_insert_of_ne A X hua hv]

variable [Fintype n]

/-- The adjugate clears a column as well as a row. -/
theorem adjugate_eq_det_update (P : Matrix n n R) (c a : n) :
    adjugate P c a = ((P.updateRow a (Pi.single c 1)).updateCol c (Pi.single a 1)).det := by
  have hcol : ∀ Q : Matrix n n R, adjugate Q c a = (Q.updateCol c (Pi.single a 1)).det := by
    intro Q
    rw [← transpose_apply (adjugate Q), adjugate_transpose, adjugate_apply, updateRow_transpose, det_transpose]
  rw [← hcol, adjugate_apply, adjugate_apply, updateRow_idem]

/-- **A node cut out**: the determinant without it. -/
theorem adjugate_cut_self (A : Matrix n n R) (X : Finset n) (b : n) :
    adjugate (cut A X) b b = (cut A (insert b X)).det := by
  rw [adjugate_eq_det_update]
  congr 1
  ext u v
  by_cases hv : v = b
  · subst hv
    rw [updateCol_self, cut_apply_of_mem_right A (Finset.mem_insert_self v X), one_apply, Pi.single_apply]
  · rw [updateCol_ne hv]
    by_cases hu : u = b
    · subst hu
      rw [updateRow_self, cut_apply_of_mem_left A (Finset.mem_insert_self u X), one_apply, Pi.single_apply,
        if_neg hv, if_neg (Ne.symm hv)]
    · rw [updateRow_ne hu, cut_insert_of_ne A X hu hv]

/-- **A flow between two nodes** takes one step and goes on with the first node cut out. -/
theorem adjugate_cut_of_ne (A : Matrix n n R) (ha : a ∉ X) (hab : a ≠ b) :
    adjugate (cut A X) a b = ∑ c with c ∉ insert a X, A a c * adjugate (cut A (insert a X)) c b := by
  set Q := ((cut A X).updateRow b (Pi.single a 1)).updateCol a (Pi.single b 1) with hQ
  -- `Q` is expanded along row `a`, which column `a` being cleared leaves without its 1.
  have hrow : ∀ c, Q a c = if c ∉ insert a X then -A a c else 0 := by
    intro c
    by_cases hc : c = a
    · subst hc
      rw [hQ, updateCol_self, Pi.single_apply, if_neg hab, if_neg (by simp)]
    · rw [hQ, updateCol_ne hc, updateRow_ne hab, cut_apply, one_apply_ne (Ne.symm hc), zero_sub]
      by_cases hX : c ∈ X
      · rw [if_pos (.inr hX), if_neg (by simp [hX]), neg_zero]
      · rw [if_neg (by simp [ha, hX]), if_pos (by simp [hc, hX])]
  have hswap : ∀ c, adjugate Q c a = -adjugate (cut A (insert a X)) c b := by
    intro c
    rw [adjugate_apply, updateRow_eq_submatrix_swap A X hab, det_permute, Equiv.Perm.sign_swap hab, adjugate_apply]
    simp
  rw [adjugate_eq_det_update, ← hQ, det_eq_sum_mul_adjugate_row Q a, Finset.sum_filter]
  refine Finset.sum_congr rfl fun c _ => ?_
  rw [hrow, hswap]
  split_ifs
  · rw [zero_mul]
  · rw [neg_mul_neg]

/-- **The determinant** is that with a node cut out, less what flows from the node back to it. -/
theorem det_cut (A : Matrix n n R) (ha : a ∉ X) :
    (cut A X).det = (cut A (insert a X)).det - ∑ c with c ∉ X, A a c * adjugate (cut A X) c a := by
  rw [det_eq_sum_mul_adjugate_row (cut A X) a, ← adjugate_cut_self, Finset.sum_filter]
  have hone : adjugate (cut A X) a a = ∑ c, (1 : Matrix n n R) a c * adjugate (cut A X) c a := by
    simp [one_apply]
  rw [hone, ← Finset.sum_sub_distrib]
  refine Finset.sum_congr rfl fun c _ => ?_
  rw [cut_apply, sub_mul]
  by_cases hc : c ∈ X
  · rw [if_pos (.inr hc), if_neg (not_not.mpr hc), zero_mul]
  · rw [if_neg (by simp [ha, hc]), if_pos hc]

end SignalFlow
