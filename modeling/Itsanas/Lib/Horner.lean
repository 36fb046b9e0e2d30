/-
# Polynomials over a sliding window

A polynomial with given coefficients, the highest first, evaluated as it is computed: multiply and
add (`Horner.eval`). It is the sum one means (`Horner.eval_eq_sum`). A window over the last `n`
elements of a list slides by one element in one step: take out the term of the element that leaves,
multiply, and add the one that comes (`Horner.eval_slide`).
-/
import Mathlib.Algebra.BigOperators.Intervals
import Mathlib.Data.List.DropRight
import Mathlib.Data.List.GetD
import Mathlib.Tactic.Ring

namespace Horner

variable {R : Type} [CommRing R]

/-- The polynomial with these coefficients, the highest first, at `x`. -/
def eval (x : R) (coefficients : List R) : R := coefficients.foldl (fun value c => value * x + c) 0

theorem eval_append_singleton (x : R) (cs : List R) (c : R) :
    eval x (cs ++ [c]) = eval x cs * x + c := by
  simp [eval]

theorem eval_cons (x c : R) (cs : List R) : eval x (c :: cs) = c * x ^ cs.length + eval x cs := by
  induction cs using List.reverseRecOn with
  | nil => simp [eval]
  | append_singleton cs c' ih =>
    rw [← List.cons_append, eval_append_singleton, ih, eval_append_singleton, List.length_append,
      List.length_singleton]
    ring

/-- **The value is the sum of the coefficients times the powers**, the last coefficient first. -/
theorem eval_eq_sum (x : R) (cs : List R) :
    eval x cs = ∑ i ∈ Finset.range cs.length, cs.reverse.getD i 0 * x ^ i := by
  induction cs with
  | nil => simp [eval]
  | cons c cs ih =>
    rw [eval_cons, ih, List.length_cons, Finset.sum_range_succ, add_comm]
    congr 1
    · refine Finset.sum_congr rfl fun i hi => ?_
      have hlt : i < cs.reverse.length := by simpa using hi
      rw [List.reverse_cons, List.getD_append _ _ _ _ hlt]
    · rw [List.reverse_cons, List.getD_append_right _ _ _ _ (by simp)]
      simp

/-- What leaves a window of the last `n` elements when the next one comes. -/
def leaves (n : ℕ) (l : List R) : R := if n ≤ l.length then l.getD (l.length - n) 0 else 0

/-- **Sliding the window by one element.** -/
theorem eval_slide (x : R) {n : ℕ} (hn : 0 < n) (l : List R) (c : R) :
    eval x ((l ++ [c]).rtake n) = (eval x (l.rtake n) - leaves n l * x ^ (n - 1)) * x + c := by
  have hshift : (l ++ [c]).rtake n = (l.drop (l.length + 1 - n)) ++ [c] := by
    rw [List.rtake, List.length_append, List.length_singleton,
      List.drop_append_of_le_length (by omega)]
  rw [hshift, eval_append_singleton]
  by_cases hfull : n ≤ l.length
  · have hlt : l.length - n < l.length := by omega
    have hwindow : l.rtake n = l.getD (l.length - n) 0 :: l.drop (l.length + 1 - n) := by
      rw [List.rtake, List.drop_eq_getElem_cons hlt, List.getD_eq_getElem _ _ hlt]
      congr 2
      omega
    have hlength : (l.drop (l.length + 1 - n)).length = n - 1 := by
      rw [List.length_drop]
      omega
    rw [hwindow, eval_cons, hlength, leaves, if_pos hfull]
    ring
  · have hall : l.rtake n = l := by rw [List.rtake, show l.length - n = 0 by omega, List.drop_zero]
    rw [hall, leaves, if_neg hfull, show l.length + 1 - n = 0 by omega, List.drop_zero]
    ring

end Horner
