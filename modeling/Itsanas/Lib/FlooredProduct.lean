/-
# A product of shares, rounded down at each factor

Shares of `P`, multiplied one after another in integers: `x * a / P`. Rounding at each
factor makes the result depend on the order, but by little: it is never above the exact
product, and below it by at most one for each factor.

Key theorems: `run_le_exact`, `exact_le_run`, `run_perm`.
-/
import Mathlib.Algebra.BigOperators.Group.List.Basic
import Mathlib.Algebra.Order.Field.Rat
import Mathlib.Data.Nat.Cast.Order.Field
import Mathlib.Tactic.Linarith
import Mathlib.Tactic.Positivity
import Mathlib.Tactic.FieldSimp
import Mathlib.Tactic.Ring

namespace FlooredProduct

variable {P : ℕ}

/-- `x` times the shares `as` of `P`, rounded down at each. -/
def run (P x : ℕ) (as : List ℕ) : ℕ := as.foldl (fun x a => x * a / P) x

/-- The same without rounding. -/
def exact (P : ℕ) (x : ℚ) (as : List ℕ) : ℚ := x * (as.map fun a : ℕ => (a : ℚ) / P).prod

theorem run_append (P x : ℕ) (as bs : List ℕ) : run P x (as ++ bs) = run P (run P x as) bs :=
  List.foldl_append

theorem step_le {a : ℕ} (ha : a ≤ P) (x : ℕ) : x * a / P ≤ x :=
  Nat.div_le_of_le_mul (by rw [Nat.mul_comm P]; exact Nat.mul_le_mul_left x ha)

/-! ### Order -/

theorem run_le_start : ∀ {as : List ℕ}, (∀ a ∈ as, a ≤ P) → ∀ x, run P x as ≤ x
  | [], _, _ => le_rfl
  | a :: as, h, x => by
    obtain ⟨ha, has⟩ := List.forall_mem_cons.mp h
    exact (run_le_start has _).trans (step_le ha x)

/-- The whole as one more share changes nothing. -/
theorem run_insert_whole (hP : 0 < P) (x : ℕ) (as bs : List ℕ) :
    run P x (as ++ P :: bs) = run P x (as ++ bs) := by
  rw [run_append, run_append]
  show run P (run P x as * P / P) bs = _
  rw [Nat.mul_div_cancel _ hP]

/-! ### The exact product -/

theorem exact_cons (P : ℕ) (x : ℚ) (a : ℕ) (as : List ℕ) :
    exact P x (a :: as) = exact P (x * (a / P)) as := by
  rw [exact, exact, List.map_cons, List.prod_cons, mul_assoc]

theorem exact_perm {as bs : List ℕ} (h : as.Perm bs) (x : ℚ) : exact P x as = exact P x bs := by
  rw [exact, exact, (h.map _).prod_eq]

section
variable (hP : 0 < P)
include hP

theorem step_le_exact {x a : ℕ} {y : ℚ} (h : (x : ℚ) ≤ y) : ((x * a / P : ℕ) : ℚ) ≤ y * (a / P) := by
  have hP' : (0 : ℚ) < P := by exact_mod_cast hP
  calc ((x * a / P : ℕ) : ℚ) ≤ ((x * a : ℕ) : ℚ) / P := Nat.cast_div_le
    _ = x * (a / P) := by push_cast; ring
    _ ≤ y * (a / P) := mul_le_mul_of_nonneg_right h (by positivity)

/-- The rounded product is never above the exact one. -/
theorem run_le_exact : ∀ (as : List ℕ) {x : ℕ} {y : ℚ}, (x : ℚ) ≤ y → (run P x as : ℚ) ≤ exact P y as
  | [], _, _, h => by simpa [run, exact] using h
  | a :: as, _, _, h => by
    rw [exact_cons]
    exact run_le_exact as (step_le_exact hP h)

theorem exact_le_step {x a : ℕ} {y k : ℚ} (ha : a ≤ P) (hk : 0 ≤ k) (h : y ≤ x + k) :
    y * (a / P) ≤ ((x * a / P : ℕ) : ℚ) + (k + 1) := by
  have hP' : (0 : ℚ) < P := by exact_mod_cast hP
  have hshare : (a : ℚ) / P ≤ 1 := (div_le_one hP').mpr (by exact_mod_cast ha)
  have hfloor : ((x * a : ℕ) : ℚ) / P < ((x * a / P : ℕ) : ℚ) + 1 := by
    have hlt := Nat.lt_mul_div_succ (x * a) hP
    rw [Nat.mul_comm P] at hlt
    rw [div_lt_iff₀ hP']
    exact_mod_cast hlt
  calc y * (a / P) ≤ (x + k) * (a / P) := mul_le_mul_of_nonneg_right h (by positivity)
    _ = ((x * a : ℕ) : ℚ) / P + k * (a / P) := by push_cast; ring
    _ ≤ ((x * a / P : ℕ) : ℚ) + 1 + k * 1 := by
      have := mul_le_mul_of_nonneg_left hshare hk
      linarith
    _ = ((x * a / P : ℕ) : ℚ) + (k + 1) := by ring

/-- The rounded product is below the exact one by at most one for each factor. -/
theorem exact_le_run : ∀ {as : List ℕ}, (∀ a ∈ as, a ≤ P) → ∀ {x : ℕ} {y k : ℚ}, 0 ≤ k → y ≤ x + k →
    exact P y as ≤ run P x as + (k + as.length)
  | [], _, x, y, k, _, h => by simpa [run, exact] using h
  | a :: as, hall, x, y, k, hk, h => by
    obtain ⟨ha, has⟩ := List.forall_mem_cons.mp hall
    rw [exact_cons]
    refine (exact_le_run has (by linarith) (exact_le_step hP ha hk h)).trans (le_of_eq ?_)
    rw [List.length_cons]
    push_cast
    show (run P x (a :: as) : ℚ) + _ = _
    ring

/-- The order of the factors matters by at most one for each. -/
theorem run_perm {as bs : List ℕ} (h : as.Perm bs) (hall : ∀ a ∈ as, a ≤ P) (x : ℕ) :
    run P x as ≤ run P x bs + as.length := by
  have hall' : ∀ b ∈ bs, b ≤ P := fun b hb => hall b (h.mem_iff.mpr hb)
  have hle := run_le_exact hP as (le_refl (x : ℚ))
  have hge := exact_le_run hP hall' (le_refl (0 : ℚ)) (x := x) (y := x) (by simp)
  rw [exact_perm h] at hle
  rw [zero_add, ← h.length_eq] at hge
  exact_mod_cast hle.trans hge

end

end FlooredProduct
