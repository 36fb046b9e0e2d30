/-
# The field of the keyed cut

`chunker/field.rs`: arithmetic modulo the Mersenne prime 2^61 - 1 in 64-bit words, with a product
in 128 bits. Reduction is a shift, a mask and one conditional subtraction. For canonical operands,
those below the modulus, no word overflows and every operation returns the canonical residue of
the exact result (`Field.mul_eq`, `Field.add_eq`, `Field.pow_eq`).
-/
import Mathlib.Data.ZMod.Basic
import Mathlib.Tactic.NormNum

namespace Itsanas
namespace Field

/-- The modulus. -/
def P : ℕ := 2 ^ 61 - 1

/-- `x` reduced from `[0, 2P)` into `[0, P)`. -/
def reduce (x : ℕ) : ℕ := if P ≤ x then x - P else x

/-- The product modulo `P`. -/
def mul (a b : ℕ) : ℕ :=
  let wide := a * b % 2 ^ 128
  -- 2^61 is 1: the bits above 61 fold back onto the low ones
  let low := wide % 2 ^ 64 &&& P
  let high := (wide >>> 61) % 2 ^ 64
  reduce ((low + high) % 2 ^ 64)

/-- The sum modulo `P`. -/
def add (a b : ℕ) : ℕ := reduce ((a + b) % 2 ^ 64)

/-- The loop of `pow`, at most so many times. -/
def powLoop : ℕ → ℕ → ℕ → ℕ → ℕ
  | 0, result, _, _ => result
  | bits + 1, result, square, exponent =>
    if 0 < exponent then
      powLoop bits (if exponent &&& 1 = 1 then mul result square else result) (mul square square)
        (exponent >>> 1)
    else result

/-- `base` to the power of a 32-bit exponent, modulo `P`. -/
def pow (base exponent : ℕ) : ℕ := powLoop 32 1 base exponent

theorem P_pos : 0 < P := by decide

theorem reduce_eq {x : ℕ} (h : x < 2 * P) : reduce x = x % P := by
  unfold reduce
  split_ifs with hx
  · rw [Nat.mod_eq_sub_mod hx, Nat.mod_eq_of_lt (by omega)]
  · rw [Nat.mod_eq_of_lt (by omega)]

/-- The low bits and the rest add up to the same residue. -/
theorem fold_mod (x : ℕ) : (x % 2 ^ 61 + x / 2 ^ 61) % P = x % P := by
  have hpow : 2 ^ 61 = P + 1 := by decide
  conv_rhs =>
    rw [← Nat.mod_add_div x (2 ^ 61), hpow, Nat.succ_mul, ← Nat.add_assoc, Nat.add_right_comm,
    Nat.add_mul_mod_self_left]
  rw [hpow]

variable {a b : ℕ}

theorem mul_eq (ha : a < P) (hb : b < P) : mul a b = a * b % P := by
  have hP : P = 2305843009213693951 := by decide
  have hwide : a * b ≤ (P - 1) * (P - 1) := Nat.mul_le_mul (by omega) (by omega)
  have hbound : a * b ≤ 5316911983139663482391856204266602500 := by
    refine hwide.trans (le_of_eq ?_)
    decide
  have hhigh : a * b / 2 ^ 61 ≤ P - 3 := by
    rw [hP]
    omega
  have hlow : a * b % 2 ^ 61 ≤ P := by
    have := Nat.mod_lt (a * b) (by decide : 0 < 2 ^ 61)
    omega
  unfold mul
  dsimp only
  rw [Nat.mod_eq_of_lt (by omega : a * b < 2 ^ 128), Nat.shiftRight_eq_div_pow, P,
    Nat.and_two_pow_sub_one_eq_mod, Nat.mod_mod_of_dvd _ (by decide : 2 ^ 61 ∣ 2 ^ 64)]
  rw [Nat.mod_eq_of_lt (by omega : a * b / 2 ^ 61 < 2 ^ 64)]
  rw [Nat.mod_eq_of_lt (by omega : a * b % 2 ^ 61 + a * b / 2 ^ 61 < 2 ^ 64)]
  rw [reduce_eq (by omega), fold_mod]
  rfl

theorem add_eq (ha : a < P) (hb : b < P) : add a b = (a + b) % P := by
  have hP : P = 2305843009213693951 := by decide
  unfold add
  rw [Nat.mod_eq_of_lt (by omega), reduce_eq (by omega)]

theorem mul_lt (ha : a < P) (hb : b < P) : mul a b < P := by
  rw [mul_eq ha hb]
  exact Nat.mod_lt _ P_pos

theorem add_lt (ha : a < P) (hb : b < P) : add a b < P := by
  rw [add_eq ha hb]
  exact Nat.mod_lt _ P_pos

theorem powLoop_eq :
    ∀ {bits result square exponent : ℕ}, exponent < 2 ^ bits → result < P → square < P →
    powLoop bits result square exponent = result * square ^ exponent % P
  | 0, result, square, exponent, he, hr, _ => by
    obtain rfl : exponent = 0 := by simpa using he
    simp [powLoop, Nat.mod_eq_of_lt hr]
  | bits + 1, result, square, exponent, he, hr, hs => by
    have hhalf : exponent / 2 < 2 ^ bits := by
      rw [Nat.pow_succ] at he
      omega
    -- one turn squares the base and halves the exponent
    have hsquares : ∀ r, r * (square * square % P) ^ (exponent / 2) % P =
        r * square ^ (2 * (exponent / 2)) % P := by
      intro r
      rw [pow_mul, pow_two]
      exact (Nat.ModEq.refl r).mul ((Nat.mod_modEq _ _).pow _)
    unfold powLoop
    rw [Nat.and_one_is_mod, Nat.shiftRight_one]
    split_ifs with hpos hodd
    · rw [powLoop_eq hhalf (mul_lt hr hs) (mul_lt hs hs), mul_eq hs hs, mul_eq hr hs, hsquares]
      calc result * square % P * square ^ (2 * (exponent / 2)) % P
          = result * square * square ^ (2 * (exponent / 2)) % P :=
            (Nat.mod_modEq _ _).mul (Nat.ModEq.refl _)
        _ = result * square ^ (2 * (exponent / 2) + 1) % P := by
          rw [pow_succ, mul_assoc, mul_comm square]
        _ = result * square ^ exponent % P := by congr 3; omega
    · rw [powLoop_eq hhalf hr (mul_lt hs hs), mul_eq hs hs, hsquares]
      congr 3
      omega
    · obtain rfl : exponent = 0 := by omega
      rw [pow_zero, mul_one, Nat.mod_eq_of_lt hr]

theorem pow_eq {base exponent : ℕ} (hb : base < P) (he : exponent < 2 ^ 32) :
    pow base exponent = base ^ exponent % P := by
  rw [pow, powLoop_eq he (by decide) hb, Nat.one_mul]

/-! ### In the field -/

theorem cast_mul (ha : a < P) (hb : b < P) : (mul a b : ZMod P) = a * b := by
  rw [mul_eq ha hb, ZMod.natCast_mod, Nat.cast_mul]

theorem cast_add (ha : a < P) (hb : b < P) : (add a b : ZMod P) = a + b := by
  rw [add_eq ha hb, ZMod.natCast_mod, Nat.cast_add]

/-- What is left of the modulus is the negative. -/
theorem cast_reduce_sub {a : ℕ} (h : a < P) : (reduce (P - a) : ZMod P) = -a := by
  rw [reduce_eq (by omega), ZMod.natCast_mod, Nat.cast_sub (Nat.le_of_lt h), ZMod.natCast_self,
    zero_sub]

theorem reduce_lt {x : ℕ} (h : x < 2 * P) : reduce x < P := by
  rw [reduce_eq h]
  exact Nat.mod_lt _ P_pos

/-- Canonical residues are equal where they are equal in the field. -/
theorem eq_of_cast_eq (ha : a < P) (hb : b < P) (h : (a : ZMod P) = b) : a = b := by
  have hmod := (ZMod.natCast_eq_natCast_iff' a b P).mp h
  rw [Nat.mod_eq_of_lt ha, Nat.mod_eq_of_lt hb] at hmod
  exact hmod

end Field
end Itsanas
