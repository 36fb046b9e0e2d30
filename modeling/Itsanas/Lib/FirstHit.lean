/-
# The first hit of a rolling state

A loop that rolls a state over the positions of an input, and stops after the first position where
the state is a hit. What it finds depends on the positions it rolls over and no others
(`FirstHit.scan_congr`), and it is the first hit, if there is one (`FirstHit.scan_found`,
`FirstHit.scan_missed`).
-/
import Mathlib.Data.Nat.Notation
import Mathlib.Tactic.SplitIfs

namespace FirstHit

variable {σ : Type} {roll roll' : ℕ → σ → σ} {hit hit' : ℕ → σ → Bool}

/-- Roll over `n` positions from `start`: the position after the first hit, or the state at the
end. -/
def scan (roll : ℕ → σ → σ) (hit : ℕ → σ → Bool) : ℕ → ℕ → σ → ℕ ⊕ σ
  | 0, _, s => .inr s
  | n + 1, start, s =>
    if hit start (roll start s) then .inl (start + 1) else scan roll hit n (start + 1) (roll start s)

/-- The state after `k` positions from `start`. -/
def stateAt (roll : ℕ → σ → σ) (start : ℕ) (s : σ) : ℕ → σ
  | 0 => s
  | k + 1 => roll (start + k) (stateAt roll start s k)

theorem stateAt_succ (start : ℕ) (s : σ) :
    ∀ k, stateAt roll (start + 1) (roll start s) k = stateAt roll start s (k + 1)
  | 0 => rfl
  | k + 1 => by
    have hstart : start + 1 + k = start + (k + 1) := by omega
    rw [stateAt, stateAt_succ start s k, hstart]
    rfl

/-- A hit is after the start and not after the end. -/
theorem scan_bounds : ∀ {n start : ℕ} {s : σ} {cut : ℕ}, scan roll hit n start s = .inl cut →
    start < cut ∧ cut ≤ start + n
  | 0, _, _, _, h => nomatch h
  | n + 1, start, s, cut, h => by
    unfold scan at h
    split_ifs at h
    · cases h
      omega
    · have := scan_bounds h
      omega

/-- The positions rolled over decide. -/
theorem scan_congr : ∀ {n start : ℕ} {s : σ},
    (∀ at', start ≤ at' → at' < start + n → roll at' = roll' at' ∧ hit at' = hit' at') →
      scan roll hit n start s = scan roll' hit' n start s
  | 0, _, _, _ => rfl
  | n + 1, start, s, h => by
    obtain ⟨hroll, hhit⟩ := h start (Nat.le_refl _) (by omega)
    unfold scan
    rw [hroll, hhit, scan_congr fun at' hlow hhigh => h at' (by omega) (by omega)]

/-- What is found is the first hit. -/
theorem scan_found : ∀ {n start : ℕ} {s : σ} {cut : ℕ}, scan roll hit n start s = .inl cut →
    ∃ k < n, cut = start + k + 1 ∧ hit (start + k) (stateAt roll start s (k + 1)) = true ∧
      ∀ j < k, hit (start + j) (stateAt roll start s (j + 1)) = false
  | 0, _, _, _, h => nomatch h
  | n + 1, start, s, cut, h => by
    unfold scan at h
    by_cases hnow : hit start (roll start s) = true
    · rw [if_pos hnow] at h
      cases h
      exact ⟨0, by omega, rfl, hnow, fun j hj => absurd hj (Nat.not_lt_zero j)⟩
    · rw [if_neg hnow] at h
      obtain ⟨k, hk, rfl, hhit, hbefore⟩ := scan_found h
      refine ⟨k + 1, by omega, by omega, ?_, fun j hj => ?_⟩
      · rw [stateAt_succ, Nat.add_right_comm, Nat.add_assoc] at hhit
        exact hhit
      · cases j with
        | zero => exact Bool.eq_false_iff.mpr hnow
        | succ j =>
          have hmiss := hbefore j (by omega)
          rw [stateAt_succ, Nat.add_right_comm, Nat.add_assoc] at hmiss
          exact hmiss

/-- Where nothing is found, nothing was a hit. -/
theorem scan_missed : ∀ {n start : ℕ} {s s' : σ}, scan roll hit n start s = .inr s' →
    s' = stateAt roll start s n ∧ ∀ j < n, hit (start + j) (stateAt roll start s (j + 1)) = false
  | 0, _, _, _, h => by
    cases h
    exact ⟨rfl, fun j hj => absurd hj (Nat.not_lt_zero j)⟩
  | n + 1, start, s, s', h => by
    unfold scan at h
    by_cases hnow : hit start (roll start s) = true
    · rw [if_pos hnow] at h
      cases h
    · rw [if_neg hnow] at h
      obtain ⟨hlast, hbefore⟩ := scan_missed h
      refine ⟨hlast.trans (stateAt_succ ..), fun j hj => ?_⟩
      cases j with
      | zero => exact Bool.eq_false_iff.mpr hnow
      | succ j =>
        have hmiss := hbefore j (by omega)
        rw [stateAt_succ, Nat.add_right_comm, Nat.add_assoc] at hmiss
        exact hmiss

end FirstHit
