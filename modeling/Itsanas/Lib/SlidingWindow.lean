/-
# A sliding window of observations

A record of which moments were tried and in which of them something was seen, over the last
`W` moments before the latest. Moments come in any order: one before the latest is ignored,
and one `W` or more past it starts the record over. What is forgotten is only what the window
has left behind.

A ring keeps such a record in `W` places, the moment `t` at place `t % W`; inside one window
no two moments share a place (`eq_of_mod_eq`).
-/
import Mathlib.Data.Finset.Max
import Mathlib.Data.Finset.Lattice.Prod
import Mathlib.Data.Finset.Prod
import Mathlib.Order.Interval.Finset.Nat
import Mathlib.Order.Lattice.Nat

namespace SlidingWindow

/-! ### Places -/

/-- Two moments less than a window apart have two places. -/
theorem eq_of_mod_eq {W a b : ℕ} (hab : a ≤ b) (hlt : b < a + W) (h : a % W = b % W) : a = b := by
  have hdvd : W ∣ b - a := Nat.dvd_of_mod_eq_zero (Nat.sub_mod_eq_zero_of_mod_eq h.symm)
  have hzero := Nat.eq_zero_of_dvd_of_lt hdvd (by omega)
  omega

/-- The moments that come to the place of `t` while the window slides from `last` to `now`. -/
theorem exists_mod_eq_iff (W now : ℕ) {last t : ℕ} (hlast : t ≤ last) (hold : last < t + W) :
    (∃ s, last < s ∧ s ≤ now ∧ s % W = t % W) ↔ t + W ≤ now := by
  constructor
  · rintro ⟨s, hs, hle, hmod⟩
    by_contra hgone
    exact absurd (eq_of_mod_eq (by omega) (by omega) hmod.symm) (by omega)
  · exact fun hgone => ⟨t + W, hold, hgone, Nat.add_mod_right t W⟩

/-! ### Gaps -/

/-- The pairs of neighbours in `s`. -/
def neighbours (s : Finset ℕ) : Finset (ℕ × ℕ) :=
  (s ×ˢ s).filter fun p => p.1 < p.2 ∧ ∀ c ∈ s, c ≤ p.1 ∨ p.2 ≤ c

variable {s : Finset ℕ}

theorem mem_neighbours {a b : ℕ} :
    (a, b) ∈ neighbours s ↔ a ∈ s ∧ b ∈ s ∧ a < b ∧ ∀ c ∈ s, c ≤ a ∨ b ≤ c := by
  simp only [neighbours, Finset.mem_filter, Finset.mem_product, and_assoc]

/-- The longest run of moments between two neighbours. -/
def longestGap (s : Finset ℕ) : ℕ := (neighbours s).sup fun p => p.2 - p.1 - 1

theorem longestGap_empty : longestGap ∅ = 0 := rfl

theorem longestGap_singleton (b : ℕ) : longestGap {b} = 0 := by
  have hnone : neighbours {b} = ∅ := by
    refine Finset.eq_empty_of_forall_notMem fun p hp => ?_
    obtain ⟨ha, hb, hlt, -⟩ := mem_neighbours.mp hp
    rw [Finset.mem_singleton.mp ha, Finset.mem_singleton.mp hb] at hlt
    exact lt_irrefl b hlt
  rw [longestGap, hnone]
  rfl

/-- A new latest moment makes one new gap, from the latest before it. -/
theorem longestGap_insert {a b : ℕ} (ha : a ∈ s) (hmax : ∀ c ∈ s, c ≤ a) (hab : a < b) :
    longestGap (insert b s) = max (longestGap s) (b - a - 1) := by
  have hpairs : neighbours (insert b s) = insert (a, b) (neighbours s) := by
    ext ⟨x, y⟩
    rw [Finset.mem_insert, mem_neighbours, mem_neighbours, Prod.mk.injEq]
    simp only [Finset.mem_insert, forall_eq_or_imp]
    constructor
    · rintro ⟨rfl | hx, rfl | hy, hlt, hb, hbetween⟩
      · exact absurd hlt (lt_irrefl _)
      · have := hmax y hy
        omega
      · -- nothing of `s` lies between `x` and the new moment
        have hle := hmax x hx
        have := hbetween a ha
        exact Or.inl ⟨by omega, rfl⟩
      · exact Or.inr ⟨hx, hy, hlt, hbetween⟩
    · rintro (⟨rfl, rfl⟩ | ⟨hx, hy, hlt, hbetween⟩)
      · exact ⟨Or.inr ha, Or.inl rfl, hab, Or.inr le_rfl, fun c hc => Or.inl (hmax c hc)⟩
      · have := hmax y hy
        exact ⟨Or.inr hx, Or.inr hy, hlt, Or.inr (by omega), hbetween⟩
  rw [longestGap, hpairs, Finset.sup_insert, sup_comm]
  rfl

/-! ### Records -/

/-- The moments tried and those something was seen in, since `first` and up to `last`. -/
structure Record where
  first : ℕ
  last : ℕ
  attempted : Finset ℕ
  seen : Finset ℕ

namespace Record

def new (start : ℕ) : Record := ⟨start, start, ∅, ∅⟩

/-- The oldest moment of the window that ends at `last`. -/
def oldest (W last : ℕ) : ℕ := last - (W - 1)

/-- Forget the moments before the window that ends at `last`. -/
def recent (W last : ℕ) (s : Finset ℕ) : Finset ℕ := s.filter (oldest W last ≤ ·)

/-- A moment past the window starts the record over. -/
def renew (W : ℕ) (r : Record) (now : ℕ) : Record := if r.last + W ≤ now then new now else r

/-- Slide the window on to `now`, and add what was observed there. -/
def observe (W : ℕ) (r : Record) (now : ℕ) (seen : Bool) : Record where
  first := r.first
  last := now
  attempted := insert now (recent W now r.attempted)
  seen := if seen then insert now (recent W now r.seen) else recent W now r.seen

/-- One observation at `now`. -/
def note (W : ℕ) (r : Record) (now : ℕ) (seen : Bool) : Record :=
  if now < r.last then r else (r.renew W now).observe W now seen

def run (W start : ℕ) (notes : List (ℕ × Bool)) : Record :=
  notes.foldl (fun r n => r.note W n.1 n.2) (new start)

/-- Several records as one: a moment was tried if it was for any of them. -/
def union (W : ℕ) (rs : List Record) : Option Record :=
  match (rs.map first).min?, (rs.map last).max? with
  | some first, some last =>
    some
      { first := first
        last := last
        attempted := recent W last (rs.foldr (fun r s => r.attempted ∪ s) ∅)
        seen := recent W last (rs.foldr (fun r s => r.seen ∪ s) ∅) }
  | _, _ => none

/-- A record is of moments inside its window, and what was seen was tried. -/
structure Within (W : ℕ) (r : Record) : Prop where
  start : r.first ≤ r.last
  attempted : ∀ t ∈ r.attempted, oldest W r.last ≤ t ∧ r.first ≤ t ∧ t ≤ r.last
  seen : r.seen ⊆ r.attempted

theorem mem_recent {W last t : ℕ} : t ∈ recent W last s ↔ t ∈ s ∧ oldest W last ≤ t :=
  Finset.mem_filter

theorem within_new (W start : ℕ) : (new start).Within W :=
  ⟨le_rfl, fun _ h => absurd h (Finset.notMem_empty _), Finset.Subset.refl _⟩

theorem Within.observe {W : ℕ} {r : Record} (h : r.Within W) {now : ℕ} (hnow : r.last ≤ now)
    (seen : Bool) :
    (r.observe W now seen).Within W := by
  have hstart : r.first ≤ now := h.start.trans hnow
  refine ⟨hstart, fun t ht => ?_, ?_⟩
  · rcases Finset.mem_insert.mp ht with rfl | ht
    · exact ⟨Nat.sub_le _ _, hstart, le_rfl⟩
    · obtain ⟨hmem, hold⟩ := mem_recent.mp ht
      obtain ⟨-, hfirst, hle⟩ := h.attempted t hmem
      exact ⟨hold, hfirst, hle.trans hnow⟩
  · have hsub : recent W now r.seen ⊆ recent W now r.attempted := Finset.filter_subset_filter _ h.seen
    cases seen with
    | true => exact Finset.insert_subset_insert _ hsub
    | false => exact hsub.trans (Finset.subset_insert _ _)

end Record

end SlidingWindow
