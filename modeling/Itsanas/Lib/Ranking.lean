/-
# The first few of a ranking

A list in the order of a strict relation. Who is among its first `k` is told by how many come
before (`mem_take`), so a choice of the best `k` can be compared with another one member by
member, without the two lists.

Two choices without repetition, of which one has all the members of the other but `d`, and is
no longer than a set with one member less allows, differ by at most one newcomer
(`Moves.of_subset`).
-/
import Mathlib.Data.List.Sort
import Mathlib.Data.List.Nodup
import Mathlib.Data.Finset.Card
import Mathlib.Tactic.Linarith

namespace Ranking

variable {α : Type*}

/-- **One is among the first `k` if fewer than `k` come before it.** -/
theorem mem_take {r : α → α → Prop} [DecidableRel r] (hasymm : ∀ a b, r a b → ¬r b a) :
    ∀ {l : List α}, l.Pairwise r → ∀ {x : α} {k : ℕ},
      x ∈ l.take k ↔ x ∈ l ∧ l.countP (fun y => decide (r y x)) < k
  | [], _, x, k => by simp
  | a :: l, h, x, 0 => by simp
  | a :: l, h, x, k + 1 => by
    obtain ⟨hfirst, hrest⟩ := List.pairwise_cons.mp h
    have hirrefl : ∀ b, ¬r b b := fun b hb => hasymm b b hb hb
    rw [List.take_succ_cons, List.mem_cons, List.mem_cons, List.countP_cons, mem_take hasymm hrest]
    by_cases hx : x = a
    · subst hx
      have hnone : l.countP (fun y => decide (r y x)) = 0 :=
        List.countP_eq_zero.mpr fun y hy hr => hasymm _ _ (hfirst y hy) (of_decide_eq_true hr)
      rw [hnone]
      simp [hirrefl x]
    · by_cases hmem : x ∈ l
      · have hax : r a x := hfirst x hmem
        simp [hx, hmem, hax]
      · simp [hx, hmem]

/-- What one member more or less may do to a choice: without `d` in it the choice is the same,
and otherwise everyone else stays and at most one joins in its place. -/
def Moves (d : α) (without full : List α) : Prop :=
  (d ∉ full → ∀ x, x ∈ without ↔ x ∈ full) ∧ (∀ x ∈ full, x ≠ d → x ∈ without) ∧
    ∀ x ∈ without, ∀ y ∈ without, x ∉ full → y ∉ full → x = y

variable [DecidableEq α] {d : α} {without full : List α} {count n : ℕ}

/-- **A choice of the best `count` that keeps everyone but `d` moves as little as it can.** -/
theorem Moves.of_subset (hwithout : without.Nodup) (hfull : full.Nodup)
    (hlen : without.length = min count n)
    (hlen' : full.length = min count (n + 1)) (hkeep : ∀ x ∈ full, x ≠ d → x ∈ without) :
    Moves d without full := by
  have hcard : without.toFinset.card =
    min count n := by rw [List.toFinset_card_of_nodup hwithout, hlen]
  have hcard' : full.toFinset.card =
    min count (n + 1) := by rw [List.toFinset_card_of_nodup hfull, hlen']
  have hsub : full.toFinset.erase d ⊆ without.toFinset := by
    intro x hx
    obtain ⟨hne, hx⟩ := Finset.mem_erase.mp hx
    exact List.mem_toFinset.mpr (hkeep x (List.mem_toFinset.mp hx) hne)
  refine ⟨fun hnot x => ?_, hkeep, fun x hx y hy hxf hyf => ?_⟩
  · rw [Finset.erase_eq_of_notMem (by simpa using hnot)] at hsub
    have heq : full.toFinset = without.toFinset := Finset.eq_of_subset_of_card_le hsub (by omega)
    rw [← List.mem_toFinset, ← heq, List.mem_toFinset]
  · -- of the members of the smaller choice all but one are in the larger
    have hone : (without.toFinset \ (full.toFinset.erase d)).card ≤ 1 := by
      have herase := Finset.pred_card_le_card_erase (s := full.toFinset) (a := d)
      rw [Finset.card_sdiff_of_subset hsub, hcard]
      omega
    have hmem : ∀ z ∈ without, z ∉ full → z ∈ without.toFinset \ (full.toFinset.erase d) := by
      intro z hz hzf
      rw [Finset.mem_sdiff, List.mem_toFinset, Finset.mem_erase, List.mem_toFinset]
      exact ⟨hz, fun h => hzf h.2⟩
    exact Finset.card_le_one.mp hone x (hmem x hx hxf) y (hmem y hy hyf)

end Ranking
