/-
# Lists that keep the best

A list with a cap: one more item is added at the end, and past the cap the list is sorted, stably
and best first, and its last item dropped. What matters to who keeps such a list is which item
goes: never one that is strictly better than another (`mem_push_of_worse`), and an item that was
there before only in favour of a strictly better newcomer (`better_of_dropped`), when it was the
last in the order (`getLast?_of_dropped`).
-/
import Mathlib.Data.List.Sort

namespace Capped

variable {α : Type} (r : α → α → Prop) [DecidableRel r]

/-- One more item; past `most`, the best of them are kept. -/
def push (most : ℕ) (l : List α) (x : α) : List α :=
  if most < (l ++ [x]).length then ((l ++ [x]).insertionSort r).take most else l ++ [x]

variable {r} {most : ℕ} {l : List α} {x y z : α}

theorem push_of_lt (h : l.length < most) : push r most l x = l ++ [x] := by
  rw [push, if_neg]
  rw [List.length_append, List.length_singleton]
  omega

theorem push_full (h : l.length = most) : push r most l x = ((l ++ [x]).insertionSort r).dropLast := by
  rw [push, if_pos (by simp [h]), List.dropLast_eq_take, List.length_insertionSort,
    List.length_append, h]
  rfl

variable (r most l x) in
theorem push_sublist : (push r most l x).Sublist (l ++ [x]) ∨
    (push r most l x).Sublist ((l ++ [x]).insertionSort r) := by
  unfold push
  split_ifs
  · exact .inr (List.take_sublist _ _)
  · exact .inl (List.Sublist.refl _)

theorem length_push_le (h : l.length ≤ most) : (push r most l x).length ≤ most := by
  rcases h.lt_or_eq with hlt | heq
  · rw [push_of_lt hlt, List.length_append, List.length_singleton]
    exact hlt
  · rw [push_full heq, List.length_dropLast, List.length_insertionSort, List.length_append,
      List.length_singleton]
    omega

theorem nodup_map_push {β : Type} (f : α → β) (h : ((l ++ [x]).map f).Nodup) :
    ((push r most l x).map f).Nodup := by
  rcases push_sublist r most l x with hsub | hsub
  · exact h.sublist (hsub.map f)
  · exact (((List.perm_insertionSort r _).map f).nodup_iff.mpr h).sublist (hsub.map f)

/-- An item that is not kept is the last of the sorted list, which is one too long. -/
theorem dropped_last (hfits : l.length ≤ most) (hy : y ∈ l ++ [x]) (hdropped : y ∉ push r most l x) :
    l.length = most ∧ ∃ front, (l ++ [x]).insertionSort r = front ++ [y] ∧
      push r most l x = front := by
  have hfull : l.length = most := by
    refine hfits.lt_or_eq.resolve_left fun hlt => hdropped ?_
    rw [push_of_lt hlt]
    exact hy
  refine ⟨hfull, ?_⟩
  rw [push_full hfull] at hdropped ⊢
  rcases List.eq_nil_or_concat' ((l ++ [x]).insertionSort r) with hnil | ⟨front, last, hsorted⟩
  · have hlength := List.length_insertionSort r (l ++ [x])
    rw [hnil] at hlength
    simp at hlength
  · rw [hsorted, List.dropLast_concat] at hdropped ⊢
    have hmem : y ∈ front ++ [last] := hsorted ▸ (List.mem_insertionSort r).mpr hy
    have hlast : y = last := by simpa [hdropped] using hmem
    exact ⟨front, by rw [hlast], rfl⟩

/-- Nothing comes after the last item of a list without repetitions. -/
theorem not_pair_sublist {front : List α} (hnodup : (front ++ [y]).Nodup) :
    ¬[y, z].Sublist (front ++ [y]) := by
  intro hsub
  have hnever : (front ++ [y]).Pairwise fun a _ => a ≠ y := by
    rw [List.nodup_append] at hnodup
    refine List.pairwise_append.mpr ⟨?_, List.pairwise_singleton _ _, ?_⟩
    · exact List.pairwise_of_forall_mem_list fun a ha _ _ => hnodup.2.2 a ha y (by simp)
    · exact fun a ha _ _ => hnodup.2.2 a ha y (by simp)
  have hpair := hnever.sublist hsub
  simp at hpair

theorem pair_sublist_or (hy : y ∈ l) (hz : z ∈ l) (hne : y ≠ z) :
    [y, z].Sublist l ∨ [z, y].Sublist l := by
  obtain ⟨before, after, rfl⟩ := List.append_of_mem hy
  rcases List.mem_append.mp hz with hbefore | hafter
  · exact .inr ((List.singleton_sublist.mpr hbefore).append (List.singleton_sublist.mpr (by simp)))
  · have hafter : z ∈ after := (List.mem_cons.mp hafter).resolve_left hne.symm
    exact .inl
      (((List.singleton_sublist.mpr hafter).cons_cons y).trans (List.sublist_append_right before _))

/-- An item that was there goes only in favour of a strictly better newcomer. -/
theorem better_of_dropped (hfits : l.length ≤ most) (hnodup : (l ++ [x]).Nodup) (hy : y ∈ l)
    (hdropped : y ∉ push r most l x) : ¬r y x := by
  intro hle
  obtain ⟨-, front, hsorted, -⟩ := dropped_last hfits (List.mem_append_left _ hy) hdropped
  have hpair : [y, x].Sublist (l ++ [x]) :=
    (List.singleton_sublist.mpr hy).append (List.Sublist.refl [x])
  have hsub := List.pair_sublist_insertionSort hle hpair
  rw [hsorted] at hsub
  exact not_pair_sublist (hsorted ▸ (List.perm_insertionSort r _).nodup_iff.mpr hnodup) hsub

section
variable [Std.Total r] [IsTrans α r]

/-- An item strictly better than another is kept. -/
theorem mem_push_of_worse (hfits : l.length ≤ most) (hy : y ∈ l ++ [x]) (hz : z ∈ l ++ [x])
    (hworse : ¬r z y) : y ∈ push r most l x := by
  by_contra hdropped
  obtain ⟨-, front, hsorted, -⟩ := dropped_last hfits hy hdropped
  have hpairwise : (front ++ [y]).Pairwise r := hsorted ▸ List.pairwise_insertionSort r _
  have hmem : z ∈ front ++ [y] := hsorted ▸ (List.mem_insertionSort r).mpr hz
  rcases List.mem_append.mp hmem with hfront | hlast
  · exact hworse ((List.pairwise_append.mp hpairwise).2.2 z hfront y (by simp))
  · rw [List.mem_singleton.mp hlast] at hworse
    exact hworse (Std.Refl.refl y)

/-- And then it was the last in the order. -/
theorem getLast?_of_dropped (hfits : l.length ≤ most) (hnodup : (l ++ [x]).Nodup) (hy : y ∈ l)
    (hdropped : y ∉ push r most l x) : (l.insertionSort r).getLast? = some y := by
  have hy' : y ∈ l.insertionSort r := (List.mem_insertionSort r).mpr hy
  rcases List.eq_nil_or_concat' (l.insertionSort r) with hnil | ⟨front, last, hsorted⟩
  · simp [hnil] at hy'
  by_cases hlast : y = last
  · rw [hsorted, List.getLast?_concat, hlast]
  -- `y` stands before `last` in the order, and `last` was dropped in its place.
  exfalso
  have hmem : last ∈ l := (List.mem_insertionSort r).mp (hsorted ▸ by simp)
  have hnodup' : (front ++ [last]).Nodup :=
    hsorted ▸ (List.perm_insertionSort r _).nodup_iff.mpr (List.nodup_append.mp hnodup).1
  by_cases hle : r last y
  · obtain ⟨-, all, hall, -⟩ := dropped_last hfits (List.mem_append_left _ hy) hdropped
    rcases pair_sublist_or hy hmem hlast with hpair | hpair
    · have hyfront : y ∈ front := by simpa [hsorted, hlast] using hy'
      have hrel : r y last := by
        have hpairwise : (front ++ [last]).Pairwise r := hsorted ▸ List.pairwise_insertionSort r l
        exact (List.pairwise_append.mp hpairwise).2.2 y hyfront last (by simp)
      have hsub := List.pair_sublist_insertionSort hrel (hpair.trans (List.sublist_append_left l [x]))
      rw [hall] at hsub
      exact not_pair_sublist (hall ▸ (List.perm_insertionSort r _).nodup_iff.mpr hnodup) hsub
    · have hsub := List.pair_sublist_insertionSort hle hpair
      rw [hsorted] at hsub
      exact not_pair_sublist hnodup' hsub
  · exact hdropped
      (mem_push_of_worse hfits (List.mem_append_left _ hy) (List.mem_append_left _ hmem) hle)

end

end Capped
