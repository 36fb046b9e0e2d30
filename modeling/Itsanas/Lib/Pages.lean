/-
# Pages of a sorted table

A reader goes through the keys of a table page by page: each page starts after the last key of
the one before, and the last is the first that is not full.

Key theorems: `Pages.mem_page`, `Pages.takeWhile_eq_filter`.
-/
import Mathlib

namespace Pages

variable {α : Type} [LinearOrder α]

/-- The rows after the cursor. -/
def after (rows : List α) (cursor : Option α) : List α := rows.filter fun a => cursor.all (· < a)

/-- A page of the rows after the cursor, and where the next one starts. -/
def page (rows : List α) (limit : ℕ) (cursor : Option α) : List α × Option α :=
  let page := (after rows cursor).take limit
  (page, if page.length = limit then page.getLast? else none)

omit [LinearOrder α] in
theorem takeWhile_eq_filter {p : α → Bool} :
    ∀ {l : List α}, l.Pairwise (fun a b => p b = true → p a = true) →
    l.takeWhile p = l.filter p
  | [], _ => rfl
  | a :: l, h => by
    obtain ⟨hhead, htail⟩ := List.pairwise_cons.mp h
    cases ha : p a with
    | true => rw [List.takeWhile_cons_of_pos ha, List.filter_cons_of_pos ha, takeWhile_eq_filter htail]
    | false =>
      -- what comes after something outside is outside
      have hnone : ∀ b ∈ l, ¬p b = true := fun b hb hpb => by simp [hhead b hb hpb] at ha
      rw [List.takeWhile_cons_of_neg (by simp [ha]), List.filter_cons_of_neg (by simp [ha]),
        List.filter_eq_nil_iff.mpr hnone]

theorem mem_after {rows : List α} {cursor : Option α} {a : α} :
    a ∈ after rows cursor ↔ a ∈ rows ∧ cursor.all (· < a) = true := List.mem_filter

/-- A page has the rows after its cursor, up to where the next one starts. -/
theorem mem_page {rows : List α} (hrows : rows.Pairwise (· < ·)) {limit : ℕ} (hlimit : 0 < limit)
    {cursor : Option α} {a : α} : a ∈ (page rows limit cursor).1 ↔
      a ∈ after rows cursor ∧ (page rows limit cursor).2.all (a ≤ ·) = true := by
  unfold page
  dsimp only
  have hsorted : (after rows cursor).Pairwise (· < ·) := hrows.filter _
  generalize after rows cursor = later at hsorted
  rw [← List.take_append_drop limit later] at hsorted
  have hcross := (List.pairwise_append.mp hsorted).2.2
  have hmem : a ∈ later ↔ a ∈ later.take limit ∨ a ∈ later.drop limit := by
    rw [← List.mem_append, List.take_append_drop]
  split_ifs with hfull
  · -- the last row of a full page is before what comes after it
    have hne : later.take limit ≠ [] := List.ne_nil_of_length_pos (by omega)
    obtain ⟨last, hlast⟩ : ∃ last, (later.take limit).getLast? = some last :=
      ⟨_, List.getLast?_eq_some_getLast hne⟩
    have hle : ∀ b ∈ later.take limit, b ≤ last := by
      intro b hb
      have hpage := (List.pairwise_append.mp hsorted).1
      obtain ⟨before, hbefore⟩ := List.getLast?_eq_some_iff.mp hlast
      rw [hbefore] at hpage hb
      rcases List.mem_append.mp hb with hb | hb
      · exact ((List.pairwise_append.mp hpage).2.2 b hb last (by simp)).le
      · exact (List.mem_singleton.mp hb).le
    have hlt : ∀ b ∈ later.drop limit, last < b :=
      fun b hb => hcross last (List.mem_of_getLast? hlast) b hb
    rw [hlast]
    simp only [Option.all_some, decide_eq_true_eq]
    constructor
    · exact fun ha => ⟨hmem.mpr (.inl ha), hle a ha⟩
    · exact fun ⟨ha, hle'⟩ => (hmem.mp ha).resolve_right fun hd => absurd (hlt a hd) (not_lt.mpr hle')
  · have hall : later.drop limit = [] := by
      rw [List.length_take] at hfull
      exact List.drop_of_length_le (by omega)
    rw [hmem, hall]
    simp

end Pages
