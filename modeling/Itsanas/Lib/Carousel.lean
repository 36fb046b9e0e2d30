/-
# Going around a sorted table

A reader goes through the rows of a table a page at a time and does not stop at the end: after the
last row comes the first. It keeps the last row it read, and goes on after it. Seen from the
cursor, the rows lie around in a circle (`Carousel.around`), and reading a page turns it
(`Carousel.around_getLast`). So pages that add up to the number of rows have every row, from
wherever the reader starts, whether or not its cursor is a row (`Carousel.mem_turns`).
-/
import Itsanas.Lib.Pages

namespace Carousel

section
variable {α : Type} [LinearOrder α]

/-- The rows up to the cursor. -/
def upTo (rows : List α) (cursor : α) : List α := rows.filter (· ≤ cursor)

/-- The rows as they come after the cursor. -/
def around (rows : List α) (cursor : α) : List α := Pages.after rows (some cursor) ++ upTo rows cursor

variable {rows : List α}

theorem upTo_append_after (hrows : rows.Pairwise (· < ·)) (cursor : α) :
    upTo rows cursor ++ Pages.after rows (some cursor) = rows := by
  induction rows with
  | nil => rfl
  | cons a rows ih =>
    obtain ⟨hfirst, hrows⟩ := List.pairwise_cons.mp hrows
    by_cases ha : a ≤ cursor
    · have hup : upTo (a :: rows) cursor = a :: upTo rows cursor :=
        List.filter_cons_of_pos (by simpa using ha)
      have hafter : Pages.after (a :: rows) (some cursor) = Pages.after rows (some cursor) :=
        List.filter_cons_of_neg (by simpa using ha)
      rw [hup, hafter, List.cons_append, ih hrows]
    · -- The first row past the cursor, so all of them are.
      have hnone : upTo (a :: rows) cursor = [] := by
        refine List.filter_eq_nil_iff.mpr fun b hb => ?_
        rcases List.mem_cons.mp hb with rfl | hb
        · simpa using ha
        · simpa using (not_le.mp ha).trans (hfirst b hb)
      have hall : Pages.after (a :: rows) (some cursor) = a :: rows := by
        refine List.filter_eq_self.mpr fun b hb => ?_
        rcases List.mem_cons.mp hb with rfl | hb
        · simpa using ha
        · simpa using (not_le.mp ha).trans (hfirst b hb)
      rw [hnone, hall, List.nil_append]

theorem mem_around (rows : List α) (cursor a : α) : a ∈ around rows cursor ↔ a ∈ rows := by
  unfold around upTo Pages.after
  simp only [List.mem_append, List.mem_filter, Option.all_some, decide_eq_true_eq, ← and_or_left]
  exact and_iff_left (lt_or_ge cursor a)

theorem length_around (hrows : rows.Pairwise (· < ·)) (cursor : α) :
    (around rows cursor).length = rows.length := by
  conv_rhs => rw [← upTo_append_after hrows cursor]
  rw [around, List.length_append, List.length_append, Nat.add_comm]

theorem nodup_around (hrows : rows.Pairwise (· < ·)) (cursor : α) : (around rows cursor).Nodup := by
  have hnodup : rows.Nodup := hrows.imp fun h => h.ne
  rw [← upTo_append_after hrows cursor] at hnodup
  exact List.nodup_append_comm.mp hnodup

/-- Around a row that stands somewhere: what comes after it, what comes before, and it last. -/
theorem around_split (hrows : rows.Pairwise (· < ·)) {before later : List α} {a : α}
    (hsplit : rows = before ++ a :: later) : around rows a = later ++ (before ++ [a]) := by
  subst hsplit
  obtain ⟨-, hright, hacross⟩ := List.pairwise_append.mp hrows
  obtain ⟨hlater, -⟩ := List.pairwise_cons.mp hright
  have hafter : Pages.after (before ++ a :: later) (some a) = later := by
    unfold Pages.after
    rw [List.filter_append, List.filter_cons_of_neg (by simp), List.filter_eq_nil_iff.mpr,
      List.nil_append, List.filter_eq_self.mpr]
    · exact fun b hb => by simpa using hlater b hb
    · exact fun b hb => by simpa using (hacross b hb a (by simp)).le
  have hup : upTo (before ++ a :: later) a = before ++ [a] := by
    unfold upTo
    rw [List.filter_append, List.filter_cons_of_pos (by simp), List.filter_eq_self.mpr,
      List.filter_eq_nil_iff.mpr]
    · exact fun b hb => by simpa using hlater b hb
    · exact fun b hb => by simpa using (hacross b hb a (by simp)).le
  rw [around, hafter, hup]

/-- **Reading a page turns the rows**: what was read comes last. -/
theorem around_getLast (hrows : rows.Pairwise (· < ·)) {cursor last : α} {limit : ℕ}
    (hlast : ((around rows cursor).take limit).getLast? = some last) :
    around rows last = (around rows cursor).drop limit ++ (around rows cursor).take limit := by
  obtain ⟨front, hpage⟩ := List.getLast?_eq_some_iff.mp hlast
  have hwhole := upTo_append_after hrows cursor
  have hcut := List.take_append_drop limit (around rows cursor)
  rw [hpage] at hcut ⊢
  generalize (around rows cursor).drop limit = left at hcut ⊢
  rw [around] at hcut
  rcases List.append_eq_append_iff.mp hcut with ⟨rest, hrest, hleft⟩ | ⟨rest, hrest, hleft⟩
  · -- The page ends before the rows up to the cursor.
    have hsplit : rows = (upTo rows cursor ++ front) ++ last :: rest :=
      hwhole.symm.trans (by rw [hrest]; simp)
    rw [around_split hrows hsplit, hleft]
    simp
  · rcases List.eq_nil_or_concat' rest with hnil | ⟨shorter, last', hconcat⟩
    · -- It ends just there.
      rw [hnil, List.append_nil] at hrest
      rw [hnil, List.nil_append] at hleft
      have hsplit : rows = (upTo rows cursor ++ front) ++ [last] :=
        hwhole.symm.trans (by rw [← hrest]; simp)
      rw [around_split hrows hsplit, ← hleft]
      simp
    · -- It ends among them.
      rw [hconcat, ← List.append_assoc] at hrest
      obtain ⟨hfront, hlast'⟩ := List.append_inj' hrest rfl
      obtain rfl : last = last' := by simpa using hlast'
      have hsplit : rows = shorter ++ last :: (left ++ Pages.after rows (some cursor)) :=
        hwhole.symm.trans (by rw [hleft, hconcat]; simp)
      rw [around_split hrows hsplit, hfront]
      simp

end

/-- The pages that a carousel is read in, of the sizes given. -/
def turns {α : Type} : List ℕ → List α → List (List α)
  | [], _ => []
  | limit :: limits, l => l.take limit :: turns limits (l.drop limit ++ l.take limit)

variable {α : Type} {a : α}

theorem turns_perm : ∀ (limits : List ℕ) {l : List α} {page : List α}, page ∈ turns limits l →
    ∃ l' : List α, l'.Perm l ∧ page <+: l'
  | [], _, _, h => by simp [turns] at h
  | limit :: limits, l, page, h => by
    rcases List.mem_cons.mp h with rfl | h
    · exact ⟨l, List.Perm.refl l, List.take_prefix _ _⟩
    · obtain ⟨l', hperm, hpage⟩ := turns_perm limits h
      refine ⟨l', hperm.trans ?_, hpage⟩
      exact List.perm_append_comm.trans (List.Perm.of_eq (List.take_append_drop limit l))

theorem nodup_turns {limits : List ℕ} {l page : List α} (hl : l.Nodup)
    (h : page ∈ turns limits l) : page.Nodup := by
  obtain ⟨l', hperm, hpage⟩ := turns_perm limits h
  exact (hperm.nodup_iff.mpr hl).sublist hpage.sublist

/-- **No row is missed**: what the pages add up to has been read. -/
theorem mem_turns :
    ∀ (limits : List ℕ) {l : List α}, a ∈ l.take limits.sum → ∃ page ∈ turns limits l, a ∈ page
  | [], l, h => by simp at h
  | limit :: limits, l, h => by
    rw [List.sum_cons, List.take_add, List.mem_append] at h
    rcases h with h | h
    · exact ⟨l.take limit, List.mem_cons_self, h⟩
    · have hahead : a ∈ (l.drop limit ++ l.take limit).take limits.sum := by
        rw [List.take_append]
        exact List.mem_append_left _ h
      obtain ⟨page, hpage, ha⟩ := mem_turns limits hahead
      exact ⟨page, List.mem_cons_of_mem _ hpage, ha⟩

end Carousel
