/-
# Passes that survive restarts

A reader goes through a sorted set of rows, over and over, some rows at a time. It keeps its place
in memory, and a copy of it on the disk, which it brings up to date only now and then; at the end
of a pass it takes both back to the start. A restart loses the place in memory, and the reader goes
on from the copy. Nothing but the reader takes rows away, and only rows it is looking at.

Then between the ends of two passes every row is looked at (`Resume.Ok.finish`), and a row is
looked at a second time in a pass only after a restart, and only if it was looked at after the copy
was last written (`Resume.Ok.count_le`).
-/
import Mathlib.Order.Basic
import Mathlib.Data.List.Nodup
import Mathlib.Data.Set.Basic

namespace Resume

variable {α : Type} [LinearOrder α]

/-- Whether the place is at or past `a`; without one, it is at the start. -/
def Reached (place : Option α) (a : α) : Prop := ∃ at' ∈ place, a ≤ at'

/-- The rows, the place in memory and its copy on the disk; and what happened: the rows looked at
in this pass and since the copy was written, the latter at each restart of this pass, and the rows
there were at the end of the last pass. -/
structure State (α : Type) where
  rows : Set α
  memory : Option α
  disk : Option α
  pass : List α
  unwritten : List α
  restarts : List (List α)
  atEnd : Option (Set α)

/-- The rows of `slice` are looked at, those from the place up to `last`, and some may be taken
away. -/
structure Looks (s s' : State α) (slice : List α) (last : α) : Prop where
  mem : last ∈ slice
  nodup : slice.Nodup
  ahead : ∀ a ∈ slice, ¬Reached s.memory a ∧ a ≤ last
  all : ∀ a ∈ s.rows, ¬Reached s.memory a → a ≤ last → a ∈ slice
  fewer : s'.rows ⊆ s.rows
  kept : ∀ a ∈ s.rows, a ∉ slice → a ∈ s'.rows
  memory : s'.memory = some last
  disk : s'.disk = some last ∧ s'.unwritten = [] ∨ s'.disk = s.disk ∧
    s'.unwritten = s.unwritten ++ slice
  pass : s'.pass = s.pass ++ slice
  restarts : s'.restarts = s.restarts
  atEnd : s'.atEnd = s.atEnd

/-- The rest of the rows is looked at, and the pass ends. -/
structure Finishes (s s' : State α) (slice : List α) : Prop where
  all : ∀ a ∈ s.rows, ¬Reached s.memory a → a ∈ slice
  memory : s'.memory = none
  disk : s'.disk = none
  pass : s'.pass = []
  unwritten : s'.unwritten = []
  restarts : s'.restarts = []
  atEnd : s'.atEnd = some s'.rows

/-- What may happen. -/
inductive Step (s s' : State α) : Prop
  | look (slice : List α) (last : α) (h : Looks s s' slice last)
  | finish (slice : List α) (h : Finishes s s' slice)
  | restart (h : s' = { s with memory := s.disk, restarts := s.unwritten :: s.restarts })
  | stay (h : s' = s)

/-- At how many restarts of the pass `a` had been looked at since the copy was written. -/
def State.setBack (s : State α) (a : α) : ℕ := s.restarts.countP (a ∈ ·)

/-- What holds at all times. -/
structure Ok (s : State α) : Prop where
  /-- What is ahead was looked at only before restarts. -/
  ahead : ∀ a, ¬Reached s.memory a → s.pass.count a ≤ s.setBack a
  behind : ∀ a, s.pass.count a ≤ s.setBack a + 1
  /-- What a restart would bring back was looked at since the copy was written. -/
  copy : ∀ a, ¬Reached s.disk a → s.pass.count a ≤ s.setBack a ∨ a ∈ s.unwritten
  covered : ∀ rows, s.atEnd = some rows → ∀ a ∈ rows,
    Reached s.memory a ∨ Reached s.disk a ∨ a ∉ s.rows → a ∈ s.pass

variable {s s' : State α} {slice : List α}

theorem reached_some {last a : α} : Reached (some last) a ↔ a ≤ last := by simp [Reached]

theorem not_reached_none (a : α) : ¬Reached none a := by simp [Reached]

variable {last : α}

/-- What is reached stays so when the place moves on. -/
theorem Looks.reached (h : Looks s s' slice last) {a : α} (ha : Reached s.memory a) : a ≤ last := by
  obtain ⟨at', hat, hle⟩ := ha
  have hnot := (h.ahead last h.mem).1
  exact hle.trans (not_le.mp fun hlast => hnot ⟨at', hat, hlast⟩).le

theorem Looks.setBack (h : Looks s s' slice last) (a : α) : s'.setBack a = s.setBack a := by
  rw [State.setBack, h.restarts, State.setBack]

theorem Ok.look (hok : Ok s) (h : Looks s s' slice last) : Ok s' := by
  have hcount : ∀ a, s'.pass.count a = s.pass.count a + slice.count a := fun a => by
    rw [h.pass, List.count_append]
  have hahead : ∀ a, ¬Reached s'.memory a → s'.pass.count a ≤ s'.setBack a := by
    intro a ha
    rw [h.memory, reached_some] at ha
    have hnot : a ∉ slice := fun hmem => ha (h.ahead a hmem).2
    rw [hcount, List.count_eq_zero_of_not_mem hnot, h.setBack]
    exact hok.ahead a fun hreached => ha (h.reached hreached)
  refine ⟨hahead, fun a => ?_, fun a ha => ?_, fun rows hrows a ha hpast => ?_⟩
  · rw [hcount, h.setBack]
    by_cases hmem : a ∈ slice
    · rw [List.count_eq_one_of_mem h.nodup hmem]
      exact Nat.add_le_add_right (hok.ahead a (h.ahead a hmem).1) 1
    · rw [List.count_eq_zero_of_not_mem hmem]
      exact hok.behind a
  · rcases h.disk with ⟨hdisk, -⟩ | ⟨hdisk, hunwritten⟩
    · -- The copy is where the place is.
      exact .inl (hahead a (by rwa [h.memory, ← hdisk]))
    · rw [hdisk] at ha
      rw [hunwritten, List.mem_append, hcount, h.setBack]
      by_cases hmem : a ∈ slice
      · exact .inr (.inr hmem)
      · rw [List.count_eq_zero_of_not_mem hmem]
        exact (hok.copy a ha).imp_right .inl
  · rw [h.atEnd] at hrows
    rw [h.pass, List.mem_append]
    by_cases hold : Reached s.memory a ∨ Reached s.disk a ∨ a ∉ s.rows
    · exact .inl (hok.covered rows hrows a ha hold)
    · -- What was ahead, and is no more, is in the slice.
      simp only [not_or, not_not] at hold
      obtain ⟨hmemory, hdisk, hrow⟩ := hold
      right
      rcases hpast with hreached | hreached | hgone
      · rw [h.memory, reached_some] at hreached
        exact h.all a hrow hmemory hreached
      · rcases h.disk with ⟨hnew, -⟩ | ⟨hsame, -⟩
        · rw [hnew, reached_some] at hreached
          exact h.all a hrow hmemory hreached
        · exact absurd (hsame ▸ hreached) hdisk
      · by_contra hnot
        exact hgone (h.kept a hrow hnot)

theorem Ok.restart (hok : Ok s) :
    Ok { s with memory := s.disk, restarts := s.unwritten :: s.restarts } := by
  have hset : ∀ a, State.setBack { s with memory := s.disk, restarts := s.unwritten :: s.restarts } a
      = s.setBack a + if a ∈ s.unwritten then 1 else 0 := fun a => by
    rw [State.setBack, List.countP_cons, State.setBack]
    simp
  have hahead : ∀ a, ¬Reached s.disk a → s.pass.count a ≤
      State.setBack { s with memory := s.disk, restarts := s.unwritten :: s.restarts } a := by
    intro a ha
    rw [hset]
    rcases hok.copy a ha with hle | hmem
    · exact hle.trans (Nat.le_add_right _ _)
    · rw [if_pos hmem]
      exact hok.behind a
  refine ⟨hahead, fun a => ?_, fun a ha => .inl (hahead a ha), fun rows hrows a ha hpast => ?_⟩
  · rw [hset]
    exact (hok.behind a).trans (Nat.add_le_add_right (Nat.le_add_right _ _) 1)
  · rcases hpast with hreached | hpast
    · exact hok.covered rows hrows a ha (.inr (.inl hreached))
    · exact hok.covered rows hrows a ha (.inr hpast)

theorem Finishes.ok (h : Finishes s s' slice) : Ok s' := by
  have hcount : ∀ a, s'.pass.count a = 0 := fun a => by rw [h.pass, List.count_nil]
  refine ⟨fun a _ => by rw [hcount]; exact Nat.zero_le _, fun a => by rw [hcount]; exact Nat.zero_le _,
    fun a _ => .inl (by rw [hcount]; exact Nat.zero_le _), fun rows hrows a ha hpast => ?_⟩
  rw [h.atEnd, Option.some.injEq] at hrows
  rw [h.memory, h.disk] at hpast
  rcases hpast with hreached | hreached | hgone
  · exact absurd hreached (not_reached_none a)
  · exact absurd hreached (not_reached_none a)
  · exact absurd (hrows ▸ ha) hgone

/-- **Every step keeps it.** -/
theorem Ok.step (hok : Ok s) (h : Step s s') : Ok s' := by
  cases h with
  | look slice last h => exact hok.look h
  | finish slice h => exact h.ok
  | restart h => exact h ▸ hok.restart
  | stay h => exact h ▸ hok

/-- **Between the ends of two passes every row is looked at.** -/
theorem Ok.finish (hok : Ok s) (h : Finishes s s' slice) {rows : Set α}
    (hrows : s.atEnd = some rows) {a : α} (ha : a ∈ rows) : a ∈ s.pass ++ slice := by
  rw [List.mem_append]
  by_cases hold : Reached s.memory a ∨ Reached s.disk a ∨ a ∉ s.rows
  · exact .inl (hok.covered rows hrows a ha hold)
  · simp only [not_or, not_not] at hold
    exact .inr (h.all a hold.2.2 hold.1)

/-- **A row is looked at once in a pass, and once more for each restart that came after it was
looked at and before the copy was written.** -/
theorem Ok.count_le (hok : Ok s) (a : α) : s.pass.count a ≤ 1 + s.setBack a := by
  rw [Nat.add_comm]
  exact hok.behind a

end Resume
