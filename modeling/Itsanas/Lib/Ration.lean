/-
# Rationing by windows

A counter that is opened with the time, counts up to a limit and may be opened anew, or forgotten,
only when the clock reads a window past its opening. The clock is not trusted: each entry of the
log has the time it was read at, later entries earlier times if need be. `Runs` is what such a
counter may do. Its log falls into budgets (`Runs.rationed`), each with at most the limit of
grants, and before the next one is opened some reading was a window past the opening of the last.
With a clock that never goes back, a span shorter than the window touches at most two budgets, and
not the opening of the first: that is `Rationed.grants_le`.
-/
import Mathlib.Data.List.Chain
import Mathlib.Data.Nat.Notation
import Mathlib.Order.Basic
import Mathlib.Tactic.Common

namespace Ration

/-- One moment: the clock then, if it was read, and whether something was granted. -/
structure Entry where
  clock : Option ℕ
  granted : Bool
  deriving DecidableEq

/-- What may happen to a counter: its count, and the time it was opened at. -/
inductive Step (limit window : ℕ) : Option (ℕ × ℕ) → Entry → Option (ℕ × ℕ) → Prop
  | opened {row now} (free : ∀ count since, row = some (count, since) → since + window ≤ now) :
      Step limit window row ⟨some now, true⟩ (some (1, now))
  | counted {count since now} (left : count < limit) :
      Step limit window (some (count, since)) ⟨some now, true⟩ (some (count + 1, since))
  | kept {row clock} : Step limit window row ⟨clock, false⟩ row
  | dropped {count since now} (hover : since + window ≤ now) :
      Step limit window (some (count, since)) ⟨some now, false⟩ none

/-- The log of a counter that did not exist at first, and the counter at its end. -/
inductive Runs (limit window : ℕ) : List Entry → Option (ℕ × ℕ) → Prop
  | nil : Runs limit window [] none
  | step {log row entry row'} (before : Runs limit window log row)
      (last : Step limit window row entry row') : Runs limit window (log ++ [entry]) row'

/-! ### Budgets -/

/-- The grant that opened a counter, and what came until the next was opened. -/
structure Budget where
  opening : ℕ
  rest : List Entry

namespace Budget

def entries (b : Budget) : List Entry := ⟨some b.opening, true⟩ :: b.rest

def grants (b : Budget) : ℕ := b.entries.countP Entry.granted

def add (b : Budget) (entry : Entry) : Budget := { b with rest := b.rest ++ [entry] }

/-- The clock has read a window past the opening. -/
def Spent (window : ℕ) (b : Budget) :
    Prop := ∃ entry ∈ b.rest, ∃ t ∈ entry.clock, b.opening + window ≤ t

/-- The clock has done so by the time the next budget is opened. -/
def Before (window : ℕ) (b next : Budget) : Prop := b.Spent window ∨ b.opening + window ≤ next.opening

theorem entries_add (b : Budget) (entry : Entry) : (b.add entry).entries = b.entries ++ [entry] := rfl

theorem grants_add (b : Budget) (entry : Entry) :
    (b.add entry).grants = b.grants + if entry.granted then 1 else 0 := by
  rw [grants, entries_add, List.countP_append, List.countP_singleton, grants]

end Budget

/-- A log that falls into budgets. -/
structure Rationed (limit window : ℕ) (log quiet : List Entry) (budgets : List Budget) : Prop where
  cut : log = quiet ++ budgets.flatMap Budget.entries
  quiet : ∀ entry ∈ quiet, entry.granted = false
  within : ∀ b ∈ budgets, b.grants ≤ limit
  apart : budgets.IsChain (Budget.Before window)

/-- The counter is that of the last budget; if there is none, the last budget is spent. -/
structure Current (window : ℕ) (budgets : List Budget) (row : Option (ℕ × ℕ)) : Prop where
  counts : ∀ count since, row = some (count, since) →
    ∃ b ∈ budgets.getLast?, b.grants = count ∧ b.opening = since
  gone : row = none → ∀ b ∈ budgets.getLast?, b.Spent window

section
variable {limit window : ℕ} {log quiet : List Entry} {budgets : List Budget}
  {row row' : Option (ℕ × ℕ)}

/-- A grant opens a budget. -/
theorem Rationed.opened (h : Rationed limit window log quiet budgets)
    (hcurrent : Current window budgets row) (hlimit : 1 ≤ limit) {now : ℕ}
    (hfree : ∀ count since, row = some (count, since) → since + window ≤ now) :
    Rationed limit window (log ++ [⟨some now, true⟩]) quiet (budgets ++ [⟨now, []⟩]) where
  cut := by
    rw [h.cut]
    simp [Budget.entries]
  quiet := h.quiet
  within b hb := by
    rcases List.mem_append.mp hb with hb | hb
    · exact h.within b hb
    · rw [List.mem_singleton.mp hb]
      exact hlimit
  apart := by
    refine List.isChain_append.mpr ⟨h.apart, List.isChain_singleton _, fun b hb next hnext => ?_⟩
    obtain rfl : ⟨now, []⟩ = next := by simpa using hnext
    cases row with
    | none => exact Or.inl (hcurrent.gone rfl b hb)
    | some counter =>
      obtain ⟨last, hlast, -, hopening⟩ := hcurrent.counts counter.1 counter.2 rfl
      obtain rfl := Option.mem_unique hb hlast
      exact Or.inr (hopening ▸ hfree _ _ rfl)

variable {entry : Entry}

/-- Any other entry belongs to the last budget, if there is one. -/
theorem Rationed.add {last : Budget} (h : Rationed limit window log quiet (budgets ++ [last]))
    (hwithin : (last.add entry).grants ≤ limit) :
    Rationed limit window (log ++ [entry]) quiet (budgets ++ [last.add entry]) where
  cut := by
    rw [h.cut]
    simp [Budget.entries_add]
  quiet := h.quiet
  within b hb := by
    rcases List.mem_append.mp hb with hb | hb
    · exact h.within b (List.mem_append_left _ hb)
    · rwa [List.mem_singleton.mp hb]
  apart := by
    obtain ⟨hbefore, -, hjoin⟩ := List.isChain_append.mp h.apart
    refine List.isChain_append.mpr ⟨hbefore, List.isChain_singleton _, fun b hb next hnext => ?_⟩
    obtain rfl : last.add entry = next := by simpa using hnext
    exact hjoin b hb last (by simp)

theorem Rationed.add_quiet (h : Rationed limit window log quiet [])
    (hentry : entry.granted = false) :
    Rationed limit window (log ++ [entry]) (quiet ++ [entry]) [] where
  cut := by
    rw [h.cut]
    simp
  quiet e he := by
    rcases List.mem_append.mp he with he | he
    · exact h.quiet e he
    · rwa [List.mem_singleton.mp he]
  within := h.within
  apart := h.apart

/-- One more entry of the last budget keeps what it says of the counter, but for the count. -/
theorem Current.add {last : Budget} (hcurrent : Current window (budgets ++ [last]) row)
    (hentry : entry.granted = false) : Current window (budgets ++ [last.add entry]) row where
  counts count since hrow := by
    obtain ⟨b, hb, hcount, hsince⟩ := hcurrent.counts count since hrow
    obtain rfl : last = b := by simpa using hb
    refine ⟨last.add entry, by simp, ?_, hsince⟩
    rw [Budget.grants_add, hentry, hcount]
    rfl
  gone hrow b hb := by
    obtain rfl : last.add entry = b := by simpa using hb
    obtain ⟨e, he, t, ht, hle⟩ := hcurrent.gone hrow last (by simp)
    exact ⟨e, List.mem_append_left _ he, t, ht, hle⟩

/-- **The log of a counter falls into budgets.** -/
theorem Runs.rationed (hlimit : 1 ≤ limit) (h : Runs limit window log row) :
    ∃ quiet budgets, Rationed limit window log quiet budgets ∧ Current window budgets row := by
  induction h with
  | nil =>
    refine ⟨[], [], ⟨rfl, ?_, ?_, List.isChain_nil⟩,
      ⟨fun _ _ h => (nomatch h), fun _ _ h => (nomatch h)⟩⟩
    · exact fun _ h => absurd h List.not_mem_nil
    · exact fun _ h => absurd h List.not_mem_nil
  | step _ hlast ih =>
    obtain ⟨quiet, budgets, hrationed, hcurrent⟩ := ih
    cases hlast with
    | @opened _ now hfree =>
      refine ⟨quiet, budgets ++ [⟨now, []⟩], hrationed.opened hcurrent hlimit hfree,
        ⟨?_, fun h => (nomatch h)⟩⟩
      intro count since hrow
      obtain ⟨rfl, rfl⟩ := Prod.mk.inj (Option.some.inj hrow)
      exact ⟨⟨now, []⟩, by simp, rfl, rfl⟩
    | @counted count since now hleft =>
      obtain ⟨last, hmem, hcount, hsince⟩ := hcurrent.counts count since rfl
      obtain ⟨earlier, rfl⟩ := List.getLast?_eq_some_iff.mp hmem
      have hgrants : (last.add ⟨some now, true⟩).grants = count + 1 := by
        rw [Budget.grants_add, hcount]
        rfl
      refine ⟨quiet, _, hrationed.add (hgrants ▸ hleft), ⟨?_, fun h => (nomatch h)⟩⟩
      intro count' since' hrow
      obtain ⟨rfl, rfl⟩ := Prod.mk.inj (Option.some.inj hrow)
      exact ⟨last.add ⟨some now, true⟩, by simp, hgrants, hsince⟩
    | kept =>
      cases hlast : budgets.getLast? with
      | none =>
        obtain rfl := List.getLast?_eq_none_iff.mp hlast
        exact ⟨_, [], hrationed.add_quiet rfl, hcurrent⟩
      | some last =>
        obtain ⟨earlier, rfl⟩ := List.getLast?_eq_some_iff.mp hlast
        refine ⟨quiet, _, hrationed.add ?_, hcurrent.add rfl⟩
        rw [Budget.grants_add]
        exact hrationed.within last (by simp)
    | @dropped count since now hover =>
      obtain ⟨last, hmem, -, hsince⟩ := hcurrent.counts count since rfl
      obtain ⟨earlier, rfl⟩ := List.getLast?_eq_some_iff.mp hmem
      have hgrants : (last.add ⟨some now, false⟩).grants ≤ limit := by
        rw [Budget.grants_add]
        exact hrationed.within last (by simp)
      refine ⟨quiet, _, hrationed.add hgrants, ⟨fun _ _ h => (nomatch h), fun _ b hb => ?_⟩⟩
      obtain rfl : last.add ⟨some now, false⟩ = b := by simpa using hb
      refine ⟨⟨some now, false⟩, by simp [Budget.add], now, rfl, ?_⟩
      rwa [← hsince] at hover

/-! ### A clock that never goes back -/

/-- Whether this is a grant at a time from `low` to `high`. -/
def Entry.within (low high : ℕ) (entry : Entry) : Bool :=
  entry.granted && entry.clock.any fun t => low ≤ t ∧ t ≤ high

/-- The clock never goes back. -/
def Ordered (log : List Entry) : Prop :=
  log.Pairwise fun e e' => ∀ t ∈ e.clock, ∀ t' ∈ e'.clock, t ≤ t'

variable {low high : ℕ}

theorem Entry.granted_of_within (h : entry.within low high = true) :
    entry.granted = true :=
  (Bool.and_eq_true_iff.mp h).1

theorem Entry.clock_of_within (h : entry.within low high = true) :
    ∃ t ∈ entry.clock, low ≤ t ∧ t ≤ high := by
  cases hclock : entry.clock with
  | none => simp [Entry.within, hclock] at h
  | some t =>
    have hspan : entry.granted = true ∧ low ≤ t ∧ t ≤ high := by simpa [Entry.within, hclock] using h
    exact ⟨t, rfl, hspan.2⟩

/-- After the clock has passed the span, nothing is granted within it. -/
theorem Ordered.none_after {l₁ l₂ : List Entry} {low high t : ℕ}
    (h : Ordered (l₁ ++ l₂)) (hmem : entry ∈ l₁) (ht : t ∈ entry.clock) (hpast : high < t) :
    l₂.countP (Entry.within low high) = 0 := by
  refine List.countP_eq_zero.mpr fun e he hwithin => ?_
  obtain ⟨t', ht', -, hle⟩ := Entry.clock_of_within hwithin
  have := (List.pairwise_append.mp h).2.2 entry hmem e he t ht t' ht'
  omega

/-- Before the clock has reached the span, nothing is granted within it. -/
theorem Ordered.none_before {l₁ l₂ : List Entry} {low high t : ℕ}
    (h : Ordered (l₁ ++ l₂)) (hmem : entry ∈ l₂) (ht : t ∈ entry.clock) (hearly : t < low) :
    l₁.countP (Entry.within low high) = 0 := by
  refine List.countP_eq_zero.mpr fun e he hwithin => ?_
  obtain ⟨t', ht', hle, -⟩ := Entry.clock_of_within hwithin
  have := (List.pairwise_append.mp h).2.2 e he entry hmem t' ht' t ht
  omega

theorem Budget.within_le (b : Budget) (low high : ℕ) :
    b.entries.countP (Entry.within low high) ≤ b.grants :=
  List.countP_mono_left fun _ _ => Entry.granted_of_within

/-- The opening is not among the grants of a span that starts later. -/
theorem Budget.within_lt {b : Budget} {low : ℕ} (high : ℕ) (h : b.opening < low) :
    b.entries.countP (Entry.within low high) < b.grants := by
  have hopening : Entry.within low high ⟨some b.opening, true⟩ = false := by
    simp [Entry.within]
    omega
  have hrest : b.rest.countP (Entry.within low high) ≤ b.rest.countP Entry.granted :=
    List.countP_mono_left fun _ _ => Entry.granted_of_within
  rw [Budget.grants, Budget.entries, List.countP_cons_of_neg (by simp [hopening]),
    List.countP_cons_of_pos rfl]
  omega

section
variable {low high : ℕ}

/-- A budget opened within the span is the last in it. -/
theorem grants_of_opened (hspan : high < low + window) {b : Budget} {rest : List Budget}
    (happart : (b :: rest).IsChain (Budget.Before window))
    (hordered : Ordered ((b :: rest).flatMap Budget.entries)) (hopened : low ≤ b.opening) :
    ((b :: rest).flatMap Budget.entries).countP (Entry.within low high) ≤ b.grants := by
  have hrest : (rest.flatMap Budget.entries).countP (Entry.within low high) = 0 := by
    rw [List.flatMap_cons] at hordered
    cases rest with
    | nil => rfl
    | cons next more =>
      rcases (List.isChain_cons_cons.mp happart).1 with ⟨entry, hentry, t, ht, hpast⟩ | hpast
      · exact hordered.none_after (List.mem_cons_of_mem _ hentry) ht (by omega)
      · -- the opening of the next is past the span itself
        have hnext : Entry.within low high ⟨some next.opening, true⟩ = false := by
          simp [Entry.within]
          omega
        have hafter : Ordered ((b.entries ++ [⟨some next.opening, true⟩]) ++
            (next.rest ++ more.flatMap Budget.entries)) := by
          simpa [Budget.entries] using hordered
        rw [List.flatMap_cons, Budget.entries, List.cons_append,
          List.countP_cons_of_neg (by simp [hnext])]
        exact hafter.none_after (List.mem_append_right _ (List.mem_singleton_self _)) rfl (by omega)
  rw [List.flatMap_cons, List.countP_append, hrest]
  exact b.within_le low high

theorem budgets_grants_le (hlimit : 1 ≤ limit) (hspan : high < low + window) :
    ∀ budgets : List Budget, (∀ b ∈ budgets, b.grants ≤ limit) →
      budgets.IsChain (Budget.Before window) →
      Ordered (budgets.flatMap Budget.entries) →
      (budgets.flatMap Budget.entries).countP (Entry.within low high) ≤ 2 * limit - 1
  | [], _, _, _ => Nat.zero_le _
  | [b], hwithin, happart, hordered => by
    by_cases hopened : low ≤ b.opening
    · have := grants_of_opened hspan happart hordered hopened
      have := hwithin b List.mem_cons_self
      omega
    · have := Budget.within_lt high (not_le.mp hopened)
      have := hwithin b List.mem_cons_self
      simp only [List.flatMap_singleton]
      omega
  | b :: next :: more, hwithin, happart, hordered => by
    have hb := hwithin b List.mem_cons_self
    have hnext := hwithin next (List.mem_cons_of_mem _ List.mem_cons_self)
    have hapart := (List.isChain_cons_cons.mp happart).2
    by_cases hopened : low ≤ b.opening
    · have := grants_of_opened hspan happart hordered hopened
      omega
    · rw [List.flatMap_cons] at hordered ⊢
      have hlater : Ordered ((next :: more).flatMap Budget.entries) :=
        (List.pairwise_append.mp hordered).2.1
      rw [List.countP_append]
      by_cases hopened' : low ≤ next.opening
      · have := grants_of_opened hspan hapart hlater hopened'
        have := Budget.within_lt high (not_le.mp hopened)
        omega
      · -- both were opened before the span: the first was over before it began
        have hnone : b.entries.countP (Entry.within low high) = 0 :=
          hordered.none_before (by simp [Budget.entries] : ⟨some next.opening, true⟩ ∈ _) rfl
            (not_le.mp hopened')
        have := budgets_grants_le hlimit hspan (next :: more)
          (fun b hb => hwithin b (List.mem_cons_of_mem _ hb)) hapart hlater
        omega

end

/-- **A span shorter than the window.** It has fewer grants than two budgets. -/
theorem Rationed.grants_le (h : Rationed limit window log quiet budgets) (hlimit : 1 ≤ limit)
    (hordered : Ordered log) (hspan : high < low + window) :
    log.countP (Entry.within low high) ≤ 2 * limit - 1 := by
  have hquiet : quiet.countP (Entry.within low high) = 0 :=
    List.countP_eq_zero.mpr fun e he hwithin => by
      have := h.quiet e he
      rw [Entry.granted_of_within hwithin] at this
      cases this
  rw [h.cut] at hordered ⊢
  rw [List.countP_append, hquiet, Nat.zero_add]
  exact budgets_grants_le hlimit hspan budgets h.within h.apart (List.pairwise_append.mp hordered).2.1

end

end Ration
