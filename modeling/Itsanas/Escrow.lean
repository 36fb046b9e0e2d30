/-
# Guesses at an escrow

Anyone who knows a username may ask the coordinator for its escrow blob, so each name has a budget
of fetches: `count_escrow_attempt` of `directory.rs` counts on disk, and `EscrowLimiter` of
`service.rs` before it in memory. Each keeps at most so many names, and neither forgets a name
whose window is not over to make room for another.

On disk the row of a name is a counter of `Lib/Ration.lean` whatever the other names do
(`Escrow.step_row`): so its fetches fall into budgets over any run, with restarts, expiry passes
and a clock that steps. Memory can only refuse more.
-/
import Itsanas.Lib.Ration
import Itsanas.Path

namespace Itsanas.Coord

/-- How many fetches of each name, and since when. -/
abbrev Tries : Type := Table Str (ℕ × ℕ)

/-! ### On disk -/

/-- Whether a window opened at `since` is over. A clock that went back keeps it open. -/
def windowOver (since now window : ℕ) : Bool := since ≤ now ∧ window ≤ now - since

/-- Drop every count whose window is over. -/
def expireEscrowTries (tries : Tries) (now window : ℕ) : Tries :=
  tries.filter fun _ row => !windowOver row.2 now window

/-- Count one fetch of `username`. A full table is rid of what is over, and otherwise refuses. -/
def countEscrowAttempt (tries : Tries) (username : Str)
    (now allowed window capacity : ℕ) : Bool × Tries :=
  match tries[username]? with
  | some (count, since) =>
    if windowOver since now window then (true, tries.insert username (1, now))
    else if allowed ≤ count then (false, tries)
    else (true, tries.insert username (count + 1, since))
  | none =>
    let left := if capacity ≤ tries.size then expireEscrowTries tries now window else tries
    if left.size < capacity then (true, left.insert username (1, now)) else (false, left)

/-! ### In memory -/

structure EscrowLimiter where
  attempts : Tries
  allowed : ℕ
  window : ℕ
  capacity : ℕ

namespace EscrowLimiter

def «with» (allowed window capacity : ℕ) : EscrowLimiter := ⟨∅, allowed, window, max capacity 1⟩

/-- Drop windows that have elapsed. -/
def forgetExpired (l : EscrowLimiter) (now : ℕ) : EscrowLimiter :=
  { l with attempts := l.attempts.filter fun _ row => now - row.2 < l.window }

/-- Whether one more attempt is allowed; it is counted if so. -/
def allow (l : EscrowLimiter) (username : Str) (now : ℕ) : Bool × EscrowLimiter :=
  let l := l.forgetExpired now
  match l.attempts[username]? with
  | some (count, since) =>
    if l.window ≤ now - since then (true, { l with attempts := l.attempts.insert username (1, now) })
    else if l.allowed ≤ count then (false, l)
    else (true, { l with attempts := l.attempts.insert username (count + 1, since) })
  | none =>
    if l.capacity ≤ l.attempts.size then (false, l)
    else (true, { l with attempts := l.attempts.insert username (1, now) })

end EscrowLimiter

/-! ### Both -/

/-- The budget: the window in seconds of the clock, and again in the unit of instants. -/
structure EscrowTerms where
  allowed : ℕ
  window : ℕ
  elapse : ℕ
  capacity : ℕ

/-- What the coordinator counts: on disk, and in memory since its start. -/
structure Escrow where
  tries : Tries
  limiter : EscrowLimiter

namespace Escrow
variable (terms : EscrowTerms)

def fresh : EscrowLimiter := EscrowLimiter.with terms.allowed terms.elapse terms.capacity

def new : Escrow := ⟨∅, fresh terms⟩

/-- One more fetch: memory first, then the disk. -/
def escrowAllowed (e : Escrow) (username : Str) (now nowUnix : ℕ) : Bool × Escrow :=
  let (ok, limiter) := e.limiter.allow username now
  if ok then
    let (ok, tries) :=
      countEscrowAttempt e.tries username nowUnix terms.allowed terms.window terms.capacity
    (ok, ⟨tries, limiter⟩)
  else (false, ⟨e.tries, limiter⟩)

/-- What happens to the coordinator, with the readings of its clocks. -/
inductive Event
  | fetch (username : Str) (now nowUnix : ℕ)
  | expire (nowUnix : ℕ)
  | restart

def Event.clock : Event → Option ℕ
  | .fetch _ _ nowUnix => some nowUnix
  | .expire nowUnix => some nowUnix
  | .restart => none

def Event.fetches (name : Str) : Event → Bool
  | .fetch username _ _ => username = name
  | _ => false

/-- One event, and whether it was a fetch that was granted. -/
def step (e : Escrow) : Event → Bool × Escrow
  | .fetch username now nowUnix => e.escrowAllowed terms username now nowUnix
  | .expire nowUnix => (false, { e with tries := expireEscrowTries e.tries nowUnix terms.window })
  | .restart => (false, { e with limiter := fresh terms })

def run (e : Escrow) (events : List Event) :
    Escrow := events.foldl (fun e event => (e.step terms event).2) e

/-- The run as one name sees it: the clock at each event, and whether the name was fetched. -/
def log (name : Str) : Escrow → List Event → List Ration.Entry
  | _, [] => []
  | e, event :: events =>
    let (granted, e) := e.step terms event
    ⟨event.clock, granted && event.fetches name⟩ :: log name e events

end Escrow

/-! ### One row -/

theorem windowOver_iff {since now window : ℕ} :
    windowOver since now window = true ↔ since + window ≤ now := by
  unfold windowOver
  rw [decide_eq_true_eq]
  omega

/-- What is left of a row when rows that are over are dropped. -/
theorem expireEscrowTries_step (limit : ℕ) (tries : Tries) (now window : ℕ) (name : Str) :
    Ration.Step limit window tries[name]? ⟨some now, false⟩
      (expireEscrowTries tries now window)[name]? := by
  rw [expireEscrowTries, Table.getElem?_filter_values tries fun row => !windowOver row.2 now window]
  cases hrow : tries[name]? with
  | none => exact .kept
  | some row =>
    obtain ⟨count, since⟩ := row
    cases hover : windowOver since now window with
    | false => simpa [Option.filter, hover] using Ration.Step.kept
    | true => simpa [Option.filter, hover] using Ration.Step.dropped (windowOver_iff.mp hover)

/-- **A fetch, as one name sees it.** Its own opens or counts within the limit; another's keeps
the row, or drops it when its window is over. -/
theorem countEscrowAttempt_step (tries : Tries) (username : Str) (now allowed window capacity : ℕ)
    (name : Str) :
    Ration.Step allowed window tries[name]?
      ⟨some now, (countEscrowAttempt tries username now allowed window capacity).1 && decide
        (username = name)⟩
      (countEscrowAttempt tries username now allowed window capacity).2[name]? := by
  by_cases hname : username = name
  · subst hname
    rw [decide_eq_true rfl, Bool.and_true, countEscrowAttempt]
    cases hrow : tries[username]? with
    | some row =>
      obtain ⟨count, since⟩ := row
      dsimp only
      split_ifs with hover hfull
      · rw [Table.getElem?_insert_self']
        refine .opened fun count' since' he => ?_
        obtain ⟨rfl, rfl⟩ := Prod.mk.inj (Option.some.inj he)
        exact windowOver_iff.mp hover
      · rw [hrow]
        exact .kept
      · rw [Table.getElem?_insert_self']
        exact .counted (not_le.mp hfull)
    | none =>
      dsimp only
      split_ifs
      · rw [Table.getElem?_insert_self']
        exact .opened fun _ _ he => nomatch he
      · have := expireEscrowTries_step allowed tries now window username
        rwa [hrow] at this
      · rw [Table.getElem?_insert_self']
        exact .opened fun _ _ he => nomatch he
      · rw [hrow]
        exact .kept
  · rw [decide_eq_false hname, Bool.and_false, countEscrowAttempt]
    cases hrow : tries[username]? with
    | some row =>
      dsimp only
      split_ifs
      · rw [Table.getElem?_insert_ne _ _ hname]
        exact .kept
      · exact .kept
      · rw [Table.getElem?_insert_ne _ _ hname]
        exact .kept
    | none =>
      dsimp only
      split_ifs
      · rw [Table.getElem?_insert_ne _ _ hname]
        exact expireEscrowTries_step allowed tries now window name
      · exact expireEscrowTries_step allowed tries now window name
      · rw [Table.getElem?_insert_ne _ _ hname]
        exact .kept
      · exact .kept

namespace EscrowLimiter

/-- Another's attempt leaves a window alone that is not over. -/
theorem allow_kept {l : EscrowLimiter} {username name : Str} {now count since : ℕ}
    (hname : username ≠ name)
    (hrow : l.attempts[name]? = some (count, since)) (hopen : now - since < l.window) :
    (l.allow username now).2.attempts[name]? = some (count, since) := by
  have hleft : (l.forgetExpired now).attempts[name]? = some (count, since) := by
    rw [forgetExpired, Table.getElem?_filter_values l.attempts fun row => now - row.2 < l.window, hrow]
    simp [Option.filter, hopen]
  unfold allow
  dsimp only
  split
  · split_ifs
    · exact (Table.getElem?_insert_ne _ _ hname).trans hleft
    · exact hleft
    · exact (Table.getElem?_insert_ne _ _ hname).trans hleft
  · split_ifs
    · exact hleft
    · exact (Table.getElem?_insert_ne _ _ hname).trans hleft

theorem allow_window (l : EscrowLimiter) (username : Str) (now : ℕ) :
    (l.allow username now).2.window = l.window ∧ (l.allow username now).2.capacity = l.capacity := by
  unfold allow
  dsimp only
  split
  · split_ifs <;> exact ⟨rfl, rfl⟩
  · split_ifs <;> exact ⟨rfl, rfl⟩

end EscrowLimiter

/-! ### How many names -/

variable {name : Str}

theorem size_insert_held {t : Tries} {row : ℕ × ℕ} (h : t[name]? = some row) (row' : ℕ × ℕ) :
    (t.insert name row').size = t.size := by
  have hmem : t.contains name = true := by
    rw [← Std.ExtTreeMap.mem_iff_contains, Std.ExtTreeMap.mem_iff_isSome_getElem?, h]
    rfl
  rw [Std.ExtTreeMap.size_insert, if_pos hmem]

theorem countEscrowAttempt_size {tries : Tries} {capacity : ℕ} (h : tries.size ≤ capacity)
    (username : Str) (now allowed window : ℕ) :
    (countEscrowAttempt tries username now allowed window capacity).2.size ≤ capacity := by
  unfold countEscrowAttempt
  cases hrow : tries[username]? with
  | some row =>
    dsimp only
    split_ifs
    · exact (size_insert_held hrow _).trans_le h
    · exact h
    · exact (size_insert_held hrow _).trans_le h
  | none =>
    have hleft : (expireEscrowTries tries now window).size ≤ capacity :=
      Std.ExtTreeMap.size_filter_le_size.trans h
    dsimp only
    split_ifs with _ hroom hroom
    · exact Std.ExtTreeMap.size_insert_le.trans hroom
    · exact hleft
    · exact Std.ExtTreeMap.size_insert_le.trans hroom
    · exact h

theorem EscrowLimiter.allow_size {l : EscrowLimiter} (h : l.attempts.size ≤ l.capacity)
    (username : Str) (now : ℕ) :
    (l.allow username now).2.attempts.size ≤ l.capacity := by
  have hleft : (l.forgetExpired now).attempts.size ≤ l.capacity :=
    Std.ExtTreeMap.size_filter_le_size.trans h
  unfold allow
  dsimp only
  split
  · next hrow =>
    split_ifs
    · exact (size_insert_held hrow _).trans_le hleft
    · exact hleft
    · exact (size_insert_held hrow _).trans_le hleft
  · split_ifs with hfull
    · exact hleft
    · exact Std.ExtTreeMap.size_insert_le.trans (not_le.mp hfull)

/-! ### Runs -/

namespace Escrow
variable {terms : EscrowTerms}

theorem step_row (e : Escrow) (event : Event) (name : Str) :
    Ration.Step terms.allowed terms.window e.tries[name]?
      ⟨event.clock, (e.step terms event).1 && event.fetches name⟩
        (e.step terms event).2.tries[name]? := by
  cases event with
  | restart => exact .kept
  | expire nowUnix => exact expireEscrowTries_step terms.allowed e.tries nowUnix terms.window name
  | fetch username now nowUnix =>
    simp only [step, escrowAllowed]
    split_ifs
    · exact countEscrowAttempt_step e.tries username nowUnix _ _ _ name
    · exact .kept

/-- A run continues the log of every name. -/
theorem log_runs (name : Str) : ∀ (events : List Event) (e : Escrow) (before : List Ration.Entry),
    Ration.Runs terms.allowed terms.window before e.tries[name]? →
    Ration.Runs terms.allowed terms.window (before ++ log terms name e events)
      (run terms e events).tries[name]?
  | [], _, before, h => by rwa [log, List.append_nil]
  | event :: events, e, before, h => by
    have := log_runs name events (e.step terms event).2 _ (h.step (e.step_row event name))
    rwa [List.append_assoc, List.singleton_append] at this

theorem run_rationed (h : 1 ≤ terms.allowed) (name : Str) (events : List Event) :
    ∃ quiet budgets,
      Ration.Rationed terms.allowed terms.window (log terms name (new terms) events)
        quiet budgets := by
  have hnone : (new terms).tries[name]? = none := Std.ExtTreeMap.getElem?_empty
  have hruns := @log_runs terms name events (new terms) [] (hnone ▸ Ration.Runs.nil)
  rw [List.nil_append] at hruns
  obtain ⟨quiet, budgets, hrationed, -⟩ := hruns.rationed h
  exact ⟨quiet, budgets, hrationed⟩

/-- The log shows the clock of every event. -/
theorem log_clock (name : Str) : ∀ (events : List Event) (e : Escrow),
    (log terms name e events).map Ration.Entry.clock = events.map Event.clock
  | [], _ => rfl
  | event :: events, e => by rw [log, List.map_cons, List.map_cons, log_clock name events]

/-- The clock never goes back. -/
def Steady (events : List Event) : Prop :=
  events.Pairwise fun a b => ∀ t ∈ a.clock, ∀ t' ∈ b.clock, t ≤ t'

theorem Steady.log {events : List Event} (h : Steady events) (name : Str) (e : Escrow) :
    Ration.Ordered (log terms name e events) := by
  refine (List.pairwise_map (f := Ration.Entry.clock)
    (R := fun a b => ∀ t ∈ a, ∀ t' ∈ b, t ≤ t')).mp ?_
  rw [log_clock]
  exact List.pairwise_map.mpr h

/-- No event but a fetch of the name itself changes a window that is not over then. -/
theorem run_tries_kept {count since : ℕ} : ∀ (events : List Event) (e : Escrow),
    (∀ event ∈ events, event.fetches name = false ∧
      ∀ t ∈ event.clock, windowOver since t terms.window = false) →
    e.tries[name]? = some (count, since) → (run terms e events).tries[name]? = some (count, since)
  | [], _, _, h => h
  | event :: events, e, hothers, h => by
    obtain ⟨hfetches, hopen⟩ := hothers event List.mem_cons_self
    refine run_tries_kept events _
      (fun event hevent => hothers event (List.mem_cons_of_mem _ hevent)) ?_
    have hstep := @step_row terms e event name
    rw [h, hfetches, Bool.and_false] at hstep
    generalize (e.step terms event).2.tries[name]? = row at hstep ⊢
    generalize hclock : event.clock = clock at hstep
    cases hstep with
    | kept => rfl
    | dropped hover =>
      have := hopen _ hclock
      rw [windowOver_iff.mpr hover] at this
      cases this

/-- In memory, fetches of other names keep a window that has not elapsed then. -/
theorem run_attempts_kept {count since : ℕ} : ∀ (fetches : List (Str × ℕ × ℕ)) (e : Escrow),
    (∀ fetch ∈ fetches, fetch.1 ≠ name ∧ fetch.2.1 - since < e.limiter.window) →
    e.limiter.attempts[name]? = some (count, since) →
    (run terms e
      (fetches.map fun fetch => .fetch fetch.1 fetch.2.1 fetch.2.2)).limiter.attempts[name]? =
      some (count, since)
  | [], _, _, h => h
  | fetch :: fetches, e, hothers, h => by
    have hlimiter : (e.step terms (.fetch fetch.1 fetch.2.1 fetch.2.2)).2.limiter =
        (e.limiter.allow fetch.1 fetch.2.1).2 := by
      simp only [step, escrowAllowed]
      split_ifs <;> rfl
    obtain ⟨hname, hopen⟩ := hothers fetch List.mem_cons_self
    refine run_attempts_kept fetches _ (fun next hnext => ?_) ?_
    · rw [hlimiter, (EscrowLimiter.allow_window _ _ _).1]
      exact hothers next (List.mem_cons_of_mem _ hnext)
    · rw [hlimiter]
      exact EscrowLimiter.allow_kept hname h hopen

/-- At most so many names are counted. -/
structure Within (terms : EscrowTerms) (e : Escrow) : Prop where
  tries : e.tries.size ≤ terms.capacity
  attempts : e.limiter.attempts.size ≤ e.limiter.capacity
  capacity : e.limiter.capacity = max terms.capacity 1

theorem within_new : Within terms (new terms) := ⟨Nat.zero_le _, Nat.zero_le _, rfl⟩

theorem Within.step {e : Escrow} (h : Within terms e) (event : Event) :
    Within terms (e.step terms event).2 := by
  cases event with
  | restart => exact ⟨h.tries, Nat.zero_le _, rfl⟩
  | expire nowUnix => exact ⟨Std.ExtTreeMap.size_filter_le_size.trans h.tries, h.attempts, h.capacity⟩
  | fetch username now nowUnix =>
    have hsize := EscrowLimiter.allow_size h.attempts username now
    have hcapacity := (e.limiter.allow_window username now).2
    simp only [Escrow.step, escrowAllowed]
    split_ifs
    · exact ⟨countEscrowAttempt_size h.tries _ _ _ _, hcapacity ▸ hsize, hcapacity.trans h.capacity⟩
    · exact ⟨h.tries, hcapacity ▸ hsize, hcapacity.trans h.capacity⟩

theorem Within.run :
    ∀ (events : List Event) {e : Escrow}, Within terms e → Within terms (run terms e events)
  | [], _, h => h
  | event :: events, _, h => Within.run events (h.step event)

/-- **Fetches are rationed per name.** In every run the grants of a name fall into budgets of at
most the limit, and the clock has read a window past the opening of one before the next is opened;
what is fetched under other names leaves a window that is not over as it is, on disk and in memory;
and no more names are kept than there is room for. So with a clock that never goes back, a span
shorter than the window has fewer grants of a name than two budgets. -/
theorem fetches_rationed (terms : EscrowTerms) (hallowed : 1 ≤ terms.allowed) (events : List Event) :
    let e := run terms (new terms) events
    (∀ name, ∃ quiet budgets,
      Ration.Rationed terms.allowed terms.window (log terms name (new terms) events) quiet budgets) ∧
    (∀ name count since (others : List Event),
      (∀ event ∈ others, event.fetches name = false ∧
        ∀ t ∈ event.clock, windowOver since t terms.window = false) →
      e.tries[name]? = some (count, since) → (run terms e others).tries[name]? = some (count, since)) ∧
    (∀ name count since (others : List (Str × ℕ × ℕ)),
      (∀ fetch ∈ others, fetch.1 ≠ name ∧ fetch.2.1 - since < e.limiter.window) →
      e.limiter.attempts[name]? = some (count, since) →
      (run terms e
        (others.map fun fetch => .fetch fetch.1 fetch.2.1 fetch.2.2)).limiter.attempts[name]? =
        some (count, since)) ∧
    e.tries.size ≤ terms.capacity ∧ e.limiter.attempts.size ≤ e.limiter.capacity ∧
      e.limiter.capacity = max terms.capacity 1 ∧
    (Steady events → ∀ name low high, high < low + terms.window →
      (log terms name (new terms) events).countP (Ration.Entry.within low high) ≤
          2 * terms.allowed - 1) := by
  intro e
  have hwithin : Within terms e := within_new.run events
  refine ⟨fun name => run_rationed hallowed name events, fun name count since others =>
    run_tries_kept others e,
    fun name count since others => run_attempts_kept others e, hwithin.tries, hwithin.attempts,
    hwithin.capacity, fun hsteady name low high hspan => ?_⟩
  obtain ⟨quiet, budgets, hrationed⟩ := run_rationed hallowed name events
  exact hrationed.grants_le hallowed (hsteady.log name _) hspan

/-- Two guesses a minute: a third is refused, a fourth after the minute is granted. -/
theorem fetches_rationed_pair :
    let terms : EscrowTerms := ⟨2, 60, 60, 8⟩
    let fetch (at' : ℕ) : Event := .fetch ['a'] at' at'
    (log terms ['a'] (new terms) [fetch 1, fetch 2, fetch 3, fetch 61]).map Ration.Entry.granted =
        [true, true, false, true] ∧
      (log terms ['a'] (new terms) [fetch 1, fetch 2, fetch 3, fetch 61]).countP
          (Ration.Entry.within 2 61) ≤ 3 := by
  intro terms fetch
  refine ⟨by decide +kernel, ?_⟩
  exact (fetches_rationed terms (by decide) [fetch 1, fetch 2, fetch 3, fetch 61]).2.2.2.2.2.2
    (by simp [Steady, fetch, Event.clock]) ['a'] 2 61 (by decide)

end Escrow

end Itsanas.Coord
