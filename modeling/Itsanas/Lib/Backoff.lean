/-
# A back-off with a floor under its resets

Something is asked again only a wait after it was last asked, and each time the wait doubles, up to
a most; now and then the wait falls back to the first one, but never twice within a floor. With a
floor of at most five first waits, any four times it was asked span the floor.

Take a time `t` it was asked. Without a fall-back since, the next three are `2`, `6` and `14` first
waits later; with one fall-back, at least `5`, the worst case being a fall-back between the second
and the third; and two fall-backs are a floor apart. `Once`, `Twice` and `Thrice` say where that
stands after one, two and three times, as bounds on when the next one is due.

Key theorems: `Backoff.Paced.ask`, `Backoff.Paced.count_le`.
-/
import Mathlib.Data.List.Basic
import Mathlib.Data.Nat.Notation
import Mathlib.Order.Nat
import Mathlib.Tactic.Common

namespace Backoff

/-- When it was last asked or answered, how long to wait from then, when the wait last fell back,
and the time now. -/
structure State where
  last : ℕ
  wait : ℕ
  reset : Option ℕ
  clock : ℕ

section
variable {first floor most : ℕ}

/-- The wait has fallen back since `t`. -/
def State.FellBack (s : State) (t : ℕ) : Prop := ∃ r ∈ s.reset, t ≤ r

/-- It was asked at `t`, and not since. -/
def Once (first : ℕ) (s : State) (t : ℕ) : Prop :=
  t ≤ s.last ∧ (2 * first ≤ s.wait ∨ s.FellBack t)

/-- It was asked at `t`, and once since. -/
def Twice (first floor : ℕ) (s : State) (t : ℕ) : Prop :=
  t + floor ≤ s.clock ∨ (t + 2 * first ≤ s.last ∧ 4 * first ≤ s.wait) ∨
    (s.FellBack t ∧ t + first ≤ s.last ∧ (2 * first ≤ s.wait ∨ t + 2 * first ≤ s.last))

/-- It was asked at `t`, and twice since. -/
def Thrice (first floor : ℕ) (s : State) (t : ℕ) : Prop :=
  t + floor ≤ s.clock ∨ (s.FellBack t ∧ t + 5 * first ≤ s.last + s.wait)

/-- The times it was asked, latest first. -/
structure Paced (first floor : ℕ) (s : State) (log : List ℕ) : Prop where
  wait : first ≤ s.wait
  past : s.last ≤ s.clock
  once : ∀ t, log[0]? = some t → Once first s t
  twice : ∀ t, log[1]? = some t → Twice first floor s t
  thrice : ∀ t, log[2]? = some t → Thrice first floor s t
  spread : ∀ i x y, log[i]? = some y → log[i + 3]? = some x → x + floor ≤ y
  ordered : log.Pairwise (· ≥ ·)
  asked : ∀ t ∈ log, t ≤ s.last

theorem Paced.nil {s : State} (hwait : first ≤ s.wait) (hpast : s.last ≤ s.clock) :
    Paced first floor s [] :=
  ⟨hwait, hpast, fun _ h => (nomatch h), fun _ h => (nomatch h), fun _ h => (nomatch h),
    fun _ _ _ h => (nomatch h), List.Pairwise.nil, fun _ h => (nomatch h)⟩

variable {log : List ℕ} {s s' : State}

/-- Time passing, and a longer wait, only put the next one off. -/
theorem Paced.later (h : Paced first floor s log) (hlast : s.last ≤ s'.last)
    (hwait : s.wait ≤ s'.wait) (hreset : s'.reset = s.reset) (hclock : s.clock ≤ s'.clock)
    (hpast : s'.last ≤ s'.clock) : Paced first floor s' log where
  wait := h.wait.trans hwait
  past := hpast
  once t ht := by
    obtain ⟨hle, hnext⟩ := h.once t ht
    exact ⟨hle.trans hlast,
      hnext.imp (fun h => h.trans hwait) fun h => by rwa [State.FellBack, hreset]⟩
  twice t ht := by
    rcases h.twice t ht with hfar | ⟨hle, hnext⟩ | ⟨hfell, hle, hnext⟩
    · exact Or.inl (hfar.trans hclock)
    · exact Or.inr (Or.inl ⟨hle.trans hlast, hnext.trans hwait⟩)
    · exact Or.inr (Or.inr ⟨by rwa [State.FellBack, hreset], hle.trans hlast,
        hnext.imp (fun h => h.trans hwait) fun h => h.trans hlast⟩)
  thrice t ht := by
    rcases h.thrice t ht with hfar | ⟨hfell, hle⟩
    · exact Or.inl (hfar.trans hclock)
    · exact Or.inr ⟨by rwa [State.FellBack, hreset], by omega⟩
  spread := h.spread
  ordered := h.ordered
  asked t ht := (h.asked t ht).trans hlast

/-- The first fall-back since some time costs what the doubling had won; a second is a floor
later. -/
theorem Paced.fallBack (h : Paced first floor s log) {now : ℕ}
    (hfloored : ∀ r ∈ s.reset, r + floor ≤ now) (hclock : s.clock ≤ now) (hlast : s'.last = s.last)
    (hwait : s'.wait = first) (hreset : s'.reset = some now) (hnow : s'.clock = now) :
    Paced first floor s' log := by
  have hpast := h.past
  have hagain : ∀ t, s.FellBack t → t + floor ≤ s'.clock := fun t ⟨r, hr, hle⟩ => by
    have := hfloored r hr
    omega
  have hfell : ∀ t, t ≤ now → s'.FellBack t := fun t hle => ⟨now, hreset, hle⟩
  refine ⟨hwait.ge, by omega, fun t ht => ?_, fun t ht => ?_, fun t ht => ?_, h.spread, h.ordered, ?_⟩
  · obtain ⟨hle, -⟩ := h.once t ht
    exact ⟨by omega, Or.inr (hfell t (by omega))⟩
  · rcases h.twice t ht with hfar | ⟨hle, -⟩ | ⟨hfell', -⟩
    · exact Or.inl (by omega)
    · exact Or.inr (Or.inr ⟨hfell t (by omega), by omega, Or.inr (by omega)⟩)
    · exact Or.inl (hagain t hfell')
  · rcases h.thrice t ht with hfar | ⟨hfell', -⟩
    · exact Or.inl (by omega)
    · exact Or.inl (hagain t hfell')
  · exact fun t ht => (h.asked t ht).trans hlast.ge

/-- Asking once more. -/
theorem Paced.ask (hfloor : floor ≤ 5 * first) (hmost : 4 * first ≤ most)
    (h : Paced first floor s log) {now : ℕ} (hdue : s.last + s.wait ≤ now) (hclock : s.clock ≤ now)
    (hlast : s'.last = now) (hwait : min (2 * s.wait) most ≤ s'.wait) (hreset : s'.reset = s.reset)
    (hnow : s'.clock = now) : Paced first floor s' (now :: log) := by
  have hfirst := h.wait
  have hasked : ∀ t ∈ log, t ≤ now := fun t ht => by
    have := h.asked t ht
    omega
  refine ⟨by
    omega, by omega, fun t ht => ?_, fun t ht => ?_, fun t ht => ?_, fun i x y hy hx => ?_, ?_, ?_⟩
  · obtain rfl : now = t := Option.some.inj ht
    exact ⟨by omega, Or.inl (by omega)⟩
  · obtain ⟨hle, hnext⟩ := h.once t ht
    rcases hnext with hnext | hfell
    · exact Or.inr (Or.inl ⟨by omega, by omega⟩)
    · exact Or.inr (Or.inr ⟨by rwa [State.FellBack, hreset], by omega, Or.inl (by omega)⟩)
  · rcases h.twice t ht with hfar | ⟨hle, hnext⟩ | ⟨hfell, hle, hnext⟩
    · exact Or.inl (by omega)
    · exact Or.inl (by omega)
    · refine Or.inr ⟨by rwa [State.FellBack, hreset], ?_⟩
      rcases hnext with hnext | hnext <;> omega
  · cases i with
    | zero =>
      obtain rfl : now = y := Option.some.inj hy
      rcases h.thrice x hx with hfar | ⟨-, hle⟩ <;> omega
    | succ i => exact h.spread i x y hy hx
  · exact List.pairwise_cons.mpr ⟨hasked, h.ordered⟩
  · intro t ht
    rcases List.mem_cons.mp ht with rfl | ht
    · omega
    · exact (hasked t ht).trans hlast.ge

/-- **At most three within a floor.** -/
theorem count_le {from' : ℕ} : ∀ log : List ℕ, log.Pairwise (· ≥ ·) →
    (∀ i x y, log[i]? = some y → log[i + 3]? = some x → x + floor ≤ y) →
    log.countP (fun t => from' ≤ t ∧ t < from' + floor) ≤ 3
  | [], _, _ => Nat.zero_le _
  | y :: log, hordered, hspread => by
    obtain ⟨hlatest, hordered'⟩ := List.pairwise_cons.mp hordered
    by_cases hy : from' ≤ y ∧ y < from' + floor
    · -- the fourth before `y` is a floor earlier, so before the interval, and with it all others
      have hbefore : (log.drop 2).countP (fun t => from' ≤ t ∧ t < from' + floor) = 0 := by
        refine List.countP_eq_zero.mpr fun t ht => ?_
        cases hdrop : log.drop 2 with
        | nil => rw [hdrop] at ht; cases ht
        | cons x rest =>
          have hx : log[2]? = some x := by rw [← List.head?_drop, hdrop]; rfl
          have hxy := hspread 0 x y rfl hx
          have htx : t ≤ x := by
            have hsorted : (log.drop 2).Pairwise (· ≥ ·) := hordered'.sublist (List.drop_sublist _ _)
            rw [hdrop] at ht hsorted
            rcases List.mem_cons.mp ht with rfl | ht
            · exact le_rfl
            · exact (List.pairwise_cons.mp hsorted).1 t ht
          simp only [decide_eq_true_eq]
          omega
      have hsplit : (y :: log).countP (fun t => from' ≤ t ∧ t < from' + floor) =
          ((y :: log).take 3).countP (fun t => from' ≤ t ∧ t < from' + floor) +
            (log.drop 2).countP (fun t => from' ≤ t ∧ t < from' + floor) := by
        rw [← List.countP_append]
        exact congrArg _ (List.take_append_drop 3 (y :: log)).symm
      have hthree : ((y :: log).take 3).countP (fun t => from' ≤ t ∧ t < from' + floor) ≤ 3 :=
        List.countP_le_length.trans (List.length_take_le _ _)
      omega
    · rw [List.countP_cons_of_neg (by simpa using hy)]
      exact count_le log hordered' fun i x y' hy' hx => hspread (i + 1) x y' hy' hx

theorem Paced.count_le {s : State} (h : Paced first floor s log) (from' : ℕ) :
    log.countP (fun t => from' ≤ t ∧ t < from' + floor) ≤ 3 :=
  Backoff.count_le log h.ordered h.spread

end

end Backoff
