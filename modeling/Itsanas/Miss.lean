/-
# The chance that nothing is there

`miss_ppm` takes the worse of two figures: the product of the units' absences, rounded down
at each factor, and the share of the hours tried for all of them in which none was seen. The
second needs a ring for every unit and enough hours tried for all (`triedHours`); without
them it counts for nothing.

The product follows the order of the units by at most one ppm each, and a unit that is
unknown, whose absence is the whole, leaves it alone. The share does not: a unit without a
ring takes it away, and a young ring leaves fewer hours tried for all. So one more unit that
counts as never there may make the figure better.
-/
import Itsanas.Uptime
import Itsanas.Lib.FlooredProduct
import Mathlib.Order.Interval.Finset.Nat

namespace Itsanas

/-! ### The two figures -/

/-- How much of the time a unit is away, in ppm. -/
def absence (nowHour : ℕ) (unit : UptimeUnit) : ℕ :=
  ppm - min ((unit.uptime.bind (·.availability nowHour unit.lostAfterHours)).getD 0) 1000 * 1000

theorem absence_le (nowHour : ℕ) (unit : UptimeUnit) : absence nowHour unit ≤ ppm := Nat.sub_le _ _

/-- The hours of the window before `nowHour` in which every unit was tried. -/
def triedHours (units : List UptimeUnit) (nowHour : ℕ) : Finset ℕ :=
  (Finset.Icc (nowHour - (windowHours - 1)) nowHour).filter fun hour =>
    ∀ unit ∈ units, unit.uptime.any (·.attemptedAt hour) = true

/-- Those of them in which none was seen. -/
def missedHours (units : List UptimeUnit) (nowHour : ℕ) : Finset ℕ :=
  (triedHours units nowHour).filter fun hour => ∀ unit ∈ units, unit.uptime.any (·.seenAt hour) = false

/-- The share of the hours tried for all in which none was seen, in ppm; nothing if they are
too few. -/
def jointPpm (units : List UptimeUnit) (nowHour : ℕ) : ℕ :=
  if units ≠ [] ∧ minAttemptedHours ≤ (triedHours units nowHour).card then
    (missedHours units nowHour).card * ppm / (triedHours units nowHour).card
  else 0

theorem jointPpm_le (units : List UptimeUnit) (nowHour : ℕ) : jointPpm units nowHour ≤ ppm := by
  unfold jointPpm
  split_ifs
  · refine Nat.div_le_of_le_mul (Nat.mul_le_mul_right _ ?_)
    exact Finset.card_le_card (Finset.filter_subset _ _)
  · exact Nat.zero_le _

theorem jointPpm_perm {units units' : List UptimeUnit} (h : units.Perm units') (nowHour : ℕ) :
    jointPpm units nowHour = jointPpm units' nowHour := by
  have htried : triedHours units nowHour = triedHours units' nowHour := by
    simp only [triedHours, h.mem_iff]
  have hmissed : missedHours units nowHour = missedHours units' nowHour := by
    simp only [missedHours, htried, h.mem_iff]
  have hnil : units ≠ [] ↔ units' ≠ [] := by
    rw [ne_eq, ne_eq, ← List.length_eq_zero_iff, h.length_eq, List.length_eq_zero_iff]
  simp only [jointPpm, htried, hmissed, hnil]

/-! ### What the code computes -/

theorem independentPpm_eq (units : List UptimeUnit) (nowHour : ℕ) :
    independentPpm units nowHour = FlooredProduct.run ppm ppm (units.map (absence nowHour)) := by
  rw [independentPpm, FlooredProduct.run, List.foldl_map]
  rfl

/-- The rings of the units, unless one has none. -/
theorem mapM_uptime : ∀ units : List UptimeUnit,
    match units.mapM UptimeUnit.uptime with
    | some rings => units.map UptimeUnit.uptime = rings.map some
    | none => ∃ unit ∈ units, unit.uptime = none
  | [] => rfl
  | unit :: units => by
    have ih := mapM_uptime units
    rw [List.mapM_cons]
    cases hring : unit.uptime with
    | none => exact ⟨unit, List.mem_cons_self, hring⟩
    | some ring =>
      cases hrings : units.mapM UptimeUnit.uptime with
      | none =>
        rw [hrings] at ih
        obtain ⟨other, hmem, hnone⟩ := ih
        exact ⟨other, List.mem_cons_of_mem unit hmem, hnone⟩
      | some rings =>
        rw [hrings] at ih
        show _ = (ring :: rings).map some
        rw [List.map_cons, List.map_cons, hring, show units.map UptimeUnit.uptime =
          rings.map some from ih]

variable {units : List UptimeUnit}

theorem forall_uptime_iff {rings : List Uptime}
    (h : units.map UptimeUnit.uptime = rings.map some) (p : Option Uptime → Prop) :
    (∀ unit ∈ units, p unit.uptime) ↔ ∀ ring ∈ rings, p (some ring) := by
  rw [← List.forall_mem_map, h, List.forall_mem_map]

theorem length_filter_range'_Icc (p : ℕ → Bool) (a b : ℕ) :
    ((List.range' a (b + 1 - a)).filter p).length =
      ((Finset.Icc a b).filter fun t => p t = true).card := by
  rw [← List.toFinset_card_of_nodup (List.Nodup.filter p List.nodup_range')]
  congr 1
  ext t
  simp only [List.mem_toFinset, List.mem_filter, List.mem_range'_1, Finset.mem_filter, Finset.mem_Icc]
  exact and_congr_left fun _ => by omega

/-- With a ring for every unit, the empirical figure is the share of hours. -/
theorem empiricalPpm_eq {rings : List Uptime} (nowHour : ℕ)
    (h : units.map UptimeUnit.uptime = rings.map some) :
    empiricalPpm rings nowHour =
      if minAttemptedHours ≤ (triedHours units nowHour).card then
        some ((missedHours units nowHour).card * ppm / (triedHours units nowHour).card)
      else none := by
  have htried : ∀ hour, rings.all (·.attemptedAt hour) = true ↔
      ∀ unit ∈ units, unit.uptime.any (·.attemptedAt hour) = true := fun hour => by
    rw [List.all_eq_true]
    refine Iff.trans ?_ (forall_uptime_iff h fun o => o.any (·.attemptedAt hour) = true).symm
    exact forall₂_congr fun ring _ => by simp
  have hmissed : ∀ hour, ¬rings.any (·.seenAt hour) = true ↔
      ∀ unit ∈ units, unit.uptime.any (·.seenAt hour) = false := fun hour => by
    rw [Bool.not_eq_true, List.any_eq_false]
    refine Iff.trans ?_ (forall_uptime_iff h fun o => o.any (·.seenAt hour) = false).symm
    exact forall₂_congr fun ring _ => by simp
  have hjoint : ∀ a b,
    ((List.range' a (b + 1 - a)).filter fun hour => rings.all (·.attemptedAt hour)).length =
      ((Finset.Icc a b).filter fun hour =>
        ∀ unit ∈ units, unit.uptime.any (·.attemptedAt hour) = true).card := fun a b => by
    rw [length_filter_range'_Icc]
    simp only [htried]
  have hnone : ∀ a b, ((List.range' a (b + 1 - a)).filter
      fun hour => rings.all (·.attemptedAt hour)).countP (fun hour => ¬rings.any (·.seenAt hour)) =
      (((Finset.Icc a b).filter fun hour =>
        ∀ unit ∈ units, unit.uptime.any (·.attemptedAt hour) = true).filter fun hour =>
          ∀ unit ∈ units, unit.uptime.any (·.seenAt hour) = false).card := fun a b => by
    rw [List.countP_eq_length_filter, List.filter_filter, length_filter_range'_Icc,
      Finset.filter_filter]
    congr 1
    refine Finset.filter_congr fun hour _ => ?_
    rw [Bool.and_eq_true, decide_eq_true_eq, htried, hmissed]
    exact and_comm
  unfold empiricalPpm
  dsimp only
  rw [hjoint, hnone]
  rfl

variable {unit : UptimeUnit}

/-- A unit without a ring was tried in no hour. -/
theorem triedHours_of_none (hmem : unit ∈ units)
    (hnone : unit.uptime = none) (nowHour : ℕ) : triedHours units nowHour = ∅ := by
  refine Finset.filter_eq_empty_iff.mpr fun hour _ hall => ?_
  have := hall unit hmem
  rw [hnone] at this
  cases this

/-- **The figure is the worse of the share of hours and the rounded product.** -/
theorem missPpm_eq (units : List UptimeUnit) (nowHour : ℕ) :
    missPpm units nowHour =
      max (jointPpm units nowHour) (FlooredProduct.run ppm ppm (units.map (absence nowHour))) := by
  have hproduct : FlooredProduct.run ppm ppm (units.map (absence nowHour)) ≤ ppm :=
    FlooredProduct.run_le_start (List.forall_mem_map.mpr fun unit _ => absence_le nowHour unit) ppm
  have hjoint := jointPpm_le units nowHour
  have hfits : max (jointPpm units nowHour)
      (FlooredProduct.run ppm ppm (units.map (absence nowHour))) ≤ 2 ^ 32 - 1 :=
    (max_le hjoint hproduct).trans (by decide)
  rw [← independentPpm_eq] at hfits ⊢
  have hmap := mapM_uptime units
  unfold missPpm
  dsimp only
  cases hrings : units.mapM UptimeUnit.uptime with
  | none =>
    rw [hrings] at hmap
    obtain ⟨unit, hmem, hring⟩ := hmap
    have hzero : jointPpm units nowHour = 0 := by
      rw [jointPpm, triedHours_of_none hmem hring, if_neg (by simp [minAttemptedHours])]
    rw [hzero, Nat.zero_max] at hfits ⊢
    exact min_eq_left hfits
  | some rings =>
    rw [hrings] at hmap
    dsimp only at hmap
    cases rings with
    | nil =>
      obtain rfl : units = [] := by simpa using hmap
      rw [jointPpm, if_neg fun h => h.1 rfl, Nat.zero_max] at hfits ⊢
      exact min_eq_left hfits
    | cons ring rings =>
      have hne : units ≠ [] := by
        rintro rfl
        cases hmap
      dsimp only
      rw [empiricalPpm_eq nowHour hmap]
      by_cases hmany : minAttemptedHours ≤ (triedHours units nowHour).card
      · rw [if_pos hmany, Option.elim_some]
        rw [jointPpm, if_pos ⟨hne, hmany⟩] at hfits ⊢
        exact min_eq_left hfits
      · rw [if_neg hmany]
        rw [jointPpm, if_neg fun h => hmany h.2, Nat.zero_max] at hfits ⊢
        exact min_eq_left hfits

/-! ### Bounds -/

theorem missPpm_le (units : List UptimeUnit) (nowHour : ℕ) : missPpm units nowHour ≤ 1000000 := by
  rw [missPpm_eq]
  refine max_le (jointPpm_le units nowHour) ?_
  exact FlooredProduct.run_le_start (List.forall_mem_map.mpr fun unit _ => absence_le nowHour unit) ppm

/-- The figure is below the exact product by at most one ppm for each unit. -/
theorem exact_le_missPpm (units : List UptimeUnit) (nowHour : ℕ) :
    FlooredProduct.exact ppm ppm (units.map (absence nowHour)) ≤
      missPpm units nowHour + units.length := by
  have hall : ∀ a ∈ units.map (absence nowHour), a ≤ ppm :=
    List.forall_mem_map.mpr fun unit _ => absence_le nowHour unit
  have hrun :=
    FlooredProduct.exact_le_run (by decide) hall (le_refl (0 : ℚ)) (x := ppm) (y := ppm) (by simp)
  have hmax : FlooredProduct.run ppm ppm (units.map (absence nowHour)) ≤ missPpm units nowHour := by
    rw [missPpm_eq]
    exact le_max_right _ _
  rw [zero_add, List.length_map] at hrun
  exact hrun.trans (add_le_add_left (by exact_mod_cast hmax) _)

/-- The order of the units matters by at most one ppm for each. -/
theorem missPpm_perm {units units' : List UptimeUnit} (h : units.Perm units') (nowHour : ℕ) :
    missPpm units nowHour ≤ missPpm units' nowHour + units.length := by
  have hall : ∀ a ∈ units.map (absence nowHour), a ≤ ppm :=
    List.forall_mem_map.mpr fun unit _ => absence_le nowHour unit
  have hrun := FlooredProduct.run_perm (by decide) (h.map (absence nowHour)) hall ppm
  rw [List.length_map] at hrun
  rw [missPpm_eq, missPpm_eq, jointPpm_perm h]
  omega

/-! ### A unit that is unknown -/

/-- There is no figure for the unit. -/
def UptimeUnit.Unknown (unit : UptimeUnit) (nowHour : ℕ) : Prop :=
  unit.uptime.bind (·.availability nowHour unit.lostAfterHours) = none

variable {nowHour : ℕ}

theorem UptimeUnit.Unknown.absence_eq (h : unit.Unknown nowHour) :
    absence nowHour unit = ppm := by
  rw [absence, show unit.uptime.bind (·.availability nowHour unit.lostAfterHours) = none from h]
  rfl

/-- The hours tried for all of the units say no worse than their absences do: they are too few, or
the missed among them are no more than the rounded product of the absences makes of them. -/
def ShareWithin (units : List UptimeUnit) (nowHour : ℕ) : Prop :=
  units = [] ∨ (triedHours units nowHour).card < minAttemptedHours ∨
    (missedHours units nowHour).card * ppm <
      (FlooredProduct.run ppm ppm (units.map (absence nowHour)) + 1) * (triedHours units nowHour).card

/-- The ring was tried in enough of the hours tried for all of the units, and no smaller a share of
these is missed by it too. -/
def Uptime.KeepsShare (ring : Uptime) (units : List UptimeUnit) (nowHour : ℕ) : Prop :=
  minAttemptedHours ≤ ((triedHours units nowHour).filter fun hour => ring.attemptedAt hour).card ∧
    (missedHours units nowHour).card * ppm / (triedHours units nowHour).card *
        ((triedHours units nowHour).filter fun hour => ring.attemptedAt hour).card ≤
      ((missedHours units nowHour).filter fun hour =>
        ring.attemptedAt hour ∧ ring.seenAt hour = false).card * ppm

theorem ShareWithin.iff : ShareWithin units nowHour ↔
    jointPpm units nowHour ≤ FlooredProduct.run ppm ppm (units.map (absence nowHour)) := by
  unfold ShareWithin jointPpm
  split_ifs with hmany
  · obtain ⟨hne, htried⟩ := hmany
    have hpos : 0 < (triedHours units nowHour).card := lt_of_lt_of_le (by decide) htried
    rw [← Nat.lt_succ_iff, Nat.div_lt_iff_lt_mul hpos]
    simp [hne, htried]
  · rw [not_and_or, not_not, not_le] at hmany
    simp only [Nat.zero_le, iff_true]
    exact hmany.imp_right Or.inl

/-- With one more unit, the hours tried for all are those in which it was tried too. -/
theorem triedHours_cons (unit : UptimeUnit) (units : List UptimeUnit) (nowHour : ℕ) :
    triedHours (unit :: units) nowHour =
      (triedHours units nowHour).filter fun hour => unit.uptime.any (·.attemptedAt hour) := by
  rw [triedHours, triedHours, Finset.filter_filter]
  simp only [List.forall_mem_cons, and_comm]

theorem missedHours_cons {ring : Uptime} (hring : unit.uptime = some ring)
    (units : List UptimeUnit) (nowHour : ℕ) :
    missedHours (unit :: units) nowHour = (missedHours units nowHour).filter fun hour =>
      ring.attemptedAt hour ∧ ring.seenAt hour = false := by
  ext hour
  simp only [missedHours, triedHours_cons, hring, Option.any_some, Finset.mem_filter,
    List.forall_mem_cons]
  exact ⟨fun h => ⟨⟨h.1.1, h.2.2⟩, h.1.2, h.2.1⟩, fun h => ⟨⟨h.1.1, h.2.1⟩, h.2.2, h.1.2⟩⟩

/-- Where the share says more than the product does, one more unit leaves it if its ring does. -/
theorem jointPpm_cons (hshare : 0 < jointPpm units nowHour) :
    jointPpm units nowHour ≤ jointPpm (unit :: units) nowHour ↔
      ∃ ring, unit.uptime = some ring ∧ ring.KeepsShare units nowHour := by
  cases hring : unit.uptime with
  | none =>
    have hzero : jointPpm (unit :: units) nowHour = 0 := by
      rw [jointPpm, triedHours_of_none List.mem_cons_self hring, if_neg (by simp [minAttemptedHours])]
    rw [hzero]
    simp [hshare.ne']
  | some ring =>
    have hjoint : jointPpm units nowHour =
        (missedHours units nowHour).card * ppm / (triedHours units nowHour).card := by
      rw [jointPpm] at hshare ⊢
      split_ifs at hshare ⊢
      · rfl
      · exact absurd hshare (Nat.lt_irrefl 0)
    have hcons : jointPpm (unit :: units) nowHour =
        if minAttemptedHours ≤
            ((triedHours units nowHour).filter fun hour => ring.attemptedAt hour).card then
          ((missedHours units nowHour).filter fun hour =>
            ring.attemptedAt hour ∧ ring.seenAt hour = false).card * ppm /
              ((triedHours units nowHour).filter fun hour => ring.attemptedAt hour).card
        else 0 := by
      rw [jointPpm, missedHours_cons hring, triedHours_cons, hring]
      simp
    rw [hcons]
    simp only [Option.some.injEq, exists_eq_left', Uptime.KeepsShare, ← hjoint]
    split_ifs with hmany
    · rw [Nat.le_div_iff_mul_le (lt_of_lt_of_le (by decide) hmany)]
      simp [hmany]
    · simp [hmany, hshare.ne']

/-- **An unknown unit counts as never there**, unless it takes hours away. One more of them makes
the figure no better exactly where the hours tried for all the others say no worse than their
absences do, or it has a ring that was tried in enough of these hours and misses no smaller a share
of them. And the figure is at most the whole, at most one ppm for each unit below the exact product,
and follows the order of the units by at most that. -/
theorem unknown_unit (before after : List UptimeUnit) (unit : UptimeUnit) (nowHour : ℕ)
    (hunknown : unit.Unknown nowHour) :
    (missPpm (before ++ after) nowHour ≤ missPpm (before ++ unit :: after) nowHour ↔
      ShareWithin (before ++ after) nowHour ∨
        ∃ ring, unit.uptime = some ring ∧ ring.KeepsShare (before ++ after) nowHour) ∧
    ∀ units : List UptimeUnit, missPpm units nowHour ≤ 1000000 ∧
      FlooredProduct.exact ppm ppm (units.map (absence nowHour)) ≤
        missPpm units nowHour + units.length ∧
      ∀ units', units.Perm units' →
        missPpm units nowHour ≤ missPpm units' nowHour + units.length ∧
        missPpm units' nowHour ≤ missPpm units nowHour + units.length := by
  have hproduct : FlooredProduct.run ppm ppm ((before ++ unit :: after).map (absence nowHour)) =
      FlooredProduct.run ppm ppm ((before ++ after).map (absence nowHour)) := by
    rw [List.map_append, List.map_cons, hunknown.absence_eq, List.map_append]
    exact FlooredProduct.run_insert_whole (by decide) ppm _ _
  refine ⟨?_, fun units =>
    ⟨missPpm_le units nowHour, exact_le_missPpm units nowHour, fun units' hperm => ?_⟩⟩
  · rw [missPpm_eq, missPpm_eq, hproduct, jointPpm_perm List.perm_middle, ShareWithin.iff]
    by_cases hshare : jointPpm (before ++ after) nowHour ≤
        FlooredProduct.run ppm ppm ((before ++ after).map (absence nowHour))
    · simp only [hshare, true_or, iff_true]
      omega
    · rw [← jointPpm_cons (by omega : 0 < jointPpm (before ++ after) nowHour)]
      omega
  · have hback := missPpm_perm hperm.symm nowHour
    rw [← hperm.length_eq] at hback
    exact ⟨missPpm_perm hperm nowHour, hback⟩

/-- Tried in forty hours and seen in the first thirty-six. -/
def nineTenths : Uptime := ⟨0, 139, (2 ^ 40 - 1) <<< 100, (2 ^ 36 - 1) <<< 100⟩

/-- **A unit without a ring makes two others look safer.** Both are up and down together, which
the hours tried for both show; with a third of which nothing is known only their product is
left. -/
theorem unknown_unit_helps :
    let units : List UptimeUnit := [⟨some nineTenths, 168⟩, ⟨some nineTenths, 168⟩]
    UptimeUnit.Unknown ⟨none, 168⟩ 200 ∧ missPpm units 200 = 100000 ∧
      missPpm (units ++ [⟨none, 168⟩]) 200 = 10000 := by
  refine ⟨rfl, ?_, ?_⟩ <;> decide +kernel

/-- Beside one that was never seen, a third of which nothing is known changes nothing. -/
theorem unknown_unit_alone :
    let units : List UptimeUnit := [⟨some nineTenths, 168⟩, ⟨none, 168⟩]
    UptimeUnit.Unknown ⟨none, 168⟩ 200 ∧
      missPpm (units ++ []) 200 ≤ missPpm (units ++ [⟨none, 168⟩]) 200 := by
  intro units
  have hunknown : UptimeUnit.Unknown ⟨none, 168⟩ 200 := rfl
  refine ⟨hunknown,
    (unknown_unit units [] ⟨none, 168⟩ 200 hunknown).1.mpr (Or.inl (Or.inr (Or.inl ?_)))⟩
  rw [triedHours_of_none (show (⟨none, 168⟩ : UptimeUnit) ∈ units ++ [] by simp [units]) rfl 200]
  decide

end Itsanas
