/-
# An uptime ring is a sliding window

The bits of a ring are addressed modulo `windowHours` and used again, and a stale one is
cleared only on the way from one note to the next. `Shows u r` says that the ring `u` holds
the record `r`: the bit at a place is set exactly for the moments of `r` that have that
place. A note keeps this, since the places it passes are those of the moments the window
leaves behind, and so does the union of several rings. What a ring answers is then read off
the record.

Hours are naturals. The code's `u64` arithmetic is the same up to the last hour a `u64` can
hold; callers pass seconds divided by 3600.
-/
import Itsanas.Uptime
import Itsanas.Lib.SlidingWindow

namespace Itsanas

namespace Uptime

open SlidingWindow

/-! ### Places -/

/-- The bits set are the places of the moments in `s`. -/
def Holds (bits : BitVec 704) (s : Finset ℕ) : Prop :=
  ∀ i, bits.getLsbD i = true ↔ ∃ t ∈ s, t % windowHours = i

theorem mod_windowHours_lt (hour : ℕ) : hour % windowHours < 704 :=
  (Nat.mod_lt _ (by decide)).trans (by decide)

theorem getLsbD_bit (hour i : ℕ) : (bit hour).getLsbD i = true ↔ hour % windowHours = i := by
  rw [bit, BitVec.getLsbD_twoPow, decide_eq_true (mod_windowHours_lt hour), Bool.true_and,
    decide_eq_true_eq]

theorem getLsbD_set (bits : BitVec 704) (hour i : ℕ) :
    (bits ||| bit hour).getLsbD i = true ↔ bits.getLsbD i = true ∨ hour % windowHours = i := by
  rw [BitVec.getLsbD_or, Bool.or_eq_true, getLsbD_bit]

theorem getLsbD_clear (bits : BitVec 704) (hour i : ℕ) :
    (bits &&& ~~~bit hour).getLsbD i = true ↔ bits.getLsbD i = true ∧ hour % windowHours ≠ i := by
  rw [BitVec.getLsbD_and, BitVec.getLsbD_not, Bool.and_eq_true, Bool.and_eq_true, Bool.not_eq_true',
    ← Bool.not_eq_true, getLsbD_bit, decide_eq_true_eq]
  exact and_congr_right fun h => and_iff_right (BitVec.lt_of_getLsbD h)

theorem Holds.empty : Holds 0 ∅ := fun i => by simp

variable {s : Finset ℕ} {bits : BitVec 704}

theorem Holds.insert (h : Holds bits s) (hour : ℕ) :
    Holds (bits ||| bit hour) (insert hour s) := by
  intro i
  rw [getLsbD_set, h i]
  simp only [Finset.mem_insert, exists_eq_or_imp]
  exact or_comm

variable {hour : ℕ}

/-- Setting a bit that is set changes nothing. -/
theorem Holds.insert_of_isSet (h : Holds bits s)
    (hset : isSet bits hour = true) : Holds bits (Insert.insert hour s) := by
  intro i
  rw [h i]
  simp only [Finset.mem_insert, exists_eq_or_imp]
  refine ⟨Or.inr, ?_⟩
  rintro (rfl | hi)
  · exact (h _).mp hset
  · exact hi

/-! ### Sliding -/

theorem clearStale_spec (acc : Uptime × Bool) (stale : ℕ)
    (hsub : ∀ i, acc.1.seen.getLsbD i = true → acc.1.attempted.getLsbD i = true) :
    (∀ i, (clearStale acc stale).1.attempted.getLsbD i = true ↔
      acc.1.attempted.getLsbD i = true ∧ stale % windowHours ≠ i) ∧
    (∀ i, (clearStale acc stale).1.seen.getLsbD i = true ↔
      acc.1.seen.getLsbD i = true ∧ stale % windowHours ≠ i) ∧
    (clearStale acc stale).1.firstHour = acc.1.firstHour ∧
    (clearStale acc stale).1.lastHour = acc.1.lastHour := by
  unfold clearStale
  split_ifs with hset
  · exact ⟨fun i => getLsbD_clear _ _ i, fun i => getLsbD_clear _ _ i, rfl, rfl⟩
  · -- the place is empty already
    have hne : ∀ i, acc.1.attempted.getLsbD i = true → stale % windowHours ≠ i := by
      rintro i hi rfl
      exact hset hi
    exact ⟨fun i => (and_iff_left_of_imp (hne i)).symm,
      fun i => (and_iff_left_of_imp fun hi => hne i (hsub i hi)).symm, rfl, rfl⟩

/-- Clearing goes over the places of the hours passed. -/
theorem foldl_clearStale_spec : ∀ (hours : List ℕ) (acc : Uptime × Bool),
    (∀ i, acc.1.seen.getLsbD i = true → acc.1.attempted.getLsbD i = true) →
    let r := hours.foldl clearStale acc
    (∀ i, r.1.attempted.getLsbD i = true ↔
      acc.1.attempted.getLsbD i = true ∧ ∀ s ∈ hours, s % windowHours ≠ i) ∧
    (∀ i, r.1.seen.getLsbD i = true ↔
      acc.1.seen.getLsbD i = true ∧ ∀ s ∈ hours, s % windowHours ≠ i) ∧
    r.1.firstHour = acc.1.firstHour ∧ r.1.lastHour = acc.1.lastHour
  | [], acc, _ => by simp
  | stale :: hours, acc, hsub => by
    obtain ⟨ha, hs, hf, hl⟩ := clearStale_spec acc stale hsub
    obtain ⟨ha', hs', hf', hl'⟩ := foldl_clearStale_spec hours (clearStale acc stale) fun i hi =>
      (ha i).mpr ⟨hsub i ((hs i).mp hi).1, ((hs i).mp hi).2⟩
    refine ⟨fun i => ?_, fun i => ?_, hf'.trans hf, hl'.trans hl⟩
    · rw [List.foldl_cons, ha' i, ha i, List.forall_mem_cons, and_assoc]
    · rw [List.foldl_cons, hs' i, hs i, List.forall_mem_cons, and_assoc]

/-- The ring `u` holds the record `r`. -/
structure Shows (u : Uptime) (r : Record) : Prop where
  within : r.Within windowHours
  first : u.firstHour = r.first
  last : u.lastHour = r.last
  attempted : Holds u.attempted r.attempted
  seen : Holds u.seen r.seen

variable {r : Record}

theorem shows_mk {first last : ℕ} {attempted seen : BitVec 704} (hwithin : r.Within windowHours)
    (hfirst : first = r.first) (hlast : last = r.last) (hattempted : Holds attempted r.attempted)
    (hseen : Holds seen r.seen) : Shows ⟨first, last, attempted, seen⟩ r :=
  ⟨hwithin, hfirst, hlast, hattempted, hseen⟩

theorem shows_new (hour : ℕ) : Shows (new hour) (.new hour) :=
  ⟨Record.within_new _ _, rfl, rfl, Holds.empty, Holds.empty⟩

/-- The places passed on the way to `hour` are those of the moments the window leaves. -/
theorem Holds.recent {bits bits' : BitVec 704} {last hour : ℕ} (h : Holds bits s)
    (hinside : ∀ t ∈ s, Record.oldest windowHours last ≤ t ∧ t ≤ last)
    (hcleared : ∀ i, bits'.getLsbD i = true ↔
      bits.getLsbD i = true ∧ ∀ stale ∈ List.range' (last + 1)
      (hour - last), stale % windowHours ≠ i) :
    Holds bits' (Record.recent windowHours hour s) := by
  have hstale : ∀ t ∈ s, (∀ stale ∈ List.range' (last + 1) (hour - last),
      stale % windowHours ≠ t % windowHours) ↔ Record.oldest windowHours hour ≤ t := by
    intro t ht
    obtain ⟨hold, hle⟩ := hinside t ht
    have hpassed := exists_mod_eq_iff windowHours hour hle
      (by unfold Record.oldest windowHours at *; omega)
    rw [show Record.oldest windowHours hour ≤ t ↔ ¬t + windowHours ≤ hour by
      unfold Record.oldest windowHours
      omega, ← hpassed]
    simp only [List.mem_range'_1]
    constructor
    · rintro hnone ⟨stale, hlt, hle', hmod⟩
      exact hnone stale ⟨by omega, by omega⟩ hmod
    · rintro hnone stale ⟨hlt, hle'⟩ hmod
      exact hnone ⟨stale, by omega, by omega, hmod⟩
  intro i
  rw [hcleared i, h i]
  constructor
  · rintro ⟨⟨t, ht, rfl⟩, hnone⟩
    exact ⟨t, Record.mem_recent.mpr ⟨ht, (hstale t ht).mp hnone⟩, rfl⟩
  · rintro ⟨t, ht, rfl⟩
    obtain ⟨hmem, hold⟩ := Record.mem_recent.mp ht
    exact ⟨⟨t, hmem, rfl⟩, (hstale t hmem).mpr hold⟩

variable {u : Uptime}

/-- A ring brought forward holds the record slid on, before the new observation. -/
theorem Shows.forward (h : u.Shows r) (hnow : u.lastHour ≤ hour) :
    let u' := (u.forward hour).1
    let r' := r.renew windowHours hour
    r'.Within windowHours ∧ r'.last ≤ hour ∧ u'.firstHour = r'.first ∧ u'.lastHour = hour ∧
      Holds u'.attempted (Record.recent windowHours hour r'.attempted) ∧
      Holds u'.seen (Record.recent windowHours hour r'.seen) := by
  unfold Uptime.forward Record.renew
  rw [← h.last]
  by_cases hjump : windowHours ≤ hour - u.lastHour
  · have hjump' : u.lastHour + windowHours ≤ hour := by omega
    rw [if_pos hjump, if_pos hjump']
    exact ⟨Record.within_new _ _, le_rfl, rfl, rfl, Holds.empty, Holds.empty⟩
  · have hjump' : ¬u.lastHour + windowHours ≤ hour := by omega
    have hsub : ∀ i, u.seen.getLsbD i = true → u.attempted.getLsbD i = true := fun i hi =>
      have ⟨t, ht, hmod⟩ := (h.seen i).mp hi
      (h.attempted i).mpr ⟨t, h.within.seen ht, hmod⟩
    have hinside : ∀ t ∈ r.attempted, Record.oldest windowHours u.lastHour ≤ t ∧ t ≤ u.lastHour := by
      intro t ht
      obtain ⟨hold, -, hle⟩ := h.within.attempted t ht
      rw [h.last]
      exact ⟨hold, hle⟩
    obtain ⟨ha, hs, hf, hl⟩ :=
      foldl_clearStale_spec (List.range' (u.lastHour + 1) (hour - u.lastHour)) (u, false) hsub
    have hattempted := h.attempted.recent hinside ha
    have hseen := h.seen.recent (fun t ht => hinside t (h.within.seen ht)) hs
    have hle : r.last ≤ hour := h.last ▸ hnow
    rw [if_neg hjump, if_neg hjump']
    dsimp only
    split_ifs with heq
    · exact ⟨h.within, hle, hf.trans h.first, hl.trans heq.symm, hattempted, hseen⟩
    · exact ⟨h.within, hle, hf.trans h.first, rfl, hattempted, hseen⟩

/-- The last part of a note, with the hour among those tried. -/
theorem shows_observe {seen changed : Bool}
    (hwithin : (r.observe windowHours hour seen).Within windowHours)
    (hfirst : u.firstHour = r.first) (hlast : u.lastHour = hour)
    (hattempted : Holds u.attempted (insert hour (Record.recent windowHours hour r.attempted)))
    (hseen : Holds u.seen (Record.recent windowHours hour r.seen)) :
    Shows (if seen = true ∧ ¬isSet u.seen hour = true then
      ({ u with seen := u.seen ||| bit hour }, true) else (u, changed)).1
        (r.observe windowHours hour seen) := by
  cases seen with
  | false => exact ⟨hwithin, hfirst, hlast, hattempted, hseen⟩
  | true =>
    by_cases hset : isSet u.seen hour = true
    · rw [if_neg fun h => h.2 hset]
      exact ⟨hwithin, hfirst, hlast, hattempted, hseen.insert_of_isSet hset⟩
    · rw [if_pos ⟨rfl, hset⟩]
      exact ⟨hwithin, hfirst, hlast, hattempted, hseen.insert hour⟩

/-- **A note keeps the ring and the record together.** -/
theorem Shows.note (h : u.Shows r) (hour : ℕ) (seen : Bool) :
    Shows (u.note hour seen).1 (r.note windowHours hour seen) := by
  unfold Uptime.note Record.note
  rw [← h.last]
  by_cases hback : hour < u.lastHour
  · rw [if_pos hback, if_pos hback]
    exact h
  · obtain ⟨hwithin, hle, hfirst, hlast, hattempted, hseen⟩ := h.forward (not_lt.mp hback)
    rw [if_neg hback, if_neg hback]
    have hobserved := hwithin.observe hle seen
    rcases hf : u.forward hour with ⟨u', changed⟩
    rw [hf] at hfirst hlast hattempted hseen
    dsimp only at hfirst hlast hattempted hseen ⊢
    by_cases hset : isSet u'.attempted hour = true
    · rw [if_pos hset]
      exact shows_observe hobserved hfirst hlast (hattempted.insert_of_isSet hset) hseen
    · rw [if_neg hset]
      exact shows_observe hobserved hfirst hlast (hattempted.insert hour) hseen

def run (start : ℕ) (notes : List (ℕ × Bool)) : Uptime :=
  notes.foldl (fun u n => (u.note n.1 n.2).1) (new start)

theorem shows_run (start : ℕ) (notes : List (ℕ × Bool)) :
    Shows (run start notes) (Record.run windowHours start notes) := by
  induction notes using List.reverseRecOn with
  | nil => exact shows_new start
  | append_singleton notes n ih =>
    rw [run, Record.run, List.foldl_append, List.foldl_append]
    exact ih.note n.1 n.2

/-! ### What a ring answers -/

theorem windowStart_eq (u : Uptime) :
    u.windowStart = max (Record.oldest windowHours u.lastHour) u.firstHour := rfl

theorem seenAt_eq_true :
    u.seenAt hour = true ↔ u.windowStart ≤ hour ∧ hour ≤ u.lastHour ∧ isSet u.seen hour = true := by
  rw [seenAt, decide_eq_true_eq]

section
variable {u : Uptime} {r : Record} (h : u.Shows r)
include h

/-- A bit inside the window is the bit of its own hour. -/
theorem Shows.at_iff (hbits : Holds bits s) (hs : s ⊆ r.attempted) (hour : ℕ) :
    (u.windowStart ≤ hour ∧ hour ≤ u.lastHour ∧ isSet bits hour = true) ↔ hour ∈ s := by
  have hinside : ∀ t ∈ s, u.windowStart ≤ t ∧ t ≤ u.lastHour := by
    intro t ht
    obtain ⟨hold, hfirst, hle⟩ := h.within.attempted t (hs ht)
    rw [windowStart_eq, h.last, h.first]
    exact ⟨max_le hold hfirst, hle⟩
  constructor
  · rintro ⟨hstart, hlast, hset⟩
    obtain ⟨t, ht, hmod⟩ := (hbits _).mp hset
    obtain ⟨hstart', hlast'⟩ := hinside t ht
    have hold : u.lastHour < u.windowStart + windowHours := by
      rw [windowStart_eq]
      unfold Record.oldest windowHours
      omega
    rcases le_total t hour with hle | hle
    · rwa [← eq_of_mod_eq hle (by omega) hmod]
    · rwa [eq_of_mod_eq hle (by omega) hmod.symm]
  · intro hmem
    obtain ⟨hstart, hlast⟩ := hinside hour hmem
    exact ⟨hstart, hlast, (hbits _).mpr ⟨hour, hmem, rfl⟩⟩

theorem Shows.attemptedAt_iff (hour : ℕ) : u.attemptedAt hour = true ↔ hour ∈ r.attempted := by
  rw [attemptedAt, decide_eq_true_eq]
  exact h.at_iff h.attempted (Finset.Subset.refl _) hour

theorem Shows.seenAt_iff (hour : ℕ) : u.seenAt hour = true ↔ hour ∈ r.seen := by
  rw [seenAt_eq_true]
  exact h.at_iff h.seen h.within.seen hour

end

/-! ### Counts -/

theorem sum_countP_words (p : ℕ → Bool) : ∀ words,
    ((List.range words).map fun word => (List.range 64).countP fun i => p (64 * word + i)).sum =
      (List.range (64 * words)).countP p
  | 0 => rfl
  | words + 1 => by
    rw [show List.range (words + 1) = List.range words ++ [words] from List.range_succ,
      List.map_append,
      List.sum_append, sum_countP_words p words, Nat.mul_succ, List.range_add, List.countP_append,
      List.countP_map]
    simp [Function.comp_def]

theorem countP_range (p : ℕ → Bool) (n : ℕ) :
    (List.range n).countP p = ((Finset.range n).filter fun i => p i = true).card := by
  rw [List.countP_eq_length_filter]
  show _ = ((List.range n).filter fun i => decide (p i = true)).length
  simp

theorem countOnes_eq_card (bits : BitVec 704) :
    countOnes bits = ((Finset.range 704).filter fun i => bits.getLsbD i = true).card := by
  rw [countOnes, sum_countP_words (fun i => bits.getLsbD i) 11, countP_range]

/-- As many bits are set as there are moments: no two of a window share a place. -/
theorem Holds.countOnes (h : Holds bits s) {last : ℕ}
    (hinside : ∀ t ∈ s, Record.oldest windowHours last ≤ t ∧ t ≤ last) : countOnes bits = s.card := by
  have hplaces : ((Finset.range 704).filter fun i => bits.getLsbD i = true) =
      s.image (· % windowHours) := by
    ext i
    rw [Finset.mem_filter, Finset.mem_range, h i, Finset.mem_image]
    refine and_iff_right_of_imp ?_
    rintro ⟨t, -, rfl⟩
    exact mod_windowHours_lt t
  rw [countOnes_eq_card, hplaces, Finset.card_image_of_injOn]
  intro a ha b hb hmod
  obtain ⟨hold, hle⟩ := hinside a ha
  obtain ⟨hold', hle'⟩ := hinside b hb
  unfold Record.oldest windowHours at *
  rcases le_total a b with hab | hab
  · exact eq_of_mod_eq hab (by omega) hmod
  · exact (eq_of_mod_eq hab (by omega) hmod.symm).symm

/-! ### The last hour seen, and the longest gap -/

/-- The first hit in a falling list is the greatest. -/
theorem find?_eq_some_iff_of_falling {p : ℕ → Bool} : ∀ {l : List ℕ}, l.Pairwise (· > ·) → ∀ hour,
    l.find? p = some hour ↔ (hour ∈ l ∧ p hour = true) ∧ ∀ t ∈ l, p t = true → t ≤ hour
  | [], _, hour => by simp
  | a :: l, hfall, hour => by
    obtain ⟨ha, hl⟩ := List.pairwise_cons.mp hfall
    by_cases hp : p a = true
    · rw [List.find?_cons_of_pos hp, Option.some.injEq]
      constructor
      · rintro rfl
        refine ⟨⟨List.mem_cons_self, hp⟩, List.forall_mem_cons.mpr ⟨fun _ => le_rfl, fun t ht _ => ?_⟩⟩
        exact (ha t ht).le
      · rintro ⟨⟨hmem, -⟩, hmax⟩
        refine le_antisymm (hmax a List.mem_cons_self hp) ?_
        rcases List.mem_cons.mp hmem with rfl | hmem
        · exact le_rfl
        · exact (ha hour hmem).le
    · rw [List.find?_cons_of_neg hp, find?_eq_some_iff_of_falling hl hour]
      have hne : hour ∈ a :: l ∧ p hour = true ↔ hour ∈ l ∧ p hour = true := by
        refine and_congr_left fun hph => ⟨fun hmem => ?_, List.mem_cons_of_mem a⟩
        rcases List.mem_cons.mp hmem with rfl | hmem
        · exact absurd hph hp
        · exact hmem
      rw [hne, List.forall_mem_cons]
      exact and_congr_right fun _ => (and_iff_right fun hpa => absurd hpa hp).symm

theorem mem_window : hour ∈ u.window ↔ u.windowStart ≤ hour ∧ hour ≤ u.lastHour := by
  rw [window, List.mem_range'_1]
  omega

theorem Shows.lastSeenHour_iff (h : u.Shows r) (hour : ℕ) :
    u.lastSeenHour = some hour ↔ IsGreatest (r.seen : Set ℕ) hour := by
  have hwindow : ∀ t, t ∈ u.window.reverse ∧ u.seenAt t = true ↔ t ∈ r.seen := by
    intro t
    rw [List.mem_reverse, mem_window, ← h.seenAt_iff t]
    exact and_iff_right_of_imp fun hat =>
      have ⟨hstart, hlast, _⟩ := seenAt_eq_true.mp hat
      ⟨hstart, hlast⟩
  have hfall : u.window.reverse.Pairwise (· > ·) :=
    List.pairwise_reverse.mpr List.pairwise_lt_range'
  rw [lastSeenHour, find?_eq_some_iff_of_falling hfall, hwindow]
  refine and_congr_right fun _ => ⟨fun hmax t ht => ?_, fun hmax t ht hseen => ?_⟩
  · obtain ⟨hmem, hseen⟩ := (hwindow t).mpr ht
    exact hmax t hmem hseen
  · exact hmax ((hwindow t).mp ⟨ht, hseen⟩)

/-- The loop of `longestGapHours` over the first `n` hours from `start`. -/
theorem foldl_gap (p : ℕ → Bool) (start : ℕ) : ∀ n,
    let acc := (List.range' start n).foldl (fun (acc : Option ℕ × ℕ) hour =>
      if p hour then (some hour, acc.1.elim acc.2 fun before =>
        max acc.2 (hour - before - 1)) else acc) (none, 0)
    let s := (Finset.Ico start (start + n)).filter fun hour => p hour = true
    (acc.1 = none → s = ∅) ∧ (∀ before, acc.1 = some before → IsGreatest (s : Set ℕ) before) ∧
      acc.2 = longestGap s
  | 0 => by simp [longestGap_empty]
  | n + 1 => by
    obtain ⟨hnone, hsome, hgap⟩ := foldl_gap p start n
    rw [List.range'_1_concat, List.foldl_append]
    revert hnone hsome hgap
    generalize (List.range' start n).foldl _ (none, 0) = acc
    intro hnone hsome hgap
    have hIco : Finset.Ico start (start + (n + 1)) =
        insert (start + n) (Finset.Ico start (start + n)) :=
      Nat.Ico_succ_right_eq_insert_Ico (Nat.le_add_right _ _)
    dsimp only [List.foldl_cons, List.foldl_nil]
    rw [hIco, Finset.filter_insert]
    by_cases hp : p (start + n) = true
    · rw [if_pos hp, if_pos hp]
      have hlt : ∀ t ∈ (Finset.Ico start (start + n)).filter fun hour => p hour = true, t <
          start + n :=
        fun t ht => (Finset.mem_Ico.mp (Finset.mem_filter.mp ht).1).2
      refine ⟨fun h => (Option.some_ne_none _ h).elim, ?_, ?_⟩
      · rintro before hbefore
        obtain rfl := Option.some.inj hbefore
        refine ⟨Finset.mem_coe.mpr (Finset.mem_insert_self _ _), fun t ht => ?_⟩
        rcases Finset.mem_insert.mp (Finset.mem_coe.mp ht) with rfl | ht
        · exact le_rfl
        · exact (hlt t ht).le
      · cases hacc : acc.1 with
        | none =>
          rw [hnone hacc] at hgap ⊢
          show acc.2 = _
          rw [hgap, longestGap_empty]
          exact (longestGap_singleton _).symm
        | some before =>
          obtain ⟨hmem, hmax⟩ := hsome before hacc
          show max acc.2 (start + n - before - 1) = _
          rw [hgap,
            longestGap_insert (Finset.mem_coe.mp hmem) (fun t ht => hmax (Finset.mem_coe.mpr ht))
            (hlt before (Finset.mem_coe.mp hmem))]
    · rw [if_neg hp, if_neg hp]
      exact ⟨hnone, hsome, hgap⟩

theorem Shows.longestGapHours_eq (h : u.Shows r) :
    u.longestGapHours = longestGap r.seen := by
  obtain ⟨-, -, hgap⟩ := foldl_gap u.seenAt u.windowStart (u.lastHour + 1 - u.windowStart)
  have hseen : ((Finset.Ico u.windowStart (u.windowStart + (u.lastHour + 1 - u.windowStart))).filter
      fun hour => u.seenAt hour = true) = r.seen := by
    ext t
    rw [Finset.mem_filter, Finset.mem_Ico, h.seenAt_iff]
    refine and_iff_right_of_imp fun ht => ?_
    obtain ⟨hstart, hlast, -⟩ := seenAt_eq_true.mp ((h.seenAt_iff t).mpr ht)
    exact ⟨hstart, by omega⟩
  rw [longestGapHours, window, hgap]
  exact congrArg longestGap hseen

/-- The ring `u` answers as the record `r`. -/
structure Answers (u : Uptime) (r : Record) : Prop where
  first : u.firstHour = r.first
  last : u.lastHour = r.last
  attemptedAt : ∀ hour, u.attemptedAt hour = true ↔ hour ∈ r.attempted
  seenAt : ∀ hour, u.seenAt hour = true ↔ hour ∈ r.seen
  attemptedHours : u.attemptedHours = r.attempted.card
  seenHours : u.seenHours = r.seen.card
  lastSeenHour : ∀ hour, u.lastSeenHour = some hour ↔ IsGreatest (r.seen : Set ℕ) hour
  longestGapHours : u.longestGapHours = longestGap r.seen

theorem Shows.answers (h : u.Shows r) : u.Answers r := by
  have hinside : ∀ t ∈ r.attempted, Record.oldest windowHours r.last ≤ t ∧ t ≤ r.last := fun t ht =>
    have ⟨hold, _, hle⟩ := h.within.attempted t ht
    ⟨hold, hle⟩
  exact
    { first := h.first
      last := h.last
      attemptedAt := h.attemptedAt_iff
      seenAt := h.seenAt_iff
      attemptedHours := h.attempted.countOnes hinside
      seenHours := h.seen.countOnes fun t ht => hinside t (h.within.seen ht)
      lastSeenHour := h.lastSeenHour_iff
      longestGapHours := h.longestGapHours_eq }

/-! ### Several rings as one -/

theorem getLsbD_bitsWhere (p : ℕ → Bool) (i : ℕ) : ∀ (hours : List ℕ) (bits : BitVec 704),
    (hours.foldl (fun bits hour => if p hour then bits ||| bit hour else bits) bits).getLsbD i = true ↔
      bits.getLsbD i = true ∨ ∃ hour ∈ hours, p hour = true ∧ hour % windowHours = i
  | [], bits => by simp
  | hour :: hours, bits => by
    rw [List.foldl_cons, getLsbD_bitsWhere p i hours]
    by_cases hp : p hour = true
    · rw [if_pos hp, getLsbD_set, or_assoc]
      simp [hp]
    · rw [if_neg hp]
      simp [hp]

theorem holds_bitsWhere {p : ℕ → Bool} {hours : List ℕ}
    (hs : ∀ t, t ∈ s ↔ t ∈ hours ∧ p t = true) : Holds (bitsWhere p hours) s := by
  intro i
  rw [bitsWhere, getLsbD_bitsWhere]
  simp only [hs, and_assoc]
  simp

theorem mem_foldr_union {α : Type*} (f : α → Finset ℕ) (t : ℕ) : ∀ rs : List α,
    t ∈ rs.foldr (fun r s => f r ∪ s) ∅ ↔ ∃ r ∈ rs, t ∈ f r
  | [] => by simp
  | r :: rs => by simp [mem_foldr_union f t rs]

variable {rs : List Record} {us : List Uptime}

theorem any_iff_of_forall₂ (h : List.Forall₂ Shows us rs)
    {p : Uptime → Bool} {q : Record → Prop} (hpq : ∀ u r, Shows u r → (p u = true ↔ q r)) :
    us.any p = true ↔ ∃ r ∈ rs, q r := by
  induction h with
  | nil => simp
  | cons hu _ ih => simp [List.any_cons, ih, hpq _ _ hu]

theorem map_eq_of_forall₂ (h : List.Forall₂ Shows us rs)
    {f : Uptime → ℕ} {g : Record → ℕ} (hfg : ∀ u r, Shows u r → f u = g r) : us.map f = rs.map g := by
  induction h with
  | nil => rfl
  | cons hu _ ih => rw [List.map_cons, List.map_cons, ih, hfg _ _ hu]

theorem within_of_forall₂ (h : List.Forall₂ Shows us rs) :
    ∀ r ∈ rs, r.Within windowHours := by
  induction h with
  | nil => exact fun _ h => (List.not_mem_nil h).elim
  | cons hu _ ih => exact List.forall_mem_cons.mpr ⟨hu.within, ih⟩

/-- **The union of rings holds the union of their records.** -/
theorem Shows.union (h : List.Forall₂ Shows us rs) :
    Option.Rel Shows (Uptime.union us) (Record.union windowHours rs) := by
  have hwithin := within_of_forall₂ h
  unfold Uptime.union Record.union
  rw [map_eq_of_forall₂ h fun _ _ hu => hu.first, map_eq_of_forall₂ h fun _ _ hu => hu.last]
  cases hmin : (rs.map Record.first).min? with
  | none => exact .none
  | some first =>
    cases hmax : (rs.map Record.last).max? with
    | none => exact .none
    | some last =>
      obtain ⟨hfirst, hfirstLe⟩ := List.min?_eq_some_iff.mp hmin
      obtain ⟨-, hleLast⟩ := List.max?_eq_some_iff.mp hmax
      have hbounds : ∀ r ∈ rs, first ≤ r.first ∧ r.last ≤ last := fun r hr =>
        ⟨hfirstLe _ (List.mem_map_of_mem hr), hleLast _ (List.mem_map_of_mem hr)⟩
      have hstart : first ≤ last := by
        obtain ⟨r, hr, rfl⟩ := List.mem_map.mp hfirst
        exact (hwithin r hr).start.trans (hbounds r hr).2
      have hwindow : ∀ t, t ∈ window ⟨first, last, 0, 0⟩ ↔
          max (Record.oldest windowHours last) first ≤ t ∧ t ≤ last := fun t => mem_window
      -- a moment of one of the records that the joint window still holds is inside it
      have hinside : ∀ t, (∃ r ∈ rs, t ∈ r.attempted) → first ≤ t ∧ t ≤ last := by
        rintro t ⟨r, hr, ht⟩
        obtain ⟨-, hf, hl⟩ := (hwithin r hr).attempted t ht
        exact ⟨(hbounds r hr).1.trans hf, hl.trans (hbounds r hr).2⟩
      have hseen : ∀ t, (∃ r ∈ rs, t ∈ r.seen) → ∃ r ∈ rs, t ∈ r.attempted := fun t ⟨r, hr, ht⟩ =>
        ⟨r, hr, (hwithin r hr).seen ht⟩
      have hattempted :
        Holds (bitsWhere (fun hour => us.any (·.attemptedAt hour)) (window ⟨first, last, 0, 0⟩))
          (Record.recent windowHours last (rs.foldr (fun r s => r.attempted ∪ s) ∅)) := by
        refine holds_bitsWhere fun t => ?_
        rw [Record.mem_recent, mem_foldr_union, hwindow,
          any_iff_of_forall₂ h fun u r hu => hu.attemptedAt_iff t, max_le_iff]
        exact ⟨fun ⟨hr, hold⟩ => ⟨⟨⟨hold, (hinside t hr).1⟩, (hinside t hr).2⟩, hr⟩,
          fun ⟨⟨⟨hold, _⟩, _⟩, hr⟩ => ⟨hr, hold⟩⟩
      have hseen' : Holds (bitsWhere (fun hour => us.any (·.seenAt hour)) (window ⟨first, last, 0, 0⟩))
          (Record.recent windowHours last (rs.foldr (fun r s => r.seen ∪ s) ∅)) := by
        refine holds_bitsWhere fun t => ?_
        rw [Record.mem_recent, mem_foldr_union, hwindow,
          any_iff_of_forall₂ h fun u r hu => hu.seenAt_iff t, max_le_iff]
        exact ⟨fun ⟨hr, hold⟩ =>
            ⟨⟨⟨hold, (hinside t (hseen t hr)).1⟩, (hinside t (hseen t hr)).2⟩, hr⟩,
          fun ⟨⟨⟨hold, _⟩, _⟩, hr⟩ => ⟨hr, hold⟩⟩
      have hunion : Record.Within windowHours
          { first := first
            last := last
            attempted := Record.recent windowHours last (rs.foldr (fun r s => r.attempted ∪ s) ∅)
            seen := Record.recent windowHours last (rs.foldr (fun r s => r.seen ∪ s) ∅) } := by
        refine ⟨hstart, fun t ht => ?_, fun t ht => ?_⟩
        · obtain ⟨hmem, hold⟩ := Record.mem_recent.mp ht
          exact ⟨hold, hinside t ((mem_foldr_union _ t rs).mp hmem)⟩
        · obtain ⟨hmem, hold⟩ := Record.mem_recent.mp ht
          exact Record.mem_recent.mpr
            ⟨(mem_foldr_union _ t rs).mpr (hseen t ((mem_foldr_union _ t rs).mp hmem)), hold⟩
      exact .some (shows_mk hunion rfl rfl hattempted hseen')

/-! ### Whether anything changed -/

/-- Bringing a ring forward changes it exactly if the hour is a later one. -/
theorem forward_changed (u : Uptime) (hnow : u.lastHour ≤ hour) :
    (u.forward hour).1.lastHour = hour ∧ ((u.forward hour).2 = true ↔ hour ≠ u.lastHour) ∧
      (hour = u.lastHour → (u.forward hour).1 = u) := by
  unfold forward
  by_cases hjump : windowHours ≤ hour - u.lastHour
  · rw [if_pos hjump]
    have hne : hour ≠ u.lastHour := by
      unfold windowHours at hjump
      omega
    exact ⟨rfl, iff_of_true rfl hne, fun h => absurd h hne⟩
  · rw [if_neg hjump]
    by_cases heq : hour = u.lastHour
    · subst heq
      simp
    · dsimp only
      rw [if_neg heq]
      exact ⟨rfl, iff_of_true rfl heq, fun h => absurd h heq⟩

theorem or_bit_ne (h : ¬isSet bits hour = true) : bits ||| bit hour ≠ bits := by
  intro heq
  refine h ?_
  rw [isSet, ← heq]
  exact (getLsbD_set _ _ _).mpr (Or.inr rfl)

/-- **A note says whether the ring has changed.** -/
theorem note_changed_iff (u : Uptime) (hour : ℕ) (seen : Bool) :
    (u.note hour seen).2 = true ↔ (u.note hour seen).1 ≠ u := by
  unfold note
  by_cases hback : hour < u.lastHour
  · rw [if_pos hback]
    simp
  · obtain ⟨hlast, hchanged, hsame⟩ := u.forward_changed (not_lt.mp hback)
    rw [if_neg hback]
    rcases hf : u.forward hour with ⟨u', changed⟩
    rw [hf] at hlast hchanged hsame
    dsimp only at hlast hchanged hsame ⊢
    by_cases heq : hour = u.lastHour
    · -- the hour is the last one: only its two bits can change
      obtain rfl := hsame heq
      have hfalse : changed = false := by
        rw [← Bool.not_eq_true, hchanged]
        exact not_not.mpr heq
      by_cases hset : isSet u'.attempted hour = true
      · rw [if_pos hset]
        by_cases hs : seen = true ∧ ¬isSet u'.seen hour = true
        · rw [if_pos hs]
          exact iff_of_true rfl fun h => or_bit_ne hs.2 (congrArg Uptime.seen h)
        · rw [if_neg hs]
          exact iff_of_false (by simp [hfalse]) (by simp)
      · rw [if_neg hset]
        by_cases hs : seen = true ∧ ¬isSet u'.seen hour = true
        · rw [if_pos hs]
          exact iff_of_true rfl fun h => or_bit_ne hset (congrArg Uptime.attempted h)
        · rw [if_neg hs]
          exact iff_of_true rfl fun h => or_bit_ne hset (congrArg Uptime.attempted h)
    · -- the last hour moves
      have htrue : changed = true := hchanged.mpr heq
      subst htrue
      have hmoved : ∀ v : Uptime, v.lastHour = hour → v ≠ u := by
        rintro v hv rfl
        exact heq hv.symm
      by_cases hset : isSet u'.attempted hour = true
      · rw [if_pos hset]
        split_ifs
        · exact iff_of_true rfl (hmoved _ hlast)
        · exact iff_of_true rfl (hmoved _ hlast)
      · rw [if_neg hset]
        split_ifs
        · exact iff_of_true rfl (hmoved _ hlast)
        · exact iff_of_true rfl (hmoved _ hlast)

/-! ### Whole runs -/

/-- **An uptime ring is a sliding window of observations.** After any notes, in any order and
with jumps of any size, a ring answers as the record of the observations made since it last
started over; a further note says whether it has changed the ring; and the union of several
rings answers as the union of their records. -/
theorem sliding_window (start : ℕ) (notes : List (ℕ × Bool)) :
    Answers (run start notes) (Record.run windowHours start notes) ∧
    (∀ hour seen, ((run start notes).note hour seen).2 = true ↔
      ((run start notes).note hour seen).1 ≠ run start notes) ∧
    ∀ histories : List (ℕ × List (ℕ × Bool)),
      Option.Rel Answers (union (histories.map fun h => run h.1 h.2))
        (Record.union windowHours (histories.map fun h => Record.run windowHours h.1 h.2)) := by
  refine ⟨(shows_run start notes).answers, note_changed_iff _, fun histories => ?_⟩
  have hshows : List.Forall₂ Shows (histories.map fun h => run h.1 h.2)
      (histories.map fun h => Record.run windowHours h.1 h.2) := by
    rw [List.forall₂_map_left_iff, List.forall₂_map_right_iff]
    exact List.forall₂_same.mpr fun h _ => shows_run h.1 h.2
  have hunion := Shows.union hshows
  revert hunion
  generalize union (histories.map fun h => run h.1 h.2) = u
  generalize Record.union windowHours _ = r
  rintro (h | _)
  · exact .some h.answers
  · exact .none

end Uptime

end Itsanas
