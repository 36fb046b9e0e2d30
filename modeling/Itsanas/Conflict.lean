/-
# Where the losing version goes

Of two concurrent versions the loser moves to a name made from its path, its author and its
sequence number. Every device that sees the two computes the same name, whichever of them it had
first (`sibling_same`), and it is never the path itself. It is a path the store accepts exactly if
the marker still fits into the lengths a path may have (`validate_siblingPath`); where it does not,
the conflict cannot be resolved and applying the segment fails (`applyConflict_unplaced`).
-/
import Itsanas.Merge
import Itsanas.Naming

namespace Itsanas

variable {K : Crypto}

/-- What is put into the name of a losing version. -/
def conflictMarker (device : DeviceId) (sequence : ℕ) : Str :=
  "conflict-".toList ++ short device ++ '-' :: Nat.toDigits 10 sequence

theorem plain_conflictMarker {device : DeviceId} {sequence : ℕ} {c : Char}
    (h : c ∈ conflictMarker device sequence) :
    plainChar c = true := by
  rcases List.mem_append.mp h with h | h
  · rcases List.mem_append.mp h with h | h
    · have hall : "conflict-".toList.all plainChar = true := by decide +kernel
      exact List.all_eq_true.mp hall c h
    · obtain ⟨k, rfl⟩ := mem_short h
      exact plainChar_digitChar k
  · rcases List.mem_cons.mp h with rfl | h
    · decide
    · obtain ⟨k, rfl⟩ := mem_toDigits h
      exact plainChar_digitChar k

theorem length_conflictMarker (device : DeviceId) (sequence : ℕ) :
    (conflictMarker device sequence).length = 22 + (Nat.toDigits 10 sequence).length := by
  unfold conflictMarker
  rw [List.length_append, List.length_append, length_short, List.length_cons]
  show 9 + 12 + (_ + 1) = _
  omega

/-- The path and its last component have room for the marker of a version with this sequence
number: a dot, `conflict-`, twelve digits, a dash and the number. -/
def Fits (path : Path) (sequence : ℕ) : Prop :=
  utf8Len (nameOf path) + 23 + (Nat.toDigits 10 sequence).length ≤ maxComponentLen ∧
    utf8Len path + 23 + (Nat.toDigits 10 sequence).length ≤ maxPathLen

instance instDecidableFits (path : Path) (sequence : ℕ) : Decidable (Fits path sequence) :=
  inferInstanceAs (Decidable (_ ∧ _))

variable {path : Path}

/-- **The sibling of a path is a path if and only if it is not too long.** -/
theorem validate_siblingPath (hvalid : validate path = .ok ()) (device : DeviceId) (sequence : ℕ) :
    validate (siblingPath path device sequence) = .ok () ↔ Fits path sequence := by
  have hne : conflictMarker device sequence ≠ [] := fun h => by
    have hlength := length_conflictMarker device sequence
    rw [h] at hlength
    simp at hlength
    omega
  obtain ⟨hmarker, hlength⟩ := plainMarker_of_plain (fun c hc => plain_conflictMarker hc) hne
  have hmarkerLen : markerLen (conflictMarker device sequence) =
      23 + (Nat.toDigits 10 sequence).length := by
    rw [markerLen, hlength, length_conflictMarker]
    omega
  show validate (withMarker path (conflictMarker device sequence)) = .ok () ↔ _
  rw [validate_withMarker hmarker hvalid, hmarkerLen, Fits]
  simp only [Nat.add_assoc]

/-- Whichever of two versions a device has first, it finds the same loser and the same place. -/
theorem sibling_same (path : Path) {a b : FileEntry} (h : a.authorship ≠ b.authorship) :
    siblingOf path (loserOf a b) = siblingOf path (loserOf b a) := by
  unfold loserOf
  rcases winsOriginalPath_total h with hwins | hwins
  · rw [hwins, winsOriginalPath_asymm hwins]
    rfl
  · rw [hwins, winsOriginalPath_asymm hwins]
    rfl

/-- Where the loser's name is a path, a conflict fails only if its chunks cannot be had. -/
theorem applyConflict_placed (hvalid : validate path = .ok ()) {source : ChunkSource} {now : ℕ}
    {st : Store K} {n : ℕ} {remote present : FileEntry} {owner : UserId}
    (hplace : validate (siblingOf path (loserOf present remote)) = .ok ()) {error : SyncError}
    (h : (applyConflict source now st n path remote present owner).2.2 = .error error) :
    (gather source st n path remote false owner).2.2 = .error error := by
  unfold applyConflict Store.stat at h
  dsimp only at h
  rw [hplace] at h
  dsimp only at h
  by_cases hknown : (st.getFile (siblingOf path (loserOf present remote))).any
      (fun existing => existing.version.compare (loserOf present remote).version = .equal) = true
  · rw [if_pos hknown] at h
    cases h
  rw [if_neg hknown] at h
  rcases hgather : gather source st n path remote false owner with ⟨st₁, n₁, error' | _ | applied⟩
  all_goals
    rw [hgather] at h
    dsimp only at h
  · cases h
    rfl
  · -- everything is at hand, and both paths are accepted
    unfold loserOf at hplace h
    by_cases hwins : winsOriginalPath remote.authorship present.authorship = true
    · simp only [hwins, if_true] at hplace h
      simp only [Store.adoptEntry_ok hplace, Store.adoptEntry_ok hvalid] at h
      cases h
    · simp only [hwins, Bool.false_eq_true, if_false] at hplace h
      simp only [Store.adoptEntry_ok hplace] at h
      cases h
  · cases h

/-- A refused path is named in the refusal. -/
theorem validate_error {error : StoreError} (h : validate path = .error error) :
    ∃ reason, error = .invalidPath path reason := by
  unfold validate at h
  dsimp only at h
  split_ifs at h
  all_goals try exact ⟨_, (Except.error.inj h).symm⟩
  split at h
  · exact ⟨_, (Except.error.inj h).symm⟩
  · cases h

/-- Where the loser's name is too long, the conflict fails on that name. -/
theorem applyConflict_unplaced {source : ChunkSource} {now : ℕ} {st : Store K} {n : ℕ}
    {remote present : FileEntry} {owner : UserId}
    (hplace : validate (siblingOf path (loserOf present remote)) ≠ .ok ()) :
    ∃ reason, (applyConflict source now st n path remote present owner).2.2 =
      .error (.store (.invalidPath (siblingOf path (loserOf present remote)) reason)) := by
  cases hvalidate : validate (siblingOf path (loserOf present remote)) with
  | ok u => exact absurd hvalidate hplace
  | error error =>
    obtain ⟨reason, rfl⟩ := validate_error hvalidate
    refine ⟨reason, ?_⟩
    unfold applyConflict Store.stat
    dsimp only
    rw [hvalidate]

/-- **A conflict has somewhere to go exactly if the marker fits.** For a valid path: the sibling of
any version is beside the path, and every device finds the same one for the same two versions. It
is a valid path if and only if there is room for its marker; then the engine resolves the conflict
whenever the chunks can be had, and otherwise it fails on the name. -/
theorem conflict_has_place {path : Path} (hvalid : validate path = .ok ()) :
    (∀ device sequence, siblingPath path device sequence ≠ path ∧
      (validate (siblingPath path device sequence) = .ok () ↔ Fits path sequence)) ∧
    ∀ a b : FileEntry, a.authorship ≠ b.authorship →
      siblingOf path (loserOf a b) = siblingOf path (loserOf b a) ∧
      ∀ (K : Crypto) (source : ChunkSource) (now : ℕ) (st : Store K) (n : ℕ) (owner : UserId),
        (Fits path (loserOf a b).authorship.2 → ∀ error,
          (applyConflict source now st n path b a owner).2.2 = .error error →
            (gather source st n path b false owner).2.2 = .error error) ∧
        (¬Fits path (loserOf a b).authorship.2 → ∃ reason,
          (applyConflict source now st n path b a owner).2.2 =
            .error (.store (.invalidPath (siblingOf path (loserOf a b)) reason))) := by
  refine ⟨fun device sequence => ⟨siblingPath_ne path device sequence,
      validate_siblingPath hvalid device sequence⟩, fun a b hne =>
    ⟨sibling_same path hne, fun K source now st n owner => ?_⟩⟩
  have hplace : validate (siblingOf path (loserOf a b)) = .ok () ↔
      Fits path (loserOf a b).authorship.2 :=
    validate_siblingPath hvalid _ _
  rw [← hplace]
  exact ⟨fun hok error herror => applyConflict_placed hvalid hok herror, applyConflict_unplaced⟩

/-- A report of ordinary length, edited on two devices. -/
theorem conflict_has_place_report :
    validate "work/report.pdf".toList = .ok () ∧
      validate (siblingPath "work/report.pdf".toList 5 7) = .ok () := by
  have hvalid : validate "work/report.pdf".toList = .ok () := by decide +kernel
  exact ⟨hvalid, ((conflict_has_place hvalid).1 5 7).2.mpr (by decide +kernel)⟩

/-- **A name of 250 bytes is accepted, and its conflict has nowhere to go.** -/
theorem long_name_has_no_sibling :
    validate (List.replicate 250 'a') = .ok () ∧
      validate (siblingPath (List.replicate 250 'a') 5 7) =
        .error (.invalidPath (siblingPath (List.replicate 250 'a') 5 7)
          "component longer than MAX_COMPONENT_LEN") := by
  decide +kernel

end Itsanas
