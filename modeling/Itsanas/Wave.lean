/-
# A wave of deletions through the drive folder

`Deletions::allow` of `itsanas-drive/src/writes.rs`, as `keep_changes` asks it: deletions that
together are more than a few and more than half of what was there in the last hour are refused,
however slowly they come. What leaves the account is written down here change by change (`Toll`),
with what of it is lost: a file is kept if its content has another name in the account after the
change.

The loop does not ask about a rename. A rename copies each file before it removes it, unless the new
name is one that is not kept, and then it only removes: files renamed one by one to scratch names
are lost without limit (`renamed_away`). Where every rename gives the files it moves names that are
kept, and not names below the old one, the limit is one on all that is lost (`Wave.wave_stopped`).
-/
import Itsanas.Drive

namespace Itsanas
namespace Drive

open Walk

/-- The files that were in the account and are not any more. -/
def departed (before after : Account) : List Path := (known before).filter fun p => (after[p]?).isNone

/-- The files that are gone and whose content has no name any more. -/
def lost (before after : Account) : List Path :=
  (departed before after).filter fun p => (known after).all fun q => after[q]? ≠ before[p]?

/-- A change the loop applies, with the disk and the failures it meets. -/
structure Applied where
  change : Change
  now : ℕ
  disk : Disk
  refuses : Call → Bool

/-- What one change took from the account. -/
structure Toll where
  time : ℕ
  departed : List Path
  lost : List Path

/-- The loop, and what was taken from the account so far. -/
structure Wave where
  keeper : Keeper
  tolls : List Toll

/-- Every file a rename moves gets a name that is kept, and not one at or below the old one. -/
def KeepsNames (change : Change) (account : Account) : Prop :=
  match change with
  | .renamed origin destination => ∀ k ∈ known account, isOrUnder k origin = true →
      mayKeep (movedTo origin destination k) = true ∧
        isOrUnder (movedTo origin destination k) origin = false
  | _ => True

namespace Wave

def new (account : Account) : Wave := ⟨.new account, []⟩

/-- Apply one change. -/
def step (w : Wave) (a : Applied) : Wave :=
  let keeper := process a.disk a.refuses a.now w.keeper a.change
  ⟨keeper, w.tolls ++ [⟨a.now, departed w.keeper.account keeper.account,
    Drive.lost w.keeper.account keeper.account⟩]⟩

/-- Apply changes one after another. -/
def run (w : Wave) (changes : List Applied) : Wave := changes.foldl step w

/-- Every rename that is applied keeps names. -/
def KeepsNamesAlong (w : Wave) : List Applied → Prop
  | [] => True
  | a :: rest => KeepsNames a.change w.keeper.account ∧ (w.step a).KeepsNamesAlong rest

/-- Whether something happened within the last hour. -/
def recent (t time : ℕ) : Bool := t - time < deletionWindowSecs

/-- How many files were lost within the last hour. -/
def lostWithin (w : Wave) (t : ℕ) : ℕ :=
  ((w.tolls.filter fun r => recent t r.time).map fun r => r.lost.length).sum

/-- How many files the account held or gained within the last hour: those it has and those that
left. -/
def heldWithin (w : Wave) (t : ℕ) : ℕ :=
  (known w.keeper.account).length +
    ((w.tolls.filter fun r => recent t r.time).map fun r => r.departed.length).sum

end Wave

/-! ### What one change takes -/

theorem length_le_add_departed (before after : Account) :
    (known before).length ≤ (known after).length + (departed before after).length := by
  have hsub : known before ⊆ known after ++ departed before after := by
    intro p hp
    rw [List.mem_append, mem_known, departed, List.mem_filter]
    cases h : after[p]? with
    | none => exact .inr ⟨hp, rfl⟩
    | some b => exact .inl rfl
  have hle := ((nodup_known before).subperm hsub).length_le
  rwa [List.length_append] at hle

theorem length_lost_le (before after : Account) :
    (lost before after).length ≤ (departed before after).length :=
  List.length_filter_le _ _

theorem departed_eq_nil {before after : Account}
    (h : ∀ p : Path, (before[p]?).isSome → (after[p]?).isSome) :
    departed before after = [] := by
  refine List.filter_eq_nil_iff.mpr fun p hp => ?_
  rw [Option.isNone_iff_eq_none, ← Option.not_isSome_iff_eq_none, not_not]
  exact h p (mem_known.mp hp)

theorem departed_self (account : Account) :
    departed account account = [] := departed_eq_nil fun _ h => h

theorem lost_of_departed_nil {before after : Account} (h : departed before after = []) :
    lost before after = [] := by
  rw [lost, h]
  rfl

section Calls

variable {disk : Disk} {refuses : Call → Bool}

/-- A call takes no file but the one it removes. -/
theorem isSome_perform {account : Account} {call : Call} {p : Path} (hp : (account[p]?).isSome)
    (hne : call ≠ .remove p) : (((perform disk refuses account call).1)[p]?).isSome := by
  have hfile : ∀ (a : Account) (path : Path), (a[p]?).isSome →
      (((keepFile disk refuses a path).1)[p]?).isSome := by
    intro a path ha
    unfold keepFile
    split
    · exact ha
    · split_ifs
      · exact ha
      · rw [Table.getElem?_insert']
        split_ifs
        · rfl
        · exact ha
  cases call with
  | keep path =>
    rw [perform]
    split_ifs
    · exact walk_invariant _ (fun a => (a[p]?).isSome) _ (fun a path _ ha => hfile a path ha) hp
    · exact hfile account path hp
  | remove path =>
    have hpath : path ≠ p := fun h => hne (by rw [h])
    rw [perform]
    split_ifs
    · exact hp
    · rwa [Table.getElem?_erase_ne _ hpath]
    · exact hp
  | copy source target =>
    rw [perform]
    split
    · exact hp
    · split_ifs
      · exact hp
      · rw [Table.getElem?_insert']
        split_ifs
        · rfl
        · exact hp

/-- A change takes no file that it has no call to remove. -/
theorem isSome_apply (disk : Disk) (refuses : Call → Bool) (change : Change) {account : Account}
    {p : Path} (hp : (account[p]?).isSome)
    (hne : .remove p ∉ callsOf change (known account)) :
    (((apply disk refuses change account).1)[p]?).isSome :=
  walk_invariant _ (fun a => (a[p]?).isSome) _
    (fun _ _ hcall ha => isSome_perform ha fun h => hne (h ▸ hcall)) hp

theorem departed_written (path : Path) (account : Account) :
    departed account (apply disk refuses (.written path) account).1 = [] :=
  departed_eq_nil fun p hp => isSome_apply _ _ _ hp (by
    unfold callsOf
    dsimp only
    split_ifs <;> simp)

/-- A deletion takes no more than was asked about. -/
theorem length_departed_deleted (disk : Disk) (refuses : Call → Bool) (path : Path)
    (account : Account) :
    (departed account (apply disk refuses (.deleted path) account).1).length ≤
      deletedBy (.deleted path) (known account) := by
  rw [deletedBy, List.countP_eq_length_filter]
  refine (((nodup_known account).filter _).subperm fun p hp => ?_).length_le
  obtain ⟨hin, hgone⟩ := List.mem_filter.mp hp
  rw [List.mem_filter]
  refine ⟨hin, by_contra fun hnot => ?_⟩
  have hstays := isSome_apply disk refuses (.deleted path) (mem_known.mp hin) (by
    rw [callsOf, List.mem_map]
    rintro ⟨k, hk, heq⟩
    obtain rfl := Call.remove.inj heq
    exact hnot (List.mem_filter.mp hk).2)
  rw [Option.isNone_iff_eq_none.mp hgone] at hstays
  cases hstays

/-! ### Renames -/

theorem movedTo_injective {origin destination f g : Path} (hf : isOrUnder f origin = true)
    (hg : isOrUnder g origin = true)
    (h : movedTo origin destination f = movedTo origin destination g) :
    f = g := by
  have hstarts : ∀ {k : Path}, isOrUnder k origin = true → k = origin ++ k.drop origin.length := by
    intro k hk
    rcases isOrUnder_iff.mp hk with rfl | ⟨rest, rfl⟩
    · rw [List.drop_length, List.append_nil]
    · rw [List.drop_left]
  have hdrop : f.drop origin.length = g.drop origin.length := List.append_cancel_left h
  rw [hstarts hf, hstarts hg, hdrop]

/-- A file that is copied and then removed has its content under one of the two names, whatever
fails. -/
theorem copy_remove (disk : Disk) (refuses : Call → Bool) (account : Account) {f t : Path}
    (hne : t ≠ f) :
    (∀ q : Path, q ≠ f → q ≠ t →
      ((walk (perform disk refuses) account [.copy f t, .remove f]).1)[q]? = account[q]?) ∧
    ∀ bytes, account[f]? = some bytes →
      ((walk (perform disk refuses) account [.copy f t, .remove f]).1)[f]? = some bytes ∨
        ((walk (perform disk refuses) account [.copy f t, .remove f]).1)[t]? = some bytes := by
  cases hf : account[f]? with
  | none =>
    have hcopy : perform disk refuses account (.copy f t) = (account, some .notFound) := by
      rw [perform, hf]
    rw [walk_cons_error hcopy]
    exact ⟨fun _ _ _ => rfl, (by simp)⟩
  | some bytes =>
    by_cases hr : refuses (.copy f t) = true
    · have hcopy : perform disk refuses account (.copy f t) = (account, some .other) := by
        rw [perform, hf]
        exact if_pos hr
      rw [walk_cons_error hcopy]
      exact ⟨fun _ _ _ => rfl, fun b hb => .inl (hf.trans hb)⟩
    · have hcopy : perform disk refuses account (.copy f t) = (account.insert t bytes, none) := by
        rw [perform, hf]
        exact if_neg hr
      have hat : ∀ q : Path, q ≠ t → (account.insert t bytes)[q]? = account[q]? := fun q hq =>
        Table.getElem?_insert_ne account bytes hq.symm
      have hself : (account.insert t bytes)[t]? = some bytes :=
        Table.getElem?_insert_self' account t bytes
      rw [walk_cons_ok hcopy, walk_singleton, perform]
      split_ifs
      · exact ⟨fun q _ hq => hat q hq, fun b hb => .inr (hself.trans hb)⟩
      · refine ⟨fun q hqf hqt => ?_, fun b hb => .inr ?_⟩
        · rw [Table.getElem?_erase_ne _ hqf.symm, hat q hqt]
        · rw [Table.getElem?_erase_ne _ hne.symm, hself, hb]
      · exact ⟨fun q _ hq => hat q hq, fun b hb => .inr (hself.trans hb)⟩

variable {origin destination : Path}

/-- Files that are moved have their content under the old or the new name, whatever fails. -/
theorem walk_moveCalls (disk : Disk) (refuses : Call → Bool) (origin destination : Path) :
    ∀ (files : List Path) (account : Account), files.Nodup →
    (∀ f ∈ files, isOrUnder f origin = true ∧ mayKeep (movedTo origin destination f) = true ∧
      isOrUnder (movedTo origin destination f) origin = false) →
    (∀ f ∈ files, ∀ bytes, account[f]? = some bytes →
      ((walk (perform disk refuses) account (files.flatMap (moveCalls origin destination))).1)[f]? =
        some bytes ∨
      ((walk (perform disk refuses) account (files.flatMap (moveCalls origin destination))).1)[
        movedTo origin destination f]? = some bytes) ∧
    ∀ q : Path, q ∉ files → (∀ f ∈ files, q ≠ movedTo origin destination f) →
      ((walk (perform disk refuses) account (files.flatMap (moveCalls origin destination))).1)[q]? =
        account[q]?
  | [], account, _, _ => ⟨(by simp), fun _ _ _ => rfl⟩
  | f :: files, account, hnodup, h => by
    obtain ⟨hnot, hnodup⟩ := List.nodup_cons.mp hnodup
    obtain ⟨hunder, hkeep, hout⟩ := h f List.mem_cons_self
    have hrest := fun g hg => h g (List.mem_cons_of_mem f hg)
    -- the new names are not below the old one, so none of them is a file still to move
    have hne : ∀ g, isOrUnder g origin = true →
        ∀ k ∈ f :: files, g ≠ movedTo origin destination k := by
      intro g hg k hk heq
      rw [heq, (h k hk).2.2] at hg
      cases hg
    have hcalls : moveCalls origin destination f =
        [.copy f (movedTo origin destination f), .remove f] := by
      rw [moveCalls]
      exact if_pos hkeep
    obtain ⟨hframe, hone⟩ := copy_remove disk refuses account
      (hne f hunder f List.mem_cons_self).symm
    rw [List.flatMap_cons, hcalls, walk_append]
    rcases hw : walk (perform disk refuses) account
        [.copy f (movedTo origin destination f), .remove f] with
      ⟨account₁, _ | e⟩ <;> rw [hw] at hframe hone <;> dsimp only at hframe hone ⊢
    · obtain ⟨hmoved, hstays⟩ :=
        walk_moveCalls disk refuses origin destination files account₁ hnodup hrest
      refine ⟨fun g hg bytes hbytes => ?_, fun q hq hqt => ?_⟩
      · rcases List.mem_cons.mp hg with rfl | hg
        · have hold := hstays g hnot fun k hk => hne g hunder k (List.mem_cons_of_mem _ hk)
          have hnew := hstays (movedTo origin destination g)
            (fun hin => by rw [(hrest _ hin).1] at hout; cases hout)
            fun k hk heq => hnot (movedTo_injective hunder (hrest k hk).1 heq ▸ hk)
          rw [hold, hnew]
          exact hone bytes hbytes
        · refine hmoved g hg bytes ?_
          rw [hframe g (fun heq => hnot (heq ▸ hg)) (hne g (hrest g hg).1 f List.mem_cons_self)]
          exact hbytes
      · rw [hstays q (fun hin => hq (List.mem_cons_of_mem _ hin)) fun k hk =>
          hqt k (List.mem_cons_of_mem _ hk)]
        exact hframe q (fun heq => hq (heq ▸ List.mem_cons_self)) (hqt f List.mem_cons_self)
    · refine ⟨fun g hg bytes hbytes => ?_, fun q hq hqt => ?_⟩
      · rcases List.mem_cons.mp hg with rfl | hg
        · exact hone bytes hbytes
        · left
          rw [hframe g (fun heq => hnot (heq ▸ hg)) (hne g (hrest g hg).1 f List.mem_cons_self)]
          exact hbytes
      · exact hframe q (fun heq => hq (heq ▸ List.mem_cons_self)) (hqt f List.mem_cons_self)

/-- **A rename that keeps names loses nothing**, whatever fails on the way. -/
theorem lost_renamed (account : Account) (h : KeepsNames (.renamed origin destination) account) :
    lost account (apply disk refuses (.renamed origin destination) account).1 = [] := by
  set moved := (known account).filter fun k => isOrUnder k origin with hmoved
  by_cases hnil : moved = []
  · refine lost_of_departed_nil (departed_eq_nil fun p hp => isSome_apply _ _ _ hp ?_)
    rw [callsOf, ← hmoved, hnil]
    split_ifs <;> simp
  · have hempty : moved.isEmpty = false := by
      rw [← Bool.not_eq_true, List.isEmpty_iff]
      exact hnil
    have hcalls : callsOf (.renamed origin destination) (known account) =
        moved.flatMap (moveCalls origin destination) := by
      rw [callsOf, ← hmoved, hempty]
      rfl
    obtain ⟨hkept, -⟩ := walk_moveCalls disk refuses origin destination moved account
        ((nodup_known account).filter _) fun f hf =>
        ⟨(List.mem_filter.mp hf).2, h f (List.mem_filter.mp hf).1 (List.mem_filter.mp hf).2⟩
    rw [← hcalls] at hkept
    refine List.filter_eq_nil_iff.mpr fun p hp hall => ?_
    obtain ⟨hin, hgone⟩ := List.mem_filter.mp hp
    obtain ⟨bytes, hbytes⟩ := Option.isSome_iff_exists.mp (mem_known.mp hin)
    have hpm : p ∈ moved := by
      rw [hmoved, List.mem_filter]
      refine ⟨hin, by_contra fun hnot => ?_⟩
      have hstays := isSome_apply disk refuses (.renamed origin destination)
        (mem_known.mp hin) (by
          rw [hcalls, List.mem_flatMap]
          rintro ⟨k, hk, hcall⟩
          have hpk : p = k := by
            unfold moveCalls at hcall
            dsimp only at hcall
            split_ifs at hcall <;> simpa using hcall
          exact hnot (hpk ▸ (List.mem_filter.mp hk).2))
      rw [Option.isNone_iff_eq_none.mp hgone] at hstays
      cases hstays
    have hnew : ((apply disk refuses (.renamed origin destination) account).1)[
        movedTo origin destination p]? = some bytes := by
      rcases hkept p hpm bytes hbytes with hold | hnew
      · rw [Option.isNone_iff_eq_none] at hgone
        exact absurd (hgone.symm.trans hold) (by simp)
      · exact hnew
    have hknown := mem_known.mpr (Option.isSome_iff_exists.mpr ⟨bytes, hnew⟩)
    have hdiff := List.all_eq_true.mp hall _ hknown
    rw [hnew, hbytes] at hdiff
    simp at hdiff

end Calls

/-! ### One change -/

/-- The deletions noted within the last hour. -/
def Deletions.still (d : Deletions) (now : ℕ) : List ℕ := d.recent.filter (Wave.recent now)

/-- What the loop makes of one change: nothing is lost, or what goes was counted and let through. -/
inductive Outcome (k : Keeper) (now : ℕ) (k' : Keeper) : Prop
  | nothing (hnoted : k'.deletions = k.deletions ∨ k'.deletions.recent = k.deletions.still now)
      (hlost : lost k.account k'.account = [])
  | counted (count : ℕ) (hgone : (departed k.account k'.account).length ≤ count)
      (hnoted : k'.deletions.recent = k.deletions.still now ++ List.replicate count now)
      (hallowed : (k.deletions.still now).length + count ≤ Folder.deletionsAlwaysAllowed ∨
        (k.deletions.still now).length + 2 * count ≤ (known k.account).length)

theorem attempt_account (disk : Disk) (refuses : Call → Bool) (now : ℕ) (k : Keeper)
    (change : Change) :
    (attempt disk refuses now k change).account = (apply disk refuses change k.account).1 ∧
      (attempt disk refuses now k change).deletions = k.deletions := by
  unfold attempt
  rcases apply disk refuses change k.account with ⟨account, _ | error⟩
  · exact ⟨rfl, rfl⟩
  · dsimp only
    split_ifs <;> exact ⟨rfl, rfl⟩

/-- The guard refuses, or notes what it was asked about. -/
theorem allow_cases (d : Deletions) {count : ℕ} (known now : ℕ) (hcount : 0 < count) :
    d.allow count known now = (⟨d.still now⟩, false) ∨
      d.allow count known now = (⟨d.still now ++ List.replicate count now⟩, true) ∧
        ((d.still now).length + count ≤ Folder.deletionsAlwaysAllowed ∨
          (d.still now).length + 2 * count ≤ known) := by
  unfold Deletions.allow
  rw [if_neg hcount.ne']
  dsimp only
  split_ifs with h
  · exact .inl rfl
  · refine .inr ⟨rfl, ?_⟩
    have hlen : (d.recent.filter fun before => decide (now - before < deletionWindowSecs)).length =
        (d.still now).length := rfl
    rw [hlen] at h
    omega

theorem process_outcome (disk : Disk) (refuses : Call → Bool) (now : ℕ) (k : Keeper) (change : Change)
    (h : KeepsNames change k.account) : Outcome k now (process disk refuses now k change) := by
  have hattempt := attempt_account disk refuses now
  unfold process
  cases change with
  | written path =>
    have hallowed : goAhead k (.written path) now = (k.deletions, true) := rfl
    rw [hallowed]
    refine .nothing (.inl (hattempt _ _).2) (lost_of_departed_nil ?_)
    rw [(hattempt _ _).1]
    exact departed_written path k.account
  | renamed origin destination =>
    have hallowed : goAhead k (.renamed origin destination) now = (k.deletions, true) := rfl
    rw [hallowed]
    refine .nothing (.inl (hattempt _ _).2) ?_
    rw [(hattempt _ _).1]
    exact lost_renamed k.account h
  | deleted path =>
    have hallowed : goAhead k (.deleted path) now =
        k.deletions.allow (deletedBy (.deleted path) (known k.account)) (known k.account).length
          now := rfl
    have hgone := length_departed_deleted disk refuses path k.account
    rw [hallowed]
    rcases Nat.eq_zero_or_pos (deletedBy (.deleted path) (known k.account)) with hzero | hpos
    · rw [hzero, Deletions.allow, if_pos rfl]
      refine .nothing (.inl (hattempt _ _).2) (lost_of_departed_nil (List.length_eq_zero_iff.mp ?_))
      rw [(hattempt _ _).1]
      exact Nat.le_zero.mp (hzero ▸ hgone)
    · rcases allow_cases k.deletions (known k.account).length now hpos with hallow | ⟨hallow, hroom⟩
      · rw [hallow]
        exact .nothing (.inr rfl) (lost_of_departed_nil (departed_self _))
      · rw [hallow]
        refine .counted _ ?_ (congrArg Deletions.recent (hattempt _ _).2) hroom
        rw [(hattempt _ _).1]
        exact hgone

/-! ### All changes -/

namespace Wave

theorem recent_mono {t now time : ℕ} (hle : now ≤ t) (h : recent t time = true) :
    recent now time = true := by
  simp only [recent, decide_eq_true_eq] at h ⊢
  omega

/-- Forgetting what is older than an hour changes nothing for later. -/
theorem countP_still (d : Deletions) {now t : ℕ} (hle : now ≤ t) :
    (d.still now).countP (recent t) = d.recent.countP (recent t) := by
  rw [Deletions.still, List.countP_filter]
  refine List.countP_congr fun time _ => ?_
  simp only [Bool.and_eq_true, and_iff_left_iff_imp]
  exact recent_mono hle

theorem lostWithin_step (w : Wave) (a : Applied) (t : ℕ) : (w.step a).lostWithin t =
    w.lostWithin t +
      if recent t a.now then (lost w.keeper.account (w.step a).keeper.account).length else 0 := by
  unfold lostWithin step
  dsimp only
  rw [List.filter_append, List.map_append, List.sum_append]
  congr 1
  by_cases h : recent t a.now <;> simp [h]

theorem heldWithin_step (w : Wave) (a : Applied) (t : ℕ) : (w.step a).heldWithin t +
    (known w.keeper.account).length = w.heldWithin t + (known (w.step a).keeper.account).length +
      if recent t a.now then (departed w.keeper.account (w.step a).keeper.account).length else 0 := by
  have hsum : (((w.step a).tolls.filter fun r => recent t r.time).map fun r => r.departed.length).sum =
      ((w.tolls.filter fun r => recent t r.time).map fun r => r.departed.length).sum +
        if recent t a.now then (departed w.keeper.account
            (w.step a).keeper.account).length else 0 := by
    unfold step
    dsimp only
    rw [List.filter_append, List.map_append, List.sum_append]
    congr 1
    by_cases h : recent t a.now <;> simp [h]
  unfold heldWithin
  omega

/-- What holds of the loop at each moment: what was lost was noted, and is within the limit. -/
structure Inv (w : Wave) (clock : ℕ) : Prop where
  past : ∀ r ∈ w.tolls, r.time ≤ clock
  sized : ∀ r ∈ w.tolls, r.lost.length ≤ r.departed.length
  noted : ∀ t, clock ≤ t → w.lostWithin t ≤ w.keeper.deletions.recent.countP (recent t)
  limit : ∀ t, clock ≤ t →
    w.lostWithin t ≤ Folder.deletionsAlwaysAllowed ∨ 2 * w.lostWithin t ≤ w.heldWithin t

theorem Inv.new (account : Account) : (new account).Inv 0 :=
  ⟨nofun, nofun, fun _ _ => Nat.zero_le _, fun _ _ => .inl (Nat.zero_le _)⟩

/-- Nothing that was lost by then is within an hour of a moment that `now` is not within an hour
of. -/
theorem Inv.lostWithin_eq_zero {w : Wave} {clock now t : ℕ} (h : w.Inv clock) (hle : clock ≤ now)
    (hold : recent t now = false) : w.lostWithin t = 0 := by
  have hnone : (w.tolls.filter fun r => recent t r.time) = [] := by
    refine List.filter_eq_nil_iff.mpr fun r hr hrecent => ?_
    have hpast := h.past r hr
    simp only [recent, decide_eq_true_eq, decide_eq_false_iff_not] at hrecent hold
    omega
  rw [lostWithin, hnone]
  rfl

/-- One change more. -/
theorem Inv.step {w : Wave} {clock : ℕ} (h : w.Inv clock) {a : Applied} (hle : clock ≤ a.now)
    (hk : KeepsNames a.change w.keeper.account) : (w.step a).Inv a.now := by
  have hout := process_outcome a.disk a.refuses a.now w.keeper a.change hk
  have hkeeper : (w.step a).keeper = process a.disk a.refuses a.now w.keeper a.change := rfl
  rw [← hkeeper] at hout
  have hlost := w.lostWithin_step a
  have hheld := w.heldWithin_step a
  have hsplit := length_le_add_departed w.keeper.account (w.step a).keeper.account
  have hleft := length_lost_le w.keeper.account (w.step a).keeper.account
  refine ⟨fun r hr => ?_, fun r hr => ?_, fun t ht => ?_, fun t ht => ?_⟩
  · rcases List.mem_append.mp hr with hr | hr
    · exact (h.past r hr).trans hle
    · rw [List.mem_singleton.mp hr]
  · rcases List.mem_append.mp hr with hr | hr
    · exact h.sized r hr
    · rw [List.mem_singleton.mp hr]
      exact hleft
  · have hbefore := h.noted t (hle.trans ht)
    have hstill := countP_still w.keeper.deletions ht
    rw [hlost t]
    cases hout with
    | nothing hnoted hnone =>
      rw [hnone, List.length_nil, ite_self, Nat.add_zero]
      rcases hnoted with hsame | hsame
      · rwa [hsame]
      · rwa [hsame, hstill]
    | counted count hgone hnoted hallowed =>
      rw [hnoted, List.countP_append, hstill, List.countP_replicate]
      split_ifs <;> omega
  · have hbefore := h.limit t (hle.trans ht)
    have hheldt := hheld t
    rw [hlost t]
    cases hr : recent t a.now with
    | false =>
      rw [h.lostWithin_eq_zero hle hr]
      exact .inl (Nat.zero_le _)
    | true =>
      rw [hr] at hheldt
      simp only [if_true] at hheldt ⊢
      cases hout with
      | nothing hnoted hnone =>
        rw [hnone, List.length_nil]
        omega
      | counted count hgone hnoted hallowed =>
        -- what was lost before is noted, and the noted ones were counted twice by the guard
        have hprev : w.lostWithin t ≤ (w.keeper.deletions.still a.now).length := by
          have hcount := countP_still w.keeper.deletions ht
          have hnot := h.noted t (hle.trans ht)
          have hlen := List.countP_le_length (p := recent t) (l := w.keeper.deletions.still a.now)
          omega
        have hpast : w.lostWithin t ≤
            ((w.tolls.filter fun r => recent t r.time).map fun r => r.departed.length).sum :=
          List.sum_le_sum fun r hr => h.sized r (List.mem_of_mem_filter hr)
        unfold heldWithin at hheldt ⊢
        omega

theorem Inv.run {t : ℕ} : ∀ (changes : List Applied) {w : Wave} {clock : ℕ}, w.Inv clock → clock ≤ t →
    (∀ a ∈ changes, clock ≤ a.now ∧ a.now ≤ t) → changes.Pairwise (fun a b => a.now ≤ b.now) →
    w.KeepsNamesAlong changes → ∃ clock' ≤ t, (w.run changes).Inv clock'
  | [], _, clock, h, hle, _, _, _ => ⟨clock, hle, h⟩
  | a :: changes, w, clock, h, _, htimes, hordered, hnames => by
    obtain ⟨hfirst, hrest⟩ := List.pairwise_cons.mp hordered
    have ha := htimes a List.mem_cons_self
    exact Inv.run changes (h.step ha.1 hnames.1) ha.2
      (fun b hb => ⟨hfirst b hb, (htimes b (List.mem_cons_of_mem a hb)).2⟩) hrest hnames.2

/-- **A wave through the drive folder is stopped**, where every rename keeps names: of the files
held or gained within the last hour no more than a few, or half of them, were lost in that time. -/
theorem wave_stopped (account : Account) (changes : List Applied)
    (hordered : changes.Pairwise fun a b => a.now ≤ b.now)
    (hnames : (new account).KeepsNamesAlong changes) (t : ℕ) (ht : ∀ a ∈ changes, a.now ≤ t) :
    ((new account).run changes).lostWithin t ≤
      max Folder.deletionsAlwaysAllowed (((new account).run changes).heldWithin t / 2) := by
  obtain ⟨clock, hle, hinv⟩ := (Inv.new account).run changes (Nat.zero_le t)
    (fun a ha => ⟨Nat.zero_le _, ht a ha⟩) hordered hnames
  rcases hinv.limit t hle with hfew | hhalf
  · exact hfew.trans (le_max_left _ _)
  · exact le_max_of_le_right ((Nat.le_div_iff_mul_le two_pos).mpr (by omega))

/-! ### Renames to scratch names -/

/-- Six files of one byte each. -/
def sixFiles : Account :=
  .ofList (("abcdef".toList.zip [1, 2, 3, 4, 5, 6]).map fun r => ([r.1], [UInt8.ofNat r.2])) compare

/-- A change that meets no failure and does not read the disk. -/
def plain (change : Change) (now : ℕ) : Applied := ⟨change, now, ⟨∅, ∅⟩, fun _ => false⟩

/-- Each of the files gets a name that is not kept. -/
def toScratch : List Applied :=
  "abcdef".toList.map fun c => plain (.renamed [c] (c :: ".tmp".toList)) 100

/-- Six of six files are lost within a second, by renames. -/
theorem renamed_away : toScratch.Pairwise (fun a b => a.now ≤ b.now) ∧
    ((new sixFiles).run toScratch).keeper.account = ∅ ∧
    ((new sixFiles).run toScratch).heldWithin 100 = 6 ∧
      ((new sixFiles).run toScratch).lostWithin 100 = 6 ∧
    ¬((new sixFiles).run toScratch).lostWithin 100 ≤
      max Folder.deletionsAlwaysAllowed (((new sixFiles).run toScratch).heldWithin 100 / 2) := by
  decide +kernel

/-- A file is deleted, and then a rename gives another one a name that is kept. -/
def tidied : List Applied := [plain (.deleted ['a']) 100, plain (.renamed ['b'] ['x']) 101]

theorem wave_stopped_tidied : tidied.Pairwise (fun a b => a.now ≤ b.now) ∧
    (new sixFiles).KeepsNamesAlong tidied ∧ ((new sixFiles).run tidied).lostWithin 102 ≤
      max Folder.deletionsAlwaysAllowed (((new sixFiles).run tidied).heldWithin 102 / 2) := by
  have hnames : (new sixFiles).KeepsNamesAlong tidied := by
    refine ⟨trivial, ?_, trivial⟩
    show ∀ k ∈ known ((new sixFiles).step (plain (.deleted ['a']) 100)).keeper.account, _
    decide +kernel
  have hordered : tidied.Pairwise fun a b => a.now ≤ b.now := by decide +kernel
  exact ⟨hordered, hnames, wave_stopped sixFiles tidied hordered hnames 102 (by decide +kernel)⟩

end Wave

end Drive
end Itsanas
